import CapsuleScript.Token.Lexer
import Mathlib

/-! The patterns of the words of a program, as sets of texts. They say nothing about how a text is
read. Main statement: every match of a pattern is a run of blanks, a comment, a number, a quoted
text, a word or a sign, and its first character tells which, unless it is a slash. -/

namespace CapsuleScript

open Computability

/-- How a mark is written. -/
def Mark.spelling : Mark → String
  | plus => "+"
  | minus => "-"
  | star => "*"
  | slash => "/"
  | openParen => "("
  | closeParen => ")"
  | openBrace => "\x7b"
  | closeBrace => "\x7d"
  | openBracket => "["
  | closeBracket => "]"
  | comma => ","
  | colon => ":"
  | arrow => "->"
  | fatArrow => "=>"
  | equals => "="
  | equalEqual => "=="
  | bangEqual => "!="
  | lessEqual => "<="
  | greaterEqual => ">="
  | less => "<"
  | greater => ">"
  | bang => "!"

namespace Pattern

/-- One character of a set. -/
def one (s : Set Char) : Language Char := {w | ∃ c ∈ s, w = [c]}

/-- One text alone. -/
def exactly (s : String) : Language Char := {s.toList}

/-- Matches of a pattern, at least one, each right behind the one before. -/
def several (l : Language Char) : Language Char := l * l∗

def digits : Set Char := Set.Icc '0' '9'

def letters : Set Char := Set.Icc 'a' 'z' ∪ Set.Icc 'A' 'Z'

def blanks : Set Char := {' ', '\t', '\r', '\x0c'}

/-- Digits that a point and further digits may follow, or digits, an `e` and digits. -/
def number : Language Char :=
  several (one digits) * (1 + exactly "." * (one digits)∗) +
    several (one digits) * exactly "e" * several (one digits)

/-- Between the quotes of a text: a character but a quote or a backslash, or a backslash and a
character but a line break. -/
def quotable : Language Char := one {'"', '\\'}ᶜ + exactly "\\" * one {'\n'}ᶜ

def quoted : Language Char := exactly "\"" * quotable∗ * exactly "\""

/-- A letter, then letters, digits and underscores. -/
def word : Language Char := one letters * (one (letters ∪ digits ∪ {'_'}))∗

def blank : Language Char := several (one blanks)

/-- Two slashes and what follows them on their line. -/
def comment : Language Char := exactly "//" * (one {'\n'}ᶜ)∗

/-- What leaves no token. -/
def skipped : Language Char := blank + comment

end Pattern

open Pattern

/-- The pattern of the tokens that differ from this one in nothing but their values. -/
def Token.pattern : Token → Language Char
  | number _ => Pattern.number
  | text _ => quoted
  | name _ => word
  | keyword .andWord => exactly "and" + exactly "&"
  | keyword .orWord => exactly "or" + exactly "|"
  | keyword k => exactly k.spelling
  | mark sign => exactly sign.spelling
  | newline => exactly ";" + exactly "\n"
  | finish => 0

namespace Pattern

/-- Matches of the pattern of any token, and what leaves no token. -/
def any : Language Char := (⨆ token : Token, token.pattern) + skipped

variable {s : Set Char} {c : Char} {v w : List Char}

/-! ### Rows of characters -/

theorem mem_kstar_one : w ∈ (one s)∗ ↔ ∀ c ∈ w, c ∈ s := by
  constructor
  · rintro ⟨pieces, rfl, hpieces⟩ c hc
    obtain ⟨piece, hpiece, hc⟩ := List.mem_flatten.mp hc
    obtain ⟨d, hd, rfl⟩ := hpieces piece hpiece
    rw [List.mem_singleton.mp hc]
    exact hd
  · intro hw
    have hflat : (w.map fun c => [c]).flatten = w := by
      rw [← List.flatMap_def, List.flatMap_singleton']
    rw [← hflat]
    refine Language.join_mem_kstar fun piece hpiece => ?_
    obtain ⟨c, hc, rfl⟩ := List.mem_map.mp hpiece
    exact ⟨c, hw c hc, rfl⟩

theorem mem_one_mul {l : Language Char} :
    w ∈ one s * l ↔ ∃ c ∈ s, ∃ v ∈ l, w = c :: v := by
  rw [Language.mem_mul]
  constructor
  · rintro ⟨_, ⟨c, hc, rfl⟩, v, hv, rfl⟩
    exact ⟨c, hc, v, hv, rfl⟩
  · rintro ⟨c, hc, v, hv, rfl⟩
    exact ⟨[c], ⟨c, hc, rfl⟩, v, hv, rfl⟩

theorem cons_mem_one_mul {l : Language Char} : c :: v ∈ one s * l ↔ c ∈ s ∧ v ∈ l := by
  rw [mem_one_mul]
  constructor
  · rintro ⟨d, hd, u, hu, heq⟩
    obtain ⟨rfl, rfl⟩ := List.cons.inj heq
    exact ⟨hd, hu⟩
  · exact fun h => ⟨c, h.1, v, h.2, rfl⟩

theorem nil_not_mem_one_mul {l : Language Char} : [] ∉ one s * l := by
  rw [mem_one_mul]
  rintro ⟨d, -, u, -, heq⟩
  exact List.cons_ne_nil _ _ heq.symm

theorem cons_mem_several_one : c :: v ∈ several (one s) ↔ c ∈ s ∧ ∀ d ∈ v, d ∈ s := by
  rw [several, cons_mem_one_mul, mem_kstar_one]

theorem mem_exactly {t : String} : w ∈ exactly t ↔ w = t.toList := Iff.rfl

theorem mem_exactly_mul {t : String} {l : Language Char} :
    w ∈ exactly t * l ↔ ∃ v ∈ l, w = t.toList ++ v := by
  rw [Language.mem_mul]
  constructor
  · rintro ⟨_, rfl, v, hv, rfl⟩
    exact ⟨v, hv, rfl⟩
  · rintro ⟨v, hv, rfl⟩
    exact ⟨_, rfl, v, hv, rfl⟩

/-! ### Classes of characters -/

theorem mem_digits : c ∈ digits ↔ c.isDigit = true := by
  simp only [digits, Set.mem_Icc, Char.isDigit, Bool.and_eq_true, decide_eq_true_eq]
  exact Iff.rfl

theorem mem_letters : c ∈ letters ↔ c.isAlpha = true := by
  simp only [letters, Set.mem_union, Set.mem_Icc, Char.isAlpha, Char.isUpper, Char.isLower,
    Bool.or_eq_true, Bool.and_eq_true, decide_eq_true_eq]
  exact or_comm

theorem mem_blanks : c ∈ blanks ↔ Token.isBlank c = true := by
  simp only [blanks, Set.mem_insert_iff, Set.mem_singleton_iff, Token.isBlank, Bool.or_eq_true,
    decide_eq_true_eq, or_assoc]

theorem mem_wordChars : c ∈ letters ∪ digits ∪ {'_'} ↔ Token.isWordChar c = true := by
  simp only [Set.mem_union, mem_letters, mem_digits, Set.mem_singleton_iff, Token.isWordChar,
    Char.isAlphanum, Bool.or_eq_true, decide_eq_true_eq]

/-! ### Matches by their first characters -/

theorem cons_mem_blank :
    c :: v ∈ blank ↔ Token.isBlank c = true ∧ ∀ d ∈ v, Token.isBlank d = true := by
  simp only [blank, cons_mem_several_one, mem_blanks]

theorem mem_comment : w ∈ comment ↔ ∃ u, w = '/' :: '/' :: u ∧ ∀ d ∈ u, d ≠ '\n' := by
  rw [comment, mem_exactly_mul]
  constructor
  · rintro ⟨u, hu, rfl⟩
    exact ⟨u, rfl, mem_kstar_one.mp hu⟩
  · rintro ⟨u, rfl, hu⟩
    exact ⟨u, mem_kstar_one.mpr hu, rfl⟩

theorem cons_mem_word :
    c :: v ∈ word ↔ c.isAlpha = true ∧ ∀ d ∈ v, Token.isWordChar d = true := by
  simp only [word, cons_mem_one_mul, mem_kstar_one, mem_letters, mem_wordChars]

/-- What may follow the first digit of a number. -/
def numberRest : Language Char :=
  (one digits)∗ * (1 + exactly "." * (one digits)∗ + exactly "e" * several (one digits))

theorem number_eq : number = one digits * numberRest := by
  simp only [number, numberRest, several, mul_add, mul_assoc, mul_one, add_assoc]

theorem cons_mem_number : c :: v ∈ number ↔ c.isDigit = true ∧ v ∈ numberRest := by
  rw [number_eq, cons_mem_one_mul, mem_digits]

/-- What follows the opening quote of a text. -/
def closing : Language Char := quotable∗ * exactly "\""

theorem mem_quoted : w ∈ quoted ↔ ∃ v ∈ closing, w = '"' :: v := by
  rw [quoted, mul_assoc, ← closing, mem_exactly_mul]
  exact Iff.rfl

/-! ### All matches -/

/-- What the table of symbols lists. -/
def signs : Language Char := {w | ∃ token, (w, token) ∈ Token.symbols}

theorem spelling_mem_word (k : Keyword) : k.spelling.toList ∈ word := by
  cases k <;> exact cons_mem_word.mpr ⟨rfl, List.all_eq_true.mp rfl⟩

theorem spelling_mem_symbols (m : Mark) : (m.spelling.toList, Token.mark m) ∈ Token.symbols := by
  cases m <;> simp [Mark.spelling, Token.symbols]

theorem mem_pattern_of_mem_symbols : ∀ sign ∈ Token.symbols, sign.1 ∈ sign.2.pattern := by
  simp only [Token.symbols, List.forall_mem_cons]
  and_intros
  all_goals first
    | exact rfl
    | exact Or.inl rfl
    | exact Or.inr rfl
    | exact List.forall_mem_nil _

/-- A match of the pattern of a token is a number, a word, a quoted text or a sign. -/
theorem mem_pattern_cases {token : Token} (h : w ∈ token.pattern) :
    w ∈ number ∨ w ∈ word ∨ w ∈ quoted ∨ w ∈ signs := by
  have hsign : ∀ other, (w, other) ∈ Token.symbols →
      w ∈ number ∨ w ∈ word ∨ w ∈ quoted ∨ w ∈ signs :=
    fun other hother => .inr (.inr (.inr ⟨other, hother⟩))
  cases token with
  | number value => exact .inl h
  | text value => exact .inr (.inr (.inl h))
  | name value => exact .inr (.inl h)
  | keyword k =>
      have hspelled : w = k.spelling.toList ∨ (w, Token.keyword k) ∈ Token.symbols := by
        cases k
        case andWord =>
          exact h.imp id (by rintro rfl; simp [Token.symbols])
        case orWord =>
          exact h.imp id (by rintro rfl; simp [Token.symbols])
        all_goals exact .inl h
      rcases hspelled with rfl | hmem
      · exact .inr (.inl (spelling_mem_word k))
      · exact hsign _ hmem
  | mark m =>
      obtain rfl := mem_exactly.mp h
      exact hsign _ (spelling_mem_symbols m)
  | newline =>
      refine hsign .newline ?_
      rcases h with rfl | rfl <;> simp [Token.symbols]
  | finish => exact absurd h (Language.notMem_zero w)

theorem mem_any_of_mem_pattern {token : Token} (h : w ∈ token.pattern) : w ∈ any :=
  Or.inl (Language.mem_iSup.mpr ⟨token, h⟩)

theorem mem_any_of_mem_skipped (h : w ∈ skipped) : w ∈ any := Or.inr h

/-- Every match of a pattern is of one of six kinds. -/
theorem mem_any_cases (h : w ∈ any) :
    w ∈ blank ∨ w ∈ comment ∨ w ∈ number ∨ w ∈ word ∨ w ∈ quoted ∨ w ∈ signs := by
  rcases h with h | h | h
  · obtain ⟨token, h⟩ := Language.mem_iSup.mp h
    exact .inr (.inr (mem_pattern_cases h))
  · exact .inl h
  · exact .inr (.inl h)

theorem nil_not_mem_any : [] ∉ any := by
  intro h
  rcases mem_any_cases h with h | h | h | h | h | ⟨token, h⟩
  · exact nil_not_mem_one_mul h
  · obtain ⟨u, hu, -⟩ := mem_comment.mp h
    exact List.cons_ne_nil _ _ hu.symm
  · rw [number_eq] at h
    exact nil_not_mem_one_mul h
  · exact nil_not_mem_one_mul h
  · obtain ⟨u, -, hu⟩ := mem_quoted.mp h
    exact List.cons_ne_nil _ _ hu.symm
  · simp [Token.symbols] at h

/-! ### What the first character tells -/

theorem isBlank_cases (hc : Token.isBlank c = true) : c.isDigit = false ∧ c.isAlpha = false := by
  have hblank : c ∈ blanks := mem_blanks.mpr hc
  rcases hblank with rfl | rfl | rfl | rfl <;> decide

theorem isAlpha_eq_false_of_isDigit (hc : c.isDigit = true) : c.isAlpha = false := by
  simp only [Char.isDigit, Bool.and_eq_true, decide_eq_true_eq, ge_iff_le, UInt32.le_iff_toNat_le]
    at hc
  have h9 : '9'.val.toNat = 57 := rfl
  have hA : 'A'.val.toNat = 65 := rfl
  have ha : 'a'.val.toNat = 97 := rfl
  simp only [Char.isAlpha, Char.isUpper, Char.isLower, Bool.or_eq_false_iff, Bool.and_eq_false_iff,
    decide_eq_false_iff_not, ge_iff_le, UInt32.le_iff_toNat_le]
  omega

/-- Signs begin neither with a blank nor with a digit, a letter or a quote. -/
theorem head_of_mem_symbols {token : Token} (h : (c :: v, token) ∈ Token.symbols) :
    Token.isBlank c = false ∧ c.isDigit = false ∧ c.isAlpha = false ∧ c ≠ '"' := by
  have hall : Token.symbols.all (fun sign => sign.1.head?.all fun c =>
      !Token.isBlank c && !c.isDigit && !c.isAlpha && c != '"') = true := rfl
  have hhead := List.all_eq_true.mp hall _ h
  simpa [and_assoc] using hhead

/-- The kinds of matches, as far as the first character tells them apart. -/
inductive Lead where
  | blank
  | digit
  | letter
  | quote
  | sign

def lead (c : Char) : Lead :=
  if Token.isBlank c then .blank
  else if c.isDigit then .digit
  else if c.isAlpha then .letter
  else if c = '"' then .quote
  else .sign

/-- The matches of a kind. -/
def Lead.matching : Lead → Language Char
  | blank => Pattern.blank
  | digit => number
  | letter => word
  | quote => quoted
  | sign => comment + signs

/-- The first character of a match tells its kind. -/
theorem mem_matching_lead (h : c :: v ∈ any) : c :: v ∈ (lead c).matching := by
  rcases mem_any_cases h with h | h | h | h | h | ⟨token, hsign⟩
  · have hlead : lead c = .blank := by simp [lead, (cons_mem_blank.mp h).1]
    rw [hlead]
    exact h
  · obtain ⟨u, hu, -⟩ := mem_comment.mp h
    obtain ⟨rfl, -⟩ := List.cons.inj hu
    exact Or.inl h
  · obtain ⟨hdigit, -⟩ := cons_mem_number.mp h
    have hblank : ¬ Token.isBlank c = true := fun hc => by
      simp [(isBlank_cases hc).1] at hdigit
    have hlead : lead c = .digit := by simp [lead, hblank, hdigit]
    rw [hlead]
    exact h
  · obtain ⟨halpha, -⟩ := cons_mem_word.mp h
    have hblank : ¬ Token.isBlank c = true := fun hc => by
      simp [(isBlank_cases hc).2] at halpha
    have hdigit : ¬ c.isDigit = true := fun hc => by
      simp [isAlpha_eq_false_of_isDigit hc] at halpha
    have hlead : lead c = .letter := by simp [lead, hblank, hdigit, halpha]
    rw [hlead]
    exact h
  · obtain ⟨u, -, hu⟩ := mem_quoted.mp h
    obtain ⟨rfl, -⟩ := List.cons.inj hu
    exact h
  · obtain ⟨hblank, hdigit, halpha, hquote⟩ := head_of_mem_symbols hsign
    have hlead : lead c = .sign := by simp [lead, hblank, hdigit, halpha, hquote]
    rw [hlead]
    exact Or.inr ⟨token, hsign⟩

end Pattern

end CapsuleScript
