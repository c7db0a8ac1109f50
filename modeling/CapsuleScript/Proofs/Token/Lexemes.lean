import CapsuleScript.Proofs.Token.Joining

/-! Writing tokens down and reading them again. Keywords, signs, names, numbers and quoted texts are
written with single spaces between them. Between a space and the next one the longest match is what
was written: no pattern goes on over a space but that of a quoted text, and there the quote that was
put at the end is the first that no backslash takes out of its role. Main statement: the text is cut
into the tokens that were written, and quoted texts keep their content. -/

namespace CapsuleScript

open Pattern

variable {c : Char} {rest tail : List Char}

/-- What is written for one token. -/
inductive Lexeme where
  | keyword (word : Keyword)
  | mark (sign : Mark)
  /-- The sign for `and`. -/
  | ampersand
  /-- The sign for `or`. -/
  | bar
  | semicolon
  | lineBreak
  | name (word : String) (hword : word.toList ∈ Pattern.word)
      (hname : ∀ k : Keyword, word ≠ k.spelling)
  | number (digits : String) (hdigits : digits.toList ∈ Pattern.number)
  | quoted (content : String)

/-- A text with a backslash before each backslash and each quote. -/
def Quoted.guarded (content : List Char) : List Char :=
  content.flatMap fun c => if c = '"' ∨ c = '\\' then ['\\', c] else [c]

namespace Lexeme

/-- How the token is written. -/
def spelled : Lexeme → String
  | keyword word => word.spelling
  | mark sign => sign.spelling
  | ampersand => "&"
  | bar => "|"
  | semicolon => ";"
  | lineBreak => "\n"
  | name word _ _ => word
  | number digits _ => digits
  | quoted content => String.ofList ('"' :: (Quoted.guarded content.toList ++ ['"']))

/-- The token that is written, if the digits of a number stand for one. -/
def token? : Lexeme → Option Token
  | keyword word => some (.keyword word)
  | mark sign => some (.mark sign)
  | ampersand => some (.keyword .andWord)
  | bar => some (.keyword .orWord)
  | semicolon => some .newline
  | lineBreak => some .newline
  | name word _ _ => some (.name word)
  | number digits _ => (Number.ofChars? digits.toList).map .number
  | quoted content => some (.text content)

end Lexeme

/-- The text is empty or starts with a space. -/
def Spaced (tail : List Char) : Prop := ∀ c ∈ tail.head?, c = ' '

theorem Spaced.head? {p : Char → Bool} (htail : Spaced tail) (hp : p ' ' = false) :
    ∀ c ∈ tail.head?, p c = false := by
  intro c hc
  rw [htail c hc]
  exact hp

/-! ### Quoted texts -/

namespace Quoted

/-- The quote behind a guarded text is the one that ends it. -/
theorem read_guarded (content tail : List Char) :
    read (guarded content ++ '"' :: tail) = .closed content ((guarded content).length + 1) := by
  induction content with
  | nil => rfl
  | cons c content ih =>
      by_cases hc : c = '"' ∨ c = '\\'
      · have hcons : guarded (c :: content) = '\\' :: c :: guarded content := by
          rw [guarded, List.flatMap_cons, if_pos hc]
          rfl
        have hline : c ≠ '\n' := by
          rintro rfl
          simp at hc
        have hself : unescape c = c := by
          rcases hc with rfl | rfl <;> rfl
        rw [hcons, List.cons_append, List.cons_append, read, ih, Reading.push, hself,
          List.length_cons, List.length_cons]
        · congr 1
          omega
        · exact hline
      · have hcons : guarded (c :: content) = c :: guarded content := by
          rw [guarded, List.flatMap_cons, if_neg hc]
          rfl
        rw [not_or] at hc
        rw [hcons, List.cons_append, read_plain hc.1 hc.2, ih, Reading.push, List.length_cons]
        congr 1
        omega

end Quoted

namespace Token

/-! ### Words and numbers -/

theorem munch_word (hc : c.isAlpha = true) (hrest : ∀ d ∈ rest, isWordChar d = true)
    (htail : Spaced tail) :
    munch c (rest ++ tail) = .token (ofWord (String.ofList (c :: rest))) rest.length := by
  have hblank : ¬ isBlank c = true := fun h => by simp [(isBlank_cases h).2] at hc
  have hdigit : ¬ c.isDigit = true := fun h => by simp [isAlpha_eq_false_of_isDigit h] at hc
  have hslash : ¬ (c = '/' ∧ (rest ++ tail).head? = some '/') := by
    rintro ⟨rfl, -⟩
    cases hc
  have htake : (rest ++ tail).takeWhile isWordChar = rest := by
    rw [takeWhile_append_of_head? (htail.head? rfl), List.takeWhile_eq_self_iff.mpr hrest]
  rw [munch, if_neg hblank, if_neg hslash, if_neg hdigit, if_pos hc, htake]

/-- Digits, points and the mark of an exponent are no spaces. -/
theorem space_not_mem_of_mem_numberRest (hrest : rest ∈ numberRest) : ' ' ∉ rest := by
  have hdigits : ∀ {ds : List Char}, (∀ d ∈ ds, d.isDigit = true) → ' ' ∉ ds := by
    intro ds hds hspace
    exact absurd (hds ' ' hspace) (by decide)
  obtain ⟨ds, hds, rfl | ⟨es, hes, rfl⟩ | ⟨d, es, hd, hes, rfl⟩⟩ := mem_numberRest.mp hrest
  · exact hdigits hds
  · have hpoint : ' ' ≠ '.' := by decide
    simp [hdigits hds, hdigits hes, hpoint]
  · have hmark : ' ' ≠ 'e' := by decide
    have hfirst : ' ' ≠ d := by
      rintro rfl
      cases hd
    simp [hdigits hds, hdigits hes, hmark, hfirst]

/-- A number ends at a space. -/
theorem numberLength_spaced (hrest : rest ∈ numberRest) (htail : Spaced tail) :
    numberLength (rest ++ tail) = rest.length := by
  apply Nat.le_antisymm
  · by_contra hlt
    rw [Nat.not_le] at hlt
    have hmem := take_numberLength_mem (rest ++ tail)
    cases tail with
    | nil =>
        have hnone : BreaksOff [] := fun c hc => by cases hc
        have hle := (numberLength_append hnone rest).2
        rw [List.append_nil] at hlt
        omega
    | cons d tail =>
        obtain rfl : d = ' ' := htail d rfl
        obtain ⟨n, hn⟩ := Nat.exists_eq_add_of_lt hlt
        rw [hn, Nat.add_assoc, List.take_length_add_append, List.take_succ_cons] at hmem
        exact space_not_mem_of_mem_numberRest hmem (by simp)
  · exact length_le_numberLength (List.prefix_append rest tail) hrest

/-! ### One lexeme -/

theorem munch_number (hc : c.isDigit = true) (hrest : rest ∈ numberRest) (htail : Spaced tail) :
    ∃ value, Number.ofChars? (c :: rest) = some value ∧
      munch c (rest ++ tail) = .token (number value) rest.length := by
  have hblank : ¬ isBlank c = true := fun h => by simp [(isBlank_cases h).1] at hc
  have hslash : ¬ (c = '/' ∧ (rest ++ tail).head? = some '/') := by
    rintro ⟨rfl, -⟩
    cases hc
  obtain ⟨value, hvalue⟩ := Number.exists_ofChars? hc hrest
  refine ⟨value, hvalue, ?_⟩
  rw [munch, if_neg hblank, if_neg hslash, if_pos hc]
  simp only [numberLength_spaced hrest htail, List.take_left, hvalue]

theorem munch_of_closed {value : List Char} {length : Nat}
    (hread : Quoted.read rest = .closed value length) :
    munch '"' rest = .token (text (String.ofList value)) length := by
  have hblank : ¬ isBlank '"' = true := by decide
  have hslash : ¬ ('"' = '/' ∧ rest.head? = some '/') := fun h => absurd h.1 (by decide)
  have hdigit : ¬ '"'.isDigit = true := by decide
  have halpha : ¬ '"'.isAlpha = true := by decide
  rw [munch, if_neg hblank, if_neg hslash, if_neg hdigit, if_neg halpha, if_pos rfl, hread]

theorem munch_quoted (content : String) (tail : List Char) :
    munch '"' (Quoted.guarded content.toList ++ ['"'] ++ tail) =
      .token (text content) (Quoted.guarded content.toList ++ ['"']).length := by
  have hread := Quoted.read_guarded content.toList tail
  rw [List.append_assoc, List.singleton_append, munch_of_closed hread, String.ofList_toList,
    List.length_append, List.length_singleton]

/-- A word up to a space. -/
theorem munch_of_mem_word {w : String} (hw : w.toList ∈ word) (htail : Spaced tail) : ∃ c rest,
    w.toList = c :: rest ∧ munch c (rest ++ tail) = .token (ofWord w) rest.length := by
  cases h : w.toList with
  | nil =>
      rw [h] at hw
      exact absurd hw nil_not_mem_one_mul
  | cons c rest =>
      rw [h] at hw
      obtain ⟨hc, hrest⟩ := cons_mem_word.mp hw
      refine ⟨c, rest, rfl, ?_⟩
      rw [munch_word hc hrest htail, ← h, String.ofList_toList]

theorem ofWord_eq_name {w : String} (hw : ∀ k : Keyword, w ≠ k.spelling) : ofWord w = name w := by
  unfold ofWord
  cases h : Keyword.ofWord? w with
  | none => rfl
  | some k => exact absurd (Keyword.ofWord?_eq_some.mp h) (hw k)

/-- Between spaces the longest match is what was written. -/
theorem munch_spelled (lexeme : Lexeme) (htail : Spaced tail) : ∃ c rest token,
    lexeme.spelled.toList = c :: rest ∧ lexeme.token? = some token ∧
      munch c (rest ++ tail) = .token token rest.length := by
  have hcases : tail = [] ∨ ∃ more, tail = ' ' :: more := by
    cases tail with
    | nil => exact .inl rfl
    | cons d more =>
        obtain rfl : d = ' ' := htail d rfl
        exact .inr ⟨more, rfl⟩
  cases lexeme with
  | keyword k =>
      obtain ⟨c, rest, hspelled, hmunch⟩ := munch_of_mem_word (spelling_mem_word k) htail
      rw [ofWord_eq_keyword.mpr rfl] at hmunch
      exact ⟨c, rest, .keyword k, hspelled, rfl, hmunch⟩
  | name word hword hname =>
      obtain ⟨c, rest, hspelled, hmunch⟩ := munch_of_mem_word hword htail
      rw [ofWord_eq_name hname] at hmunch
      exact ⟨c, rest, .name word, hspelled, rfl, hmunch⟩
  | number digits hdigits =>
      rw [Lexeme.spelled, Lexeme.token?]
      cases h : digits.toList with
      | nil =>
          rw [h, number_eq] at hdigits
          exact absurd hdigits nil_not_mem_one_mul
      | cons c rest =>
          rw [h] at hdigits
          obtain ⟨hc, hrest⟩ := cons_mem_number.mp hdigits
          obtain ⟨value, hvalue, hmunch⟩ := munch_number hc hrest htail
          exact ⟨c, rest, .number value, rfl, by rw [hvalue]; rfl, hmunch⟩
  | quoted content =>
      exact ⟨'"', _, .text content, String.toList_ofList, rfl, munch_quoted content tail⟩
  | mark sign =>
      cases sign <;> refine ⟨_, _, _, rfl, rfl, ?_⟩ <;> rcases hcases with rfl | ⟨more, rfl⟩ <;> rfl
  | ampersand | bar | semicolon | lineBreak =>
      refine ⟨_, _, _, rfl, rfl, ?_⟩
      rcases hcases with rfl | ⟨more, rfl⟩ <;> rfl

/-! ### All lexemes -/

/-- One space before a token is skipped alone. -/
theorem munch_space {token : Token} {more : Nat} (h : munch c rest = .token token more) :
    munch ' ' (c :: rest) = .blank 0 := by
  have hblank : ¬ isBlank c = true := by
    intro hc
    rw [munch, if_pos hc] at h
    cases h
  have htake : (c :: rest).takeWhile isBlank = [] := List.takeWhile_cons_of_neg hblank
  have hspace : munch ' ' (c :: rest) = .blank ((c :: rest).takeWhile isBlank).length := rfl
  rw [hspace, htake]
  rfl

/-- Lexemes with a space before each. -/
def spaced (lexemes : List Lexeme) : List Char := lexemes.flatMap (' ' :: ·.spelled.toList)

theorem spaced_spaced (lexemes : List Lexeme) : Spaced (spaced lexemes) := by
  cases lexemes with
  | nil => exact fun c hc => by cases hc
  | cons lexeme lexemes => exact fun c hc => (Option.some.inj hc).symm

theorem toList_intercalate_spelled (lexeme : Lexeme) (lexemes : List Lexeme) :
    (" ".intercalate ((lexeme :: lexemes).map Lexeme.spelled)).toList =
      lexeme.spelled.toList ++ spaced lexemes := by
  rw [String.toList_intercalate, List.map_map]
  induction lexemes generalizing lexeme with
  | nil => simp [spaced]
  | cons next lexemes ih =>
      rw [List.map_cons, List.map_cons, List.intercalate_cons_cons, ← List.map_cons, ih next]
      simp [spaced]

/-- A lexeme is read up to the space behind it, if what follows is read. -/
theorem exists_readFrom_spelled (source : String) (p : Position) (lexeme : Lexeme)
    (htail : Spaced tail) : ∃ next, ∀ more, readFrom source next tail = .ok more → ∃ located,
      readFrom source p (lexeme.spelled.toList ++ tail) = .ok located ∧
        located.map (some ·.token) = lexeme.token? :: more.map (some ·.token) := by
  obtain ⟨c, rest, token, hspelled, htoken, hmunch⟩ := munch_spelled lexeme htail
  refine ⟨p.after (c :: rest), fun more hmore => ?_⟩
  refine ⟨⟨token, ⟨source, p, p.after (c :: rest)⟩⟩ :: more, ?_, ?_⟩
  · rw [hspelled, List.cons_append, readFrom, hmunch]
    simp only [List.take_left, List.drop_left]
    rw [hmore]
    rfl
  · rw [List.map_cons, htoken]

theorem readFrom_space (source : String) (p : Position) (lexeme : Lexeme) (htail : Spaced tail) :
    ∃ next, readFrom source p (' ' :: (lexeme.spelled.toList ++ tail)) =
      readFrom source next (lexeme.spelled.toList ++ tail) := by
  obtain ⟨c, rest, token, hspelled, -, hmunch⟩ := munch_spelled lexeme htail
  rw [hspelled, List.cons_append]
  refine ⟨p.after [' '], ?_⟩
  rw [readFrom, munch_space hmunch]
  rfl

/-- By induction on the lexemes. -/
theorem exists_readFrom_spaced (source : String) (p : Position) (lexeme : Lexeme)
    (lexemes : List Lexeme) : ∃ located,
    readFrom source p (lexeme.spelled.toList ++ spaced lexemes) = .ok located ∧
      located.map (some ·.token) = (lexeme :: lexemes).map Lexeme.token? ++ [some .finish] := by
  induction lexemes generalizing lexeme p with
  | nil =>
      obtain ⟨next, hread⟩ := exists_readFrom_spelled source p lexeme (spaced_spaced [])
      have hend : readFrom source next (spaced []) = .ok [⟨finish, ⟨source, next, next⟩⟩] := by
        rw [spaced, List.flatMap_nil, readFrom]
      exact hread _ hend
  | cons following lexemes ih =>
      obtain ⟨next, hread⟩ :=
        exists_readFrom_spelled source p lexeme (spaced_spaced (following :: lexemes))
      obtain ⟨after, hspace⟩ := readFrom_space source next following (spaced_spaced lexemes)
      obtain ⟨more, hmore, htokens⟩ := ih after following
      obtain ⟨located, hlocated, hall⟩ := hread more (hspace.trans hmore)
      refine ⟨located, hlocated, ?_⟩
      rw [hall, htokens]
      rfl

/-- Reading takes back what writing put down. Lexemes of any kinds with single spaces between them are
read as their tokens, in their order and followed by the end of the text: a quoted text is the text
whose backslashes and quotes were guarded, and a number is the one that its digits stand for. -/
theorem exists_readAll_spelled (source : String) (lexemes : List Lexeme) : ∃ located,
    readAll source (" ".intercalate (lexemes.map Lexeme.spelled)) = .ok located ∧
      located.map (some ·.token) = lexemes.map Lexeme.token? ++ [some .finish] := by
  cases lexemes with
  | nil =>
      refine ⟨[⟨finish, ⟨source, .origin, .origin⟩⟩], ?_, rfl⟩
      rw [readAll, String.toList_intercalate, List.map_nil, List.map_nil, List.intercalate_nil,
        readFrom]
  | cons lexeme lexemes =>
      rw [readAll, toList_intercalate_spelled]
      exact exists_readFrom_spaced source .origin lexeme lexemes

end Token

end CapsuleScript
