import CapsuleScript.Proofs.Token.Patterns

/-! The longest match at the head of a text. Main statement: the piece that is taken is a match of
the pattern of its token, or of a run of blanks or a comment, and no match there is longer; if none
is taken, there is no match there. -/

namespace CapsuleScript

open Computability Pattern

variable {c : Char} {v rest : List Char}

theorem length_le_takeWhile {p : Char → Bool} (hpre : v <+: rest) (hv : ∀ d ∈ v, p d = true) :
    v.length ≤ (rest.takeWhile p).length := by
  obtain ⟨u, rfl⟩ := hpre
  rw [List.takeWhile_append_of_pos hv, List.length_append]
  omega

theorem take_length_takeWhile (p : Char → Bool) (rest : List Char) :
    rest.take (rest.takeWhile p).length = rest.takeWhile p :=
  (List.prefix_iff_eq_take.mp (List.takeWhile_prefix p)).symm

/-! ### Numbers -/

/-- What may follow the first digit of a number, by its parts. -/
theorem Pattern.mem_numberRest : v ∈ numberRest ↔
    ∃ ds : List Char, (∀ d ∈ ds, d.isDigit = true) ∧ (v = ds ∨
      (∃ es : List Char, (∀ d ∈ es, d.isDigit = true) ∧ v = ds ++ '.' :: es) ∨
      ∃ d es, d.isDigit = true ∧ (∀ d ∈ es, d.isDigit = true) ∧ v = ds ++ 'e' :: d :: es) := by
  have hdigits : ∀ w : List Char, w ∈ (one digits)∗ ↔ ∀ d ∈ w, d.isDigit = true := fun w => by
    simp only [mem_kstar_one, mem_digits]
  rw [numberRest, Language.mem_mul]
  simp only [Language.mem_add, Language.mem_one, mem_exactly_mul, hdigits]
  constructor
  · rintro ⟨ds, hds, tail, (rfl | ⟨es, hes, rfl⟩) | ⟨es, hes, rfl⟩, rfl⟩
    · exact ⟨ds, hds, .inl (List.append_nil ds)⟩
    · exact ⟨ds, hds, .inr (.inl ⟨es, hes, rfl⟩)⟩
    · cases es with
      | nil => exact absurd hes nil_not_mem_one_mul
      | cons d es =>
          obtain ⟨hd, hes⟩ := cons_mem_several_one.mp hes
          exact ⟨ds, hds, .inr (.inr ⟨d, es, mem_digits.mp hd, fun d hd => mem_digits.mp (hes d hd),
            rfl⟩)⟩
  · rintro ⟨ds, hds, rfl | ⟨es, hes, rfl⟩ | ⟨d, es, hd, hes, rfl⟩⟩
    · exact ⟨v, hds, [], .inl (.inl rfl), List.append_nil v⟩
    · exact ⟨ds, hds, '.' :: es, .inl (.inr ⟨es, hes, rfl⟩), rfl⟩
    · refine ⟨ds, hds, 'e' :: d :: es, .inr ⟨d :: es, ?_, rfl⟩, rfl⟩
      exact cons_mem_several_one.mpr ⟨mem_digits.mpr hd, fun d hd => mem_digits.mpr (hes d hd)⟩

namespace Number

theorem takeDigits_append {ds tail : List Char} (hds : ∀ d ∈ ds, d.isDigit = true)
    (htail : ∀ d ∈ tail.head?, d.isDigit = false) : takeDigits (ds ++ tail) = (ds, tail) := by
  have hnil : tail.takeWhile Char.isDigit = [] ∧ tail.dropWhile Char.isDigit = tail := by
    cases tail with
    | nil => exact ⟨rfl, rfl⟩
    | cons d tail => simp [htail d rfl]
  rw [takeDigits, List.takeWhile_append_of_pos hds, List.dropWhile_append_of_pos hds, hnil.1,
    hnil.2, List.append_nil]

theorem takeDigits_self {ds : List Char} (hds : ∀ d ∈ ds, d.isDigit = true) :
    takeDigits ds = (ds, []) := by
  have htake : takeDigits (ds ++ []) = (ds, []) := takeDigits_append hds (by simp)
  rwa [List.append_nil] at htake

theorem exists_exponent? {d : Char} {es : List Char} (hd : d.isDigit = true)
    (hes : ∀ d ∈ es, d.isDigit = true) : ∃ e, exponent? ('e' :: d :: es) = some e := by
  simp only [exponent?, true_or, if_true]
  -- a digit is no sign
  split
  · rename_i heq
    rw [(List.cons.inj heq).1] at hd
    exact absurd hd (by decide)
  · rename_i heq
    rw [(List.cons.inj heq).1] at hd
    exact absurd hd (by decide)
  · simpa [hd] using hes

/-- What is written like a number is a decimal. -/
theorem exists_decimal? (hc : c.isDigit = true) (hv : v ∈ numberRest) :
    ∃ d, decimal? (c :: v) = some d := by
  obtain ⟨ds, hds, rfl | ⟨es, hes, rfl⟩ | ⟨d, es, hd, hes, rfl⟩⟩ := mem_numberRest.mp hv
  · have htake := takeDigits_self (List.forall_mem_cons.mpr ⟨hc, hds⟩)
    simp [decimal?, htake, exponent?]
  · have htake : takeDigits (c :: (ds ++ '.' :: es)) = (c :: ds, '.' :: es) :=
      takeDigits_append (List.forall_mem_cons.mpr ⟨hc, hds⟩) (by simp)
    simp [decimal?, htake, takeDigits_self hes, exponent?]
  · have htake : takeDigits (c :: (ds ++ 'e' :: d :: es)) = (c :: ds, 'e' :: d :: es) :=
      takeDigits_append (List.forall_mem_cons.mpr ⟨hc, hds⟩) (by simp)
    obtain ⟨e, he⟩ := exists_exponent? hd hes
    simp [decimal?, htake, he]

/-- What is written like a number stands for one. -/
theorem exists_ofChars? (hc : c.isDigit = true) (hv : v ∈ numberRest) :
    ∃ value, ofChars? (c :: v) = some value := by
  obtain ⟨d, hd⟩ := exists_decimal? hc hv
  have hmagnitude : ∃ bits, magnitude? (c :: v) = some bits := by
    unfold magnitude?
    dsimp only
    rw [hd]
    split
    · exact ⟨_, rfl⟩
    · split <;> exact ⟨_, rfl⟩
  obtain ⟨bits, hbits⟩ := hmagnitude
  unfold ofChars?
  split
  · rename_i heq
    rw [(List.cons.inj heq).1] at hc
    exact absurd hc (by decide)
  · rename_i heq
    rw [(List.cons.inj heq).1] at hc
    exact absurd hc (by decide)
  · rw [hbits]
    exact ⟨_, rfl⟩

end Number

namespace Token

theorem numberLength_point {ds es : List Char} (hds : ∀ d ∈ ds, d.isDigit = true) :
    numberLength (ds ++ '.' :: es) = ds.length + 1 + (es.takeWhile Char.isDigit).length := by
  unfold numberLength
  rw [Number.takeDigits_append hds (by simp)]
  rfl

theorem numberLength_exponent {ds es : List Char} {d : Char} (hds : ∀ d ∈ ds, d.isDigit = true)
    (hd : d.isDigit = true) :
    numberLength (ds ++ 'e' :: d :: es) = ds.length + 2 + (es.takeWhile Char.isDigit).length := by
  unfold numberLength
  rw [Number.takeDigits_append hds (by simp)]
  exact if_pos hd

theorem length_takeWhile_le_numberLength :
    (rest.takeWhile Char.isDigit).length ≤ numberLength rest := by
  unfold numberLength Number.takeDigits
  dsimp only
  split
  · omega
  · split <;> omega
  · exact Nat.le_refl _

theorem length_le_numberLength (hpre : v <+: rest) (hv : v ∈ numberRest) :
    v.length ≤ numberLength rest := by
  obtain ⟨ds, hds, rfl | ⟨es, hes, rfl⟩ | ⟨d, es, hd, hes, rfl⟩⟩ := mem_numberRest.mp hv
  · exact Nat.le_trans (length_le_takeWhile hpre hds) length_takeWhile_le_numberLength
  · obtain ⟨u, rfl⟩ := hpre
    rw [List.append_assoc, List.cons_append, numberLength_point hds, List.length_append,
      List.length_cons]
    have hle := length_le_takeWhile (List.prefix_append es u) hes
    omega
  · obtain ⟨u, rfl⟩ := hpre
    rw [List.append_assoc, List.cons_append, List.cons_append, numberLength_exponent hds hd,
      List.length_append, List.length_cons, List.length_cons]
    have hle := length_le_takeWhile (List.prefix_append es u) hes
    omega

theorem take_numberLength_mem (rest : List Char) : rest.take (numberLength rest) ∈ numberRest := by
  have hdigits : ∀ cs : List Char, ∀ d ∈ cs.takeWhile Char.isDigit, d.isDigit = true :=
    fun cs d hd => List.mem_takeWhile_imp hd
  have hsplit : ∀ n, rest.take ((rest.takeWhile Char.isDigit).length + n) =
      rest.takeWhile Char.isDigit ++ (rest.dropWhile Char.isDigit).take n := by
    intro n
    calc rest.take ((rest.takeWhile Char.isDigit).length + n)
        = (rest.takeWhile Char.isDigit ++ rest.dropWhile Char.isDigit).take
            ((rest.takeWhile Char.isDigit).length + n) := by rw [List.takeWhile_append_dropWhile]
      _ = rest.takeWhile Char.isDigit ++ (rest.dropWhile Char.isDigit).take n :=
          List.take_length_add_append n
  rw [mem_numberRest]
  unfold numberLength Number.takeDigits
  dsimp only
  split
  · rename_i es heq
    refine ⟨_, hdigits rest, .inr (.inl ⟨_, hdigits es, ?_⟩)⟩
    rw [Nat.add_assoc, hsplit, heq, Nat.add_comm 1, List.take_succ_cons, take_length_takeWhile]
  · rename_i d es heq
    split
    · rename_i hd
      refine ⟨_, hdigits rest, .inr (.inr ⟨d, _, hd, hdigits es, ?_⟩)⟩
      rw [Nat.add_assoc, hsplit, heq, Nat.add_comm 2, List.take_succ_cons, List.take_succ_cons,
        take_length_takeWhile]
    · exact ⟨_, hdigits rest, .inl (take_length_takeWhile _ rest)⟩
  · exact ⟨_, hdigits rest, .inl (take_length_takeWhile _ rest)⟩

end Token

/-! ### Quoted texts -/

theorem Pattern.closing_eq : closing = exactly "\"" + quotable * closing := by
  calc closing = (1 + quotable * quotable∗) * exactly "\"" := by
        rw [Language.one_add_self_mul_kstar_eq_kstar, closing]
    _ = exactly "\"" + quotable * closing := by rw [add_mul, one_mul, mul_assoc, closing]

theorem Pattern.mem_closing : v ∈ closing ↔ v = ['"'] ∨
    (∃ c u, (c ≠ '"' ∧ c ≠ '\\') ∧ u ∈ closing ∧ v = c :: u) ∨
    ∃ c u, c ≠ '\n' ∧ u ∈ closing ∧ v = '\\' :: c :: u := by
  conv_lhs => rw [closing_eq, quotable, add_mul, mul_assoc]
  simp only [Language.mem_add, mem_exactly, mem_one_mul, mem_exactly_mul]
  constructor
  · rintro (rfl | ⟨c, hc, u, hu, rfl⟩ | ⟨_, ⟨c, hc, u, hu, rfl⟩, rfl⟩)
    · exact .inl rfl
    · exact .inr (.inl ⟨c, u, by simpa using hc, hu, rfl⟩)
    · exact .inr (.inr ⟨c, u, hc, hu, rfl⟩)
  · rintro (rfl | ⟨c, u, hc, hu, rfl⟩ | ⟨c, u, hc, hu, rfl⟩)
    · exact .inl rfl
    · exact .inr (.inl ⟨c, by simpa using hc, u, hu, rfl⟩)
    · exact .inr (.inr ⟨c :: u, ⟨c, hc, u, hu, rfl⟩, rfl⟩)

theorem Pattern.nil_not_mem_closing : [] ∉ closing := by
  rw [mem_closing]
  simp

theorem Pattern.backslash_not_mem_closing : ['\\'] ∉ closing := by
  rw [mem_closing]
  simp

theorem Pattern.quote_mem_closing : '"' :: v ∈ closing ↔ v = [] := by
  rw [mem_closing]
  simp

theorem Pattern.escape_mem_closing : '\\' :: c :: v ∈ closing ↔ c ≠ '\n' ∧ v ∈ closing := by
  rw [mem_closing]
  simp

theorem Pattern.plain_mem_closing (hc : c ≠ '"' ∧ c ≠ '\\') : c :: v ∈ closing ↔ v ∈ closing := by
  rw [mem_closing]
  simp [hc]

namespace Quoted

/-- What the reading of a text behind an opening quote says about the text. -/
def Reading.Closes (text : List Char) : Reading → Prop
  | .closed _ length => text.take length ∈ closing ∧ ∀ v ∈ closing, v <+: text → v.length ≤ length
  | .unclosed _ => ∀ v ∈ closing, ¬ v <+: text

theorem Reading.Closes.push {r : Reading} (hr : r.Closes rest) (front : List Char)
    (hshort : ∀ v, v <+: front → v ∉ closing)
    (hfront : ∀ u, front ++ u ∈ closing ↔ u ∈ closing) :
    (r.push c front.length).Closes (front ++ rest) := by
  have hcut : ∀ v ∈ closing, v <+: front ++ rest → ∃ u ∈ closing, u <+: rest ∧ v = front ++ u := by
    intro v hv hpre
    rcases List.prefix_or_prefix_of_prefix hpre (List.prefix_append front rest) with hle | ⟨u, rfl⟩
    · exact absurd hv (hshort v hle)
    · exact ⟨u, (hfront u).mp hv, (List.prefix_append_right_inj front).mp hpre, rfl⟩
  cases r with
  | closed value length =>
      obtain ⟨hmem, hle⟩ := hr
      refine ⟨?_, fun v hv hpre => ?_⟩
      · rw [List.take_length_add_append]
        exact (hfront _).mpr hmem
      · obtain ⟨u, hu, hrest, rfl⟩ := hcut v hv hpre
        have hlength := hle u hu hrest
        rw [List.length_append]
        omega
  | unclosed length =>
      intro v hv hpre
      obtain ⟨u, hu, hrest, -⟩ := hcut v hv hpre
      exact hr u hu hrest

theorem closes_read (text : List Char) : (read text).Closes text := by
  fun_induction read text with
  | case1 =>
      intro v hv hpre
      rw [List.prefix_nil.mp hpre] at hv
      exact nil_not_mem_closing hv
  | case2 rest =>
      refine ⟨quote_mem_closing.mpr rfl, fun v hv hpre => ?_⟩
      rcases List.prefix_cons_iff.mp hpre with rfl | ⟨u, rfl, -⟩
      · exact Nat.zero_le 1
      · rw [quote_mem_closing.mp hv]
        rfl
  | case3 =>
      intro v hv hpre
      rcases List.prefix_cons_iff.mp hpre with rfl | ⟨u, rfl, hu⟩
      · exact nil_not_mem_closing hv
      · rw [List.prefix_nil.mp hu] at hv
        exact backslash_not_mem_closing hv
  | case4 rest =>
      intro v hv hpre
      rcases List.prefix_cons_iff.mp hpre with rfl | ⟨u, rfl, hu⟩
      · exact nil_not_mem_closing hv
      · rcases List.prefix_cons_iff.mp hu with rfl | ⟨u, rfl, -⟩
        · exact backslash_not_mem_closing hv
        · exact (escape_mem_closing.mp hv).1 rfl
  | case5 c rest hc ih =>
      refine ih.push ['\\', c] (fun v hpre hv => ?_) fun u => ?_
      · rcases List.prefix_cons_iff.mp hpre with rfl | ⟨u, rfl, hu⟩
        · exact nil_not_mem_closing hv
        · rcases List.prefix_cons_iff.mp hu with rfl | ⟨u, rfl, hnil⟩
          · exact backslash_not_mem_closing hv
          · rw [List.prefix_nil.mp hnil] at hv
            exact nil_not_mem_closing (escape_mem_closing.mp hv).2
      · exact escape_mem_closing.trans (and_iff_right hc)
  | case6 c rest hquote hend _ hescape ih =>
      have hplain : c ≠ '"' ∧ c ≠ '\\' := by
        refine ⟨hquote, fun hc => ?_⟩
        cases rest with
        | nil => exact hend hc rfl
        | cons d rest => exact hescape d rest hc rfl
      refine ih.push [c] (fun v hpre hv => ?_) fun u => plain_mem_closing hplain
      rcases List.prefix_cons_iff.mp hpre with rfl | ⟨u, rfl, hu⟩
      · exact nil_not_mem_closing hv
      · rw [List.prefix_nil.mp hu] at hv
        exact nil_not_mem_closing ((plain_mem_closing hplain).mp hv)

end Quoted

namespace Token

/-! ### Signs -/

/-- The first sign of the table that fits is the longest that fits. -/
theorem length_le_of_find? {spelling text : List Char} {value : Token}
    (hfind : symbols.find? (fun entry => entry.1.isPrefixOf text) = some (spelling, value))
    (hv : v ∈ signs) (hpre : v <+: text) : v.length ≤ spelling.length := by
  obtain ⟨-, before, after, heq, hbefore⟩ := List.find?_eq_some_iff_append.mp hfind
  obtain ⟨token, htoken⟩ := hv
  have hsorted : symbols.Pairwise fun a b => b.1.length ≤ a.1.length := by decide
  rw [heq] at htoken hsorted
  rcases List.mem_append.mp htoken with hmem | hmem
  · have hnot := hbefore _ hmem
    simp [List.isPrefixOf_iff_prefix.mpr hpre] at hnot
  · rcases List.mem_cons.mp hmem with hself | hmem
    · exact Nat.le_of_eq (congrArg (fun entry => entry.1.length) hself)
    · exact List.rel_of_pairwise_cons (List.pairwise_append.mp hsorted).2.1 hmem

end Token

/-! ### All pieces -/

/-- At the head of the text `slice ++ rest`, `slice` is a match of the pattern `l`, and no match of
any pattern is longer. -/
structure Pattern.Takes (l : Language Char) (slice rest : List Char) : Prop where
  mem : slice ∈ l
  longest : ∀ v ∈ any, v <+: slice ++ rest → v.length ≤ slice.length

theorem Pattern.Takes.of_cons {l : Language Char} {more : Nat} (hmem : c :: rest.take more ∈ l)
    (hle : ∀ v, c :: v ∈ any → v <+: rest → v.length ≤ more) :
    Takes l (c :: rest.take more) (rest.drop more) := by
  refine ⟨hmem, fun v hv hpre => ?_⟩
  rw [List.cons_append, List.take_append_drop] at hpre
  rcases List.prefix_cons_iff.mp hpre with rfl | ⟨u, rfl, hu⟩
  · exact Nat.zero_le _
  · have hmore := hle u hv hu
    have hrest := hu.length_le
    rw [List.length_cons, List.length_cons, List.length_take]
    omega

namespace Token

/-- What the piece at the head of the text `c :: rest` says about the text. A word is a keyword if
it is spelled like one. -/
def Piece.Heads (c : Char) (rest : List Char) : Piece → Prop
  | .token value more =>
      Takes value.pattern (c :: rest.take more) (rest.drop more) ∧
      (c :: rest.take more ∈ word → value = ofWord (String.ofList (c :: rest.take more)))
  | .blank more => Takes skipped (c :: rest.take more) (rest.drop more)
  | .illegal _ => ∀ v ∈ any, ¬ v <+: c :: rest

theorem heads_blank (hc : isBlank c = true) :
    (Piece.blank (rest.takeWhile isBlank).length).Heads c rest := by
  refine .of_cons (Or.inl (cons_mem_blank.mpr ⟨hc, ?_⟩)) fun v hv hpre => ?_
  · rw [take_length_takeWhile]
    exact fun d hd => List.mem_takeWhile_imp hd
  · have hlead : lead c = .blank := by simp [lead, hc]
    have hmem := mem_matching_lead hv
    rw [hlead] at hmem
    exact length_le_takeWhile hpre (cons_mem_blank.mp hmem).2

theorem heads_comment (hrest : rest.head? = some '/') :
    (Piece.blank (rest.takeWhile (· ≠ '\n')).length).Heads '/' rest := by
  obtain ⟨tail, rfl⟩ := List.head?_eq_some_iff.mp hrest
  refine .of_cons (Or.inr (mem_comment.mpr ⟨tail.takeWhile (· ≠ '\n'), ?_, fun d hd => ?_⟩))
    fun v hv hpre => ?_
  · rw [take_length_takeWhile, List.takeWhile_cons_of_pos (by decide)]
  · have hbefore := List.mem_takeWhile_imp hd
    exact of_decide_eq_true hbefore
  · rcases mem_matching_lead hv with hmem | ⟨token, hsign⟩
    · obtain ⟨u, heq, hu⟩ := mem_comment.mp hmem
      obtain ⟨-, rfl⟩ := List.cons.inj heq
      refine length_le_takeWhile hpre (List.forall_mem_cons.mpr ⟨by decide, fun d hd => ?_⟩)
      exact decide_eq_true (hu d hd)
    · obtain ⟨rfl, -⟩ : v = [] ∧ token = mark .slash := by simpa [symbols] using hsign
      exact Nat.zero_le _

theorem heads_number (hblank : ¬ isBlank c = true) (hc : c.isDigit = true) :
    ∃ value, Number.ofChars? (c :: rest.take (numberLength rest)) = some value ∧
      (Piece.token (number value) (numberLength rest)).Heads c rest := by
  obtain ⟨value, hvalue⟩ := Number.exists_ofChars? hc (take_numberLength_mem rest)
  refine ⟨value, hvalue, .of_cons (cons_mem_number.mpr ⟨hc, take_numberLength_mem rest⟩)
    fun v hv hpre => ?_, fun hword => ?_⟩
  · have hlead : lead c = .digit := by simp [lead, hblank, hc]
    have hmem := mem_matching_lead hv
    rw [hlead] at hmem
    exact length_le_numberLength hpre (cons_mem_number.mp hmem).2
  · have halpha := (cons_mem_word.mp hword).1
    rw [isAlpha_eq_false_of_isDigit hc] at halpha
    exact absurd halpha Bool.false_ne_true

theorem spelling_mem_pattern (k : Keyword) : k.spelling.toList ∈ (keyword k).pattern := by
  cases k
  case andWord => exact Or.inl rfl
  case orWord => exact Or.inl rfl
  all_goals exact rfl

theorem mem_pattern_ofWord {w : List Char} (hw : w ∈ word) :
    w ∈ (ofWord (String.ofList w)).pattern := by
  unfold ofWord
  split
  · rename_i k hk
    have hspelling : k.spelling = String.ofList w := by
      simpa using List.find?_some hk
    have hmem := spelling_mem_pattern k
    rwa [hspelling, String.toList_ofList] at hmem
  · exact hw

theorem heads_word (hblank : ¬ isBlank c = true) (hdigit : ¬ c.isDigit = true)
    (hc : c.isAlpha = true) :
    (Piece.token (ofWord (String.ofList (c :: rest.takeWhile isWordChar)))
      (rest.takeWhile isWordChar).length).Heads c rest := by
  have hword : c :: rest.takeWhile isWordChar ∈ word :=
    cons_mem_word.mpr ⟨hc, fun d hd => List.mem_takeWhile_imp hd⟩
  refine ⟨.of_cons ?_ fun v hv hpre => ?_, fun _ => ?_⟩
  · rw [take_length_takeWhile]
    exact mem_pattern_ofWord hword
  · have hlead : lead c = .letter := by simp [lead, hblank, hdigit, hc]
    have hmem := mem_matching_lead hv
    rw [hlead] at hmem
    exact length_le_takeWhile hpre (cons_mem_word.mp hmem).2
  · rw [take_length_takeWhile]

theorem mem_closing_of_quote (hv : '"' :: v ∈ any) : v ∈ closing := by
  obtain ⟨u, hu, heq⟩ := mem_quoted.mp (mem_matching_lead hv)
  obtain ⟨-, rfl⟩ := List.cons.inj heq
  exact hu

theorem heads_closed {value : List Char} {length : Nat}
    (hread : Quoted.read rest = .closed value length) :
    (Piece.token (text (String.ofList value)) length).Heads '"' rest := by
  have hcloses := Quoted.closes_read rest
  rw [hread] at hcloses
  refine ⟨.of_cons (mem_quoted.mpr ⟨_, hcloses.1, rfl⟩) fun v hv hpre => ?_, fun hword => ?_⟩
  · exact hcloses.2 v (mem_closing_of_quote hv) hpre
  · exact absurd (cons_mem_word.mp hword).1 (by decide)

theorem heads_unclosed {length : Nat} (hread : Quoted.read rest = .unclosed length) :
    (Piece.illegal length).Heads '"' rest := by
  have hcloses := Quoted.closes_read rest
  rw [hread] at hcloses
  intro v hv hpre
  rcases List.prefix_cons_iff.mp hpre with rfl | ⟨u, rfl, hu⟩
  · exact nil_not_mem_any hv
  · exact hcloses u (mem_closing_of_quote hv) hu

/-- Where no comment stands, only signs begin with a character that leads to nothing else. -/
theorem mem_signs_of_lead (hcomment : ¬ (c = '/' ∧ rest.head? = some '/')) (hlead : lead c = .sign)
    (hv : c :: v ∈ any) (hpre : v <+: rest) : c :: v ∈ signs := by
  have hmem := mem_matching_lead hv
  rw [hlead] at hmem
  refine hmem.resolve_left fun hmem => ?_
  obtain ⟨u, heq, -⟩ := mem_comment.mp hmem
  obtain ⟨rfl, rfl⟩ := List.cons.inj heq
  obtain ⟨tail, rfl⟩ := hpre
  exact hcomment ⟨rfl, rfl⟩

theorem heads_sign {spelling : List Char} {value : Token}
    (hfind : symbols.find? (fun entry => entry.1.isPrefixOf (c :: rest)) = some (spelling, value))
    (hcomment : ¬ (c = '/' ∧ rest.head? = some '/')) (hlead : lead c = .sign) :
    (Piece.token value (spelling.length - 1)).Heads c rest := by
  have hmem : (spelling, value) ∈ symbols := List.mem_of_find?_eq_some hfind
  have hpre : spelling <+: c :: rest := by simpa using List.find?_some hfind
  have hne : ∀ entry ∈ symbols, entry.1 ≠ [] := by decide
  rcases List.prefix_cons_iff.mp hpre with rfl | ⟨u, rfl, hu⟩
  · exact absurd rfl (hne _ hmem)
  · have htake : rest.take ((c :: u).length - 1) = u := (List.prefix_iff_eq_take.mp hu).symm
    refine ⟨.of_cons ?_ fun v hv hrest => ?_, fun hword => ?_⟩
    · rw [htake]
      exact mem_pattern_of_mem_symbols _ hmem
    · have hle := length_le_of_find? hfind (mem_signs_of_lead hcomment hlead hv hrest)
        ((List.prefix_cons_inj c).mpr hrest)
      simpa using hle
    · have halpha := (cons_mem_word.mp hword).1
      rw [(head_of_mem_symbols hmem).2.2.1] at halpha
      exact absurd halpha Bool.false_ne_true

theorem heads_nothing
    (hfind : symbols.find? (fun entry => entry.1.isPrefixOf (c :: rest)) = none)
    (hcomment : ¬ (c = '/' ∧ rest.head? = some '/')) (hlead : lead c = .sign) :
    (Piece.illegal 0).Heads c rest := by
  intro v hv hpre
  rcases List.prefix_cons_iff.mp hpre with rfl | ⟨u, rfl, hu⟩
  · exact nil_not_mem_any hv
  · obtain ⟨token, htoken⟩ := mem_signs_of_lead hcomment hlead hv hu
    exact List.find?_eq_none.mp hfind _ htoken (List.isPrefixOf_iff_prefix.mpr hpre)

/-- The piece that is taken is the longest match, and none is taken only where there is no match. -/
theorem heads_munch (c : Char) (rest : List Char) : (munch c rest).Heads c rest := by
  unfold munch
  split_ifs with hblank hcomment hdigit halpha hquote
  · exact heads_blank hblank
  · obtain ⟨rfl, hrest⟩ := hcomment
    exact heads_comment hrest
  · obtain ⟨value, hvalue, hheads⟩ := heads_number hblank hdigit
    dsimp only
    rw [hvalue]
    exact hheads
  · exact heads_word hblank hdigit halpha
  · subst hquote
    split
    · exact heads_closed (by assumption)
    · exact heads_unclosed (by assumption)
  · have hlead : lead c = .sign := by simp [lead, hblank, hdigit, halpha, hquote]
    split
    · exact heads_sign (by assumption) hcomment hlead
    · exact heads_nothing (by assumption) hcomment hlead

end Token

end CapsuleScript
