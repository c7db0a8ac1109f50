import CapsuleScript.Proofs.Token.Tiling

/-! Texts that stand on lines of their own. No piece of a text reaches over the end of the text into
the line that follows, so a text goes on being cut in the same way when something is written on the
next line. Main statement: the tokens of two texts with a line break between them are those of the
first text, the line break and those of the second. -/

namespace CapsuleScript

variable {c : Char} {rest tail : List Char} {p : Char → Bool}

/-- The text is empty or starts with a line break. -/
def BreaksOff (tail : List Char) : Prop := ∀ c ∈ tail.head?, c = '\n'

theorem takeWhile_append_of_head? (htail : ∀ c ∈ tail.head?, p c = false) (rest : List Char) :
    (rest ++ tail).takeWhile p = rest.takeWhile p := by
  induction rest with
  | nil =>
      cases tail with
      | nil => rfl
      | cons d tail => simp [htail d rfl]
  | cons d rest ih =>
      rw [List.cons_append, List.takeWhile_cons, List.takeWhile_cons, ih]

theorem dropWhile_append_of_head? (htail : ∀ c ∈ tail.head?, p c = false) (rest : List Char) :
    (rest ++ tail).dropWhile p = rest.dropWhile p ++ tail := by
  induction rest with
  | nil =>
      cases tail with
      | nil => rfl
      | cons d tail => simp [htail d rfl]
  | cons d rest ih =>
      rw [List.cons_append, List.dropWhile_cons, List.dropWhile_cons, ih]
      split <;> rfl

theorem BreaksOff.head? (htail : BreaksOff tail) (hp : p '\n' = false) :
    ∀ c ∈ tail.head?, p c = false := by
  intro c hc
  rw [htail c hc]
  exact hp

/-! ### One piece -/

namespace Quoted

theorem exists_closed_of_push {r : Reading} {width length : Nat} {value : List Char}
    (hpush : r.push c width = .closed value length) :
    ∃ front n, r = .closed front n ∧ value = c :: front ∧ length = width + n := by
  cases r with
  | closed front n =>
      cases hpush
      exact ⟨front, n, rfl, rfl, rfl⟩
  | unclosed n => cases hpush

theorem read_plain (hquote : c ≠ '"') (hescape : c ≠ '\\') (rest : List Char) :
    read (c :: rest) = (read rest).push c 1 := by
  rw [read] <;> simp [hquote, hescape]

/-- A quoted text that is closed is read in the same way, whatever follows. -/
theorem read_append {value : List Char} {length : Nat} (hread : read rest = .closed value length)
    (tail : List Char) : read (rest ++ tail) = .closed value length ∧ length ≤ rest.length := by
  fun_induction read rest generalizing value length with
  | case1 => cases hread
  | case2 rest =>
      cases hread
      exact ⟨rfl, Nat.le_add_left 1 _⟩
  | case3 => cases hread
  | case4 => cases hread
  | case5 d rest hd ih =>
      obtain ⟨front, n, hrest, rfl, rfl⟩ := exists_closed_of_push hread
      obtain ⟨hmore, hle⟩ := ih hrest
      refine ⟨?_, by simp only [List.length_cons]; omega⟩
      rw [List.cons_append, List.cons_append, read, hmore]
      · rfl
      · exact hd
  | case6 d rest hquote hend _ hescape ih =>
      have hplain : d ≠ '\\' := by
        rintro rfl
        cases rest with
        | nil => exact hend rfl rfl
        | cons e rest => exact hescape e rest rfl rfl
      obtain ⟨front, n, hrest, rfl, rfl⟩ := exists_closed_of_push hread
      obtain ⟨hmore, hle⟩ := ih hrest
      refine ⟨?_, by simp only [List.length_cons]; omega⟩
      rw [List.cons_append, read_plain hquote hplain, hmore]
      rfl

end Quoted

namespace Token

theorem length_takeWhile_le (p : Char → Bool) (rest : List Char) :
    (rest.takeWhile p).length ≤ rest.length := (List.takeWhile_prefix p).length_le

theorem numberLength_append (htail : BreaksOff tail) (rest : List Char) :
    numberLength (rest ++ tail) = numberLength rest ∧ numberLength rest ≤ rest.length := by
  have hdigit : ∀ c ∈ tail.head?, c.isDigit = false := htail.head? rfl
  have htake := takeWhile_append_of_head? hdigit
  have hlength : (rest.takeWhile Char.isDigit).length + (rest.dropWhile Char.isDigit).length =
      rest.length := by
    rw [← List.length_append, List.takeWhile_append_dropWhile]
  unfold numberLength Number.takeDigits
  simp only [htake, dropWhile_append_of_head? hdigit]
  generalize rest.dropWhile Char.isDigit = after at hlength
  cases after with
  | nil =>
      refine ⟨?_, length_takeWhile_le Char.isDigit rest⟩
      cases tail with
      | nil => rfl
      | cons d tail =>
          obtain rfl : d = '\n' := htail d rfl
          rfl
  | cons d ds =>
      rw [List.length_cons] at hlength
      by_cases hpoint : d = '.'
      · subst hpoint
        have hle := length_takeWhile_le Char.isDigit ds
        simp only [List.cons_append, htake]
        exact ⟨trivial, by omega⟩
      · by_cases hmark : d = 'e'
        · subst hmark
          cases ds with
          | nil =>
              refine ⟨?_, length_takeWhile_le Char.isDigit rest⟩
              cases tail with
              | nil => rfl
              | cons e tail =>
                  obtain rfl : e = '\n' := htail e rfl
                  rfl
          | cons e es =>
              have hle := length_takeWhile_le Char.isDigit es
              rw [List.length_cons] at hlength
              simp only [List.cons_append, htake]
              refine ⟨trivial, ?_⟩
              split <;> omega
        · simp only [List.cons_append]
          split
          · rename_i heq
            exact absurd (List.cons.inj heq).1 hpoint
          · rename_i heq
            exact absurd (List.cons.inj heq).1 hmark
          · split
            · rename_i heq
              exact absurd (List.cons.inj heq).1 hpoint
            · rename_i heq
              exact absurd (List.cons.inj heq).1 hmark
            · exact ⟨rfl, by omega⟩

/-- A sign is a single character, or two of which the second is no line break. -/
theorem spelling_of_mem_symbols : ∀ sign ∈ symbols, (∃ a, sign.1 = [a]) ∨
    ∃ a b, sign.1 = [a, b] ∧ b ≠ '\n' := by
  simp [symbols]

/-- A sign fits at the head of a text if it fits there with something on the next line. -/
theorem isPrefixOf_append (htail : BreaksOff tail) {sign : List Char × Token}
    (hsign : sign ∈ symbols) :
    sign.1.isPrefixOf (c :: (rest ++ tail)) = sign.1.isPrefixOf (c :: rest) := by
  rcases spelling_of_mem_symbols sign hsign with ⟨a, ha⟩ | ⟨a, b, hab, hb⟩
  · rw [ha]
    rfl
  · rw [hab]
    cases rest with
    | cons d rest => rfl
    | nil =>
        cases tail with
        | nil => rfl
        | cons d tail =>
            obtain rfl : d = '\n' := htail d rfl
            simp [List.isPrefixOf, hb]

theorem find?_append (htail : BreaksOff tail) :
    symbols.find? (fun entry => entry.1.isPrefixOf (c :: (rest ++ tail))) =
      symbols.find? (fun entry => entry.1.isPrefixOf (c :: rest)) :=
  List.find?_congr fun _ hsign => isPrefixOf_append htail hsign

/-- The piece takes no more than `length` characters after the first. -/
def Piece.Within (length : Nat) : Piece → Prop
  | .token _ more => more ≤ length
  | .blank more => more ≤ length
  | .illegal _ => False

/-- The piece at the head of a text is the same with something on the next line. -/
theorem munch_append (htail : BreaksOff tail) (hlegal : ∀ more, munch c rest ≠ .illegal more) :
    munch c (rest ++ tail) = munch c rest ∧ (munch c rest).Within rest.length := by
  have hword : ∀ c ∈ tail.head?, isWordChar c = false := htail.head? rfl
  have hblank : ∀ c ∈ tail.head?, isBlank c = false := htail.head? rfl
  have hline : ∀ c ∈ tail.head?, decide (c ≠ '\n') = false := htail.head? rfl
  have hslash : (rest ++ tail).head? = some '/' ↔ rest.head? = some '/' := by
    cases rest with
    | cons d rest => rfl
    | nil => exact iff_of_false (fun h => absurd (htail _ h) (by decide)) (by simp)
  obtain ⟨hnumber, hle⟩ := numberLength_append htail rest
  unfold munch at hlegal ⊢
  simp only [takeWhile_append_of_head? hblank, takeWhile_append_of_head? hline,
    takeWhile_append_of_head? hword, hnumber, find?_append htail, hslash,
    List.take_append_of_le_length hle]
  by_cases hc : isBlank c = true
  · simp only [if_pos hc]
    exact ⟨trivial, length_takeWhile_le _ _⟩
  by_cases hcomment : c = '/' ∧ rest.head? = some '/'
  · simp only [if_neg hc, if_pos hcomment]
    exact ⟨trivial, length_takeWhile_le _ _⟩
  by_cases hdigit : c.isDigit = true
  · simp only [if_neg hc, if_neg hcomment, if_pos hdigit] at hlegal ⊢
    refine ⟨trivial, ?_⟩
    split
    · exact hle
    · rename_i hnone
      rw [hnone] at hlegal
      exact absurd rfl (hlegal 0)
  by_cases halpha : c.isAlpha = true
  · simp only [if_neg hc, if_neg hcomment, if_neg hdigit, if_pos halpha]
    exact ⟨trivial, length_takeWhile_le _ _⟩
  by_cases hquote : c = '"'
  · simp only [if_neg hc, if_neg hcomment, if_neg hdigit, if_neg halpha, if_pos hquote] at hlegal ⊢
    cases hread : Quoted.read rest with
    | unclosed length =>
        rw [hread] at hlegal
        exact absurd rfl (hlegal length)
    | closed value length =>
        obtain ⟨hmore, hlength⟩ := Quoted.read_append hread tail
        rw [hmore]
        exact ⟨rfl, hlength⟩
  · simp only [if_neg hc, if_neg hcomment, if_neg hdigit, if_neg halpha, if_neg hquote] at hlegal ⊢
    refine ⟨trivial, ?_⟩
    split
    · rename_i spelling value hfind
      have hfits := (List.find?_eq_some_iff_append.mp hfind).1
      have hlength : spelling.length ≤ rest.length + 1 :=
        (List.isPrefixOf_iff_prefix.mp hfits).length_le
      show spelling.length - 1 ≤ rest.length
      omega
    · rename_i hnone
      rw [hnone] at hlegal
      exact absurd rfl (hlegal 0)

theorem ne_finish_of_munch {value : Token} {more : Nat}
    (hmunch : munch c rest = .token value more) : value ≠ .finish := by
  have hheads := heads_munch c rest
  rw [hmunch] at hheads
  rintro rfl
  exact Language.notMem_zero _ hheads.1.mem

/-! ### All tokens -/

/-- The tokens are the same but for their places, with `rest` where the first ones end. -/
inductive Continues (rest : List Located) : List Located → List Located → Prop where
  | finish (span : Span) : Continues rest [⟨.finish, span⟩] rest
  | cons {token : Token} {tokens tokens' : List Located} (span span' : Span) :
      token ≠ .finish → Continues rest tokens tokens' →
      Continues rest (⟨token, span⟩ :: tokens) (⟨token, span'⟩ :: tokens')

variable {source source' : String} {before : Position} {text : List Char}
  {tokens others : List Located}

/-- By induction on what is left of the text: each piece is the same with something on the next
line, wherever the text stands. -/
theorem readFrom_append (htail : BreaksOff tail) (hread : readFrom source before text = .ok tokens)
    (before' : Position) (hrest : readFrom source' (before'.after text) tail = .ok others) :
    ∃ tokens', readFrom source' before' (text ++ tail) = .ok tokens' ∧
      Continues others tokens tokens' := by
  have hafter : ∀ (p : Position) (c : Char) (rest : List Char) (more : Nat),
      (p.after (c :: rest.take more)).after (rest.drop more) = p.after (c :: rest) := by
    intro p c rest more
    rw [← Position.after_append, List.cons_append, List.take_append_drop]
  fun_induction readFrom source before text generalizing before' tokens with
  | case1 p =>
      cases hread
      exact ⟨others, hrest, .finish _⟩
  | case2 p c rest value more hmunch next =>
      rename_i ih
      have hlegal : ∀ more, munch c rest ≠ .illegal more := by simp [hmunch]
      obtain ⟨hsame, hle⟩ := munch_append htail hlegal
      rw [hmunch] at hsame hle
      cases hmore : readFrom source next (rest.drop more) with
      | error e =>
          rw [hmore] at hread
          cases hread
      | ok front =>
          rw [hmore] at hread
          cases hread
          rw [← hafter _ _ _ more] at hrest
          obtain ⟨front', hread', hfront⟩ := ih hmore _ hrest
          refine ⟨_, ?_, .cons _ ⟨source', before', before'.after (c :: rest.take more)⟩
            (ne_finish_of_munch hmunch) hfront⟩
          rw [List.cons_append, readFrom, hsame]
          simp only [List.take_append_of_le_length hle, List.drop_append_of_le_length hle]
          rw [hread']
          rfl
  | case3 p c rest more hmunch ih =>
      have hlegal : ∀ more, munch c rest ≠ .illegal more := by simp [hmunch]
      obtain ⟨hsame, hle⟩ := munch_append htail hlegal
      rw [hmunch] at hsame hle
      rw [← hafter _ _ _ more] at hrest
      obtain ⟨tokens', hread', htokens⟩ := ih hread _ hrest
      refine ⟨tokens', ?_, htokens⟩
      rw [List.cons_append, readFrom, hsame]
      simp only [List.take_append_of_le_length hle, List.drop_append_of_le_length hle]
      exact hread'
  | case4 p c rest more hmunch => cases hread

theorem munch_newline (rest : List Char) : munch '\n' rest = .token .newline 0 := rfl

/-- The tokens of two texts with a line break between them. -/
theorem exists_readAll_join {text text' : String} {more : List Located}
    (hread : readAll source text = .ok tokens) (hmore : readAll source' text' = .ok more)
    (whole : String) : ∃ last span rest joined, readAll whole (text ++ "\n" ++ text') = .ok joined ∧
      Continues (⟨.newline, span⟩ :: rest) tokens joined ∧ Continues [⟨.finish, last⟩] more rest := by
  let middle := Position.origin.after text.toList
  let start := middle.after ['\n']
  let stop := start.after text'.toList
  have hend : readFrom whole stop [] = .ok [⟨.finish, ⟨whole, stop, stop⟩⟩] := by rw [readFrom]
  obtain ⟨rest, hrest, hsecond⟩ := readFrom_append (fun c hc => by cases hc) hmore start hend
  rw [List.append_nil] at hrest
  have hbreak : readFrom whole middle ('\n' :: text'.toList) =
      .ok (⟨.newline, ⟨whole, middle, start⟩⟩ :: rest) := by
    rw [readFrom, munch_newline]
    simp only [List.take_zero, List.drop_zero]
    rw [hrest]
    rfl
  have hoff : BreaksOff ('\n' :: text'.toList) := fun c hc => by
    cases hc
    rfl
  obtain ⟨joined, hjoined, hfirst⟩ := readFrom_append hoff hread .origin hbreak
  refine ⟨_, _, rest, joined, ?_, hfirst, hsecond⟩
  rw [readAll, ← hjoined]
  simp [String.toList_append]

end Token

end CapsuleScript
