import CapsuleScript.Proofs.Token.Munch

/-! Program text cut into its longest matches. Main statement: if a text is cut up to its end, its
tokens lie one behind the other, between them are only blanks and comments, and every position
counts the bytes and the line breaks before it; if not, the error starts at the first place that the
cutting comes to and where there is no match. -/

namespace CapsuleScript

open Pattern

/-! ### Positions -/

/-- The bytes of a text. -/
def bytes (cs : List Char) : List UInt8 := cs.flatMap String.utf8EncodeChar

/-- The byte of a line break. -/
def lineBreak : UInt8 := 10

/-- The position counts the bytes before it, the line breaks among them and the bytes behind the
last of these. -/
structure Position.Counts (p : Position) (before : List UInt8) : Prop where
  index : p.index = before.length
  line : p.line = before.count lineBreak
  column : p.column = (before.reverse.takeWhile (· ≠ lineBreak)).length

@[simp] theorem bytes_append (cs ds : List Char) : bytes (cs ++ ds) = bytes cs ++ bytes ds :=
  List.flatMap_append

theorem length_bytes_toList (program : String) :
    (bytes program.toList).length = program.utf8ByteSize := by
  calc (bytes program.toList).length
      = program.toList.utf8Encode.size := List.size_toByteArray.symm
    _ = (String.ofList program.toList).utf8ByteSize := by
        rw [← String.toByteArray_ofList, String.size_toByteArray]
    _ = program.utf8ByteSize := by rw [String.ofList_toList]

/-- Of the bytes of the characters only that of the line break is a line break. -/
theorem lineBreak_not_mem {c : Char} (hc : c ≠ '\n') : lineBreak ∉ String.utf8EncodeChar c := by
  have hval : c.val.toNat ≠ 10 := fun h => hc (Char.ext (UInt32.toNat_inj.mp h))
  have hten : (10 : UInt8).toNat = 10 := rfl
  unfold String.utf8EncodeChar lineBreak
  dsimp only
  split_ifs
  all_goals
    simp only [List.mem_cons, List.not_mem_nil, or_false, ← UInt8.toNat_inj, UInt8.toNat_ofNat']
    omega

theorem Position.Counts.advance {p : Position} {before : List UInt8} (hp : p.Counts before)
    (c : Char) : (p.advance c).Counts (before ++ String.utf8EncodeChar c) := by
  by_cases hc : c = '\n'
  · subst hc
    have hbytes : String.utf8EncodeChar '\n' = [lineBreak] := by decide
    rw [Position.advance, if_pos rfl, hbytes]
    refine ⟨?_, ?_, ?_⟩
    · rw [List.length_append, ← hp.index]
      rfl
    · rw [List.count_append, ← hp.line]
      rfl
    · simp
  · rw [Position.advance, if_neg hc]
    have hall : ∀ b ∈ (String.utf8EncodeChar c).reverse, decide (b ≠ lineBreak) = true := by
      intro b hb
      refine decide_eq_true fun heq => lineBreak_not_mem hc ?_
      rwa [heq, List.mem_reverse] at hb
    refine ⟨?_, ?_, ?_⟩
    · simp [hp.index]
    · rw [List.count_append, List.count_eq_zero_of_not_mem (lineBreak_not_mem hc)]
      exact hp.line
    · rw [List.reverse_append, List.takeWhile_append_of_pos hall, List.length_append, ← hp.column,
        List.length_reverse, String.length_utf8EncodeChar]
      exact Nat.add_comm _ _

/-- The position behind a text counts the bytes of the text. -/
theorem Position.counts_after (before : List Char) :
    (origin.after before).Counts (bytes before) := by
  induction before using List.reverseRecOn with
  | nil => exact ⟨rfl, rfl, rfl⟩
  | append_singleton cs c ih =>
      have hbytes : bytes [c] = String.utf8EncodeChar c := List.append_nil _
      rw [after_append, bytes_append, hbytes]
      exact ih.advance c

/-! ### Segments -/

/-- A match, with the token that it leaves, if it leaves one. -/
structure Segment where
  slice : List Char
  token? : Option Token

namespace Segment

/-- The pattern of the token, or of what leaves none. -/
def pattern (s : Segment) : Language Char := s.token?.elim skipped Token.pattern

/-- The segment is the longest match at the head of the text `s.slice ++ rest`. A word is a keyword
if it is spelled like one. -/
structure TakenFrom (s : Segment) (rest : List Char) : Prop where
  takes : Takes s.pattern s.slice rest
  keyword : s.slice ∈ word → ∀ k, s.token? = some (.keyword k) ↔ s.slice = k.spelling.toList

/-- The text of a row of segments. -/
def texts (segments : List Segment) : List Char := segments.flatMap slice

/-- The text is cut, up to `rest`, into the segments, each the longest match at its place. -/
inductive Cut : List Char → List Segment → List Char → Prop
  | nil (rest : List Char) : Cut rest [] rest
  | cons {s : Segment} {segments : List Segment} {text rest : List Char} (hs : s.TakenFrom text)
      (hcut : Cut text segments rest) : Cut (s.slice ++ text) (s :: segments) rest

variable {s : Segment} {segments front back : List Segment} {text rest before : List Char}
  {source : String}

theorem TakenFrom.mem_any (hs : s.TakenFrom rest) : s.slice ∈ any := by
  have hmem := hs.takes.mem
  unfold pattern at hmem
  cases htoken : s.token? with
  | none =>
      rw [htoken] at hmem
      exact mem_any_of_mem_skipped hmem
  | some token =>
      rw [htoken] at hmem
      exact mem_any_of_mem_pattern hmem

theorem TakenFrom.slice_ne_nil (hs : s.TakenFrom rest) : s.slice ≠ [] := by
  intro hnil
  exact nil_not_mem_any (hnil ▸ hs.mem_any)

theorem Cut.text_eq (hcut : Cut text segments rest) : text = texts segments ++ rest := by
  induction hcut with
  | nil => rfl
  | cons _ _ ih =>
      rw [ih, texts, texts, List.flatMap_cons, List.append_assoc]

theorem Cut.split (hcut : Cut text (front ++ s :: back) []) :
    text = texts front ++ s.slice ++ texts back := by
  rw [hcut.text_eq, texts, List.flatMap_append, List.flatMap_cons, List.append_nil,
    List.append_assoc]
  rfl

theorem Cut.takenFrom (hcut : Cut text (front ++ s :: back) rest) :
    s.TakenFrom (texts back ++ rest) := by
  induction front generalizing text with
  | nil =>
      cases hcut with
      | cons hs hcut =>
          rw [← hcut.text_eq]
          exact hs
  | cons t front ih =>
      cases hcut with
      | cons _ hcut => exact ih hcut

/-- The longest match at a place is one. -/
theorem TakenFrom.slice_eq {t : Segment} {others : List Char} (hs : s.TakenFrom rest)
    (ht : t.TakenFrom others) (heq : s.slice ++ rest = t.slice ++ others) :
    s.slice = t.slice ∧ rest = others := by
  have hst : s.slice <+: t.slice ++ others := heq ▸ List.prefix_append _ _
  have hts : t.slice <+: s.slice ++ rest := heq ▸ List.prefix_append _ _
  have hlength : s.slice.length = t.slice.length :=
    Nat.le_antisymm (ht.takes.longest _ hs.mem_any hst) (hs.takes.longest _ ht.mem_any hts)
  exact List.append_inj heq hlength

/-- If a text is cut up to where there is no match, then there is one at every other place to which
it can be cut. -/
theorem Cut.eq_or_exists_match {others : List Segment} {left : List Char}
    (hother : Cut text others left) (hcut : Cut text segments rest)
    (hnone : ∀ v ∈ any, ¬ v <+: rest) : left = rest ∨ ∃ v ∈ any, v <+: left := by
  induction hother generalizing segments with
  | nil left =>
      cases hcut with
      | nil => exact .inl rfl
      | cons hs _ => exact .inr ⟨_, hs.mem_any, List.prefix_append _ _⟩
  | @cons t others text left ht hother ih =>
      generalize htext : t.slice ++ text = whole at hcut
      cases hcut with
      | nil =>
          have hpre : t.slice <+: rest := htext ▸ List.prefix_append _ _
          exact absurd hpre (hnone _ ht.mem_any)
      | cons hs hcut =>
          obtain ⟨-, rfl⟩ := ht.slice_eq hs htext
          exact ih hcut

/-- The token of a segment behind the text `before`. -/
def located (source : String) (before : List Char) (s : Segment) (token : Token) : Located :=
  ⟨token, ⟨source, Position.origin.after before, Position.origin.after (before ++ s.slice)⟩⟩

/-- The tokens of the segments behind the text `before`. -/
def locate (source : String) : List Char → List Segment → List Located
  | _, [] => []
  | before, s :: segments =>
      (s.token?.map (s.located source before)).toList ++ locate source (before ++ s.slice) segments

theorem texts_cons : texts (s :: segments) = s.slice ++ texts segments := rfl

/-- The tokens are those of the segments. -/
theorem mem_locate {l : Located} : l ∈ locate source before segments ↔
    ∃ front s back token, segments = front ++ s :: back ∧ s.token? = some token ∧
      l = s.located source (before ++ texts front) token := by
  induction segments generalizing before with
  | nil => simp [locate]
  | cons t segments ih =>
      rw [locate, List.mem_append, ih]
      constructor
      · rintro (hl | ⟨front, s, back, token, rfl, htoken, rfl⟩)
        · obtain ⟨token, htoken, rfl⟩ : ∃ token, t.token? = some token ∧
              t.located source before token = l := by simpa using hl
          exact ⟨[], t, segments, token, rfl, htoken, by simp [texts]⟩
        · refine ⟨t :: front, s, back, token, rfl, htoken, ?_⟩
          rw [texts_cons, List.append_assoc]
      · rintro ⟨front, s, back, token, heq, htoken, rfl⟩
        rcases List.cons_eq_append_iff.mp heq with ⟨rfl, hback⟩ | ⟨front, rfl, rfl⟩
        · obtain ⟨rfl, rfl⟩ := List.cons.inj hback
          exact .inl (by simp [htoken, texts])
        · refine .inr ⟨front, s, back, token, rfl, htoken, ?_⟩
          rw [texts_cons, List.append_assoc]

theorem index_after (before : List Char) :
    (Position.origin.after before).index = (bytes before).length :=
  (Position.counts_after before).index

/-- Each token ends before the next one starts. -/
theorem pairwise_locate : (locate source before segments).Pairwise fun l m =>
    l.span.stop.index ≤ m.span.start.index := by
  induction segments generalizing before with
  | nil => exact .nil
  | cons t segments ih =>
      rw [locate]
      refine List.pairwise_append.mpr ⟨?_, ih, fun l hl m hm => ?_⟩
      · cases t.token? <;> simp
      · obtain ⟨token, -, rfl⟩ : ∃ token, t.token? = some token ∧
            t.located source before token = l := by simpa using hl
        obtain ⟨front, s, back, token', -, -, rfl⟩ := mem_locate.mp hm
        simp [located, index_after]

/-- Every byte of the text of a row of segments lies in one of them. -/
theorem exists_holding {i : Nat} (hi : i < (bytes (texts segments)).length) :
    ∃ front s back, segments = front ++ s :: back ∧ (bytes (texts front)).length ≤ i ∧
      i < (bytes (texts front ++ s.slice)).length := by
  induction segments generalizing i with
  | nil => exact absurd hi (Nat.not_lt_zero i)
  | cons t segments ih =>
      by_cases hlt : i < (bytes t.slice).length
      · exact ⟨[], t, segments, rfl, Nat.zero_le i, hlt⟩
      · rw [texts_cons, bytes_append, List.length_append] at hi
        obtain ⟨front, s, back, rfl, hle, hlt'⟩ :=
          ih (i := i - (bytes t.slice).length) (by omega)
        refine ⟨t :: front, s, back, rfl, ?_, ?_⟩
        · rw [texts_cons, bytes_append, List.length_append]
          omega
        · rw [texts_cons, List.append_assoc, bytes_append, List.length_append]
          omega

end Segment

/-! ### Cutting a text -/

theorem Keyword.ofWord?_eq_some {w : String} {k : Keyword} :
    ofWord? w = some k ↔ w = k.spelling := by
  constructor
  · intro h
    have hspelling := List.find?_some h
    exact (beq_iff_eq.mp hspelling).symm
  · rintro rfl
    cases k <;> decide

namespace Token

open Segment

variable {c : Char} {rest : List Char} {more : Nat} {source : String} {before text : List Char}

theorem ofWord_eq_keyword {w : String} {k : Keyword} :
    ofWord w = keyword k ↔ w = k.spelling := by
  rw [← Keyword.ofWord?_eq_some, ofWord]
  cases Keyword.ofWord? w <;> simp

theorem takenFrom_token {value : Token} (h : (Piece.token value more).Heads c rest) :
    TakenFrom ⟨c :: rest.take more, some value⟩ (rest.drop more) := by
  refine ⟨h.1, fun hword k => ?_⟩
  rw [h.2 hword, Option.some_inj, ofWord_eq_keyword, String.ext_iff, String.toList_ofList]

theorem takenFrom_blank (h : (Piece.blank more).Heads c rest) :
    TakenFrom ⟨c :: rest.take more, none⟩ (rest.drop more) := by
  refine ⟨h, fun hword => ?_⟩
  -- neither blanks nor comments begin with a letter
  have halpha := (cons_mem_word.mp hword).1
  rcases h.mem with hblank | hcomment
  · rw [(isBlank_cases (cons_mem_blank.mp hblank).1).2] at halpha
    exact absurd halpha Bool.false_ne_true
  · obtain ⟨u, heq, -⟩ := mem_comment.mp hcomment
    rw [(List.cons.inj heq).1] at halpha
    exact absurd halpha (by decide)

/-- The text that follows `before` is cut up to its end and these are its tokens, or it is cut up to
where there is no match and the error starts there. -/
def CutsTo (source : String) (before text : List Char) : Except SourceError (List Located) → Prop
  | .ok tokens => ∃ segments, Cut text segments [] ∧
      tokens = locate source before segments ++ [⟨finish, ⟨source,
        Position.origin.after (before ++ text), Position.origin.after (before ++ text)⟩⟩]
  | .error error => ∃ segments left shown stop, Cut text segments left ∧ left ≠ [] ∧
      (∀ v ∈ any, ¬ v <+: left) ∧ error = .illegalText shown
        ⟨source, Position.origin.after (before ++ texts segments), stop⟩

/-- One segment more at the head of the text. -/
theorem CutsTo.cons {s : Segment} {result : Except SourceError (List Located)}
    (hs : s.TakenFrom text) (hrest : CutsTo source (before ++ s.slice) text result) :
    CutsTo source before (s.slice ++ text)
      (result.map ((s.token?.map (s.located source before)).toList ++ ·)) := by
  cases result with
  | ok tokens =>
      obtain ⟨segments, hcut, rfl⟩ := hrest
      refine ⟨s :: segments, .cons hs hcut, ?_⟩
      rw [locate, List.append_assoc, List.append_assoc]
  | error error =>
      obtain ⟨segments, left, shown, stop, hcut, hleft, hnone, rfl⟩ := hrest
      refine ⟨s :: segments, left, shown, stop, .cons hs hcut, hleft, hnone, ?_⟩
      rw [texts_cons, List.append_assoc]

/-- By induction on what is left of the text, with what was already cut as `before`. -/
theorem cutsTo_readFrom {p : Position} (hp : p = Position.origin.after before) :
    CutsTo source before text (readFrom source p text) := by
  fun_induction readFrom source p text generalizing before with
  | case1 p =>
      refine ⟨[], .nil [], ?_⟩
      rw [hp, List.append_nil]
      rfl
  | case2 p c rest value more hmunch next =>
      rename_i ih
      have hheads := heads_munch c rest
      rw [hmunch] at hheads
      have hnext : next = Position.origin.after (before ++ c :: rest.take more) := by
        rw [Position.after_append, ← hp]
      have hlocated : Segment.located source before ⟨c :: rest.take more, some value⟩ value =
          ⟨value, ⟨source, p, next⟩⟩ := by
        rw [located, ← hp, ← hnext]
      have hcons := CutsTo.cons (takenFrom_token hheads) (ih hnext)
      rw [List.cons_append, List.take_append_drop] at hcons
      rw [← hlocated]
      exact hcons
  | case3 p c rest more hmunch ih =>
      have hheads := heads_munch c rest
      rw [hmunch] at hheads
      have hnext : p.after (c :: rest.take more) =
          Position.origin.after (before ++ c :: rest.take more) := by
        rw [Position.after_append, ← hp]
      have hcons := CutsTo.cons (takenFrom_blank hheads) (ih hnext)
      rw [List.cons_append, List.take_append_drop] at hcons
      revert hcons
      -- a segment without a token adds nothing to the result
      cases readFrom source (p.after (c :: rest.take more)) (rest.drop more) <;> exact id
  | case4 p c rest more hmunch =>
      have hheads := heads_munch c rest
      rw [hmunch] at hheads
      refine ⟨[], c :: rest, String.ofList (c :: rest.take more),
        p.shift (byteLength (c :: rest.take more)), .nil _, List.cons_ne_nil c rest, hheads, ?_⟩
      rw [texts, List.flatMap_nil, List.append_nil, ← hp]

/-! ### Main statement -/

/-- The tokens tile the program: what the longest matches leave, with exact positions. -/
structure Tiles (source program : String) (tokens : List Located) : Prop where
  /-- The tokens are not empty, but for the last, and each ends before the next starts. -/
  ordered : tokens.Pairwise fun l m =>
    l.span.start.index < l.span.stop.index ∧ l.span.stop.index ≤ m.span.start.index
  /-- Each but the last is the longest match at its place, a match of its own pattern, and a keyword
  if it is a word spelled so. -/
  words : ∀ l ∈ tokens.dropLast, ∃ before slice after, program.toList = before ++ slice ++ after ∧
    Takes l.token.pattern slice after ∧ l.span.source = source ∧
    l.span.start.Counts (bytes before) ∧ l.span.stop.Counts (bytes (before ++ slice)) ∧
    (slice ∈ word → ∀ k, l.token = .keyword k ↔ slice = k.spelling.toList)
  /-- The bytes in no token are in blanks or comments. -/
  between : ∀ i < program.utf8ByteSize,
    (∀ l ∈ tokens, ¬ (l.span.start.index ≤ i ∧ i < l.span.stop.index)) →
    ∃ before slice after, program.toList = before ++ slice ++ after ∧
      Takes skipped slice after ∧ (bytes before).length ≤ i ∧
      i < (bytes (before ++ slice)).length
  /-- The last token is the end of the text. -/
  last : ∃ p : Position, tokens.getLast? = some ⟨finish, ⟨source, p, p⟩⟩ ∧
    p.index = program.utf8ByteSize ∧ p.Counts (bytes program.toList)
  /-- The tokens are those of the longest matches into which the text is cut. -/
  cut : ∃ segments, Cut program.toList segments [] ∧
    tokens.dropLast = locate source [] segments

/-- The error starts where the cutting of the text comes to and there is no match; at all other
places that it comes to there is one. -/
def StopsAt (source program : String) (error : SourceError) : Prop :=
  ∃ segments rest shown start stop, Cut program.toList segments rest ∧ rest ≠ [] ∧
    (∀ v ∈ any, ¬ v <+: rest) ∧
    (∀ others left, Cut program.toList others left → left = rest ∨ ∃ v ∈ any, v <+: left) ∧
    start.Counts (bytes (texts segments)) ∧ error = .illegalText shown ⟨source, start, stop⟩

/-- What the reading of a program has to give: its tokens, or the error that stops it. -/
def Segmented (source program : String) : Except SourceError (List Located) → Prop
  | .ok tokens => Tiles source program tokens
  | .error error => StopsAt source program error

theorem length_bytes_pos {cs : List Char} (hcs : cs ≠ []) : 0 < (bytes cs).length := by
  obtain ⟨c, cs, rfl⟩ := List.exists_cons_of_ne_nil hcs
  have hpos := c.utf8Size_pos
  rw [bytes, List.flatMap_cons, List.length_append, String.length_utf8EncodeChar]
  omega

section Cut

variable {program : String} {segments : List Segment} {l : Located}

theorem start_lt_stop (hcut : Cut program.toList segments [])
    (hl : l ∈ locate source [] segments) :
    l.span.start.index < l.span.stop.index := by
  obtain ⟨front, s, back, token, rfl, -, rfl⟩ := mem_locate.mp hl
  have hpos := length_bytes_pos hcut.takenFrom.slice_ne_nil
  simp only [located, index_after, bytes_append, List.length_append]
  omega

theorem stop_le_end (hcut : Cut program.toList segments [])
    (hl : l ∈ locate source [] segments) :
    l.span.stop.index ≤ (Position.origin.after program.toList).index := by
  obtain ⟨front, s, back, token, rfl, -, rfl⟩ := mem_locate.mp hl
  rw [hcut.split]
  simp only [located, index_after, bytes_append, List.length_append, List.nil_append]
  omega

theorem tiles_of_cut (hcut : Cut program.toList segments []) : Tiles source program
    (locate source [] segments ++ [⟨finish, ⟨source, Position.origin.after program.toList,
      Position.origin.after program.toList⟩⟩]) where
  ordered := by
    refine List.pairwise_append.mpr ⟨?_, List.pairwise_singleton _ _, fun l hl m hm => ?_⟩
    · exact pairwise_locate.imp_of_mem fun hl _ hle => ⟨start_lt_stop hcut hl, hle⟩
    · rw [List.mem_singleton.mp hm]
      exact ⟨start_lt_stop hcut hl, stop_le_end hcut hl⟩
  words := by
    intro l hl
    rw [List.dropLast_concat] at hl
    obtain ⟨front, s, back, token, rfl, htoken, rfl⟩ := mem_locate.mp hl
    have hs := hcut.takenFrom
    have htakes : Takes token.pattern s.slice (texts back) := by
      have htakes := hs.takes
      rwa [Segment.pattern, htoken, List.append_nil] at htakes
    refine ⟨texts front, s.slice, texts back, hcut.split, htakes, rfl, Position.counts_after _,
      Position.counts_after _, fun hword k => ?_⟩
    rw [← hs.keyword hword k, htoken, Option.some_inj]
    rfl
  between := by
    intro i hi hnone
    have htext := hcut.text_eq
    rw [List.append_nil] at htext
    rw [← length_bytes_toList, htext] at hi
    obtain ⟨front, s, back, rfl, hle, hlt⟩ := exists_holding hi
    have htakes := hcut.takenFrom.takes
    rw [List.append_nil] at htakes
    cases htoken : s.token? with
    | none =>
        rw [Segment.pattern, htoken] at htakes
        exact ⟨texts front, s.slice, texts back, hcut.split, htakes, hle, hlt⟩
    | some token =>
        -- the byte is in the token of the segment
        have hl : s.located source (texts front) token ∈ locate source [] (front ++ s :: back) :=
          mem_locate.mpr ⟨front, s, back, token, rfl, htoken, rfl⟩
        refine absurd ⟨?_, ?_⟩ (hnone _ (List.mem_append_left _ hl))
        · exact Nat.le_trans (Nat.le_of_eq (index_after _)) hle
        · exact Nat.lt_of_lt_of_eq hlt (index_after _).symm
  last := by
    refine ⟨_, List.getLast?_concat, ?_, Position.counts_after _⟩
    rw [index_after, length_bytes_toList]
  cut := ⟨segments, hcut, List.dropLast_concat⟩

end Cut

/-- Every program text is cut into its longest matches. If this comes to the end of the text, the
tokens tile the text; if not, the error starts where it stops. -/
theorem segmented_readAll (source program : String) :
    Segmented source program (readAll source program) := by
  have hcuts : CutsTo source [] program.toList (readAll source program) := cutsTo_readFrom rfl
  cases hread : readAll source program with
  | ok tokens =>
      rw [hread] at hcuts
      obtain ⟨segments, hcut, rfl⟩ := hcuts
      exact tiles_of_cut hcut
  | error error =>
      rw [hread] at hcuts
      obtain ⟨segments, rest, shown, stop, hcut, hrest, hnone, rfl⟩ := hcuts
      exact ⟨segments, rest, shown, _, stop, hcut, hrest, hnone,
        fun _ _ hother => hother.eq_or_exists_match hcut hnone, Position.counts_after _, rfl⟩

end Token

end CapsuleScript
