import CapsuleScript.Proofs.Heap.Marking
import Mathlib.Logic.Relation
import Mathlib.Order.WellFounded

/-! The walk of the collector with what it still has to look at on three stacks: frames, tables and
values. Frames and tables are marked when they are taken, values are not. In whatever order it takes
from the stacks, the walk ends, and then it has marked exactly what is reached. Main statement: the
collector comes to an end, what is reached keeps its tables, the tables of all other frames of the
same world end without bindings and without a parent, and collecting again changes nothing. -/

namespace CapsuleScript.Heap

/-- A state of the walk: what is marked and what is still to be looked at. -/
structure Search where
  marks : Marks
  frames : List FrameId
  tables : List TableId
  values : List Value

namespace Search

variable {h : Heap} {c : FrameId} {s s' : Search} {p q : Place}

/-- The walk starts at the frame `c`, with nothing marked. -/
def start (h : Heap) (c : FrameId) : Search := ⟨h.unmarked, [c], [], []⟩

/-- One thing is taken from a stack, and what it leads to is put on the stacks. -/
inductive Step (h : Heap) : Search → Search → Prop where
  | oldFrame {marks f frames tables values} : marks.has (.frame f) →
      Step h ⟨marks, f :: frames, tables, values⟩ ⟨marks, frames, tables, values⟩
  | newFrame {marks f frames tables values} : marks.has (.frame f) = false →
      Step h ⟨marks, f :: frames, tables, values⟩
        ⟨marks.mark (.frame f), (h.frame f).parent.toList ++ frames, (h.frame f).table :: tables,
          values⟩
  | oldTable {marks frames t tables values} : marks.has (.table t) →
      Step h ⟨marks, frames, t :: tables, values⟩ ⟨marks, frames, tables, values⟩
  | newTable {marks frames t tables values} : marks.has (.table t) = false →
      Step h ⟨marks, frames, t :: tables, values⟩
        ⟨marks.mark (.table t), frames, (h.table t).parent.toList ++ tables,
          ((h.table t).bindings.map Prod.snd).reverse ++ values⟩
  | value {marks frames tables v values} :
      Step h ⟨marks, frames, tables, v :: values⟩
        ⟨marks, v.ownFrames (fun g => (h.function g).home) ++ frames, tables,
          v.parts.reverse ++ values⟩

/-! ### The walk ends -/

/-- What is left of the walk: places to mark, then what the values on their stack are made of, then
the lengths of the other stacks. -/
noncomputable def measure (s : Search) : Nat × Nat × Nat :=
  (s.marks.remaining, (s.values.map sizeOf).sum, s.frames.length + s.tables.length)

theorem Step.measure_lt (hstep : Step h s s') :
    Prod.Lex (· < ·) (Prod.Lex (· < ·) (· < ·)) s'.measure s.measure := by
  cases hstep with
  | oldFrame =>
      apply Prod.Lex.right
      apply Prod.Lex.right
      simp only [List.length_cons]
      omega
  | oldTable =>
      apply Prod.Lex.right
      apply Prod.Lex.right
      simp only [List.length_cons]
      omega
  | newFrame hunmarked => exact .left _ _ (Marks.remaining_mark_lt hunmarked)
  | newTable hunmarked => exact .left _ _ (Marks.remaining_mark_lt hunmarked)
  | @value _ _ _ v values =>
      apply Prod.Lex.right
      apply Prod.Lex.left
      have hparts := v.sizeOf_parts_lt
      simp only [List.map_append, List.map_reverse, List.map_cons, List.sum_append,
        List.sum_reverse, List.sum_cons]
      omega

/-- No walk goes on forever. -/
theorem wellFounded_step (h : Heap) : WellFounded fun after before => Step h before after := by
  have hlex : WellFounded (Prod.Lex (· < ·) (Prod.Lex (· < ·) (· < ·)) :
      Nat × Nat × Nat → Nat × Nat × Nat → Prop) :=
    (Prod.lex Nat.lt_wfRel (Prod.lex Nat.lt_wfRel Nat.lt_wfRel)).wf
  exact Subrelation.wf Step.measure_lt (InvImage.wf measure hlex)

/-- A walk stops only where nothing is left to look at. -/
theorem stacks_of_stuck (hstuck : ∀ s', ¬ Step h s s') :
    s.frames = [] ∧ s.tables = [] ∧ s.values = [] := by
  obtain ⟨marks, frames, tables, values⟩ := s
  refine ⟨?_, ?_, ?_⟩
  · cases frames with
    | nil => rfl
    | cons f frames =>
        cases hf : marks.has (.frame f) with
        | true => exact absurd (.oldFrame hf) (hstuck _)
        | false => exact absurd (.newFrame hf) (hstuck _)
  · cases tables with
    | nil => rfl
    | cons t tables =>
        cases ht : marks.has (.table t) with
        | true => exact absurd (.oldTable ht) (hstuck _)
        | false => exact absurd (.newTable ht) (hstuck _)
  · cases values with
    | nil => rfl
    | cons v values => exact absurd .value (hstuck _)

/-! ### What the walk has found -/

/-- A place lies on a stack, or a value on its stack holds it. -/
def Pending (h : Heap) (s : Search) : Place → Prop
  | .frame f => f ∈ s.frames ∨ ∃ v ∈ s.values, f ∈ v.addFrames (fun g => (h.function g).home) []
  | .table t => t ∈ s.tables

/-- The walk has come to a place or is about to. -/
def Knows (h : Heap) (s : Search) (q : Place) : Prop := s.marks.has q ∨ s.Pending h q

theorem Step.has (hstep : Step h s s') (hq : s.marks.has q) : s'.marks.has q := by
  cases hstep with
  | oldFrame | oldTable | value => exact hq
  | newFrame | newTable =>
      rw [Marks.has_mark, hq]
      rfl

/-- What the walk knows it does not lose from sight. -/
theorem Step.knows (hstep : Step h s s') (hq : s.Knows h q) : s'.Knows h q := by
  rcases hq with hmarked | hpending
  · exact .inl (hstep.has hmarked)
  cases q with
  | table u =>
      cases hstep with
      | oldFrame | value => exact .inr hpending
      | newFrame => exact .inr (List.mem_cons_of_mem _ hpending)
      | oldTable ht =>
          rcases List.mem_cons.mp hpending with rfl | hrest
          · exact .inl ht
          · exact .inr hrest
      | newTable =>
          rcases List.mem_cons.mp hpending with rfl | hrest
          · exact .inl (by simp [Marks.has_mark])
          · exact .inr (List.mem_append_right _ hrest)
  | frame g =>
      rcases hpending with hframe | ⟨w, hw, hg⟩
      · cases hstep with
        | oldTable | newTable => exact .inr (.inl hframe)
        | value => exact .inr (.inl (List.mem_append_right _ hframe))
        | oldFrame hf =>
            rcases List.mem_cons.mp hframe with rfl | hrest
            · exact .inl hf
            · exact .inr (.inl hrest)
        | newFrame =>
            rcases List.mem_cons.mp hframe with rfl | hrest
            · exact .inl (by simp [Marks.has_mark])
            · exact .inr (.inl (List.mem_append_right _ hrest))
      · cases hstep with
        | oldFrame | newFrame | oldTable => exact .inr (.inr ⟨w, hw, hg⟩)
        | newTable => exact .inr (.inr ⟨w, List.mem_append_right _ hw, hg⟩)
        | value =>
            rcases List.mem_cons.mp hw with rfl | hrest
            · -- the value is gone from the stack: what it holds is there now, or in its parts
              rcases Value.mem_addFrames_iff.mp hg with hown | ⟨part, hpart, hg⟩
              · exact .inr (.inl (List.mem_append_left _ hown))
              · have hmem := List.mem_reverse.mpr hpart
                exact .inr (.inr ⟨part, List.mem_append_left _ hmem, hg⟩)
            · exact .inr (.inr ⟨w, List.mem_append_right _ hrest, hg⟩)

/-- With a place that a step marks the walk knows all that come after it. -/
theorem Step.knows_successor (hstep : Step h s s') (hunmarked : ¬ s.marks.has p)
    (hmarked : s'.marks.has p) (hq : q ∈ h.successors p) : s'.Knows h q := by
  cases hstep with
  | oldFrame | oldTable | value => exact absurd hmarked hunmarked
  | @newFrame _ f =>
      have hp : Place.frame f = p := by simpa [Marks.has_mark, hunmarked] using hmarked
      subst hp
      rcases List.mem_cons.mp hq with rfl | hq
      · exact .inr List.mem_cons_self
      · obtain ⟨g, hg, rfl⟩ := List.mem_map.mp hq
        exact .inr (.inl (List.mem_append_left _ hg))
  | @newTable _ _ t =>
      have hp : Place.table t = p := by simpa [Marks.has_mark, hunmarked] using hmarked
      subst hp
      rcases List.mem_append.mp hq with hq | hq
      · obtain ⟨u, hu, rfl⟩ := List.mem_map.mp hq
        exact .inr (List.mem_append_left _ hu)
      · obtain ⟨g, hg, rfl⟩ := List.mem_map.mp hq
        obtain ⟨v, hv, hg⟩ := Value.mem_addFramesOfEntries_iff.mp hg
        exact .inr (.inr ⟨v, List.mem_append_left _ (List.mem_reverse.mpr hv), hg⟩)

/-- What holds all along a walk from `c`: it comes only to what is reached, and where it has been it
knows everything that comes next. -/
structure Searched (h : Heap) (c : FrameId) (s : Search) : Prop where
  marked : ∀ p, h.HasPlace p → s.marks.has p → h.Reaches c p.item
  unmade : ∀ p, ¬ h.HasPlace p → s.marks.has p
  frames : ∀ f ∈ s.frames, h.Reaches c (.frame f)
  tables : ∀ t ∈ s.tables, h.Reaches c (.table t)
  values : ∀ v ∈ s.values, h.Reaches c (.value v)
  start : s.Knows h (.frame c)
  closed : ∀ p, h.HasPlace p → s.marks.has p → ∀ q ∈ h.successors p, s.Knows h q

theorem searched_start (h : Heap) (c : FrameId) : Searched h c (start h c) where
  marked := fun p hp hmarked => absurd hmarked (by simp [start, has_unmarked hp])
  unmade := fun p hp => has_unmarked_of_not_hasPlace hp
  frames := fun f hf => List.mem_singleton.mp hf ▸ .start
  tables := fun t ht => absurd ht List.not_mem_nil
  values := fun v hv => absurd hv List.not_mem_nil
  start := .inr (.inl List.mem_cons_self)
  closed := fun p hp hmarked => absurd hmarked (by simp [start, has_unmarked hp])

/-- One step comes only to what is reached. -/
theorem Searched.reaches_of_step (hs : Searched h c s) (hstep : Step h s s') :
    (∀ p, h.HasPlace p → s'.marks.has p → h.Reaches c p.item) ∧
    (∀ f ∈ s'.frames, h.Reaches c (.frame f)) ∧ (∀ t ∈ s'.tables, h.Reaches c (.table t)) ∧
    ∀ v ∈ s'.values, h.Reaches c (.value v) := by
  obtain ⟨hmarked, -, hframes, htables, hvalues, -, -⟩ := hs
  cases hstep with
  | oldFrame => exact ⟨hmarked, fun f hf => hframes f (.tail _ hf), htables, hvalues⟩
  | oldTable => exact ⟨hmarked, hframes, fun t ht => htables t (.tail _ ht), hvalues⟩
  | @newFrame _ f =>
      have hf : h.Reaches c (.frame f) := hframes f List.mem_cons_self
      refine ⟨fun p hp hnew => ?_, fun g hg => ?_, fun t ht => ?_, hvalues⟩
      · rw [Marks.has_mark, Bool.or_eq_true, decide_eq_true_eq] at hnew
        rcases hnew with hold | rfl
        · exact hmarked p hp hold
        · exact hf
      · rcases List.mem_append.mp hg with hg | hg
        · exact .entered hf (Option.mem_toList.mp hg)
        · exact hframes g (.tail _ hg)
      · rcases List.mem_cons.mp ht with rfl | ht
        · exact .owned hf
        · exact htables t ht
  | @newTable _ _ t =>
      have ht : h.Reaches c (.table t) := htables t List.mem_cons_self
      refine ⟨fun p hp hnew => ?_, hframes, fun u hu => ?_, fun v hv => ?_⟩
      · rw [Marks.has_mark, Bool.or_eq_true, decide_eq_true_eq] at hnew
        rcases hnew with hold | rfl
        · exact hmarked p hp hold
        · exact ht
      · rcases List.mem_append.mp hu with hu | hu
        · exact .above ht (Option.mem_toList.mp hu)
        · exact htables u (.tail _ hu)
      · rcases List.mem_append.mp hv with hv | hv
        · obtain ⟨entry, hentry, rfl⟩ := List.mem_map.mp (List.mem_reverse.mp hv)
          exact .bound ht hentry
        · exact hvalues v hv
  | @value _ _ _ v =>
      have hv : h.Reaches c (.value v) := hvalues v List.mem_cons_self
      refine ⟨hmarked, fun f hf => ?_, htables, fun w hw => ?_⟩
      · rcases List.mem_append.mp hf with hf | hf
        · exact hv.ownFrame hf
        · exact hframes f hf
      · rcases List.mem_append.mp hw with hw | hw
        · exact hv.part (List.mem_reverse.mp hw)
        · exact hvalues w (.tail _ hw)

theorem Searched.step (hs : Searched h c s) (hstep : Step h s s') : Searched h c s' := by
  obtain ⟨hmarked, hframes, htables, hvalues⟩ := hs.reaches_of_step hstep
  refine ⟨hmarked, fun p hp => hstep.has (hs.unmade p hp), hframes, htables, hvalues,
    hstep.knows hs.start, fun p hp hmarked q hq => ?_⟩
  by_cases hold : s.marks.has p
  · exact hstep.knows (hs.closed p hp hold q hq)
  · exact hstep.knows_successor hold hmarked hq

theorem searched_of_steps (hrun : Relation.ReflTransGen (Step h) (start h c) s) :
    Searched h c s := by
  induction hrun with
  | refl => exact searched_start h c
  | tail _ hstep ih => exact ih.step hstep

/-- Where nothing is left to look at the walk knows only what it has marked. -/
theorem has_of_knows (hframes : s.frames = []) (htables : s.tables = []) (hvalues : s.values = [])
    (hq : s.Knows h q) : s.marks.has q := by
  rcases hq with hmarked | hpending
  · exact hmarked
  cases q with
  | table t => exact absurd hpending (by simp [Pending, htables])
  | frame f => exact absurd hpending (by simp [Pending, hframes, hvalues])

/-- A walk that has stopped has the marks of the collector. -/
theorem has_eq_of_stuck (hh : h.Whole c) (hrun : Relation.ReflTransGen (Step h) (start h c) s)
    (hstuck : ∀ s', ¬ Step h s s') (p : Place) : s.marks.has p = (h.reach c).has p := by
  have hs := searched_of_steps hrun
  obtain ⟨hframes, htables, hvalues⟩ := stacks_of_stuck hstuck
  have hknown : ∀ {q}, s.Knows h q → s.marks.has q := has_of_knows hframes htables hvalues
  by_cases hp : h.HasPlace p
  · rw [Bool.eq_iff_iff, hh.has_reach_iff hp]
    refine ⟨hs.marked p hp, fun hreached => ?_⟩
    have hcovered : h.Covered s.marks p.item :=
      covered_of_reaches (hknown hs.start)
        (fun p hp hmarked q hq => hknown (hs.closed p (hh.hasPlace hp hq) hmarked q hq)) hreached
    cases p with
    | table t => exact hcovered
    | frame f => exact hcovered
  · rw [hs.unmade p hp, has_reach_of_not_hasPlace hp]

end Search

/-- The collector comes to an end, and what it clears are exactly the tables out of reach. Its walk
ends in whatever order it takes from its stacks, with the same marks; what is reached keeps its
tables; frames of the same world whose tables are out of reach end with empty ones; nothing else is
changed, and nothing is changed when it runs again. -/
theorem collect_exact {h : Heap} {c : FrameId} (hh : h.Whole c) :
    (WellFounded fun after before => Search.Step h before after) ∧
    (∀ s, Relation.ReflTransGen (Search.Step h) (Search.start h c) s →
      (∀ s', ¬ Search.Step h s s') → ∀ p, s.marks.has p = (h.reach c).has p) ∧
    (∀ p, h.HasPlace p → ((h.reach c).has p ↔ h.Reaches c p.item)) ∧
    (∀ t, h.Reaches c (.table t) → (h.collect c).table t = h.table t) ∧
    (∀ f, h.HasFrame f → (h.frame f).root = (h.frame c).root →
      ¬ h.Reaches c (.table (h.frame f).table) →
      ((h.collect c).table (h.frame f).table).bindings = [] ∧
        ((h.collect c).table (h.frame f).table).parent = none) ∧
    (∀ t, ¬ h.Owns c t → (h.collect c).table t = h.table t) ∧
    (h.collect c).frames = h.frames ∧ (h.collect c).functions = h.functions ∧
    (h.collect c).collect c = h.collect c := by
  refine ⟨Search.wellFounded_step h, fun s hrun hstuck => Search.has_eq_of_stuck hh hrun hstuck,
    fun p hp => hh.has_reach_iff hp, fun t ht => hh.table_collect ht, fun f hf hroot hlost => ?_,
    fun t ht => hh.table_collect_of_not_lost fun hlost => ht hlost.1, frames_collect,
    functions_collect, hh.collect_collect⟩
  rw [hh.table_collect_of_lost ⟨⟨f, hf, hroot, rfl⟩, hlost⟩]
  exact ⟨rfl, rfl⟩

/-- The frame `⟨1⟩` and the function `⟨0⟩` hold each other, and nothing else holds them. The global
frame `⟨0⟩` comes to the frame `⟨2⟩` by way of a function in a list. The frame `⟨3⟩` is of another
world. -/
def leftCycle : Heap where
  tables := #[
    { bindings := [("steps", .list [.function ⟨1⟩])] },
    { bindings := [("again", .function ⟨0⟩)], parent := some ⟨0⟩ },
    { bindings := [("ready", .bool true)], parent := some ⟨0⟩ },
    { bindings := [("other", .null)] }]
  frames := #[
    ⟨"global", ⟨0⟩, none, none, ⟨0⟩⟩, ⟨"call", ⟨1⟩, some ⟨0⟩, none, ⟨0⟩⟩,
    ⟨"home", ⟨2⟩, none, none, ⟨0⟩⟩, ⟨"elsewhere", ⟨3⟩, none, none, ⟨3⟩⟩]
  functions := #[
    { (default : Function) with home := ⟨1⟩ }, { (default : Function) with home := ⟨2⟩ }]

theorem reaches_leftCycle {item : Item} (hitem : leftCycle.Reaches ⟨0⟩ item) :
    item ∈ [.frame ⟨0⟩, .frame ⟨2⟩, .table ⟨0⟩, .table ⟨2⟩, .value (.list [.function ⟨1⟩]),
      .value (.function ⟨1⟩), .value (.bool true)] := by
  induction hitem with
  | start => exact List.mem_cons_self
  | entered _ hp ih =>
      obtain rfl | rfl : _ = FrameId.mk 0 ∨ _ = FrameId.mk 2 := by simpa using ih
      all_goals cases hp
  | owned _ ih =>
      obtain rfl | rfl : _ = FrameId.mk 0 ∨ _ = FrameId.mk 2 := by simpa using ih
      all_goals simp [leftCycle, frame]
  | above _ hp ih =>
      obtain rfl | rfl : _ = TableId.mk 0 ∨ _ = TableId.mk 2 := by simpa using ih
      all_goals cases hp
      simp
  | bound _ hentry ih =>
      obtain rfl | rfl : _ = TableId.mk 0 ∨ _ = TableId.mk 2 := by simpa using ih
      all_goals
        rw [List.mem_singleton.mp hentry]
        simp
  | home _ ih =>
      obtain rfl : _ = FunctionId.mk 1 := by simpa using ih
      simp [leftCycle, function]
  | element _ hv ih =>
      obtain rfl : _ = [Value.function ⟨1⟩] := by simpa using ih
      rw [List.mem_singleton.mp hv]
      simp
  | scope _ ih | field _ _ ih | inherited _ _ ih => simp at ih

theorem collect_exact_leftCycle :
    leftCycle.Whole ⟨0⟩ ∧
    (leftCycle.collect ⟨0⟩).table ⟨2⟩ = { bindings := [("ready", .bool true)], parent := some ⟨0⟩ } ∧
    ((leftCycle.collect ⟨0⟩).table ⟨1⟩).bindings = [] ∧
    ((leftCycle.collect ⟨0⟩).table ⟨1⟩).parent = none ∧
    (leftCycle.collect ⟨0⟩).table ⟨3⟩ = { bindings := [("other", .null)] } ∧
    (leftCycle.collect ⟨0⟩).collect ⟨0⟩ = leftCycle.collect ⟨0⟩ := by
  have hwhole : leftCycle.Whole ⟨0⟩ := by
    intro f hf
    obtain rfl | rfl : f = ⟨0⟩ ∨ f = ⟨2⟩ := by simpa using reaches_leftCycle hf
    · show 0 < 4
      decide
    · show 2 < 4
      decide
  obtain ⟨-, -, -, hkept, hcleared, hother, -, -, hagain⟩ := collect_exact hwhole
  have hlist : leftCycle.Reaches ⟨0⟩ (.value (.list [.function ⟨1⟩])) :=
    @Reaches.bound _ _ _ ("steps", _) (.owned .start) List.mem_cons_self
  have hreached : leftCycle.Reaches ⟨0⟩ (.table ⟨2⟩) :=
    .owned (.home (.element hlist List.mem_cons_self))
  have hlost : ¬ leftCycle.Reaches ⟨0⟩ (.table ⟨1⟩) := by
    intro hitem
    simpa using reaches_leftCycle hitem
  have hapart : ¬ leftCycle.Owns ⟨0⟩ ⟨3⟩ := by
    rintro ⟨⟨i⟩, hi, hroot, htable⟩
    have hi : i < 4 := hi
    obtain rfl | rfl | rfl | rfl : i = 0 ∨ i = 1 ∨ i = 2 ∨ i = 3 := by omega
    · cases htable
    · cases htable
    · cases htable
    · cases hroot
  obtain ⟨hbindings, hparent⟩ := hcleared ⟨1⟩ (show 1 < 4 by decide) rfl hlost
  exact ⟨hwhole, hkept _ hreached, hbindings, hparent, hother _ hapart, hagain⟩

end CapsuleScript.Heap
