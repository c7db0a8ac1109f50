import CapsuleScript.Proofs.Heap.Reach
import Mathlib.Algebra.Order.BigOperators.Group.List
import Mathlib.Algebra.Order.Ring.Nat

/-! What the collector marks and what it clears. It marks exactly what is reached, so the tables that
it clears are those of frames of the same world that are out of reach, and no others. What was in
reach stays in reach, so that clearing again changes nothing (`Whole.collect_collect`). -/

namespace CapsuleScript

namespace Value

variable {homeOf : FunctionId → FrameId}

/-- The frame that a value itself leads to. -/
def ownFrames (homeOf : FunctionId → FrameId) : Value → List FrameId
  | .function g => [homeOf g]
  | .encap _ _ _ scope => [scope]
  | _ => []

/-- The values that a value is made of. -/
def parts : Value → List Value
  | .list elements => elements
  | .encap fields inherited _ _ => fields.map Prod.snd ++ inherited.map Prod.snd
  | _ => []

theorem mem_addFramesOfAll_iff {values : List Value} {f : FrameId} :
    f ∈ addFramesOfAll homeOf values [] ↔ ∃ v ∈ values, f ∈ addFrames homeOf v [] := by
  induction values with
  | nil => simp [addFramesOfAll]
  | cons v rest ih => rw [addFramesOfAll, mem_addFrames, ih, List.exists_mem_cons_iff]

theorem mem_addFramesOfEntries_iff {entries : List (String × Value)} {f : FrameId} :
    f ∈ addFramesOfEntries homeOf entries [] ↔
      ∃ v ∈ entries.map Prod.snd, f ∈ addFrames homeOf v [] := by
  induction entries with
  | nil => simp [addFramesOfEntries]
  | cons entry rest ih =>
      rw [addFramesOfEntries, mem_addFrames, ih, List.map_cons, List.exists_mem_cons_iff]

/-- A value holds the frame that it leads to itself and those that its parts hold. -/
theorem mem_addFrames_iff {v : Value} {f : FrameId} :
    f ∈ addFrames homeOf v [] ↔
      f ∈ v.ownFrames homeOf ∨ ∃ w ∈ v.parts, f ∈ addFrames homeOf w [] := by
  cases v with
  | list elements => simp [addFrames, ownFrames, parts, mem_addFramesOfAll_iff]
  | encap fields inherited types scope =>
      rw [addFrames, List.mem_cons, mem_addFramesOfEntries, mem_addFramesOfEntries_iff,
        mem_addFramesOfEntries_iff]
      simp only [ownFrames, parts, List.mem_singleton, List.mem_append, or_and_right, exists_or]
  | _ => simp [addFrames, ownFrames, parts]

theorem sizeOf_values_le (values : List Value) : (values.map sizeOf).sum ≤ sizeOf values := by
  induction values with
  | nil => simp
  | cons v rest ih =>
      rw [List.map_cons, List.sum_cons, List.cons.sizeOf_spec]
      omega

theorem sizeOf_entries_le (entries : List (String × Value)) :
    ((entries.map Prod.snd).map sizeOf).sum ≤ sizeOf entries := by
  induction entries with
  | nil => simp
  | cons entry rest ih =>
      obtain ⟨name, v⟩ := entry
      simp only [List.map_cons, List.sum_cons, List.cons.sizeOf_spec, Prod.mk.sizeOf_spec]
      omega

/-- Together the parts of a value are smaller than the value. -/
theorem sizeOf_parts_lt (v : Value) : (v.parts.map sizeOf).sum < sizeOf v := by
  cases v with
  | list elements =>
      have hle := sizeOf_values_le elements
      rw [parts, Value.list.sizeOf_spec]
      omega
  | encap fields inherited types scope =>
      have hfields := sizeOf_entries_le fields
      have hinherited := sizeOf_entries_le inherited
      rw [parts, List.map_append, List.sum_append, Value.encap.sizeOf_spec]
      omega
  | number | bool | null | text | function | empty =>
      simp only [parts, List.map_nil, List.sum_nil, Value.number.sizeOf_spec,
        Value.bool.sizeOf_spec, Value.null.sizeOf_spec, Value.text.sizeOf_spec,
        Value.function.sizeOf_spec, Value.empty.sizeOf_spec]
      omega

theorem sizeOf_lt_of_mem_parts {v w : Value} (hw : w ∈ v.parts) : sizeOf w < sizeOf v :=
  Nat.lt_of_le_of_lt (List.le_sum_of_mem (List.mem_map_of_mem hw)) v.sizeOf_parts_lt

end Value

namespace Heap

variable {h : Heap} {c : FrameId} {marks : Marks} {p q : Place}

/-! ### What one comes to is reached -/

theorem Reaches.part {v w : Value} (hv : h.Reaches c (.value v)) (hw : w ∈ v.parts) :
    h.Reaches c (.value w) := by
  cases v with
  | list => exact .element hv hw
  | encap =>
      rcases List.mem_append.mp hw with hw | hw
      · obtain ⟨entry, hentry, rfl⟩ := List.mem_map.mp hw
        exact .field hv hentry
      · obtain ⟨entry, hentry, rfl⟩ := List.mem_map.mp hw
        exact .inherited hv hentry
  | _ => exact absurd hw List.not_mem_nil

theorem Reaches.ownFrame {v : Value} {f : FrameId} (hv : h.Reaches c (.value v))
    (hf : f ∈ v.ownFrames (fun g => (h.function g).home)) : h.Reaches c (.frame f) := by
  cases v with
  | function =>
      rw [List.mem_singleton.mp hf]
      exact .home hv
  | encap =>
      rw [List.mem_singleton.mp hf]
      exact .scope hv
  | _ => exact absurd hf List.not_mem_nil

theorem Reaches.of_mem_addFrames {v : Value} {f : FrameId} (hv : h.Reaches c (.value v))
    (hf : f ∈ v.addFrames (fun g => (h.function g).home) []) : h.Reaches c (.frame f) := by
  rcases Value.mem_addFrames_iff.mp hf with hown | ⟨w, hw, hf⟩
  · exact hv.ownFrame hown
  · have hlt := Value.sizeOf_lt_of_mem_parts hw
    exact of_mem_addFrames (hv.part hw) hf
termination_by sizeOf v

theorem Reaches.successor (hp : h.Reaches c p.item) (hq : q ∈ h.successors p) :
    h.Reaches c q.item := by
  cases p with
  | frame f =>
      rcases List.mem_cons.mp hq with rfl | hq
      · exact .owned hp
      · obtain ⟨f', hparent, rfl⟩ := List.mem_map.mp hq
        exact .entered hp (Option.mem_toList.mp hparent)
  | table t =>
      rcases List.mem_append.mp hq with hq | hq
      · obtain ⟨t', hparent, rfl⟩ := List.mem_map.mp hq
        exact .above hp (Option.mem_toList.mp hparent)
      · obtain ⟨f, hf, rfl⟩ := List.mem_map.mp hq
        obtain ⟨v, hv, hf⟩ := Value.mem_addFramesOfEntries_iff.mp hf
        obtain ⟨entry, hentry, rfl⟩ := List.mem_map.mp hv
        exact of_mem_addFrames (.bound hp hentry) hf

/-- Everything that the walk marks is reached. -/
theorem reaches_of_explore {work : List Place} (hwork : ∀ p ∈ work, h.Reaches c p.item)
    (hp : (h.explore marks work).has p) : marks.has p ∨ h.Reaches c p.item := by
  induction marks, work using explore.induct h with
  | case1 marks =>
      rw [explore] at hp
      exact .inl hp
  | case2 marks p' work hmarked ih =>
      rw [explore, if_pos hmarked] at hp
      exact ih (fun q hq => hwork q (List.mem_cons_of_mem _ hq)) hp
  | case3 marks p' work hunmarked ih =>
      rw [explore, if_neg hunmarked] at hp
      have hfirst := hwork p' List.mem_cons_self
      have hnext : ∀ q ∈ h.successors p' ++ work, h.Reaches c q.item := by
        intro q hq
        rcases List.mem_append.mp hq with hq | hq
        · exact hfirst.successor hq
        · exact hwork q (List.mem_cons_of_mem _ hq)
      rcases ih hnext hp with hmark | hreached
      · rw [Marks.has_mark, Bool.or_eq_true, decide_eq_true_eq] at hmark
        rcases hmark with hmark | rfl
        · exact .inl hmark
        · exact .inr hfirst
      · exact .inr hreached

/-! ### What is reached is marked -/

/-- Every frame that is reached from `c` has been made. -/
def Whole (h : Heap) (c : FrameId) : Prop := ∀ f, h.Reaches c (.frame f) → h.HasFrame f

theorem Sound.whole (hh : h.Sound) (hc : h.HasFrame c) : h.Whole c :=
  fun _ hf => hh.made_of_reaches hc hf

/-- Nothing comes after a table that has not been made. -/
theorem successors_eq_nil {t : TableId} (ht : ¬ h.HasTable t) : h.successors (.table t) = [] := by
  simp [successors, table_of_not_hasTable ht, Value.addFramesOfEntries]

/-- A place that is reached has been made, or nothing comes after it. -/
theorem Whole.hasPlace (hh : h.Whole c) (hp : h.Reaches c p.item) (hq : q ∈ h.successors p) :
    h.HasPlace p := by
  cases p with
  | frame f => exact hh f hp
  | table t =>
      by_contra hmissing
      rw [successors_eq_nil hmissing] at hq
      exact List.not_mem_nil hq

theorem Whole.covered (hh : h.Whole c) {item : Item} (hitem : h.Reaches c item) :
    h.Covered (h.reach c) item :=
  covered_of_reaches has_reach_self
    (fun _ hp hmarked _ hq => reach_closed (hh.hasPlace hp hq) hmarked hq) hitem

/-- The collector marks exactly what is reached. -/
theorem Whole.has_reach_iff (hh : h.Whole c) (hp : h.HasPlace p) :
    (h.reach c).has p ↔ h.Reaches c p.item := by
  constructor
  · intro hmarked
    have hstart : ∀ p ∈ [Place.frame c], h.Reaches c p.item := by
      intro p hp
      rw [List.mem_singleton.mp hp]
      exact .start
    rcases reaches_of_explore hstart hmarked with hmark | hreached
    · have hnot : h.unmarked.has p = false := has_unmarked hp
      exact absurd (hnot.symm.trans hmark) Bool.false_ne_true
    · exact hreached
  · intro hreached
    have hcovered := hh.covered hreached
    cases p with
    | table t => exact hcovered
    | frame f => exact hcovered

/-- Places that have not been made count as marked. -/
theorem has_unmarked_of_not_hasPlace (hp : ¬ h.HasPlace p) : h.unmarked.has p := by
  cases p with
  | table t =>
      have ht : ¬ t.index < h.tables.size := hp
      simp [unmarked, Marks.has, Array.getD, ht]
  | frame f =>
      have hf : ¬ f.index < h.frames.size := hp
      simp [unmarked, Marks.has, Array.getD, hf]

theorem has_reach_of_not_hasPlace (hp : ¬ h.HasPlace p) : (h.reach c).has p :=
  (explore_spec h _ _).1 p (has_unmarked_of_not_hasPlace hp)

/-! ### What is cleared -/

/-- A frame of the world of `c` has the table `t`. -/
def Owns (h : Heap) (c : FrameId) (t : TableId) : Prop :=
  ∃ f, h.HasFrame f ∧ (h.frame f).root = (h.frame c).root ∧ (h.frame f).table = t

/-- The table `t` is one that a frame of the world of `c` has, and out of reach. -/
def Lost (h : Heap) (c : FrameId) (t : TableId) : Prop := h.Owns c t ∧ ¬ h.Reaches c (.table t)

theorem Whole.table_collect (hh : h.Whole c) {t : TableId} (ht : h.Reaches c (.table t)) :
    (h.collect c).table t = h.table t :=
  table_collect_of_marked (hh.covered ht)

/-- Tables that are out of reach lose their bindings and their parent. -/
theorem Whole.table_collect_of_lost (hh : h.Whole c) {t : TableId} (ht : h.Lost c t) :
    (h.collect c).table t = {} := by
  obtain ⟨⟨f, hf, hroot, rfl⟩, hlost⟩ := ht
  by_cases hmade : h.HasTable (h.frame f).table
  · apply table_collect_of_not_marked hf hroot
    intro hmarked
    have hplace : h.HasPlace (.table (h.frame f).table) := hmade
    exact hlost ((hh.has_reach_iff hplace).mp hmarked)
  · apply table_of_not_hasTable
    rwa [HasTable, tables_size_collect]

theorem exists_frame_of_mem {frame : Frame} (hframe : frame ∈ h.frames.toList) :
    ∃ f, h.HasFrame f ∧ h.frame f = frame := by
  obtain ⟨i, hi, rfl⟩ := List.getElem_of_mem hframe
  rw [Array.length_toList] at hi
  refine ⟨⟨i⟩, hi, ?_⟩
  rw [Heap.frame, Array.getD, dif_pos hi, Array.getElem_toList]
  rfl

/-- No other tables are touched. -/
theorem Whole.table_collect_of_not_lost (hh : h.Whole c) {t : TableId} (ht : ¬ h.Lost c t) :
    (h.collect c).table t = h.table t := by
  by_cases hreached : h.Reaches c (.table t)
  · exact hh.table_collect hreached
  · apply (table_clearTables _ _ t).2
    intro frame hframe htest heq
    obtain ⟨f, hf, rfl⟩ := exists_frame_of_mem hframe
    rw [Bool.and_eq_true, decide_eq_true_eq] at htest
    exact ht ⟨⟨f, hf, htest.1, heq⟩, hreached⟩

/-- Clearing keeps in reach what was in reach. -/
theorem Whole.reaches_collect (hh : h.Whole c) {item : Item} (hitem : h.Reaches c item) :
    (h.collect c).Reaches c item := by
  induction hitem with
  | start => exact .start
  | entered _ hp ih => exact .entered ih (by rwa [frame_congr frames_collect])
  | @owned f _ ih =>
      have howned := Reaches.owned ih
      rwa [frame_congr frames_collect] at howned
  | above ht hp ih => exact .above ih (by rwa [hh.table_collect ht])
  | bound ht hentry ih => exact .bound ih (by rwa [hh.table_collect ht])
  | @home g _ ih =>
      have hhome := Reaches.home ih
      rwa [function_congr functions_collect] at hhome
  | element _ hv ih => exact .element ih hv
  | scope _ ih => exact .scope ih
  | field _ hentry ih => exact .field ih hentry
  | inherited _ hentry ih => exact .inherited ih hentry

theorem Whole.reaches_collect_iff (hh : h.Whole c) {item : Item} :
    (h.collect c).Reaches c item ↔ h.Reaches c item :=
  ⟨Reaches.of_collect, hh.reaches_collect⟩

theorem Whole.collect (hh : h.Whole c) : (h.collect c).Whole c := by
  intro f hf
  rw [HasFrame, frames_collect]
  exact hh f hf.of_collect

theorem Whole.lost_collect_iff (hh : h.Whole c) {t : TableId} :
    (h.collect c).Lost c t ↔ h.Lost c t := by
  simp only [Lost, Owns, HasFrame, frames_collect, frame_congr frames_collect,
    hh.reaches_collect_iff]

/-- Heaps are equal if they have the same frames and functions and tables of the same contents. -/
theorem eq_of_tables {h₁ h₂ : Heap} (hframes : h₁.frames = h₂.frames)
    (hfunctions : h₁.functions = h₂.functions) (hsize : h₁.tables.size = h₂.tables.size)
    (htables : ∀ t, h₁.table t = h₂.table t) : h₁ = h₂ := by
  obtain ⟨tables₁, frames₁, functions₁⟩ := h₁
  obtain ⟨tables₂, frames₂, functions₂⟩ := h₂
  have htables : tables₁ = tables₂ := by
    apply Array.ext hsize
    intro i hi₁ hi₂
    have hget : tables₁.getD i default = tables₂.getD i default := htables ⟨i⟩
    rw [Array.getD, Array.getD, dif_pos hi₁, dif_pos hi₂] at hget
    exact hget
  rw [htables, show frames₁ = frames₂ from hframes, show functions₁ = functions₂ from hfunctions]

/-- Clearing again what is out of reach changes nothing. -/
theorem Whole.collect_collect (hh : h.Whole c) : (h.collect c).collect c = h.collect c := by
  apply eq_of_tables frames_collect functions_collect tables_size_collect
  intro t
  by_cases ht : h.Lost c t
  · rw [hh.collect.table_collect_of_lost (hh.lost_collect_iff.mpr ht), hh.table_collect_of_lost ht]
  · exact hh.collect.table_collect_of_not_lost fun hlost => ht (hh.lost_collect_iff.mp hlost)

end Heap

end CapsuleScript
