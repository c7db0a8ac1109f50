import CapsuleScript.Proofs.Heap.Step
import CapsuleScript.Heap.Reach

/-! What a frame reaches, and that clearing the rest leaves it alone. Reaching is a relation of its
own, one rule for each way to come from a frame, a table or a value to another. The walk of the
collector marks everything that is reached, so that what is reached keeps its tables. -/

namespace CapsuleScript

/-- A frame, a table or a value. -/
inductive Item where
  | frame (id : FrameId)
  | table (id : TableId)
  | value (v : Value)

/-- The place as something that may be reached. -/
def Place.item : Place → Item
  | .table t => .table t
  | .frame f => .frame f

namespace Heap

/-- What is reached from the frame `c`. -/
inductive Reaches (h : Heap) (c : FrameId) : Item → Prop where
  | start : Reaches h c (.frame c)
  | entered {f p : FrameId} :
      Reaches h c (.frame f) → (h.frame f).parent = some p → Reaches h c (.frame p)
  | owned {f : FrameId} : Reaches h c (.frame f) → Reaches h c (.table (h.frame f).table)
  | above {t p : TableId} :
      Reaches h c (.table t) → (h.table t).parent = some p → Reaches h c (.table p)
  | bound {t : TableId} {entry : String × Value} :
      Reaches h c (.table t) → entry ∈ (h.table t).bindings → Reaches h c (.value entry.2)
  | home {g : FunctionId} :
      Reaches h c (.value (.function g)) → Reaches h c (.frame (h.function g).home)
  | element {elements : List Value} {v : Value} :
      Reaches h c (.value (.list elements)) → v ∈ elements → Reaches h c (.value v)
  | scope {fields inherited : List (String × Value)} {types : List String} {s : FrameId} :
      Reaches h c (.value (.encap fields inherited types s)) → Reaches h c (.frame s)
  | field {fields inherited : List (String × Value)} {types : List String} {s : FrameId}
      {entry : String × Value} :
      Reaches h c (.value (.encap fields inherited types s)) → entry ∈ fields →
      Reaches h c (.value entry.2)
  | inherited {fields inherited : List (String × Value)} {types : List String} {s : FrameId}
      {entry : String × Value} :
      Reaches h c (.value (.encap fields inherited types s)) → entry ∈ inherited →
      Reaches h c (.value entry.2)

end Heap

/-! ### The frames that values hold -/

namespace Value

variable {homeOf : FunctionId → FrameId} {f : FrameId}

mutual

theorem mem_addFrames : (v : Value) → (found : List FrameId) →
    (f ∈ addFrames homeOf v found ↔ f ∈ addFrames homeOf v [] ∨ f ∈ found)
  | .function g, found => by simp [addFrames]
  | .list elements, found => mem_addFramesOfAll elements found
  | .encap fields inherited _ scope, found => by
      simp only [addFrames, List.mem_cons]
      rw [mem_addFramesOfEntries fields (addFramesOfEntries homeOf inherited found),
        mem_addFramesOfEntries fields (addFramesOfEntries homeOf inherited []),
        mem_addFramesOfEntries inherited found]
      simp only [or_assoc]
  | .number _, found | .bool _, found | .null, found | .text _, found | .empty, found => by
      simp [addFrames]

theorem mem_addFramesOfAll : (values : List Value) → (found : List FrameId) →
    (f ∈ addFramesOfAll homeOf values found ↔ f ∈ addFramesOfAll homeOf values [] ∨ f ∈ found)
  | [], found => by simp [addFramesOfAll]
  | v :: rest, found => by
      simp only [addFramesOfAll]
      rw [mem_addFrames v (addFramesOfAll homeOf rest found),
        mem_addFrames v (addFramesOfAll homeOf rest []), mem_addFramesOfAll rest found, or_assoc]

theorem mem_addFramesOfEntries : (entries : List (String × Value)) → (found : List FrameId) →
    (f ∈ addFramesOfEntries homeOf entries found ↔
      f ∈ addFramesOfEntries homeOf entries [] ∨ f ∈ found)
  | [], found => by simp [addFramesOfEntries]
  | (_, v) :: rest, found => by
      simp only [addFramesOfEntries]
      rw [mem_addFrames v (addFramesOfEntries homeOf rest found),
        mem_addFrames v (addFramesOfEntries homeOf rest []), mem_addFramesOfEntries rest found,
        or_assoc]

end

theorem mem_addFramesOfAll_of_mem {values : List Value} {v : Value} (hv : v ∈ values)
    (hf : f ∈ addFrames homeOf v []) : f ∈ addFramesOfAll homeOf values [] := by
  induction values with
  | nil => cases hv
  | cons w rest ih =>
      rw [addFramesOfAll, mem_addFrames]
      rcases List.mem_cons.mp hv with rfl | hrest
      · exact .inl hf
      · exact .inr (ih hrest)

theorem mem_addFramesOfEntries_of_mem {entries : List (String × Value)} {entry : String × Value}
    (hentry : entry ∈ entries) (hf : f ∈ addFrames homeOf entry.2 []) :
    f ∈ addFramesOfEntries homeOf entries [] := by
  induction entries with
  | nil => cases hentry
  | cons other rest ih =>
      rw [addFramesOfEntries, mem_addFrames]
      rcases List.mem_cons.mp hentry with rfl | hrest
      · exact .inl hf
      · exact .inr (ih hrest)

end Value

/-! ### The walk of the collector -/

namespace Marks

variable {marks : Marks} {p q : Place}

theorem getD_setIfInBounds_true {a : Array Bool} {i j : Nat} :
    (a.setIfInBounds i true).getD j true = (a.getD j true || decide (i = j)) := by
  simp only [Array.getD_eq_getD_getElem?, Array.getElem?_setIfInBounds]
  by_cases hij : i = j
  · subst hij
    by_cases hlt : i < a.size
    · simp [hlt]
    · simp [hlt]
  · simp [hij]

theorem has_mark : (marks.mark p).has q = (marks.has q || decide (p = q)) := by
  cases p with
  | table t =>
      cases q with
      | table u =>
          have heq : decide (Place.table t = Place.table u) = decide (t.index = u.index) := by
            cases t
            cases u
            simp
          rw [heq]
          exact getD_setIfInBounds_true
      | frame f => simp [mark, has]
  | frame f =>
      cases q with
      | table u => simp [mark, has]
      | frame g =>
          have heq : decide (Place.frame f = Place.frame g) = decide (f.index = g.index) := by
            cases f
            cases g
            simp
          rw [heq]
          exact getD_setIfInBounds_true

end Marks

namespace Heap

variable {h : Heap} {marks : Marks} {p q : Place}

/-- The walk keeps its marks, marks all it has to visit, and with a place that it marks it marks
those that one comes to from there. -/
theorem explore_spec (h : Heap) (marks : Marks) (work : List Place) :
    (∀ p, marks.has p → (h.explore marks work).has p) ∧
    (∀ p ∈ work, (h.explore marks work).has p) ∧
    ∀ p, (h.explore marks work).has p → marks.has p = false →
      ∀ q ∈ h.successors p, (h.explore marks work).has q := by
  induction marks, work using explore.induct h with
  | case1 marks =>
      rw [explore]
      refine ⟨fun _ hp => hp, by simp, fun p hp hnot => ?_⟩
      rw [hp] at hnot
      cases hnot
  | case2 marks p work hmarked ih =>
      obtain ⟨hkept, hwork, hclosed⟩ := ih
      rw [explore, if_pos hmarked]
      refine ⟨hkept, fun q hq => ?_, hclosed⟩
      rcases List.mem_cons.mp hq with rfl | hrest
      · exact hkept _ hmarked
      · exact hwork q hrest
  | case3 marks p work hunmarked ih =>
      obtain ⟨hkept, hwork, hclosed⟩ := ih
      rw [explore, if_neg hunmarked]
      have hself : (h.explore (marks.mark p) (h.successors p ++ work)).has p := by
        refine hkept p ?_
        rw [Marks.has_mark]
        simp
      refine ⟨fun q hq => ?_, fun q hq => ?_, fun q hq hnot r hr => ?_⟩
      · refine hkept q ?_
        rw [Marks.has_mark, hq]
        rfl
      · rcases List.mem_cons.mp hq with rfl | hrest
        · exact hself
        · exact hwork q (List.mem_append_right _ hrest)
      · by_cases hpq : p = q
        · subst hpq
          exact hwork r (List.mem_append_left _ hr)
        · refine hclosed q hq ?_ r hr
          rw [Marks.has_mark, hnot]
          simpa using hpq

/-- The place has been made. -/
def HasPlace (h : Heap) : Place → Prop
  | .table t => h.HasTable t
  | .frame f => h.HasFrame f

/-- Nothing is marked yet. -/
def unmarked (h : Heap) : Marks :=
  ⟨Array.replicate h.tables.size false, Array.replicate h.frames.size false⟩

theorem has_unmarked (hp : h.HasPlace p) : h.unmarked.has p = false := by
  cases p with
  | table t =>
      have ht : t.index < h.tables.size := hp
      simp [unmarked, Marks.has, Array.getD_eq_getD_getElem?, ht]
  | frame f =>
      have hf : f.index < h.frames.size := hp
      simp [unmarked, Marks.has, Array.getD_eq_getD_getElem?, hf]

variable {c : FrameId}

theorem has_reach_self : (h.reach c).has (.frame c) :=
  (explore_spec h _ _).2.1 _ List.mem_cons_self

theorem reach_closed (hp : h.HasPlace p) (hmarked : (h.reach c).has p)
    (hq : q ∈ h.successors p) : (h.reach c).has q :=
  (explore_spec h _ _).2.2 p hmarked (has_unmarked hp) q hq

/-- The marks cover an item: a place is marked, and so are all frames that a value holds. -/
def Covered (h : Heap) (marks : Marks) : Item → Prop
  | .frame f => marks.has (.frame f)
  | .table t => marks.has (.table t)
  | .value v => ∀ f ∈ v.addFrames (fun g => (h.function g).home) [], marks.has (.frame f)

/-- Marks that go on from every place they have cover everything that is reached. -/
theorem covered_of_reaches (hstart : marks.has (.frame c))
    (hclosed : ∀ p, h.Reaches c p.item → marks.has p → ∀ q ∈ h.successors p, marks.has q)
    {item : Item} (hitem : h.Reaches c item) : h.Covered marks item := by
  induction hitem with
  | start => exact hstart
  | @entered f p hf hp ih => exact hclosed (.frame f) hf ih (.frame p) (by simp [successors, hp])
  | @owned f hf ih => exact hclosed (.frame f) hf ih (.table _) (by simp [successors])
  | @above t p ht hp ih => exact hclosed (.table t) ht ih (.table p) (by simp [successors, hp])
  | @bound t entry ht hentry ih =>
      intro f hf
      refine hclosed (.table t) ht ih (.frame f) ?_
      simp only [successors, List.mem_append, List.mem_map]
      exact .inr ⟨f, Value.mem_addFramesOfEntries_of_mem hentry hf, rfl⟩
  | home _ ih => exact ih _ (by simp [Value.addFrames])
  | element _ hv ih => exact fun f hf => ih f (Value.mem_addFramesOfAll_of_mem hv hf)
  | scope _ ih => exact ih _ (by simp [Value.addFrames])
  | field _ hentry ih =>
      intro f hf
      apply ih f
      rw [Value.addFrames, List.mem_cons, Value.mem_addFramesOfEntries]
      exact .inr (.inl (Value.mem_addFramesOfEntries_of_mem hentry hf))
  | inherited _ hentry ih =>
      intro f hf
      apply ih f
      rw [Value.addFrames, List.mem_cons, Value.mem_addFramesOfEntries]
      exact .inr (.inr (Value.mem_addFramesOfEntries_of_mem hentry hf))

/-- What has been made, of each kind. -/
def Made (h : Heap) : Item → Prop
  | .frame f => h.HasFrame f
  | .table t => h.HasTable t
  | .value v => v.Lives h

theorem Sound.made_of_reaches (hh : h.Sound) (hc : h.HasFrame c) {item : Item}
    (hitem : h.Reaches c item) : h.Made item := by
  induction hitem with
  | start => exact hc
  | entered _ hp ih => exact hh.hasFrame_parent ih hp
  | owned _ ih => exact hh.hasTable ih
  | above _ hp _ => exact hh.rooted.hasTable_parent hp
  | @bound t entry _ hentry _ => exact Value.entriesLive_iff.mp (hh.live t) entry hentry
  | home _ ih => exact hh.home ih
  | element _ hv ih => exact Value.allLive_iff.mp ih _ hv
  | scope _ ih => exact ih.2.2
  | field _ hentry ih => exact Value.entriesLive_iff.mp ih.1 _ hentry
  | inherited _ hentry ih => exact Value.entriesLive_iff.mp ih.2.1 _ hentry

theorem Sound.hasPlace_of_reaches (hh : h.Sound) (hc : h.HasFrame c) (hp : h.Reaches c p.item) :
    h.HasPlace p := by
  have hmade := hh.made_of_reaches hc hp
  cases p <;> exact hmade

/-- What is marked, of each kind: places themselves, and of a value the frames it holds. -/
def Marked (h : Heap) (c : FrameId) : Item → Prop
  | .frame f => h.HasFrame f ∧ (h.reach c).has (.frame f)
  | .table t => h.HasTable t ∧ (h.reach c).has (.table t)
  | .value v => v.Lives h ∧
      ∀ f ∈ v.addFrames (fun g => (h.function g).home) [], (h.reach c).has (.frame f)

/-- Everything that is reached from a frame of a sound heap has been made and is marked. -/
theorem Sound.marked_of_reaches (hh : h.Sound) (hc : h.HasFrame c) {item : Item}
    (hitem : h.Reaches c item) : h.Marked c item := by
  have hmade := hh.made_of_reaches hc hitem
  have hcovered : h.Covered (h.reach c) item :=
    covered_of_reaches has_reach_self
      (fun q hq hmarked _ hr => reach_closed (hh.hasPlace_of_reaches hc hq) hmarked hr) hitem
  cases item <;> exact ⟨hmade, hcovered⟩

/-! ### Clearing -/

theorem clearTables_parts (frames : List Frame) (test : Frame → Bool) :
    (h.clearTables frames test).tables.size = h.tables.size ∧
    (h.clearTables frames test).frames = h.frames ∧
    (h.clearTables frames test).functions = h.functions := by
  unfold clearTables
  induction frames generalizing h with
  | nil => exact ⟨rfl, rfl, rfl⟩
  | cons frame rest ih =>
      rw [List.foldl_cons]
      obtain ⟨htables, hframes, hfunctions⟩ := ih (h := if test frame then _ else _)
      rw [htables, hframes, hfunctions]
      split
      · exact ⟨by simp, rfl, rfl⟩
      · exact ⟨rfl, rfl, rfl⟩

/-- A table is cleared or stays as it is, and one that no frame to clear has stays. -/
theorem table_clearTables (frames : List Frame) (test : Frame → Bool) (t : TableId) :
    ((h.clearTables frames test).table t = {} ∨ (h.clearTables frames test).table t = h.table t) ∧
    ((∀ frame ∈ frames, test frame → frame.table ≠ t) →
      (h.clearTables frames test).table t = h.table t) := by
  unfold clearTables
  induction frames generalizing h with
  | nil => exact ⟨.inr rfl, fun _ => rfl⟩
  | cons frame rest ih =>
      rw [List.foldl_cons]
      obtain ⟨hor, hkept⟩ := ih (h := if test frame then h.clearTable frame.table else h)
      have hfirst : (if test frame then h.clearTable frame.table else h).table t = {} ∨
          (if test frame then h.clearTable frame.table else h).table t = h.table t := by
        split
        · rw [table_clearTable]
          split
          · exact .inl rfl
          · exact .inr rfl
        · exact .inr rfl
      refine ⟨?_, fun hnone => ?_⟩
      · rcases hor with hclear | hsame
        · exact .inl hclear
        · rw [hsame]
          exact hfirst
      · rw [hkept fun other hmem => hnone other (List.mem_cons_of_mem _ hmem)]
        split
        · rename_i htest
          have hne := hnone frame List.mem_cons_self htest
          rw [table_clearTable, if_neg fun heq => hne heq.symm]
        · rfl

/-- The table of a frame that passes the test is cleared. -/
theorem table_clearTables_of_mem {frames : List Frame} {test : Frame → Bool} {frame : Frame}
    {t : TableId} (hmem : frame ∈ frames) (htest : test frame) (ht : frame.table = t) :
    (h.clearTables frames test).table t = {} := by
  induction frames generalizing h with
  | nil => cases hmem
  | cons first rest ih =>
      rcases List.mem_cons.mp hmem with rfl | hrest
      · have hcleared : (h.clearTable frame.table).table t = {} := by
          rw [table_clearTable, if_pos ht.symm]
        have hfirst : h.clearTables (frame :: rest) test =
            (h.clearTable frame.table).clearTables rest test := by
          rw [clearTables, List.foldl_cons, if_pos htest]
          rfl
        rw [hfirst]
        rcases (table_clearTables (h := h.clearTable frame.table) rest test t).1 with hclear | hsame
        · exact hclear
        · exact hsame.trans hcleared
      · exact ih hrest

@[simp] theorem tables_size_collect : (h.collect c).tables.size = h.tables.size :=
  (clearTables_parts _ _).1

@[simp] theorem frames_collect : (h.collect c).frames = h.frames := (clearTables_parts _ _).2.1

@[simp] theorem functions_collect : (h.collect c).functions = h.functions :=
  (clearTables_parts _ _).2.2

theorem table_collect_or (t : TableId) :
    (h.collect c).table t = {} ∨ (h.collect c).table t = h.table t :=
  (table_clearTables _ _ t).1

theorem table_collect_of_marked {t : TableId} (ht : (h.reach c).has (.table t)) :
    (h.collect c).table t = h.table t := by
  refine (table_clearTables _ _ t).2 fun frame _ htest => ?_
  rintro rfl
  simp [ht] at htest

/-- The tables of frames of the same world are cleared if they are not marked. -/
theorem table_collect_of_not_marked {f : FrameId} (hf : h.HasFrame f)
    (hroot : (h.frame f).root = (h.frame c).root)
    (hmarked : ¬ (h.reach c).has (.table (h.frame f).table)) :
    (h.collect c).table (h.frame f).table = {} := by
  have hmem : h.frame f ∈ h.frames.toList := by
    rw [frame, Array.getD_eq_getD_getElem?, Array.getElem?_eq_getElem hf]
    exact Array.getElem_mem_toList hf
  refine table_clearTables_of_mem hmem ?_ rfl
  simp [hroot, hmarked]

/-- Clearing brings nothing into reach. -/
theorem Reaches.of_collect {item : Item} (hitem : (h.collect c).Reaches c item) :
    h.Reaches c item := by
  induction hitem with
  | start => exact .start
  | entered _ hp ih =>
      rw [frame_congr frames_collect] at hp
      exact .entered ih hp
  | owned _ ih =>
      rw [frame_congr frames_collect]
      exact .owned ih
  | @above t p _ hp ih =>
      rcases table_collect_or (h := h) (c := c) t with hclear | hsame
      · rw [hclear] at hp
        cases hp
      · rw [hsame] at hp
        exact .above ih hp
  | @bound t entry _ hentry ih =>
      rcases table_collect_or (h := h) (c := c) t with hclear | hsame
      · rw [hclear] at hentry
        cases hentry
      · rw [hsame] at hentry
        exact .bound ih hentry
  | home _ ih =>
      rw [function_congr functions_collect]
      exact .home ih
  | element _ hv ih => exact .element ih hv
  | scope _ ih => exact .scope ih
  | field _ hentry ih => exact .field ih hentry
  | inherited _ hentry ih => exact .inherited ih hentry

/-- What is reached keeps its table. -/
theorem Sound.table_collect (hh : h.Sound) (hc : h.HasFrame c) {t : TableId}
    (ht : h.Reaches c (.table t)) : (h.collect c).table t = h.table t :=
  table_collect_of_marked (hh.marked_of_reaches hc ht).2

/-- Chains end where a table is cleared, or where they ended. -/
theorem Rooted.collect (hh : h.Rooted) : (h.collect c).Rooted := by
  have hparent : ∀ {t p}, ((h.collect c).table t).parent = some p → (h.table t).parent = some p := by
    intro t p hp
    rcases table_collect_or (h := h) (c := c) t with hclear | hsame
    · rw [hclear] at hp
      cases hp
    · rwa [hsame] at hp
  have hpath : ∀ {o l}, h.Path o l → ∃ m, (h.collect c).Path o m := by
    intro o l hl
    induction hl with
    | nil => exact ⟨[], .nil⟩
    | @cons t rest _ ih =>
        obtain ⟨m, hm⟩ := ih
        rcases table_collect_or (h := h) (c := c) t with hclear | hsame
        · refine ⟨[t], .cons ?_⟩
          rw [hclear]
          exact .nil
        · refine ⟨t :: m, .cons ?_⟩
          rw [hsame]
          exact hm
  refine ⟨fun hp => ?_, fun t => ?_⟩
  · rw [HasTable, tables_size_collect]
    exact hh.hasTable_parent (hparent hp)
  · obtain ⟨l, hl⟩ := hh.exists_path t
    exact hpath hl

/-- A heap some of whose tables are cleared stays sound. -/
theorem Sound.collect (hh : h.Sound) : (h.collect c).Sound := by
  refine hh.of_tables hh.rooted.collect (by simp) frames_collect functions_collect fun t => ?_
  rcases table_collect_or (h := h) (c := c) t with hclear | hsame
  · rw [hclear]
    trivial
  · rw [hsame]
    exact hh.live t

end Heap

end CapsuleScript
