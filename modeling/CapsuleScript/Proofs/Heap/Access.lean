import CapsuleScript.Heap.Splice

/-! What each write leaves to be read. Every operation on the heap is described by the tables,
frames and functions that are found in it afterwards, so that later arguments never open the arrays
that hold them. -/

namespace CapsuleScript

theorem TableId.eq_of_index_eq {t u : TableId} (h : t.index = u.index) : t = u := by
  cases t
  cases u
  exact congrArg _ h

theorem FrameId.eq_of_index_eq {f g : FrameId} (h : f.index = g.index) : f = g := by
  cases f
  cases g
  exact congrArg _ h

theorem FunctionId.eq_of_index_eq {f g : FunctionId} (h : f.index = g.index) : f = g := by
  cases f
  cases g
  exact congrArg _ h

namespace Heap

variable {h : Heap}

/-! ### Places of the heap -/

/-- The table `t` has been made. -/
def HasTable (h : Heap) (t : TableId) : Prop := t.index < h.tables.size

/-- The frame `f` has been made. -/
def HasFrame (h : Heap) (f : FrameId) : Prop := f.index < h.frames.size

/-- The function `g` has been made. -/
def HasFunction (h : Heap) (g : FunctionId) : Prop := g.index < h.functions.size

instance (t : TableId) : Decidable (h.HasTable t) := inferInstanceAs (Decidable (_ < _))

instance (f : FrameId) : Decidable (h.HasFrame f) := inferInstanceAs (Decidable (_ < _))

instance (g : FunctionId) : Decidable (h.HasFunction g) := inferInstanceAs (Decidable (_ < _))

theorem getD_push {α : Type} (xs : Array α) (x d : α) (i : Nat) :
    (xs.push x).getD i d = if i = xs.size then x else xs.getD i d := by
  simp only [Array.getD_eq_getD_getElem?, Array.getElem?_push]
  split <;> rfl

theorem getD_modify {α : Type} (xs : Array α) (f : α → α) (d : α) (i j : Nat) :
    (xs.modify j f).getD i d = if i = j ∧ j < xs.size then f (xs.getD i d) else xs.getD i d := by
  simp only [Array.getD_eq_getD_getElem?, Array.getElem?_modify]
  by_cases hij : j = i
  · subst hij
    by_cases hlt : j < xs.size
    · simp [hlt]
    · simp [hlt]
  · have hji : i ≠ j := fun heq => hij heq.symm
    simp [hij, hji]

/-! ### Tables -/

theorem table_newTable (p : Option TableId) (bs : Bindings Value) (t : TableId) :
    (h.newTable p bs).2.table t = if t.index = h.tables.size then ⟨bs, p⟩ else h.table t :=
  getD_push _ _ _ _

theorem table_newTable_of_hasTable {p : Option TableId} {bs : Bindings Value} {t : TableId}
    (ht : h.HasTable t) : (h.newTable p bs).2.table t = h.table t := by
  rw [table_newTable, if_neg (Nat.ne_of_lt ht)]

/-- What a change of one table leaves to be read. -/
theorem table_modify (t : TableId) (change : Table → Table) (u : TableId) :
    ({ h with tables := h.tables.modify t.index change } : Heap).table u =
      if u = t ∧ h.HasTable t then change (h.table u) else h.table u := by
  unfold table
  rw [getD_modify]
  simp only [HasTable]
  by_cases hut : u = t
  · subst hut
    simp
  · have hidx : u.index ≠ t.index := fun heq => hut (TableId.eq_of_index_eq heq)
    simp [hut, hidx]

theorem table_bind (t : TableId) (name : String) (v : Value) (u : TableId) :
    (h.bind t name v).table u =
      if u = t ∧ h.HasTable t then
        { h.table u with bindings := (h.table u).bindings.insert name v }
      else h.table u :=
  table_modify t _ u

theorem table_setParent (t : TableId) (p : Option TableId) (u : TableId) :
    (h.setParent t p).table u =
      if u = t ∧ h.HasTable t then { h.table u with parent := p } else h.table u :=
  table_modify t _ u

theorem table_of_not_hasTable {t : TableId} (ht : ¬ h.HasTable t) : h.table t = {} := by
  have hlt : ¬ t.index < h.tables.size := ht
  simp [table, Array.getD_eq_getD_getElem?, hlt]
  rfl

/-- A table with a parent has been made. -/
theorem hasTable_of_parent {t p : TableId} (hp : (h.table t).parent = some p) : h.HasTable t := by
  refine Decidable.byContradiction fun hnot => ?_
  rw [table_of_not_hasTable hnot] at hp
  cases hp

theorem table_clearTable (t u : TableId) :
    (h.clearTable t).table u = if u = t then {} else h.table u := by
  have hclear : (h.clearTable t).table u = if u = t ∧ h.HasTable t then {} else h.table u :=
    table_modify t _ u
  rw [hclear]
  by_cases ht : h.HasTable t
  · simp only [ht, and_true]
  · rw [if_neg fun hc => ht hc.2]
    split
    · rename_i hut
      rw [hut, table_of_not_hasTable ht]
    · rfl

theorem splice_of_mem {t link : TableId} (hmem : t ∈ h.chain link) : h.splice t link = (none, h) :=
  if_pos hmem

theorem splice_of_not_mem {t link : TableId} (hmem : t ∉ h.chain link) :
    h.splice t link =
      (some (h.splicePoint (h.chain link) h.tables.size t),
        h.setParent (h.splicePoint (h.chain link) h.tables.size t) (some link)) :=
  if_neg hmem

/-! ### Sizes and the parts that an operation does not touch -/

@[simp] theorem newTable_fst (p : Option TableId) (bs : Bindings Value) :
    (h.newTable p bs).1 = ⟨h.tables.size⟩ := rfl

@[simp] theorem tables_size_newTable (p : Option TableId) (bs : Bindings Value) :
    (h.newTable p bs).2.tables.size = h.tables.size + 1 := Array.size_push _

theorem HasTable.newTable {t : TableId} {p : Option TableId} {bs : Bindings Value}
    (ht : h.HasTable t) : (h.newTable p bs).2.HasTable t := by
  unfold HasTable at *
  rw [tables_size_newTable]
  omega

@[simp] theorem frames_newTable (p : Option TableId) (bs : Bindings Value) :
    (h.newTable p bs).2.frames = h.frames := rfl

@[simp] theorem functions_newTable (p : Option TableId) (bs : Bindings Value) :
    (h.newTable p bs).2.functions = h.functions := rfl

@[simp] theorem tables_size_bind (t : TableId) (name : String) (v : Value) :
    (h.bind t name v).tables.size = h.tables.size := Array.size_modify

@[simp] theorem frames_bind (t : TableId) (name : String) (v : Value) :
    (h.bind t name v).frames = h.frames := rfl

@[simp] theorem functions_bind (t : TableId) (name : String) (v : Value) :
    (h.bind t name v).functions = h.functions := rfl

@[simp] theorem tables_size_setParent (t : TableId) (p : Option TableId) :
    (h.setParent t p).tables.size = h.tables.size := Array.size_modify

@[simp] theorem frames_setParent (t : TableId) (p : Option TableId) :
    (h.setParent t p).frames = h.frames := rfl

@[simp] theorem functions_setParent (t : TableId) (p : Option TableId) :
    (h.setParent t p).functions = h.functions := rfl

@[simp] theorem tables_size_clearTable (t : TableId) :
    (h.clearTable t).tables.size = h.tables.size := Array.size_modify

@[simp] theorem frames_clearTable (t : TableId) : (h.clearTable t).frames = h.frames := rfl

@[simp] theorem functions_clearTable (t : TableId) : (h.clearTable t).functions = h.functions := rfl

theorem frame_congr {k : Heap} (hframes : k.frames = h.frames) (f : FrameId) :
    k.frame f = h.frame f := by
  unfold frame
  rw [hframes]

theorem function_congr {k : Heap} (hfunctions : k.functions = h.functions) (g : FunctionId) :
    k.function g = h.function g := by
  unfold function
  rw [hfunctions]

theorem table_congr {k : Heap} (htables : k.tables = h.tables) (t : TableId) :
    k.table t = h.table t := by
  unfold table
  rw [htables]

/-! ### Frames and functions -/

/-- The heap with one more frame. -/
def addFrame (h : Heap) (frame : Frame) : Heap := { h with frames := h.frames.push frame }

/-- The heap with one more function. -/
def addFunction (h : Heap) (data : Function) : Heap :=
  { h with functions := h.functions.push data }

theorem enterTable_eq (label : String) (t : TableId) (p : FrameId) (entry : Span) :
    h.enterTable label t p entry =
      (⟨h.frames.size⟩, h.addFrame ⟨label, t, some p, some entry, (h.frame p).root⟩) := rfl

theorem detach_eq (near : FrameId) (label : String) (t : TableId) (entry : Option Span) :
    h.detach near label t entry =
      (⟨h.frames.size⟩, h.addFrame ⟨label, t, none, entry, (h.frame near).root⟩) := rfl

theorem newFunction_eq (data : Function) :
    h.newFunction data = (⟨h.functions.size⟩, h.addFunction data) := rfl

theorem frame_addFrame (frame : Frame) (f : FrameId) :
    (h.addFrame frame).frame f = if f.index = h.frames.size then frame else h.frame f :=
  getD_push _ _ _ _

theorem frame_addFrame_self (frame : Frame) : (h.addFrame frame).frame ⟨h.frames.size⟩ = frame := by
  rw [frame_addFrame, if_pos rfl]

theorem frame_addFrame_of_hasFrame {frame : Frame} {f : FrameId} (hf : h.HasFrame f) :
    (h.addFrame frame).frame f = h.frame f := by
  rw [frame_addFrame, if_neg (Nat.ne_of_lt hf)]

@[simp] theorem frames_size_addFrame (frame : Frame) :
    (h.addFrame frame).frames.size = h.frames.size + 1 := Array.size_push _

theorem HasFrame.addFrame {f : FrameId} {frame : Frame} (hf : h.HasFrame f) :
    (h.addFrame frame).HasFrame f := by
  unfold HasFrame at *
  rw [frames_size_addFrame]
  omega

@[simp] theorem tables_addFrame (frame : Frame) : (h.addFrame frame).tables = h.tables := rfl

@[simp] theorem functions_addFrame (frame : Frame) : (h.addFrame frame).functions = h.functions :=
  rfl

theorem function_addFunction (data : Function) (g : FunctionId) :
    (h.addFunction data).function g = if g.index = h.functions.size then data else h.function g :=
  getD_push _ _ _ _

theorem function_addFunction_of_hasFunction {data : Function} {g : FunctionId}
    (hg : h.HasFunction g) : (h.addFunction data).function g = h.function g := by
  rw [function_addFunction, if_neg (Nat.ne_of_lt hg)]

theorem function_initializeFrom (g source u : FunctionId) :
    (h.initializeFrom g source).function u =
      if u = g ∧ g ≠ source ∧ h.HasFunction g then
        { h.function source with name := (h.function u).name, initialized := true }
      else h.function u := by
  unfold initializeFrom
  by_cases hsource : g = source
  · simp [hsource]
  · rw [if_neg hsource]
    simp only [function, getD_modify]
    by_cases hug : u = g
    · subst hug
      simp [HasFunction, hsource]
    · have hidx : u.index ≠ g.index := fun heq => hug (FunctionId.eq_of_index_eq heq)
      simp [hug, hidx]

@[simp] theorem tables_initializeFrom (g source : FunctionId) :
    (h.initializeFrom g source).tables = h.tables := by
  unfold initializeFrom
  split <;> rfl

@[simp] theorem frames_initializeFrom (g source : FunctionId) :
    (h.initializeFrom g source).frames = h.frames := by
  unfold initializeFrom
  split <;> rfl

@[simp] theorem functions_size_initializeFrom (g source : FunctionId) :
    (h.initializeFrom g source).functions.size = h.functions.size := by
  unfold initializeFrom
  split
  · rfl
  · exact Array.size_modify

@[simp] theorem functions_size_addFunction (data : Function) :
    (h.addFunction data).functions.size = h.functions.size + 1 := Array.size_push _

theorem HasFunction.addFunction {g : FunctionId} {data : Function} (hg : h.HasFunction g) :
    (h.addFunction data).HasFunction g := by
  unfold HasFunction at *
  rw [functions_size_addFunction]
  omega

@[simp] theorem tables_addFunction (data : Function) : (h.addFunction data).tables = h.tables := rfl

@[simp] theorem frames_addFunction (data : Function) : (h.addFunction data).frames = h.frames := rfl

end Heap

end CapsuleScript
