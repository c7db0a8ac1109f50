import CapsuleScript.Proofs.Heap.Bodies

/-! Changes that shield the tables before a given one. These tables keep what they bind, in its
order; they may be linked to other parents. Frames are never changed, and the bodies of functions
stay statements. Nothing is asked of the heap but that it is large enough. -/

namespace CapsuleScript.Heap

/-- The tables before `fresh`, which is one of the heap or the next, are to be shielded, and the
bodies of functions are statements. -/
structure Guarded (fresh : Nat) (h : Heap) : Prop where
  le : fresh ≤ h.tables.size
  bodies : h.Bodies Node.IsStatement

/-- The heap `k` comes from `h` by changes that shield the tables before `fresh`. -/
structure Shields (fresh : Nat) (h k : Heap) : Prop where
  tables : h.tables.size ≤ k.tables.size
  frames : h.frames.size ≤ k.frames.size
  frame : ∀ {f}, h.HasFrame f → k.frame f = h.frame f
  bindings : ∀ {t : TableId}, t.index < fresh → (k.table t).bindings = (h.table t).bindings
  bodies : k.Bodies Node.IsStatement

namespace Shields

variable {fresh : Nat} {h k l : Heap} {f : FrameId}

theorem refl (hh : h.Guarded fresh) : Shields fresh h h :=
  ⟨Nat.le_refl _, Nat.le_refl _, fun _ => rfl, fun _ => rfl, hh.bodies⟩

theorem hasFrame (hs : Shields fresh h k) (hf : h.HasFrame f) : k.HasFrame f :=
  Nat.lt_of_lt_of_le hf hs.frames

theorem trans (hs : Shields fresh h k) (hs' : Shields fresh k l) : Shields fresh h l where
  tables := Nat.le_trans hs.tables hs'.tables
  frames := Nat.le_trans hs.frames hs'.frames
  frame hf := (hs'.frame (hs.hasFrame hf)).trans (hs.frame hf)
  bindings ht := (hs'.bindings ht).trans (hs.bindings ht)
  bodies := hs'.bodies

theorem guarded (hs : Shields fresh h k) (hh : h.Guarded fresh) : k.Guarded fresh :=
  ⟨Nat.le_trans hh.le hs.tables, hs.bodies⟩

theorem writable (hs : Shields fresh h k) (hf : h.Writable fresh f) : k.Writable fresh f := by
  refine ⟨hs.hasFrame hf.1, ?_⟩
  rw [hs.frame hf.1]
  exact hf.2

/-! ### Tables and frames -/

/-- A change to the tables only, which leaves what the tables before `fresh` bind. -/
theorem of_tables (hh : h.Guarded fresh) (htables : h.tables.size ≤ k.tables.size)
    (hframes : k.frames = h.frames) (hfunctions : k.functions = h.functions)
    (hbindings : ∀ {t : TableId}, t.index < fresh →
      (k.table t).bindings = (h.table t).bindings) : Shields fresh h k where
  tables := htables
  frames := Nat.le_of_eq (by rw [hframes])
  frame _ := frame_congr hframes _
  bindings := hbindings
  bodies := hh.bodies.of_functions hfunctions

theorem newTable (hh : h.Guarded fresh) (p : Option TableId) (bs : Bindings Value) :
    Shields fresh h (h.newTable p bs).2 := by
  refine of_tables hh (by simp) rfl rfl fun {t} ht => ?_
  have hle := hh.le
  rw [table_newTable, if_neg (by omega)]

theorem addFrame (hh : h.Guarded fresh) (frame : Frame) : Shields fresh h (h.addFrame frame) where
  tables := Nat.le_refl _
  frames := by simp
  frame hf := frame_addFrame_of_hasFrame hf
  bindings _ := rfl
  bodies := hh.bodies.of_functions rfl

/-- A new table and a frame with it or with another. -/
theorem opened (hh : h.Guarded fresh) (p : Option TableId) (bs : Bindings Value) (frame : Frame) :
    Shields fresh h ((h.newTable p bs).2.addFrame frame) :=
  (newTable hh p bs).trans (addFrame ((newTable hh p bs).guarded hh) frame)

theorem enter (hh : h.Guarded fresh) (label : String) (f : FrameId) (span : Span) :
    Shields fresh h (h.enter label f span).2 :=
  opened hh _ _ _

theorem define (hh : h.Guarded fresh) (hf : h.Writable fresh f) (name : String) (v : Value) :
    Shields fresh h (h.define f name v) := by
  refine of_tables hh (by simp [define_eq]) rfl rfl fun {t} ht => ?_
  have hle := hf.2
  rw [define_eq, table_bind, if_neg]
  rintro ⟨rfl, -⟩
  omega

theorem setParent (hh : h.Guarded fresh) (t : TableId) (p : Option TableId) :
    Shields fresh h (h.setParent t p) := by
  refine of_tables hh (by simp) rfl rfl fun _ => ?_
  rw [table_setParent]
  split <;> rfl

theorem splice (hh : h.Guarded fresh) (t link : TableId) : Shields fresh h (h.splice t link).2 := by
  by_cases hmem : t ∈ h.chain link
  · rw [splice_of_mem hmem]
    exact refl hh
  · rw [splice_of_not_mem hmem]
    exact setParent hh _ _

theorem cut (hh : h.Guarded fresh) (around t : TableId) :
    Shields fresh h (Evaluation.cut h around t) := by
  unfold Evaluation.cut
  split
  · have hnew := newTable hh none builtins
    exact hnew.trans (setParent (hnew.guarded hh) _ _)
  · exact refl hh

theorem callFrame (hh : h.Guarded fresh) (callee : Function) (arguments : List Value)
    (span : Span) : Shields fresh h (Evaluation.callFrame callee arguments span h).2 := by
  rw [callFrame_eq]
  exact opened hh _ _ _

theorem objectScope (hh : h.Guarded fresh) (span : Span) (typeName : Option String)
    (strict : Bool) (body : FrameId) (fields : Bindings Value) :
    Shields fresh h (Evaluation.objectScope span typeName strict body fields h).2 := by
  cases strict <;> exact opened hh _ _ _

/-! ### Functions -/

/-- A change to the functions only. -/
theorem of_functions (htables : k.tables = h.tables) (hframes : k.frames = h.frames)
    (hbodies : k.Bodies Node.IsStatement) : Shields fresh h k where
  tables := Nat.le_of_eq (by rw [htables])
  frames := Nat.le_of_eq (by rw [hframes])
  frame _ := frame_congr hframes _
  bindings _ := by rw [table_congr htables]
  bodies := hbodies

theorem addFunction (hh : h.Guarded fresh) {data : Function} (hbody : data.body.IsStatement) :
    Shields fresh h (h.addFunction data) :=
  of_functions rfl rfl (hh.bodies.addFunction hbody)

theorem initializeFrom (hh : h.Guarded fresh) (g source : FunctionId) :
    Shields fresh h (h.initializeFrom g source) :=
  of_functions (by simp) (by simp) (hh.bodies.initializeFrom g source)

theorem rehome (hh : h.Guarded fresh) (f : FrameId) (v : Value) :
    Shields fresh h (Heap.rehome f v h).2 := by
  obtain ⟨htables, hframes⟩ := rehome_parts f v h
  exact of_functions htables hframes (hh.bodies.rehome f v)

end Shields

end CapsuleScript.Heap
