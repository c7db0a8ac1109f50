import CapsuleScript.Heap.Splice
import CapsuleScript.Proofs.Heap.Access
import CapsuleScript.Proofs.Node.Writing

/-! Heaps without the places of code. Frames know where in the text they were entered, and functions
have bodies that were read somewhere. With all of that forgotten names mean the same, ways back are the
same, and every operation on the heap does the same. -/

namespace CapsuleScript

open Node.bare (nowhere)

/-- The frame without the place where it was entered. -/
def Frame.bare (frame : Frame) : Frame := { frame with entry := frame.entry.map fun _ => nowhere }

/-- The function with its body read from nowhere. -/
def Function.bare (data : Function) : Function := { data with body := data.body.bare }

namespace Heap

variable {h : Heap} {f : FrameId} {t : TableId} {g : FunctionId} {v : Value}

/-- The heap with every region of text forgotten. -/
def bare (h : Heap) : Heap :=
  { h with
    frames := h.frames.map Frame.bare
    functions := h.functions.map Function.bare }

@[simp] theorem table_bare : h.bare.table t = h.table t := rfl

@[simp] theorem frame_bare : h.bare.frame f = (h.frame f).bare := by
  simp only [frame, bare, Array.getD_eq_getD_getElem?, Array.getElem?_map]
  cases h.frames[f.index]? <;> rfl

@[simp] theorem function_bare : h.bare.function g = (h.function g).bare := by
  simp only [function, bare, Array.getD_eq_getD_getElem?, Array.getElem?_map]
  cases h.functions[g.index]? with
  | none => rfl
  | some data => rfl

@[simp] theorem render_bare : h.bare.render v = h.render v := by
  simp [render, Function.bare]

/-! ### Names and ways back -/

@[simp] theorem lookupFrom_bare (name : String) (steps : Nat) (start : Option TableId) :
    h.bare.lookupFrom name steps start = h.lookupFrom name steps start := by
  induction steps generalizing start with
  | zero => rfl
  | succ steps ih =>
      cases start with
      | none => rfl
      | some t => simp only [lookupFrom, table_bare, ih]

@[simp] theorem lookup_bare (name : String) : h.bare.lookup f name = h.lookup f name := by
  simp only [lookup, get?, lookupFrom_bare, frame_bare]
  rfl

@[simp] theorem bindsDirectly_bare (name : String) :
    h.bare.bindsDirectly f name = h.bindsDirectly f name := by
  simp [bindsDirectly, Frame.bare]

@[simp] theorem placeholder?_bare (name : String) :
    h.bare.placeholder? f name = h.placeholder? f name := by
  simp [placeholder?, Function.bare]

@[simp] theorem ancestryFrom_bare (steps : Nat) (start : Option FrameId) :
    h.bare.ancestryFrom steps start = h.ancestryFrom steps start := by
  induction steps generalizing start with
  | zero => rfl
  | succ steps ih =>
      cases start with
      | none => rfl
      | some f => simp [ancestryFrom, ih, Frame.bare]

@[simp] theorem ancestry_bare : h.bare.ancestry f = h.ancestry f := by
  have hsize : h.bare.frames.size = h.frames.size := Array.size_map ..
  simp only [ancestry, hsize, ancestryFrom_bare]

@[simp] theorem resume_bare (raised : FrameId) : h.bare.resume f raised = h.resume f raised := by
  simp [resume]

@[simp] theorem chainFrom_bare (steps : Nat) (start : Option TableId) :
    h.bare.chainFrom steps start = h.chainFrom steps start := by
  induction steps generalizing start with
  | zero => rfl
  | succ steps ih =>
      cases start with
      | none => rfl
      | some t => simp only [chainFrom, table_bare, ih]

@[simp] theorem splicePoint_bare (visible : List TableId) (steps : Nat) (t : TableId) :
    h.bare.splicePoint visible steps t = h.splicePoint visible steps t := by
  induction steps generalizing t with
  | zero => rfl
  | succ steps ih => simp only [splicePoint, table_bare, ih]

/-! ### Changes -/

theorem size_frames_bare : h.bare.frames.size = h.frames.size := Array.size_map ..

theorem size_functions_bare : h.bare.functions.size = h.functions.size := Array.size_map ..

theorem bare_addFrame (frame : Frame) : h.bare.addFrame frame.bare = (h.addFrame frame).bare := by
  simp [addFrame, bare]

theorem bare_addFunction (data : Function) :
    h.bare.addFunction data.bare = (h.addFunction data).bare := by
  simp [addFunction, bare]

theorem bare_newTable (p : Option TableId) (bs : Bindings Value) :
    h.bare.newTable p bs = (h.newTable p bs).map id bare := rfl

theorem bare_define (name : String) : h.bare.define f name v = (h.define f name v).bare := by
  rw [define, frame_bare]
  rfl

theorem bare_enterTable (label : String) (entry : Span) :
    h.bare.enterTable label t f nowhere = (h.enterTable label t f entry).map id bare := by
  rw [enterTable_eq, enterTable_eq, frame_bare, size_frames_bare, Prod.map_apply, ← bare_addFrame]
  rfl

theorem bare_detach (label : String) (entry : Span) :
    h.bare.detach f label t (some nowhere) = (h.detach f label t (some entry)).map id bare := by
  rw [detach_eq, detach_eq, frame_bare, size_frames_bare, Prod.map_apply, ← bare_addFrame]
  rfl

theorem bare_enter (label : String) (entry : Span) :
    h.bare.enter label f nowhere = (h.enter label f entry).map id bare := by
  simp only [enter, bare_newTable, frame_bare, Prod.map_fst, Prod.map_snd]
  exact bare_enterTable ..

theorem bare_newFunction (data : Function) :
    h.bare.newFunction data.bare = (h.newFunction data).map id bare := by
  rw [newFunction_eq, newFunction_eq, size_functions_bare, bare_addFunction]
  rfl

theorem bare_withHome : h.bare.withHome g f = (h.withHome g f).map id bare := by
  rw [withHome, function_bare]
  exact bare_newFunction { h.function g with home := f }

/-- A change of one function and forgetting all regions may be done in either order. -/
theorem bare_modify (change change' : Function → Function)
    (hchange : ∀ data, (change data).bare = change' data.bare) (i : Nat) :
    (h.functions.map Function.bare).modify i change' =
      (h.functions.modify i change).map Function.bare := by
  apply Array.ext_getElem?
  intro j
  simp only [Array.getElem?_modify, Array.getElem?_map]
  by_cases hij : i = j
  · cases h.functions[j]? <;> simp [hij, hchange]
  · simp [hij]

theorem bare_initializeFrom (source : FunctionId) :
    h.bare.initializeFrom g source = (h.initializeFrom g source).bare := by
  unfold initializeFrom
  by_cases hsame : g = source
  · rw [if_pos hsame, if_pos hsame]
  · rw [if_neg hsame, if_neg hsame, function_bare]
    exact congrArg (Heap.mk h.tables (h.frames.map Frame.bare)) (bare_modify
      (fun old => { h.function source with name := old.name, initialized := true })
      (fun old => { (h.function source).bare with name := old.name, initialized := true })
      (fun _ => rfl) _)

mutual

theorem bare_rehome (f : FrameId) : (v : Value) → (h : Heap) →
    rehome f v h.bare = (rehome f v h).map id bare
  | .function g, h => by
      unfold rehome
      rw [function_bare, bare_withHome]
      by_cases hinit : (h.function g).initialized
      · have hbare : (h.function g).bare.initialized := hinit
        rw [if_pos hinit, if_pos hbare]
        rfl
      · have hbare : ¬ (h.function g).bare.initialized := hinit
        rw [if_neg hinit, if_neg hbare]
        rfl
  | .list elements, h => by
      unfold rehome
      rw [bare_rehomeAll f elements h]
      rfl
  | .number _, _ | .bool _, _ | .null, _ | .text _, _ | .encap .., _ | .empty, _ => rfl

theorem bare_rehomeAll (f : FrameId) : (values : List Value) → (h : Heap) →
    rehomeAll f values h.bare = (rehomeAll f values h).map id bare
  | [], _ => rfl
  | v :: rest, h => by
      unfold rehomeAll
      rw [bare_rehome f v h]
      simp only [Prod.map_fst, Prod.map_snd, id_eq]
      rw [bare_rehomeAll f rest]
      rfl

end

theorem bare_splice (link : TableId) : h.bare.splice t link = (h.splice t link).map id bare := by
  have hchain : h.bare.chain link = h.chain link := chainFrom_bare _ _
  by_cases hmem : t ∈ h.chain link
  · have hmem' : t ∈ h.bare.chain link := hchain ▸ hmem
    rw [splice_of_mem hmem, splice_of_mem hmem']
    rfl
  · have hmem' : t ∉ h.bare.chain link := hchain ▸ hmem
    rw [splice_of_not_mem hmem, splice_of_not_mem hmem', hchain, splicePoint_bare]
    rfl

end Heap

end CapsuleScript
