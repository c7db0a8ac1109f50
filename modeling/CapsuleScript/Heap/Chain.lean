import CapsuleScript.Heap.Basic

/-! Chains of tables and of frames. A name is looked up in a table and then in its ancestors; the
ancestry of a frame is the way on which execution came to it. There are no more links on a chain
than there are tables or frames, so that many steps reach its end. -/

namespace CapsuleScript.Heap

/-- The first `steps` tables of the chain that starts at `start`. -/
def chainFrom (heap : Heap) : Nat → Option TableId → List TableId
  | 0, _ => []
  | _, none => []
  | steps + 1, some t => t :: chainFrom heap steps (heap.table t).parent

/-- The table `t` and its ancestors, the nearest first. -/
def chain (heap : Heap) (t : TableId) : List TableId := heap.chainFrom heap.tables.size (some t)

/-- What `name` is bound to in the first `steps` tables of the chain that starts at `start`. -/
def lookupFrom (heap : Heap) (name : String) : Nat → Option TableId → Option Value
  | 0, _ => none
  | _, none => none
  | steps + 1, some t =>
    match (heap.table t).bindings.get? name with
    | some value => some value
    | none => lookupFrom heap name steps (heap.table t).parent

/-- What `name` means in the table `t`. -/
def get? (heap : Heap) (t : TableId) (name : String) : Option Value :=
  heap.lookupFrom name heap.tables.size (some t)

/-- What `name` means in the frame `f`. -/
def lookup (heap : Heap) (f : FrameId) (name : String) : Option Value :=
  heap.get? (heap.frame f).table name

/-- The placeholder that `name` means in the frame `f`. -/
def placeholder? (heap : Heap) (f : FrameId) (name : String) : Option FunctionId :=
  ((heap.lookup f name).bind Value.function?).filter (fun g => !(heap.function g).initialized)

/-- The first `steps` frames on the way back from `start`. -/
def ancestryFrom (heap : Heap) : Nat → Option FrameId → List FrameId
  | 0, _ => []
  | _, none => []
  | steps + 1, some f => f :: ancestryFrom heap steps (heap.frame f).parent

/-- The frame `f` and the frames it was entered from, the nearest first. -/
def ancestry (heap : Heap) (f : FrameId) : List FrameId :=
  heap.ancestryFrom heap.frames.size (some f)

/-- The frame in which a loop in the frame `current` goes on after a signal from the frame `raised`:
that frame, unless it was not entered from `current`. -/
def resume (heap : Heap) (current raised : FrameId) : FrameId :=
  if current ∈ heap.ancestry raised then raised else current

theorem lookupFrom_eq_findSome? (heap : Heap) (name : String) (steps : Nat)
    (start : Option TableId) :
    heap.lookupFrom name steps start =
      (heap.chainFrom steps start).findSome? (fun t => (heap.table t).bindings.get? name) := by
  induction steps generalizing start with
  | zero => simp [lookupFrom, chainFrom]
  | succ steps ih =>
      cases start with
      | none => simp [lookupFrom, chainFrom]
      | some t =>
          simp only [lookupFrom, chainFrom, List.findSome?_cons, ih]
          cases (heap.table t).bindings.get? name <;> rfl

/-- A name means what the first table of the chain that binds it says. -/
theorem get?_eq_findSome? (heap : Heap) (t : TableId) (name : String) :
    heap.get? t name = (heap.chain t).findSome? (fun t => (heap.table t).bindings.get? name) :=
  lookupFrom_eq_findSome? heap name _ _

end CapsuleScript.Heap
