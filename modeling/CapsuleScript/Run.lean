import CapsuleScript.Fault

/-! Computations that change the heap. They end with a result, with a signal that some construct
around them may take up, or by running out of the steps they were given; the heap is kept with a
result and with a signal. -/

namespace CapsuleScript

/-- A value, the code that gave it and the frame it was made in, if that frame is known. -/
structure Stamped where
  value : Value
  span : Span
  owner : Option FrameId

namespace Stamped

/-- The value of the code at `span`, made in the frame `f`. -/
def of (value : Value) (span : Span) (f : FrameId) : Stamped := ⟨value, span, some f⟩

/-- The same value, given by the code at `span` in the frame `f`. -/
def restamp (s : Stamped) (span : Span) (f : FrameId) : Stamped := .of s.value span f

/-- The same value, made in the frame `f` if its frame is not known. -/
def anchored (s : Stamped) (f : FrameId) : Stamped :=
  match s.owner with
  | some _ => s
  | none => s.restamp s.span f

/-- The failure of an operation on the value, with the failing code at `span`. -/
def fault (s : Stamped) (kind : FaultKind) (span : Span) : Fault := ⟨kind, span, s.owner⟩

end Stamped

/-- What leaves a construct instead of a result. -/
inductive Signal where
  /-- A function gives its result. -/
  | returned (value : Stamped)
  /-- A loop ends, or goes on with its next turn. -/
  | exited (exit : LoopExit) (span : Span) (frame : FrameId)
  | failed (fault : Fault)

/-- The result or the failure that a signal stands for where nothing takes it up. -/
def Signal.toExcept : Signal → Except Fault Stamped
  | returned value => .ok value
  | exited exit span frame => .error ⟨.outsideLoop exit, span, some frame⟩
  | failed fault => .error fault

/-- How a computation ends. -/
inductive Ending (α : Type) where
  | done (result : α) (heap : Heap)
  | raised (signal : Signal) (heap : Heap)
  | outOfFuel

/-- A computation that changes the heap. -/
def Run (α : Type) : Type := Heap → Ending α

namespace Run

variable {α β : Type}

/-- Ends with `a` and leaves the heap as it is. -/
@[inline] def pure (a : α) : Run α := fun heap => .done a heap

/-- Goes on with `next` after a result. -/
@[inline] def bind (run : Run α) (next : α → Run β) : Run β := fun heap =>
  match run heap with
  | .done a heap => next a heap
  | .raised signal heap => .raised signal heap
  | .outOfFuel => .outOfFuel

instance : Monad Run where
  pure := Run.pure
  bind := Run.bind

@[simp] theorem pure_apply (a : α) (heap : Heap) : (Pure.pure a : Run α) heap = .done a heap := rfl

theorem bind_apply (run : Run α) (next : α → Run β) (heap : Heap) :
    (run >>= next) heap =
      match run heap with
      | .done a heap => next a heap
      | .raised signal heap => .raised signal heap
      | .outOfFuel => .outOfFuel := rfl

/-- Reads from the heap. -/
@[inline] def read (f : Heap → α) : Run α := fun heap => .done (f heap) heap

/-- Changes the heap. -/
@[inline] def change (f : Heap → Heap) : Run Unit := fun heap => .done () (f heap)

/-- Changes the heap and gives what that makes. -/
@[inline] def make (f : Heap → α × Heap) : Run α := fun heap =>
  let (a, heap) := f heap
  .done a heap

/-- Ends with a signal. -/
@[inline] def raise (signal : Signal) : Run α := fun heap => .raised signal heap

/-- Ends with a failure of the code at `span` in the frame `f`. -/
@[inline] def fail (kind : FaultKind) (span : Span) (f : FrameId) : Run α :=
  raise (.failed ⟨kind, span, some f⟩)

/-- Ends because no steps are left. -/
@[inline] def exhausted : Run α := fun _ => .outOfFuel

/-- Gives the signal with which the computation ends as a result. -/
@[inline] def attempt (run : Run α) : Run (Except Signal α) := fun heap =>
  match run heap with
  | .done a heap => .done (.ok a) heap
  | .raised signal heap => .done (.error signal) heap
  | .outOfFuel => .outOfFuel

end Run

end CapsuleScript
