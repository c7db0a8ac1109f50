import CapsuleScript.Proofs.Heap.Walks
import CapsuleScript.Proofs.Session.Runs
import Mathlib

/-! Programs that are broken off, and the heaps that come about while programs run. A program may be
broken off before any of its evaluations, which shows the heap at that moment; between two such
moments the heap changes by single operations. Main statement: in every heap that comes about, all
walks along links end. -/

namespace CapsuleScript

open Heap

namespace Evaluation

variable {fresh : Nat} {h : Heap} {f : FrameId}

/-- Decides before each evaluation whether to break off, and with which failure. -/
abbrev Breakpoint := Node → FrameId → Heap → Option Fault

/-- Evaluates a node like `eval`, unless the evaluation or one inside it is broken off. -/
def evalUntil (stop : Breakpoint) (limits : Limits) : Nat → Evaluator
  | 0, _, _ => .exhausted
  | fuel + 1, n, f => do
    match ← .read (stop n f) with
    | some fault => .raise (.failed fault)
    | none => node limits fuel (evalUntil stop limits fuel) n f

/-- Evaluates a program like `program`, unless an evaluation in it is broken off. -/
def programUntil (stop : Breakpoint) (limits : Limits) (fuel : Nat) (n : Node) (f : FrameId) :
    Run Outcome :=
  match n with
  | .block span _ body => programFrom (evalUntil stop limits fuel) body (give .empty span f)
  | n => evalUntil stop limits fuel n f

theorem evalUntil_none (limits : Limits) (fuel : Nat) :
    evalUntil (fun _ _ _ => none) limits fuel = eval limits fuel := by
  induction fuel with
  | zero => rfl
  | succ fuel ih =>
      funext n f h
      show node limits fuel (evalUntil (fun _ _ _ => none) limits fuel) n f h = _
      rw [ih, eval]

/-- A program that is never broken off is evaluated as always. -/
theorem programUntil_none (limits : Limits) (fuel : Nat) :
    programUntil (fun _ _ _ => none) limits fuel = program limits fuel := by
  funext n f
  cases n <;> simp only [programUntil, program, evalUntil_none]

theorem evolves_evalUntil (stop : Breakpoint) (limits : Limits) (fuel : Nat) :
    Evaluator.Evolves (evalUntil stop limits fuel) := by
  induction fuel with
  | zero => exact fun _ _ _ => .exhausted
  | succ fuel ih =>
      intro fresh h n f statement hr hn hw
      apply Run.Evolves.read_bind
      split
      · exact .raise trivial
      · exact evolves_node limits fuel ih hr hn hw

theorem evolves_programUntil (stop : Breakpoint) (limits : Limits) (fuel : Nat)
    (hr : h.Ready fresh f) (hw : h.Writable fresh f) {n : Node} (hn : n.IsBlock ∧ n.IsStatement) :
    (programUntil stop limits fuel n f).Evolves fresh h (Outcome.GoesOn fresh true f) := by
  obtain ⟨hblock, hfits⟩ := hn
  cases n with
  | block span mayDeclare body =>
      exact evolves_programFrom (evolves_evalUntil stop limits fuel) hfits.2 hr
        (.give trivial hr.hasFrame fun _ => hw)
  | _ => exact hblock.elim

end Evaluation

namespace Session

variable {s : Session} {h : Heap}

/-- The heap in which a program of the session is broken off, or ends if it is not, before anything
is cleared. -/
def heapUntil (s : Session) (stop : Evaluation.Breakpoint) (p : Submission) : Option Heap :=
  match Node.ofSource p.source p.text with
  | .ok program =>
    (Evaluation.programUntil stop s.limits p.fuel program s.nextFrame.1 s.nextFrame.2).heap?
  | .error _ => some s.heap

/-- A program changes the heap by operations, wherever it is broken off. -/
theorem Reachable.operations_heapUntil (hs : s.Reachable) {stop : Evaluation.Breakpoint}
    {p : Submission} (hh : s.heapUntil stop p = some h) : Operations s.heap h := by
  unfold heapUntil at hh
  cases hread : Node.ofSource p.source p.text with
  | error e =>
      rw [hread] at hh
      cases hh
      exact .refl
  | ok program =>
      rw [hread] at hh
      have hstep : Step s.heap.tables.size s.heap s.nextFrame.2 := hs.sound.step_nextFrame
      obtain ⟨hr, hw⟩ := hs.sound.ready_nextFrame
      have hevolves := Evaluation.evolves_programUntil stop s.limits p.fuel hr hw
        (Node.shape_ofSource hread)
      exact hstep.operations.trans (hevolves.steps_of_heap? hh).operations

end Session

namespace Heap

variable {h : Heap}

/-- A heap that comes about when a new session runs any programs. -/
inductive Occurs : Heap → Prop where
  /-- Between programs. -/
  | between {s : Session} : s.Reachable → Occurs s.heap
  /-- Before one of the evaluations of a program, or at its end. -/
  | within {s : Session} {h : Heap} (stop : Evaluation.Breakpoint) (p : Submission) :
      s.Reachable → s.heapUntil stop p = some h → Occurs h
  /-- After an operation on the way from one evaluation to the next. -/
  | after {h k : Heap} : Occurs h → Operation h k → Occurs k

theorem Occurs.walkable (hh : h.Occurs) : h.Walkable := by
  induction hh with
  | between hs => exact hs.sound.heap.walkable
  | within stop p hs hh => exact hs.sound.heap.walkable.operations (hs.operations_heapUntil hh)
  | after _ hop ih => exact ih.operation hop

/-- In every heap that comes about, chains of tables end, and so does every walk along them. -/
theorem walksEnd_of_occurs (hh : h.Occurs) : h.WalksEnd := hh.walkable.walksEnd

/-- Breaks off as soon as there are more than `count` frames. -/
def moreFrames (count : Nat) : Evaluation.Breakpoint := fun n f h =>
  if count < h.frames.size then some ⟨.nestingTooDeep, n.span, some f⟩ else none

/-- A program that is broken off in the body of an object that inherits: the scope around the body is
spliced into the scope of the parent, and all walks end. -/
theorem walksEnd_inheriting : ∃ h, (Session.start {}).heapUntil (moreFrames 6) ⟨"<stdin>",
      "a = encap \x7b x = \"s\" \x7d\nb = encap \x7b y = x \x7d as B: a", 20⟩ = some h ∧
    (h.table ⟨2⟩).parent = some ⟨4⟩ ∧ h.WalksEnd := by
  have hparent : ((Session.start {}).heapUntil (moreFrames 6) ⟨"<stdin>",
      "a = encap \x7b x = \"s\" \x7d\nb = encap \x7b y = x \x7d as B: a", 20⟩).map
        (fun h => (h.table ⟨2⟩).parent) = some (some ⟨4⟩) := by cbv
  obtain ⟨h, hh, hlink⟩ := Option.map_eq_some_iff.mp hparent
  exact ⟨h, hh, hlink, walksEnd_of_occurs (.within _ _ (.start {}) hh)⟩

end Heap

end CapsuleScript
