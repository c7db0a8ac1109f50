import CapsuleScript.Proofs.Evaluation.Limits
import CapsuleScript.Proofs.Session.Atomicity
import Mathlib

/-! Sessions with different limits. Main statement: if none of its programs fails for the limit on
strict objects, a session with a higher limit gives the same answers and ends with the same heap. -/

namespace CapsuleScript

open Evaluation

/-- The program failed because a strict object nests too many frames. -/
def Answer.TooDeep : Answer → Prop
  | failed fault _ => fault.kind = .nestingTooDeep
  | _ => False

namespace Session

variable {s : Session} {higher : Limits}

/-- The session with other limits. -/
def withLimits (s : Session) (limits : Limits) : Session := { s with limits := limits }

theorem execute_withLimits (hle : s.limits.nesting ≤ higher.nesting) {fuel : Nat} {program : Node}
    (hanswer : ¬ (s.execute fuel program).1.TooDeep) :
    (s.withLimits higher).execute fuel program =
      ((s.execute fuel program).1, (s.execute fuel program).2.withLimits higher) := by
  have hextends : (Evaluation.program higher fuel program s.nextFrame.1).Extends False
      (Evaluation.program s.limits fuel program s.nextFrame.1) :=
    extends_program hle (Nat.le_refl fuel) (.inl rfl) program s.nextFrame.1
  have hnext : (s.withLimits higher).nextFrame = s.nextFrame := rfl
  rw [execute_eq] at hanswer
  rw [execute_eq, execute_eq, hnext]
  rcases hextends s.nextFrame.2 with hlimited | heq
  · cases hend : Evaluation.program s.limits fuel program s.nextFrame.1 s.nextFrame.2 with
    | done outcome k =>
        rw [hend] at hlimited
        exact hlimited.elim
    | raised signal k =>
        rw [hend] at hlimited hanswer
        cases signal with
        | returned value => exact hlimited.elim
        | exited exit span f => exact hlimited.elim
        | failed fault => exact absurd hlimited hanswer
    | outOfFuel =>
        rw [hend] at hlimited
        exact hlimited.elim
  · have hsame : Evaluation.program (s.withLimits higher).limits fuel program s.nextFrame.1
        s.nextFrame.2 = Evaluation.program s.limits fuel program s.nextFrame.1 s.nextFrame.2 := heq
    rw [hsame]
    cases Evaluation.program s.limits fuel program s.nextFrame.1 s.nextFrame.2 with
    | done outcome k => rfl
    | raised signal k => cases signal <;> rfl
    | outOfFuel => rfl

theorem submit_withLimits (hle : s.limits.nesting ≤ higher.nesting) {p : Submission}
    (hanswer : ¬ (s.submit p).1.TooDeep) :
    (s.withLimits higher).submit p =
      ((s.submit p).1, (s.submit p).2.withLimits higher) := by
  unfold submit run at *
  cases hread : Node.ofSource p.source p.text with
  | error e => rfl
  | ok program =>
      rw [hread] at hanswer
      simp only [execute_withLimits hle hanswer]
      rfl

theorem submitAll_withLimits (hle : s.limits.nesting ≤ higher.nesting) {ps : List Submission}
    (hanswers : ∀ answer ∈ (s.submitAll ps).1, ¬ answer.TooDeep) :
    (s.withLimits higher).submitAll ps =
      ((s.submitAll ps).1, (s.submitAll ps).2.withLimits higher) := by
  induction ps generalizing s with
  | nil => rfl
  | cons p rest ih =>
      have hfirst := hanswers _ List.mem_cons_self
      have hnext := ih (s := (s.submit p).2) (by rwa [limits_submit])
        fun answer hanswer => hanswers answer (List.mem_cons_of_mem _ hanswer)
      simp only [submitAll, submit_withLimits hle hfirst, hnext]

/-- Raising the limit on strict objects changes nothing for a session none of whose programs fails
for it: all answers are the same, and the session ends in the same frame of the same heap. -/
theorem submitAll_start_of_not_tooDeep {a b : Nat} (hle : a ≤ b) {ps : List Submission}
    (hanswers : ∀ answer ∈ ((start ⟨a⟩).submitAll ps).1, ¬ answer.TooDeep) :
    (start ⟨b⟩).submitAll ps =
      (((start ⟨a⟩).submitAll ps).1, { ((start ⟨a⟩).submitAll ps).2 with limits := ⟨b⟩ }) := by
  have hsame : ((start ⟨a⟩).withLimits ⟨b⟩).submitAll ps = _ := submitAll_withLimits hle hanswers
  exact hsame

/-- A strict object whose body leaves two frames to walk, and a look into it. -/
def walking : List Submission :=
  [⟨"<stdin>", "S = sencap \x7b x = \"s\"; o = sencap \x7b y = x \x7d \x7d", 20⟩,
    ⟨"<stdin>", "r = S => x", 20⟩]

/-- Two frames are enough for the programs, so any higher limit is. -/
theorem submitAll_walking : ((start ⟨2⟩).submitAll walking).1.all Answer.isShown = true ∧
    (start ⟨1000⟩).submitAll walking =
      (((start ⟨2⟩).submitAll walking).1,
        { ((start ⟨2⟩).submitAll walking).2 with limits := ⟨1000⟩ }) := by
  have hshown : ((start ⟨2⟩).submitAll walking).1.all Answer.isShown = true := by cbv
  refine ⟨hshown, submitAll_start_of_not_tooDeep (by decide) fun answer hanswer hdeep => ?_⟩
  have hone := List.all_eq_true.mp hshown answer hanswer
  cases answer with
  | shown text => exact hdeep
  | failed fault message => cases hone
  | _ => exact hdeep

end Session

end CapsuleScript
