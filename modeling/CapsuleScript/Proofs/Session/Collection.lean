import CapsuleScript.Proofs.Session.Atomicity

/-! Sessions that never clear anything. A session clears after every program what it cannot reach any
more, and programs only ever come to what their session reaches. Main statement: without clearing,
every program of a session gets the same answer. -/

namespace CapsuleScript.Session

open Heap

variable {s t : Session}

/-- Runs one program and clears nothing. -/
def perform (s : Session) (p : Submission) : Answer × Session :=
  match Node.ofSource p.source p.text with
  | .ok program => s.execute p.fuel program
  | .error error => (.refused error, s)

/-- Runs programs one after the other and never clears anything. -/
def performAll (s : Session) : List Submission → List Answer × Session
  | [] => ([], s)
  | p :: rest =>
    let (answer, next) := s.perform p
    let (answers, last) := next.performAll rest
    (answer :: answers, last)

theorem submit_eq_perform (s : Session) (p : Submission) :
    s.submit p = ((s.perform p).1, (s.perform p).2.collect) := rfl

theorem Sound.perform (hs : s.Sound) (p : Submission) : (s.perform p).2.Sound := by
  unfold Session.perform
  cases hread : Node.ofSource p.source p.text with
  | error e => exact hs
  | ok program => exact hs.execute hread

/-- A program is answered the same in sessions that are alike, and leaves them alike also before
anything is cleared. -/
theorem Alike.perform (hst : Alike s t) (p : Submission) :
    (s.perform p).1.told = (t.perform p).1.told ∧ Alike (s.perform p).2 (t.perform p).2 := by
  unfold Session.perform
  cases Node.ofSource p.source p.text with
  | error e => exact ⟨rfl, hst⟩
  | ok program => exact hst.execute p.fuel program

theorem Alike.collect_left (hs : s.Sound) (ht : t.Sound) (hst : Alike s t) : Alike s.collect t := by
  obtain ⟨W, hW, hf⟩ := hst.matching
  exact ⟨hst.limits, _, hW.collect_left hs.heap ht.heap hs.hasFrame ht.hasFrame, hf, .start, .start⟩

theorem Sound.alike_self (hs : s.Sound) : Alike s s :=
  ⟨rfl, _, hs.heap.heaps_same hs.hasFrame, rfl, .start, .start⟩

/-- A session that clears after every program and one that never does stay alike. -/
theorem Alike.told_performAll (hs : s.Sound) (ht : t.Sound) (hst : Alike s t)
    (ps : List Submission) :
    (s.submitAll ps).1.map Answer.told = (t.performAll ps).1.map Answer.told := by
  induction ps generalizing s t with
  | nil => rfl
  | cons p rest ih =>
      obtain ⟨htold, hnext⟩ := hst.perform p
      have hs' := hs.perform p
      have ht' := ht.perform p
      have hrest := ih hs'.collect ht' (hnext.collect_left hs' ht')
      show (s.submit p).1.told :: ((s.submit p).2.submitAll rest).1.map Answer.told = _
      rw [submit_eq_perform]
      exact congrArg₂ List.cons htold hrest

/-- Clearing is never seen: whatever programs a new session runs, it answers them like a session that
never clears anything, with the same texts, failures, places and messages. -/
theorem told_submitAll_start (limits : Limits) (ps : List Submission) :
    ((start limits).submitAll ps).1.map Answer.told =
      ((start limits).performAll ps).1.map Answer.told := by
  have hs := sound_start limits
  exact hs.alike_self.told_performAll hs hs ps

end CapsuleScript.Session
