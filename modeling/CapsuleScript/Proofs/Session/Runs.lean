import CapsuleScript.Proofs.Evaluation.Program
import CapsuleScript.Proofs.Heap.Reach
import CapsuleScript.Proofs.Node.Reading
import CapsuleScript.Session

/-! Sessions and the heaps they work on. Every program changes the heap of its session step by step,
from a frame of its own, and then what the session cannot reach is cleared. So every heap that a
session can have, between programs and within them, is sound. -/

namespace CapsuleScript

/-- A program that is handed to a session, and the fuel it may use. -/
structure Submission where
  source : String
  text : String
  fuel : Nat

namespace Session

/-- Runs one program. -/
def submit (s : Session) (p : Submission) : Answer × Session := s.run p.fuel p.source p.text

/-- Runs programs one after the other. -/
def submitAll (s : Session) : List Submission → List Answer × Session
  | [] => ([], s)
  | p :: rest =>
    let (answer, next) := s.submit p
    let (answers, last) := next.submitAll rest
    (answer :: answers, last)

/-- A session after any programs. -/
inductive Reachable : Session → Prop where
  | start (limits : Limits) : Reachable (start limits)
  | submit {s : Session} (p : Submission) : Reachable s → Reachable (s.submit p).2

theorem Reachable.submitAll {s : Session} (hs : s.Reachable) (ps : List Submission) :
    (s.submitAll ps).2.Reachable := by
  induction ps generalizing s with
  | nil => exact hs
  | cons p rest ih => exact ih (.submit p hs)

end Session

namespace Heap

/-- A heap that a session can have, also in the middle of a program. -/
inductive Reachable : Heap → Prop where
  | start (limits : Limits) : Reachable (Session.start limits).heap
  | step {fresh : Nat} {h k : Heap} : Reachable h → Step fresh h k → Reachable k
  | collect {h : Heap} (c : FrameId) : Reachable h → Reachable (h.collect c)

variable {fresh : Nat} {h k : Heap}

theorem sound_empty : Heap.Sound {} where
  rooted := .empty
  live t := by
    have hnone : (Heap.table {} t).bindings = [] := by simp [table]; rfl
    rw [hnone]
    trivial
  hasTable hf := absurd hf (Nat.not_lt_zero _)
  older hf := absurd hf (Nat.not_lt_zero _)
  home hg := absurd hg (Nat.not_lt_zero _)
  body hg := absurd hg (Nat.not_lt_zero _)

theorem sound_start (limits : Limits) : (Session.start limits).heap.Sound := by
  have hnew : (Heap.newTable {} none []).2.Sound := sound_empty.newTable (by simp) trivial
  have hframe : ((Heap.newTable {} none []).2.addFrame ⟨moduleLabel, ⟨0⟩, none, none, ⟨0⟩⟩).Sound :=
    hnew.addFrame (by simp [HasTable]) (by simp)
  have htrue := hframe.bind ⟨0⟩ "true" (v := .bool true) trivial
  have hfalse := htrue.bind ⟨0⟩ "false" (v := .bool false) trivial
  exact hfalse.bind ⟨0⟩ "null" (v := .null) trivial

theorem Reachable.sound (hh : h.Reachable) : h.Sound := by
  induction hh with
  | start limits => exact sound_start limits
  | step _ hstep ih => exact hstep.sound ih
  | collect c _ ih => exact ih.collect

theorem Reachable.steps (hh : h.Reachable) (hs : Steps fresh h k) : k.Reachable := by
  induction hs with
  | refl => exact hh
  | tail _ hstep ih => exact ih.step hstep

end Heap

open Heap

/-- A program is a block of statements, also with the declarations put in. -/
theorem Node.shape_ofSource {source text : String} {program : Node}
    (hread : Node.ofSource source text = .ok program) : program.IsBlock ∧ program.IsStatement := by
  obtain ⟨tokens, parsed, -, hparsed, rfl⟩ := Node.ofSource_eq_ok_iff.mp hread
  obtain ⟨hblock, hfits⟩ := Node.shape_ofTokens hparsed
  exact ⟨hblock.hoist, hfits.hoist.1⟩

namespace Session

variable {s t : Session}

/-- The session's heap is sound and has the session's frame. -/
structure Sound (s : Session) : Prop where
  heap : s.heap.Sound
  hasFrame : s.heap.HasFrame s.frame

/-- How the session `t` comes from `s` by a program, before anything is cleared: by steps from the
frame of the program on, and it goes on in a frame entered from that one or stays where it was. -/
structure Moves (s t : Session) : Prop where
  steps : Steps s.heap.tables.size s.heap t.heap
  hasFrame : t.heap.HasFrame t.frame
  frame : t.frame = s.frame ∨
    Steps s.heap.tables.size s.nextFrame.2 t.heap ∧ t.heap.Descends s.nextFrame.1 t.frame

theorem nextFrame_eq (s : Session) : s.nextFrame = (⟨s.heap.frames.size⟩,
    (s.heap.newTable (some (s.heap.frame s.frame).table) []).2.addFrame
      ⟨moduleLabel, ⟨s.heap.tables.size⟩, none, none, (s.heap.frame s.frame).root⟩) := rfl

theorem Sound.step_nextFrame (hs : s.Sound) {fresh : Nat} :
    Step fresh s.heap s.nextFrame.2 := by
  rw [nextFrame_eq]
  exact .opened (hs.heap.hasTable hs.hasFrame) trivial rfl (by simp)

theorem frame_nextFrame (s : Session) : s.nextFrame.2.frame s.nextFrame.1 =
    ⟨moduleLabel, ⟨s.heap.tables.size⟩, none, none, (s.heap.frame s.frame).root⟩ := by
  rw [nextFrame_eq]
  exact frame_addFrame_self (h := (s.heap.newTable _ _).2) _

theorem hasFrame_nextFrame (s : Session) : s.nextFrame.2.HasFrame s.nextFrame.1 := by
  simp [nextFrame_eq, HasFrame]

/-- What the session and its answer are depends on how the program ends. -/
theorem execute_eq (s : Session) (fuel : Nat) (program : Node) : s.execute fuel program =
    match Evaluation.program s.limits fuel program s.nextFrame.1 s.nextFrame.2 with
    | .done outcome heap =>
      (.shown (heap.render outcome.result.value), { s with heap := heap, frame := outcome.frame })
    | .raised signal heap =>
      match signal.toExcept with
      | .ok result => (.shown (heap.render result.value), { s with heap := heap })
      | .error fault => (.failed fault (fault.message heap), { s with heap := heap })
    | .outOfFuel => (.unfinished, s) := rfl

/-- The frame of a program is ready, and its table may be written to. -/
theorem Sound.ready_nextFrame (hs : s.Sound) :
    s.nextFrame.2.Ready s.heap.tables.size s.nextFrame.1 ∧
      s.nextFrame.2.Writable s.heap.tables.size s.nextFrame.1 := by
  have hstep : Step s.heap.tables.size s.heap s.nextFrame.2 := hs.step_nextFrame
  refine ⟨⟨hstep.sound hs.heap, hstep.keeps.tables, hasFrame_nextFrame s⟩,
    hasFrame_nextFrame s, Nat.le_of_eq ?_⟩
  rw [frame_nextFrame]

theorem Sound.moves_execute (hs : s.Sound) {program : Node}
    (hprogram : program.IsBlock ∧ program.IsStatement) (fuel : Nat) :
    Moves s (s.execute fuel program).2 := by
  have hstep : Step s.heap.tables.size s.heap s.nextFrame.2 := hs.step_nextFrame
  obtain ⟨hr, hw⟩ := hs.ready_nextFrame
  have hevolves := Evaluation.evolves_program s.limits fuel hr hw hprogram
  have hstay : ∀ k, Steps s.heap.tables.size s.nextFrame.2 k → Moves s { s with heap := k } :=
    fun k hk => ⟨.head hstep hk, hk.keeps.hasFrame (hstep.keeps.hasFrame hs.hasFrame), .inl rfl⟩
  rw [execute_eq]
  cases hend : Evaluation.program s.limits fuel program s.nextFrame.1 s.nextFrame.2 with
  | done outcome k =>
      obtain ⟨hsteps, hout⟩ := hevolves.done_of hend
      exact ⟨.head hstep hsteps, hout.hasFrame, .inr ⟨hsteps, hout.descends⟩⟩
  | raised signal k =>
      have hsteps := (hevolves.raised_of hend).1
      simp only
      split <;> exact hstay k hsteps
  | outOfFuel => exact ⟨.refl, hs.hasFrame, .inl rfl⟩

/-- A program moves the session, and what the session cannot reach is cleared. -/
theorem Sound.exists_moves (hs : s.Sound) (p : Submission) :
    ∃ t, Moves s t ∧ (s.submit p).2 = t.collect := by
  unfold submit run
  cases hread : Node.ofSource p.source p.text with
  | error e => exact ⟨s, ⟨.refl, hs.hasFrame, .inl rfl⟩, rfl⟩
  | ok program => exact ⟨_, hs.moves_execute (Node.shape_ofSource hread) p.fuel, rfl⟩

theorem Moves.sound (hs : s.Sound) (hm : Moves s t) : t.Sound := ⟨hm.steps.sound hs.heap, hm.hasFrame⟩

theorem Sound.collect (hs : s.Sound) : s.collect.Sound := by
  refine ⟨hs.heap.collect, ?_⟩
  show (s.heap.collect s.frame).HasFrame s.frame
  rw [HasFrame, frames_collect]
  exact hs.hasFrame

theorem sound_start (limits : Limits) : (start limits).Sound :=
  ⟨Heap.sound_start limits, Nat.zero_lt_one⟩

theorem Reachable.sound (hs : s.Reachable) : s.Sound := by
  induction hs with
  | start limits => exact sound_start limits
  | submit p _ ih =>
      obtain ⟨t, hm, heq⟩ := ih.exists_moves p
      rw [heq]
      exact (hm.sound ih).collect

/-- The heap of a session is one that a session can have. -/
theorem Reachable.heap (hs : s.Reachable) : s.heap.Reachable := by
  induction hs with
  | start limits => exact .start limits
  | @submit s p hr ih =>
      obtain ⟨t, hm, heq⟩ := hr.sound.exists_moves p
      rw [heq]
      exact .collect _ (ih.steps hm.steps)

end Session

end CapsuleScript
