import CapsuleScript.Proofs.Evaluation.LoopSignals
import CapsuleScript.Proofs.Session.Runs
import Mathlib

/-! Where loops go on after a turn that was cut short. Main statement: after a signal from the body
of a called function the loop goes on in its own frame exactly if the home of the function was not
entered from that frame; otherwise it goes on inside the call. -/

namespace CapsuleScript

open Heap

variable {h k l : Heap} {f g r : FrameId} {exit : LoopExit} {s : Span}

/-! ### Ancestry -/

namespace Heap

theorem Descends.index_le (hh : h.Sound) (hf : h.HasFrame f) (hd : h.Descends g f) :
    g.index ≤ f.index := by
  induction hd with
  | refl => exact Nat.le_refl _
  | entered hp _ ih =>
      have hlt := hh.older hf hp
      have hle := ih (hh.hasFrame_parent hf hp)
      omega

theorem Sound.mem_ancestryFrom (hh : h.Sound) (hf : h.HasFrame f) (hd : h.Descends g f)
    {steps : Nat} (hsteps : f.index < steps) : g ∈ h.ancestryFrom steps (some f) := by
  induction hd generalizing steps with
  | refl =>
      obtain ⟨n, rfl⟩ : ∃ n, steps = n + 1 := ⟨steps - 1, by omega⟩
      exact List.mem_cons_self
  | @entered f p hp _ ih =>
      obtain ⟨n, rfl⟩ : ∃ n, steps = n + 1 := ⟨steps - 1, by omega⟩
      have hlt := hh.older hf hp
      rw [ancestryFrom, hp]
      exact List.mem_cons_of_mem f (ih (hh.hasFrame_parent hf hp) (by omega))

/-- The ancestry of a frame is what it was entered from. -/
theorem Sound.mem_ancestry_iff (hh : h.Sound) (hf : h.HasFrame f) :
    g ∈ h.ancestry f ↔ h.Descends g f :=
  ⟨Descends.of_mem_ancestryFrom, fun hd => hh.mem_ancestryFrom hf hd hf⟩

/-- Of two frames that a frame was entered from the older one is one that the other was entered
from. -/
theorem Descends.of_older {c : FrameId} (hh : h.Sound) (hr : h.HasFrame r) (hc : h.Descends c r)
    (hf : h.Descends f r) (hlt : f.index < c.index) : h.Descends f c := by
  induction hc with
  | refl => exact hf
  | @entered r p hp hcp ih =>
      have hp' := hh.hasFrame_parent hr hp
      cases hf with
      | refl =>
          have hle := hcp.index_le hh hp'
          have holder := hh.older hr hp
          omega
      | entered hq hf =>
          rw [hp] at hq
          cases hq
          exact ih hp' hf

/-- A frame is entered from its own ancestors and from no other frames. -/
theorem descends_iff_of_parent {c p : FrameId} (hp : (h.frame c).parent = some p) (hne : f ≠ c) :
    h.Descends f c ↔ h.Descends f p := by
  refine ⟨fun hd => ?_, .entered hp⟩
  cases hd with
  | refl => exact absurd rfl hne
  | entered hq hd =>
      rw [hp] at hq
      cases hq
      exact hd

/-! ### Frames of calls -/

variable {callee : Function} {frame : FrameId}

/-- The frame of a call was not there before, and was entered from the home of the function. -/
theorem Called.frame_eq (hcall : h.Called l callee frame) :
    h.frames.size ≤ frame.index ∧ l.HasFrame frame ∧
      (l.frame frame).parent = some callee.home := by
  obtain ⟨k, g, arguments, span, hs, -, -, rfl, hsl⟩ := hcall
  have hhas := hasFrame_callFrame (h := k) callee arguments span
  refine ⟨?_, hsl.keeps.hasFrame hhas, ?_⟩
  · rw [callFrame_eq]
    exact hs.keeps.frames
  · rw [hsl.keeps.frame hhas, frame_callFrame]

/-- Of the frames that were there before a call, what is inside the call was entered from those that
the home of the function was entered from. -/
theorem Called.mem_ancestry_iff (hcall : h.Called l callee frame) (hl : l.Sound) (hf : h.HasFrame f)
    (hr : l.HasFrame r) (hd : l.Descends frame r) :
    f ∈ l.ancestry r ↔ f ∈ l.ancestry callee.home := by
  obtain ⟨hle, hframe, hparent⟩ := hcall.frame_eq
  have hlt : f.index < frame.index := Nat.lt_of_lt_of_le hf hle
  have hne : f ≠ frame := by
    rintro rfl
    omega
  rw [hl.mem_ancestry_iff hr, hl.mem_ancestry_iff (hl.hasFrame_parent hframe hparent),
    ← descends_iff_of_parent hparent hne]
  exact ⟨fun hfr => hd.of_older hl hr hfr hlt, fun hfc => hd.trans hfc⟩

theorem Called.ne_of_descends (hcall : h.Called l callee frame) (hl : l.Sound) (hf : h.HasFrame f)
    (hr : l.HasFrame r) (hd : l.Descends frame r) : r ≠ f := by
  have hle := hd.index_le hl hr
  have hnew := hcall.frame_eq.1
  rintro rfl
  exact absurd hf (by rw [HasFrame]; omega)

end Heap

namespace Evaluation

/-! ### Turns that are cut short -/

theorem turn_eq_of_exited {sub : Evaluator} {body : Node}
    (hend : sub body f h = .raised (.exited exit s r) l) :
    turn sub body f h = .done ⟨exit = .next, none, l.resume f r⟩ l := by
  simp only [turn, Run.bind_apply, Run.attempt, hend]
  rfl

/-- A turn of a loop in the frame `f` that a signal cuts short, on any heap that a session can have.
The statement that raised the signal stands in the body of the loop, and the loop goes on where the
statement stood; or it stands in the body of a function called in the turn, and then the loop goes on
in its own frame exactly if the home of the function was not entered from it, and else inside the
call. The rest are statements in object literals that are evaluated in the frame of another scope. -/
theorem turn_of_exited {limits : Limits} {fuel : Nat} {body : Node} {statement : Bool}
    (hh : h.Reachable) (hf : h.HasFrame f) (hbody : body.Fits statement)
    (hend : eval limits fuel body f h = .raised (.exited exit s r) l) :
    turn (eval limits fuel) body f h = .done ⟨exit = .next, none, l.resume f r⟩ l ∧
    (body.Exits false exit s ∧ l.resume f r = r ∨ body.Exits true exit s ∨
      ∃ callee frame, h.Called l callee frame ∧ ¬ h.HasFrame frame ∧
        (callee.body.Exits true exit s ∨ callee.body.Exits false exit s ∧
          (l.resume f r = f ↔ f ∉ l.ancestry callee.home) ∧
          (f ∈ l.ancestry callee.home → l.resume f r = r ∧ frame ∈ l.ancestry r))) := by
  have hr : h.Ready 0 f := ⟨hh.sound, Nat.zero_le _, hf⟩
  obtain ⟨hs, hwhence⟩ := tells_eval limits fuel hr hbody exit s r l hend
  have hraised := (evolves_eval limits fuel hr hbody fun _ => .inr hr.writable).raised_of hend
  have hl := hs.sound hh.sound
  have hraise : l.HasFrame r := hraised.2.1
  refine ⟨turn_eq_of_exited hend, ?_⟩
  cases hwhence with
  | here hexits hd =>
      refine .inl ⟨hexits, ?_⟩
      rw [resume, if_pos ((hl.mem_ancestry_iff hraise).mpr hd)]
  | away hexits => exact .inr (.inl hexits)
  | @called callee frame hcall hexits hd =>
      have hiff := hcall.mem_ancestry_iff hl hf hraise hd
      have hne := hcall.ne_of_descends hl hf hraise hd
      have hnew : ¬ h.HasFrame frame := Nat.not_lt.mpr hcall.frame_eq.1
      refine .inr (.inr ⟨callee, frame, hcall, hnew, .inr ⟨hexits, ?_, fun hmem => ?_⟩⟩)
      · rw [resume]
        split
        · rename_i hmem
          exact ⟨fun heq => absurd heq hne, fun hnot => absurd (hiff.mp hmem) hnot⟩
        · rename_i hnot
          exact ⟨fun _ hmem => hnot (hiff.mpr hmem), fun _ => rfl⟩
      · rw [resume, if_pos (hiff.mpr hmem)]
        exact ⟨rfl, (hl.mem_ancestry_iff hraise).mpr hd⟩
  | @calledAway callee frame hcall hexits =>
      have hnew : ¬ h.HasFrame frame := Nat.not_lt.mpr hcall.frame_eq.1
      exact .inr (.inr ⟨callee, frame, hcall, hnew, .inl hexits⟩)

end Evaluation

/-- Whether a computation ends with a loop signal that passes the test. -/
def Ending.exits {α : Type} (test : LoopExit → Span → FrameId → Heap → Bool) : Ending α → Bool
  | .raised (.exited exit s r) heap => test exit s r heap
  | _ => false

theorem Ending.exists_of_exits {α : Type} {test : LoopExit → Span → FrameId → Heap → Bool}
    {ending : Ending α} (hexits : ending.exits test) :
    ∃ exit s r k, ending = .raised (.exited exit s r) k ∧ test exit s r k := by
  unfold Ending.exits at hexits
  split at hexits
  · exact ⟨_, _, _, _, rfl, hexits⟩
  · cases hexits

namespace Evaluation

/-- A session in which `f` is a function that leaves a loop. -/
def leavingCall : Session :=
  ((Session.start {}).submitAll [⟨"<stdin>", "f = fun: x \x7b break \x7d", 20⟩]).2

theorem reachable_leavingCall : leavingCall.Reachable := (Session.Reachable.start {}).submitAll _

/-- A call of `f` with a text. -/
def callOfLeaving : Node := .call place (.ident place "f") [.text place "s"]
where
  place : Span := ⟨"<stdin>", .origin, .origin⟩

theorem not_exits_callOfLeaving (away : Bool) : ¬ callOfLeaving.Exits away exit s := by
  simp [callOfLeaving, Node.Exits, Node.AnyExits]

/-- A loop around the call, in the frame in which `f` was defined, does not go on in that frame but
where the parameter of `f` is bound. -/
theorem exits_callOfLeaving : ∃ exit s r l,
    eval {} 20 callOfLeaving leavingCall.frame leavingCall.heap = .raised (.exited exit s r) l ∧
    l.resume leavingCall.frame r ≠ leavingCall.frame ∧
    (leavingCall.heap.lookup leavingCall.frame "x").isNone ∧
    (l.lookup (l.resume leavingCall.frame r) "x").isSome := by
  have hrun : (eval {} 20 callOfLeaving leavingCall.frame leavingCall.heap).exits
      (fun _ _ r l => l.resume leavingCall.frame r != leavingCall.frame &&
        (leavingCall.heap.lookup leavingCall.frame "x").isNone &&
        (l.lookup (l.resume leavingCall.frame r) "x").isSome) = true := by
    cbv
  obtain ⟨exit, s, r, l, hend, htest⟩ := Ending.exists_of_exits hrun
  simp only [Bool.and_eq_true, bne_iff_ne, ne_eq] at htest
  exact ⟨exit, s, r, l, hend, htest.1.1, htest.1.2, htest.2⟩

theorem turn_of_exited_leaving : ∃ exit s r l,
    eval {} 20 callOfLeaving leavingCall.frame leavingCall.heap = .raised (.exited exit s r) l ∧
    turn (eval {} 20) callOfLeaving leavingCall.frame leavingCall.heap =
      .done ⟨exit = .next, none, l.resume leavingCall.frame r⟩ l ∧
    ∃ callee frame, leavingCall.heap.Called l callee frame ∧ ¬ leavingCall.heap.HasFrame frame := by
  obtain ⟨exit, s, r, l, hend, -⟩ := exits_callOfLeaving
  have hfits : callOfLeaving.Fits false := ⟨trivial, trivial, trivial⟩
  obtain ⟨hturn, hwhence⟩ := turn_of_exited reachable_leavingCall.heap
    reachable_leavingCall.sound.hasFrame hfits hend
  refine ⟨exit, s, r, l, hend, hturn, ?_⟩
  rcases hwhence with hown | haway | ⟨callee, frame, hcall, hnew, -⟩
  · exact absurd hown.1 (not_exits_callOfLeaving false)
  · exact absurd haway (not_exits_callOfLeaving true)
  · exact ⟨callee, frame, hcall, hnew⟩

/-- A signal that no statement of the loop's body raises, so that it comes from a called function,
does not always leave the loop in its own frame. -/
theorem exists_turn_inside_call : ¬ ∀ (limits : Limits) (fuel : Nat) (body : Node) (f r : FrameId)
    (h l : Heap) (exit : LoopExit) (s : Span), h.Reachable → h.HasFrame f → body.IsStatement →
    (∀ away, ¬ body.Exits away exit s) →
    eval limits fuel body f h = .raised (.exited exit s r) l →
    turn (eval limits fuel) body f h = .done ⟨exit = .next, none, f⟩ l := by
  intro hclaim
  obtain ⟨exit, s, r, l, hend, hne, -⟩ := exits_callOfLeaving
  have hfits : callOfLeaving.IsStatement := ⟨trivial, trivial, trivial⟩
  have hturn := hclaim {} 20 callOfLeaving _ r _ l exit s reachable_leavingCall.heap
    reachable_leavingCall.sound.hasFrame hfits not_exits_callOfLeaving hend
  rw [turn_eq_of_exited hend] at hturn
  simp only [Ending.done.injEq, Turn.mk.injEq, and_true, true_and] at hturn
  exact hne hturn

end Evaluation

end CapsuleScript
