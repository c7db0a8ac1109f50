import CapsuleScript.Proofs.Heap.Growth
import CapsuleScript.Evaluation.Program

/-! Computations that change a sound heap step by step. A computation evolves the heap if, however it
ends, it has made steps and what it gives is alive. The rules below follow the ways in which
computations are put together, and the heap operations they are made of. -/

namespace CapsuleScript

open Heap

variable {α β : Type} {fresh : Nat} {h k : Heap}

/-! ### Frames entered from others -/

/-- The frame `f` is the frame `g` or was entered, directly or through others, from it. -/
inductive Heap.Descends (h : Heap) (g : FrameId) : FrameId → Prop where
  | refl : Descends h g g
  | entered {f p : FrameId} : (h.frame f).parent = some p → Descends h g p → Descends h g f

namespace Heap.Descends

theorem trans {f g e : FrameId} (hfg : h.Descends g f) (hge : h.Descends e g) : h.Descends e f := by
  induction hfg with
  | refl => exact hge
  | entered hp _ ih => exact .entered hp ih

theorem keeps {f g : FrameId} (hh : h.Sound) (hk : Keeps fresh h k) (hf : h.HasFrame f)
    (hd : h.Descends g f) : k.Descends g f := by
  induction hd with
  | refl => exact .refl
  | entered hp _ ih =>
      refine .entered ?_ (ih (hh.hasFrame_parent hf hp))
      rw [hk.frame hf]
      exact hp

theorem of_mem_ancestryFrom {f g : FrameId} {steps : Nat}
    (hmem : g ∈ h.ancestryFrom steps (some f)) : h.Descends g f := by
  induction steps generalizing f with
  | zero => simp [ancestryFrom] at hmem
  | succ steps ih =>
      rw [ancestryFrom] at hmem
      rcases List.mem_cons.mp hmem with rfl | hrest
      · exact .refl
      · cases hp : (h.frame f).parent with
        | none =>
            rw [hp] at hrest
            cases steps <;> simp [ancestryFrom] at hrest
        | some p =>
            rw [hp] at hrest
            exact .entered hp (ih hrest)

end Heap.Descends

/-- From a frame entered, directly or through others, from a frame made after the heap was `h`, the
table of that frame is seen, unless the chain was cut. -/
theorem Heap.Linked.mem_chain_of_descends (hk : k.Sound) (hlinked : Linked h k) {m f : FrameId}
    (hm : h.frames.size ≤ m.index) (hf : k.HasFrame f) (hd : k.Descends m f) :
    h.frames.size ≤ f.index ∧
      ((k.frame m).table ∈ k.chain (k.frame f).table ∨ CutSince h k (k.frame f).table) := by
  induction hd with
  | refl => exact ⟨hm, .inl (hk.rooted.mem_chain_self (hk.hasTable hf))⟩
  | @entered f p hp _ ih =>
      have hpk := hk.hasFrame_parent hf hp
      obtain ⟨hnew, hseen⟩ := ih hpk
      have hfnew := Nat.le_trans hnew (Nat.le_of_lt (hk.older hf hp))
      refine ⟨hfnew, ?_⟩
      rcases hlinked f p hf hfnew hp with hmem | hcut
      · rcases hseen with hseen | ⟨x, hx, hrest⟩
        · exact .inl (hk.rooted.mem_chain_trans (hk.hasTable hf) hmem hseen)
        · exact .inr ⟨x, hk.rooted.mem_chain_trans (hk.hasTable hf) hmem hx, hrest⟩
      · exact .inr hcut

/-! ### Signals and results -/

theorem Run.bind_assoc {γ : Type} (run : Run α) (next : α → Run β) (last : β → Run γ) :
    run >>= next >>= last = run >>= fun a => next a >>= last := by
  funext h
  simp only [Run.bind_apply]
  cases run h <;> rfl

/-- What the signal carries is alive, and the frame of a loop signal is one that may be written
to. -/
def Signal.Fine (fresh : Nat) (h : Heap) : Signal → Prop
  | .returned result => result.value.Lives h
  | .exited _ _ f => h.HasFrame f ∧ fresh ≤ (h.frame f).table.index
  | .failed _ => True

/-- The attempt gave a result that passes the test, or a signal that is fine. -/
def Attempt.Fine (fresh : Nat) (Q : α → Heap → Prop) : Except Signal α → Heap → Prop
  | .ok a, h => Q a h
  | .error signal, h => signal.Fine fresh h

/-- The heap that a computation leaves, however it ends. Without fuel it leaves none. -/
def Ending.heap? : Ending α → Option Heap
  | .done _ heap => some heap
  | .raised _ heap => some heap
  | .outOfFuel => none

/-- However the computation ends on the heap `h`, it has made steps, and a result passes the test. -/
def Run.Evolves (fresh : Nat) (run : Run α) (h : Heap) (Q : α → Heap → Prop) : Prop :=
  match run h with
  | .done a k => Steps fresh h k ∧ Q a k
  | .raised signal k => Steps fresh h k ∧ signal.Fine fresh k
  | .outOfFuel => True

namespace Run.Evolves

variable {Q : α → Heap → Prop} {R : β → Heap → Prop} {run : Run α} {next : α → Run β}

theorem pure {a : α} (ha : Q a h) : Evolves fresh (Pure.pure a) h Q := ⟨.refl, ha⟩

theorem bind (hh : h.Sound) (hrun : run.Evolves fresh h Q)
    (hnext : ∀ a k, k.Sound → Steps fresh h k → Q a k → (next a).Evolves fresh k R) :
    (run >>= next).Evolves fresh h R := by
  unfold Evolves at *
  rw [Run.bind_apply]
  cases hend : run h with
  | done a k =>
      rw [hend] at hrun
      have hrest := hnext a k (hrun.1.sound hh) hrun.1 hrun.2
      simp only
      cases hend' : next a k with
      | done b l =>
          rw [hend'] at hrest
          exact ⟨hrun.1.trans hrest.1, hrest.2⟩
      | raised signal l =>
          rw [hend'] at hrest
          exact ⟨hrun.1.trans hrest.1, hrest.2⟩
      | outOfFuel => trivial
  | raised signal k =>
      rw [hend] at hrun
      exact hrun
  | outOfFuel => trivial

theorem make {f : Heap → α × Heap} (hstep : Steps fresh h (f h).2) (hQ : Q (f h).1 (f h).2) :
    (Run.make f).Evolves fresh h Q :=
  ⟨hstep, hQ⟩

/-- What was read is known in what follows. -/
theorem read_bind {f : Heap → α} (hnext : (next (f h)).Evolves fresh h R) :
    (Run.read f >>= next).Evolves fresh h R := hnext

theorem make_bind {f : Heap → α × Heap} (hstep : Steps fresh h (f h).2)
    (hnext : (next (f h).1).Evolves fresh (f h).2 R) : (Run.make f >>= next).Evolves fresh h R := by
  unfold Evolves at *
  rw [Run.bind_apply]
  simp only [Run.make]
  cases hend : next (f h).1 (f h).2 with
  | done b l =>
      rw [hend] at hnext
      exact ⟨hstep.trans hnext.1, hnext.2⟩
  | raised signal l =>
      rw [hend] at hnext
      exact ⟨hstep.trans hnext.1, hnext.2⟩
  | outOfFuel => trivial

theorem change_bind {f : Heap → Heap} {next : Unit → Run β} (hstep : Steps fresh h (f h))
    (hnext : (next ()).Evolves fresh (f h) R) : (Run.change f >>= next).Evolves fresh h R :=
  make_bind (f := fun h => ((), f h)) hstep hnext

theorem raise {signal : Signal} (hsignal : signal.Fine fresh h) :
    (Run.raise signal : Run α).Evolves fresh h Q :=
  ⟨.refl, hsignal⟩

theorem fail {kind : FaultKind} {span : Span} {f : FrameId} :
    (Run.fail kind span f : Run α).Evolves fresh h Q :=
  ⟨.refl, trivial⟩

theorem exhausted : (Run.exhausted : Run α).Evolves fresh h Q := trivial

/-- A signal that is taken up is a result. -/
theorem attempt (hrun : run.Evolves fresh h Q) :
    run.attempt.Evolves fresh h (Attempt.Fine fresh Q) := by
  unfold Evolves Run.attempt at *
  cases hend : run h with
  | done a k =>
      rw [hend] at hrun
      exact hrun
  | raised signal k =>
      rw [hend] at hrun
      exact hrun
  | outOfFuel => trivial

theorem of_done {a : α} (hend : run h = .done a k) (hsteps : Steps fresh h k) (ha : Q a k) :
    run.Evolves fresh h Q := by
  unfold Evolves
  rw [hend]
  exact ⟨hsteps, ha⟩

theorem done_of {a : α} (hrun : run.Evolves fresh h Q) (hend : run h = .done a k) :
    Steps fresh h k ∧ Q a k := by
  unfold Evolves at hrun
  rwa [hend] at hrun

/-- The heap that the computation leaves comes from `h` by steps. -/
theorem steps_of_heap? (hrun : run.Evolves fresh h Q) (hend : (run h).heap? = some k) :
    Steps fresh h k := by
  unfold Evolves at hrun
  cases hrunh : run h with
  | done a l =>
      rw [hrunh] at hrun hend
      cases hend
      exact hrun.1
  | raised signal l =>
      rw [hrunh] at hrun hend
      cases hend
      exact hrun.1
  | outOfFuel =>
      rw [hrunh] at hend
      cases hend

theorem raised_of {signal : Signal} (hrun : run.Evolves fresh h Q)
    (hend : run h = .raised signal k) : Steps fresh h k ∧ signal.Fine fresh k := by
  unfold Evolves at hrun
  rwa [hend] at hrun

end Run.Evolves

end CapsuleScript
