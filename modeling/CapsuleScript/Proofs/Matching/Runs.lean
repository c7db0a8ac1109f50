import CapsuleScript.Proofs.Matching.Operations
import CapsuleScript.Proofs.Operation.Plain

/-! Computations on two matched heaps. They match if they end in the same way, with related results
or signals, on heaps that are matched again. The rules follow the ways in which computations are put
together. -/

namespace CapsuleScript

variable {W X : Matching} {α β : Type}

/-- The values match, and were given by the same code in matched frames. -/
structure Stamped.Match (W : Matching) (s s' : Stamped) : Prop where
  value : s.value.Match W s'.value
  span : s.span = s'.span
  owner : Option.Rel W.frames s.owner s'.owner

/-- The signals are the same but for numbers. -/
inductive Signal.Match (W : Matching) : Signal → Signal → Prop where
  | returned {s s' : Stamped} : s.Match W s' → Signal.Match W (.returned s) (.returned s')
  | exited {exit : LoopExit} {span : Span} {f f' : FrameId} :
      W.frames f f' → Signal.Match W (.exited exit span f) (.exited exit span f')
  | failed {fault fault' : Fault} :
      fault.Match W fault' → Signal.Match W (.failed fault) (.failed fault')

theorem Stamped.Match.mono (hX : W.Extends X) {s s' : Stamped} (hs : s.Match W s') :
    s.Match X s' :=
  ⟨hs.value.mono hX, hs.span, rel_mono hX.frames hs.owner⟩

/-- The computations have ended in the same way: both with a result, both with a signal or both
without fuel. -/
inductive Ending.Match (W : Matching) (Q : Matching → α → α → Prop) : Ending α → Ending α → Prop where
  | done {a a' : α} {k k' : Heap} :
      W.Made Q (a, k) (a', k') → Ending.Match W Q (.done a k) (.done a' k')
  | raised {signal signal' : Signal} {k k' : Heap} :
      W.Made Signal.Match (signal, k) (signal', k') →
      Ending.Match W Q (.raised signal k) (.raised signal' k')
  | outOfFuel : Ending.Match W Q .outOfFuel .outOfFuel

/-- The attempts have both given a result, or both a signal. -/
inductive Attempt.Match (Q : Matching → α → α → Prop) (W : Matching) :
    Except Signal α → Except Signal α → Prop where
  | ok {a a' : α} : Q W a a' → Attempt.Match Q W (.ok a) (.ok a')
  | error {signal signal' : Signal} :
      signal.Match W signal' → Attempt.Match Q W (.error signal) (.error signal')

/-- The computations end in the same way on two heaps. -/
def Run.Matches (W : Matching) (run run' : Run α) (h h' : Heap) (Q : Matching → α → α → Prop) :
    Prop :=
  Ending.Match W Q (run h) (run' h')

namespace Run.Matches

variable {h h' : Heap} {Q : Matching → α → α → Prop} {R : Matching → β → β → Prop}
  {run run' : Run α} {next next' : α → Run β}

theorem pure {a a' : α} (hW : W.Heaps h h') (ha : Q W a a') :
    Run.Matches W (Pure.pure a) (Pure.pure a') h h' Q :=
  .done ⟨W, .refl W, hW, ha⟩

theorem bind (hrun : Run.Matches W run run' h h' Q)
    (hnext : ∀ {X k k' a a'}, W.Extends X → X.Heaps k k' → Q X a a' →
      Run.Matches X (next a) (next' a') k k' R) :
    Run.Matches W (run >>= next) (run' >>= next') h h' R := by
  unfold Run.Matches at *
  rw [Run.bind_apply, Run.bind_apply]
  generalize run h = ending at hrun
  generalize run' h' = ending' at hrun
  cases hrun with
  | done hmade =>
      obtain ⟨X, hX, hheaps, hQ⟩ := hmade
      have hrest := hnext hX hheaps hQ
      simp only
      generalize next _ _ = ending at hrest
      generalize next' _ _ = ending' at hrest
      cases hrest with
      | done hmade =>
          obtain ⟨Y, hY, hheaps', hR⟩ := hmade
          exact .done ⟨Y, hX.trans hY, hheaps', hR⟩
      | raised hmade =>
          obtain ⟨Y, hY, hheaps', hsignal⟩ := hmade
          exact .raised ⟨Y, hX.trans hY, hheaps', hsignal⟩
      | outOfFuel => exact .outOfFuel
  | raised hmade => exact .raised hmade
  | outOfFuel => exact .outOfFuel

theorem read_bind {f f' : Heap → α} (hnext : Run.Matches W (next (f h)) (next' (f' h')) h h' R) :
    Run.Matches W (Run.read f >>= next) (Run.read f' >>= next') h h' R := hnext

theorem make_bind {f f' : Heap → α × Heap} (hmade : W.Made Q (f h) (f' h'))
    (hnext : ∀ {X k k' a a'}, W.Extends X → X.Heaps k k' → Q X a a' →
      Run.Matches X (next a) (next' a') k k' R) :
    Run.Matches W (Run.make f >>= next) (Run.make f' >>= next') h h' R := by
  have hmake : Run.Matches W (Run.make f) (Run.make f') h h' Q := .done hmade
  exact hmake.bind hnext

theorem change_bind {f f' : Heap → Heap} {next next' : Unit → Run β}
    (hheaps : ∃ X, W.Extends X ∧ X.Heaps (f h) (f' h'))
    (hnext : ∀ {X k k'}, W.Extends X → X.Heaps k k' → Run.Matches X (next ()) (next' ()) k k' R) :
    Run.Matches W (Run.change f >>= next) (Run.change f' >>= next') h h' R := by
  obtain ⟨X, hX, hheaps⟩ := hheaps
  have hchange : Run.Matches W (Run.change f) (Run.change f') h h' fun _ _ _ => True :=
    .done ⟨X, hX, hheaps, trivial⟩
  exact hchange.bind fun hX hheaps _ => hnext hX hheaps

theorem raise {signal signal' : Signal} (hW : W.Heaps h h') (hsignal : signal.Match W signal') :
    Run.Matches W (Run.raise signal : Run α) (Run.raise signal') h h' Q :=
  .raised ⟨W, .refl W, hW, hsignal⟩

theorem fail {kind : FaultKind} {span : Span} {f f' : FrameId} (hW : W.Heaps h h')
    (hf : W.frames f f') :
    Run.Matches W (Run.fail kind span f : Run α) (Run.fail kind span f') h h' Q :=
  raise hW (.failed ⟨rfl, rfl, .some hf⟩)

theorem exhausted : Run.Matches W (Run.exhausted : Run α) Run.exhausted h h' Q := .outOfFuel

/-- Signals that are taken up are results. -/
theorem attempt (hrun : Run.Matches W run run' h h' Q) :
    Run.Matches W run.attempt run'.attempt h h' (Attempt.Match Q) := by
  unfold Run.Matches Run.attempt at *
  generalize run h = ending at hrun
  generalize run' h' = ending' at hrun
  cases hrun with
  | done hmade =>
      obtain ⟨X, hX, hheaps, hQ⟩ := hmade
      exact .done ⟨X, hX, hheaps, .ok hQ⟩
  | raised hmade =>
      obtain ⟨X, hX, hheaps, hsignal⟩ := hmade
      exact .done ⟨X, hX, hheaps, .error hsignal⟩
  | outOfFuel => exact .outOfFuel

end Run.Matches

end CapsuleScript
