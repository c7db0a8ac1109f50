import CapsuleScript.Proofs.Heap.Within
import CapsuleScript.Proofs.Matching.Runs
import CapsuleScript.Proofs.Mirror.Basic

/-! Computations in two frames in which names mean the same, however different the chains of tables
behind them are. Two computations accord if both end with results, which are related, or both fail
for the same reason, and if neither changes what there was: they only add tables and frames. No
other signal leaves them, and they do not run out of fuel. -/

namespace CapsuleScript

open Heap

variable {W X Y : Matching} {α α' β β' : Type} {h h' k k' l l' : Heap} {f f' : FrameId}

/-! ### Frames that see the same -/

/-- The frame and its table have been made, and chains of tables end. -/
structure Heap.Stands (h : Heap) (f : FrameId) : Prop where
  rooted : h.Rooted
  hasFrame : h.HasFrame f
  hasTable : h.HasTable (h.frame f).table

theorem Heap.Stands.within (hf : h.Stands f) (hk : h.Within k) (hr : k.Rooted) : k.Stands f where
  rooted := hr
  hasFrame := hk.hasFrame hf.hasFrame
  hasTable := by
    rw [hk.frame hf.hasFrame]
    exact hk.hasTable hf.hasTable

theorem Heap.Stands.lookup_eq (hf : h.Stands f) (hk : h.Within k) (hr : k.Rooted) (name : String) :
    k.lookup f name = h.lookup f name :=
  hk.lookup_eq hf.rooted hr hf.hasFrame hf.hasTable name

namespace Matching

/-- Heaps that grow stay matched. -/
theorem Heaps.within (hW : W.Heaps h h') (hk : h.Within k) (hk' : h'.Within k') (hr : k.Rooted)
    (hr' : k'.Rooted) : W.Heaps k k' where
  toOneToOne := hW.toOneToOne
  rooted := hr
  rooted' := hr'
  table ht := by
    obtain ⟨hhas, hhas', hmatch⟩ := hW.table ht
    rw [hk.table hhas, hk'.table hhas']
    exact ⟨hk.hasTable hhas, hk'.hasTable hhas', hmatch⟩
  frame hf := by
    obtain ⟨hhas, hhas', hmatch⟩ := hW.frame hf
    rw [hk.frame hhas, hk'.frame hhas']
    exact ⟨hk.hasFrame hhas, hk'.hasFrame hhas', hmatch⟩
  older hf := by
    obtain ⟨hhas, hhas', -⟩ := hW.frame hf
    rw [hk.frame hhas, hk'.frame hhas']
    exact hW.older hf
  function hg := by
    rw [HasFunction, HasFunction, hk.functions, hk'.functions, function_congr hk.functions,
      function_congr hk'.functions]
    exact hW.function hg

/-- The heaps have grown from `h` to `k` and from `h'` to `k'`, and `X` matches them: what `W`
matches, and maybe more. -/
structure Grown (W : Matching) (h h' : Heap) (X : Matching) (k k' : Heap) : Prop where
  matching : W.Extends X
  heaps : X.Heaps k k'
  left : h.Within k
  right : h'.Within k'

theorem Grown.refl (hW : W.Heaps h h') : W.Grown h h' W h h' :=
  ⟨.refl W, hW, .refl h, .refl h'⟩

theorem Grown.trans (hX : W.Grown h h' X k k') (hY : X.Grown k k' Y l l') :
    W.Grown h h' Y l l' :=
  ⟨hX.matching.trans hY.matching, hY.heaps, hX.left.trans hY.left, hX.right.trans hY.right⟩

/-- The heaps are matched, and every name means matching values in the two frames, or nothing. -/
structure SameNames (W : Matching) (h : Heap) (f : FrameId) (h' : Heap) (f' : FrameId) : Prop where
  heaps : W.Heaps h h'
  left : h.Stands f
  right : h'.Stands f'
  lookup : ∀ name, Option.Rel (Value.Match W) (h.lookup f name) (h'.lookup f' name)

theorem SameNames.grown (hS : W.SameNames h f h' f') (hX : W.Grown h h' X k k') :
    X.SameNames k f k' f' where
  heaps := hX.heaps
  left := hS.left.within hX.left hX.heaps.rooted
  right := hS.right.within hX.right hX.heaps.rooted'
  lookup name := by
    rw [hS.left.lookup_eq hX.left hX.heaps.rooted, hS.right.lookup_eq hX.right hX.heaps.rooted']
    exact rel_mono (fun hv => hv.mono hX.matching) (hS.lookup name)

end Matching

/-! ### Computations that accord -/

/-- Both computations have ended with a result, and have only added to their heaps, or both have
failed for the same reason at the same code. -/
inductive Ending.Accord (W : Matching) (h h' : Heap) (Q : Matching → α → α' → Prop) :
    Ending α → Ending α' → Prop where
  | done {X : Matching} {a : α} {a' : α'} {k k' : Heap} :
      W.Grown h h' X k k' → Q X a a' → Ending.Accord W h h' Q (.done a k) (.done a' k')
  | failed {fault fault' : Fault} {k k' : Heap} :
      fault.kind = fault'.kind → fault.span = fault'.span →
      Ending.Accord W h h' Q (.raised (.failed fault) k) (.raised (.failed fault') k')

/-- What has grown before the computations is what they have added to. -/
theorem Ending.Accord.of_grown {Q : Matching → α → α' → Prop} {ending : Ending α}
    {ending' : Ending α'} (hX : W.Grown h h' X k k') (hend : ending.Accord X k k' Q ending') :
    ending.Accord W h h' Q ending' := by
  cases hend with
  | done hY hQ => exact .done (hX.trans hY) hQ
  | failed hkind hspan => exact .failed hkind hspan

/-- The computations end in this way on two heaps. -/
def Run.Accords (W : Matching) (run : Run α) (run' : Run α') (h h' : Heap)
    (Q : Matching → α → α' → Prop) : Prop :=
  Ending.Accord W h h' Q (run h) (run' h')

namespace Run.Accords

variable {Q : Matching → α → α' → Prop} {R : Matching → β → β' → Prop} {run : Run α}
  {run' : Run α'} {next : α → Run β} {next' : α' → Run β'}

theorem pure {a : α} {a' : α'} (hW : W.Heaps h h') (ha : Q W a a') :
    Run.Accords W (Pure.pure a) (Pure.pure a') h h' Q :=
  .done (.refl hW) ha

theorem fail (kind : FaultKind) (span : Span) (f f' : FrameId) :
    Run.Accords W (Run.fail kind span f : Run α) (Run.fail kind span f' : Run α') h h' Q :=
  .failed rfl rfl

theorem bind (hrun : Run.Accords W run run' h h' Q)
    (hnext : ∀ {X k k' a a'}, W.Grown h h' X k k' → Q X a a' →
      Run.Accords X (next a) (next' a') k k' R) :
    Run.Accords W (run >>= next) (run' >>= next') h h' R := by
  unfold Run.Accords at *
  rw [Run.bind_apply, Run.bind_apply]
  generalize run h = ending at hrun
  generalize run' h' = ending' at hrun
  cases hrun with
  | done hX hQ => exact (hnext hX hQ).of_grown hX
  | failed hkind hspan => exact .failed hkind hspan

theorem read_bind {g : Heap → α} {g' : Heap → α'}
    (hnext : Run.Accords W (next (g h)) (next' (g' h')) h h' R) :
    Run.Accords W (Run.read g >>= next) (Run.read g' >>= next') h h' R := hnext

end Run.Accords

/-- The values match and were given by the same code, maybe in other frames. -/
structure Stamped.Accord (W : Matching) (s s' : Stamped) : Prop where
  value : s.value.Match W s'.value
  span : s.span = s'.span

theorem Stamped.Accord.mono (hX : W.Extends X) {s s' : Stamped} (hs : s.Accord W s') :
    s.Accord X s' :=
  ⟨hs.value.mono hX, hs.span⟩

/-- The values accord, and the next statements run in the frames `f` and `f'`. -/
structure Outcome.Accord (f f' : FrameId) (W : Matching) (out out' : Outcome) : Prop where
  result : out.result.Accord W out'.result
  frame : out.frame = f
  frame' : out'.frame = f'

theorem Outcome.Accord.give {v v' : Value} {span : Span} (hv : v.Match W v') :
    Accord f f' W (Evaluation.give v span f) (Evaluation.give v' span f') :=
  ⟨⟨hv, rfl⟩, rfl, rfl⟩

/-- The evaluations of the node by `sub` accord wherever names mean the same, and leave the current
frames as they are. -/
def Node.Accords (sub : Evaluator) (n : Node) : Prop :=
  ∀ {W h f h' f'}, W.SameNames h f h' f' →
    Run.Accords W (sub n f) (sub n f') h h' (Outcome.Accord f f')

end CapsuleScript
