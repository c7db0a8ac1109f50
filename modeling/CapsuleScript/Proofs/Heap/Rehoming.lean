import CapsuleScript.Proofs.Heap.Sound

/-! What binding a value makes of it. Defined functions are copied, at every depth of lists, and
each copy gets the frame of the binding as its home; placeholders stay the same functions, and so
does all that objects hold. -/

namespace CapsuleScript

namespace Heap

variable {h k l : Heap} {t : FrameId} {v w : Value}

/-- The functions of the heap `h` are the same in `k`, which may have more. -/
structure Retains (h k : Heap) : Prop where
  size : h.functions.size ≤ k.functions.size
  function : ∀ {g}, h.HasFunction g → k.function g = h.function g

namespace Retains

theorem of_functions (hfunctions : k.functions = h.functions) : h.Retains k where
  size := Nat.le_of_eq (congrArg Array.size hfunctions.symm)
  function _ := function_congr hfunctions _

theorem refl (h : Heap) : h.Retains h := .of_functions rfl

theorem hasFunction (hk : h.Retains k) {g : FunctionId} (hg : h.HasFunction g) : k.HasFunction g :=
  Nat.lt_of_lt_of_le hg hk.size

theorem trans (hk : h.Retains k) (hl : k.Retains l) : h.Retains l where
  size := Nat.le_trans hk.size hl.size
  function hg := (hl.function (hk.hasFunction hg)).trans (hk.function hg)

theorem addFunction (data : Function) : h.Retains (h.addFunction data) where
  size := by simp
  function hg := function_addFunction_of_hasFunction hg

end Retains

end Heap

open Heap

variable {h k l : Heap} {t : FrameId} {v w : Value}

mutual

/-- On the heap `k` the value `w` is the value `v` of the heap `h` with every defined function, also
in lists, replaced by a new one that differs from it in its home only, which is `t`. All else is as
it was. -/
def Value.Rehomed (h k : Heap) (t : FrameId) : Value → Value → Prop
  | .function g, w =>
    if (h.function g).initialized then
      ∃ copy, w = .function copy ∧ ¬ h.HasFunction copy ∧ k.HasFunction copy ∧
        k.function copy = { h.function g with home := t }
    else w = .function g
  | .list elements, w => ∃ others, w = .list others ∧ Value.AllRehomed h k t elements others
  | v, w => w = v

/-- Each value of the second list is the one of the first with its functions replaced. -/
def Value.AllRehomed (h k : Heap) (t : FrameId) : List Value → List Value → Prop
  | [], others => others = []
  | v :: rest, others => ∃ w more, others = w :: more ∧ v.Rehomed h k t w ∧
    Value.AllRehomed h k t rest more

end

mutual

theorem Value.Rehomed.mono (hl : k.Retains l) : {v w : Value} → v.Rehomed h k t w →
    v.Rehomed h l t w
  | .function g, w, hv => by
      rw [Value.Rehomed] at hv ⊢
      split
      · rename_i hinit
        rw [if_pos hinit] at hv
        obtain ⟨copy, hw, hnew, hcopy, hdata⟩ := hv
        exact ⟨copy, hw, hnew, hl.hasFunction hcopy, (hl.function hcopy).trans hdata⟩
      · rename_i hinit
        rwa [if_neg hinit] at hv
  | .list elements, w, ⟨others, hw, hall⟩ => ⟨others, hw, hall.mono hl⟩
  | .number _, _, hv | .bool _, _, hv | .null, _, hv | .text _, _, hv | .encap .., _, hv
  | .empty, _, hv => hv

theorem Value.AllRehomed.mono (hl : k.Retains l) : {vs ws : List Value} →
    Value.AllRehomed h k t vs ws → Value.AllRehomed h l t vs ws
  | [], _, hvs => hvs
  | _ :: _, _, ⟨w, more, hws, hfirst, hrest⟩ => ⟨w, more, hws, hfirst.mono hl, hrest.mono hl⟩

end

namespace Heap

theorem withHome_eq (g : FunctionId) (t : FrameId) :
    h.withHome g t = (⟨h.functions.size⟩, h.addFunction { h.function g with home := t }) := rfl

mutual

theorem retains_rehome (t : FrameId) : (v : Value) → (h : Heap) → h.Retains (rehome t v h).2
  | .function g, h => by
      rw [rehome]
      split
      · exact .addFunction _
      · exact .refl h
  | .list elements, h => retains_rehomeAll t elements h
  | .number _, h | .bool _, h | .null, h | .text _, h | .encap .., h | .empty, h => .refl h

theorem retains_rehomeAll (t : FrameId) : (vs : List Value) → (h : Heap) →
    h.Retains (rehomeAll t vs h).2
  | [], h => .refl h
  | v :: rest, h => (retains_rehome t v h).trans (retains_rehomeAll t rest (rehome t v h).2)

end

mutual

/-- A value that holds what there is in `h` is kept with its functions replaced, also if others have
been made since. -/
theorem rehomed_rehome (t : FrameId) : {v : Value} → {l : Heap} → h.Retains l → v.Lives h →
    v.Rehomed h (rehome t v l).2 t (rehome t v l).1
  | .function g, l, hl, hv => by
      have hg : l.function g = h.function g := hl.function hv
      rw [rehome, Value.Rehomed, hg, withHome_eq]
      split
      · refine ⟨⟨l.functions.size⟩, rfl, Nat.not_lt.mpr hl.size, by simp [HasFunction], ?_⟩
        rw [function_addFunction, if_pos rfl, hg]
      · rfl
  | .list elements, l, hl, hv => ⟨_, rfl, rehomed_rehomeAll t hl hv⟩
  | .number _, _, _, _ | .bool _, _, _, _ | .null, _, _, _ | .text _, _, _, _
  | .encap .., _, _, _ | .empty, _, _, _ => rfl

theorem rehomed_rehomeAll (t : FrameId) : {vs : List Value} → {l : Heap} → h.Retains l →
    Value.AllLive h vs → Value.AllRehomed h (rehomeAll t vs l).2 t vs (rehomeAll t vs l).1
  | [], _, _, _ => rfl
  | v :: rest, l, hl, hvs => by
      have hfirst := rehomed_rehome t hl hvs.1
      have hrest := rehomed_rehomeAll t (hl.trans (retains_rehome t v l)) hvs.2
      exact ⟨_, _, rfl, hfirst.mono (retains_rehomeAll t rest _), hrest⟩

end

end Heap

end CapsuleScript
