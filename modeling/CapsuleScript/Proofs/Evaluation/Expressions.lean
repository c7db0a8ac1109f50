import CapsuleScript.Proofs.Evaluation.Operations
import CapsuleScript.Proofs.Operation.Plain

/-! Every construct evolves the heap if the evaluator of its parts does. An expression may be
evaluated in any frame, and stays in it; a statement is evaluated in a frame that may be written to,
and goes on in such a frame, which was entered from the first. A block opens a frame of its own, so
it may stand anywhere. This module has what is said about values and the constructs that only
compute them. -/

namespace CapsuleScript

open Heap

variable {fresh : Nat} {h k : Heap} {f : FrameId} {statement : Bool}

/-- The frame `f` belongs to a sound heap, whose tables from `fresh` on may be written to. -/
structure Heap.Ready (fresh : Nat) (h : Heap) (f : FrameId) : Prop where
  sound : h.Sound
  le : fresh ≤ h.tables.size
  hasFrame : h.HasFrame f

theorem Heap.Ready.steps (hr : h.Ready fresh f) (hs : Steps fresh h k) : k.Ready fresh f where
  sound := hs.sound hr.sound
  le := Nat.le_trans hr.le hs.keeps.tables
  hasFrame := hs.keeps.hasFrame hr.hasFrame

/-- Where an evaluation in the frame `f` leaves off, if a statement may be what was evaluated. -/
structure Outcome.GoesOn (fresh : Nat) (statement : Bool) (f : FrameId) (out : Outcome) (k : Heap) :
    Prop where
  live : out.result.value.Lives k
  hasFrame : k.HasFrame out.frame
  descends : k.Descends f out.frame
  writable : statement = true → k.Writable fresh out.frame
  same : statement = false → out.frame = f

/-- The evaluator evolves every sound heap, in any frame for expressions and blocks and in a frame
that may be written to for other statements. -/
def Evaluator.Evolves (sub : Evaluator) : Prop :=
  ∀ {fresh h n f statement}, h.Ready fresh f → n.Fits statement →
    (statement = true → n.IsBlock ∨ h.Writable fresh f) →
      (sub n f).Evolves fresh h (Outcome.GoesOn fresh statement f)

/-- An expression goes on in the frame it was evaluated in. -/
theorem Outcome.GoesOn.give {v : Value} {span : Span} (hv : v.Lives k) (hf : k.HasFrame f)
    (hw : statement = true → k.Writable fresh f) :
    GoesOn fresh statement f (Evaluation.give v span f) k :=
  ⟨hv, hf, .refl, hw, fun _ => rfl⟩

/-- An expression may stand in place of a statement where names may be bound. -/
theorem Outcome.GoesOn.of_false {out : Outcome} (hout : GoesOn fresh false f out k)
    (hw : statement = true → k.Writable fresh f) : GoesOn fresh statement f out k := by
  have hsame := hout.same rfl
  refine ⟨hout.live, hout.hasFrame, hout.descends, fun hst => ?_, fun _ => hsame⟩
  rw [hsame]
  exact hw hst

theorem Stamped.anchored_value (s : Stamped) (f : FrameId) : (s.anchored f).value = s.value := by
  unfold Stamped.anchored
  split <;> rfl

/-! ### Operators -/

theorem Value.IsPlain.lives {v : Value} (hv : v.IsPlain) : v.Lives h := by
  cases v <;> trivial

namespace Operation

/-- What a list operator gives is made of its operands, truth values and `null`. -/
theorem holds_list {P : Value → Prop} (hlist : ∀ {vs}, P (.list vs) ↔ ∀ v ∈ vs, P v)
    (hbool : ∀ b, P (.bool b)) (hnull : P .null) {heap : Heap} {op : BinaryOp}
    {elements : List Value} {right v : Value} (helements : ∀ w ∈ elements, P w) (hright : P right)
    (hv : list heap op elements right = .ok v) : P v := by
  cases op <;> simp only [list] at hv
  case add =>
    cases hv
    refine hlist.mpr fun w hw => ?_
    rcases List.mem_append.mp hw with hw | hw
    · exact helements w hw
    · rw [List.mem_singleton.mp hw]
      exact hright
  case sub =>
    cases hindex : listIndex heap elements right <;> rw [hindex] at hv <;> cases hv
    exact hlist.mpr fun w hw => helements w (List.mem_of_mem_eraseIdx hw)
  case mul =>
    split at hv
    · cases hv
      refine hlist.mpr fun w hw => ?_
      rcases List.mem_append.mp hw with hw | hw
      · exact helements w hw
      · exact hlist.mp hright w hw
    · cases hv
  case div =>
    cases hindex : listIndex heap elements right <;> rw [hindex] at hv <;> cases hv
    rename_i i
    show P (elements.getD i .null)
    rw [List.getD_eq_getElem?_getD]
    cases hget : elements[i]? with
    | none => exact hnull
    | some w => exact helements w (List.mem_of_getElem? hget)
  all_goals cases hv
  all_goals exact hbool _

theorem lives_list {heap : Heap} {op : BinaryOp} {elements : List Value} {right v : Value}
    (helements : Value.AllLive h elements) (hright : right.Lives h)
    (hv : list heap op elements right = .ok v) : v.Lives h :=
  holds_list (P := fun v => v.Lives h) Value.allLive_iff (fun _ => trivial) trivial
    (Value.allLive_iff.mp helements) hright hv

theorem evolves_settle {left right : Stamped} {result : Except FaultKind Value}
    (hlive : ∀ v, result = .ok v → v.Lives h) :
    (settle left right result).Evolves fresh h fun v k => v.Lives k := by
  cases result with
  | ok v => exact .pure (hlive v rfl)
  | error kind => exact .raise trivial

theorem evolves_object (hh : h.Sound) {op : BinaryOp} {c : Capsule} {left right : Stamped}
    (hc : c.Lives h) (hright : right.value.Lives h) :
    (object op c left right).Evolves fresh h fun v k => v.Lives k := by
  unfold object
  split
  · rename_i fields inherited types scope hvalue
    rw [hvalue] at hright
    have hd : Capsule.Lives h ⟨fields, inherited, types, scope⟩ := hright
    refine .make_bind (.single (Capsule.Lives.step_merge hh hc hd _)) (.pure ?_)
    exact Capsule.Lives.merge hh hc hd _
  · cases hfield : c.field? _ with
    | none => exact .pure trivial
    | some v => exact .pure (hc.field? hfield)
  · exact .pure trivial
  · exact .pure trivial
  · exact evolves_settle fun v hv => by cases hv

theorem evolves_binary (hh : h.Sound) {op : BinaryOp} {left right : Stamped}
    (hleft : left.value.Lives h) (hright : right.value.Lives h) :
    (binary op left right).Evolves fresh h fun v k => v.Lives k := by
  have htyped : (typed op left right).Evolves fresh h fun v k => v.Lives k := by
    unfold typed
    split
    · exact evolves_settle fun v hv => (isPlain_numeric hv).lives
    · exact evolves_settle fun v hv => (isPlain_numeric hv).lives
    · exact evolves_settle fun v hv => (isPlain_numeric hv).lives
    · exact evolves_settle fun v hv => (isPlain_text hv).lives
    · rename_i elements hvalue
      rw [hvalue] at hleft
      exact .read_bind (evolves_settle fun v hv => lives_list hleft hright hv)
    · rename_i hvalue
      rw [hvalue] at hleft
      exact evolves_object hh hleft hright
    · exact evolves_settle fun v hv => by cases hv
    · exact evolves_settle fun v hv => by cases hv
  unfold binary
  split
  · exact .pure trivial
  · exact .pure trivial
  · exact htyped

end Operation

namespace Evaluation

variable {sub : Evaluator}

/-! ### Values -/

theorem evolves_value (hsub : sub.Evolves) (hr : h.Ready fresh f) {n : Node} (hn : n.Fits statement)
    (hw : statement = true → h.Writable fresh f) :
    (value sub n f).Evolves fresh h fun s k => s.value.Lives k := by
  apply Run.Evolves.bind hr.sound (hsub hr hn fun hst => .inr (hw hst))
  intro out k _ _ hout
  refine .pure ?_
  rw [Stamped.anchored_value]
  exact hout.live

/-- The value of an expression, which may be evaluated in any frame. -/
theorem evolves_expression (hsub : sub.Evolves) (hr : h.Ready fresh f) {n : Node}
    (hn : n.IsExpression) : (value sub n f).Evolves fresh h fun s k => s.value.Lives k :=
  evolves_value hsub hr hn fun hst => absurd hst Bool.false_ne_true

theorem evolves_values (hsub : sub.Evolves) (hr : h.Ready fresh f) {nodes : List Node}
    (hn : Node.AllFit false nodes) :
    (values sub f nodes).Evolves fresh h fun vs k => Value.AllLive k vs := by
  induction nodes generalizing h with
  | nil => exact .pure trivial
  | cons n rest ih =>
      apply Run.Evolves.bind hr.sound (evolves_expression hsub hr hn.1)
      intro s k hk hs hlive
      apply Run.Evolves.bind hk (ih (hr.steps hs) hn.2)
      intro vs l _ hs' hlives
      exact .pure ⟨hs'.keeps.lives hlive, hlives⟩

theorem evolves_bindingTarget (hr : h.Ready fresh f) (hw : h.Writable fresh f)
    (name label : String) (span : Span) :
    (bindingTarget name label span f).Evolves fresh h fun g k => k.Writable fresh g ∧
      k.Descends f g ∧ (k.table (k.frame g).table).bindings.get? name = none := by
  refine .read_bind ?_
  split
  · refine .make (.single (hr.sound.step_enter label hr.hasFrame span)) ?_
    refine ⟨writable_enter hr.le label f span, descends_enter label f span, ?_⟩
    rw [bindings_enter]
    rfl
  · rename_i hbinds
    refine .pure ⟨hw, .refl, ?_⟩
    simpa [bindsDirectly, Bindings.has] using hbinds

/-! ### Expressions -/

theorem evolves_list (hsub : sub.Evolves) (hr : h.Ready fresh f) {span : Span}
    {elements : List Node} (hn : Node.AllFit false elements)
    (hw : statement = true → h.Writable fresh f) :
    (list sub span elements f).Evolves fresh h (Outcome.GoesOn fresh statement f) := by
  apply Run.Evolves.bind hr.sound (evolves_values hsub hr hn)
  intro vs k _ hs hlive
  exact .pure (.give hlive (hr.steps hs).hasFrame fun hst => hs.keeps.writable (hw hst))

theorem evolves_ident (hr : h.Ready fresh f) {span : Span} {name : String}
    (hw : statement = true → h.Writable fresh f) :
    (ident span name f).Evolves fresh h (Outcome.GoesOn fresh statement f) := by
  refine .read_bind ?_
  split
  · rename_i v hlook
    exact .pure (.give (hr.sound.lives_of_lookup hlook) hr.hasFrame hw)
  · exact .fail

/-- The result of an operator on operands that are alive, as the outcome of an expression. -/
theorem evolves_operation (hr : h.Ready fresh f) {op : BinaryOp} {left right : Stamped} {span : Span}
    (hleft : left.value.Lives h) (hright : right.value.Lives h)
    (hw : statement = true → h.Writable fresh f) :
    (Operation.binary op left right >>= fun v => pure (give v span f)).Evolves fresh h
      (Outcome.GoesOn fresh statement f) := by
  apply Run.Evolves.bind hr.sound (Operation.evolves_binary hr.sound hleft hright)
  intro v k _ hs hv
  exact .pure (.give hv (hr.steps hs).hasFrame fun hst => hs.keeps.writable (hw hst))

theorem evolves_binary (hsub : sub.Evolves) (hr : h.Ready fresh f) {span : Span} {op : BinaryOp}
    {left right : Node} (hl : left.IsExpression) (hri : right.IsExpression)
    (hw : statement = true → h.Writable fresh f) :
    (binary sub span op left right f).Evolves fresh h (Outcome.GoesOn fresh statement f) := by
  apply Run.Evolves.bind hr.sound (evolves_expression hsub hr hl)
  intro lv k hk hs hlive
  have hr' := hr.steps hs
  split
  · split
    · rename_i fields inherited types scope hvalue
      rw [hvalue] at hlive
      -- The right operand is evaluated in another frame, in which nothing may be bound.
      have hscope : k.Ready fresh scope := ⟨hk, hr'.le, hlive.2.2⟩
      apply Run.Evolves.bind hk (evolves_expression hsub hscope hri)
      intro rv l _ hs' hv
      have hs'' : Steps fresh h l := hs.trans hs'
      exact .pure (.give hv (hr.steps hs'').hasFrame fun hst => hs''.keeps.writable (hw hst))
    · exact .raise trivial
  · apply Run.Evolves.bind hk (evolves_expression hsub hr' hri)
    intro rv l _ hs' hv
    exact evolves_operation (hr'.steps hs') (hs'.keeps.lives hlive) hv
      fun hst => hs'.keeps.writable (hs.keeps.writable (hw hst))

theorem evolves_unary (hsub : sub.Evolves) (hr : h.Ready fresh f) {span : Span} {op : UnaryOp}
    {operand : Node} (hn : operand.IsExpression) (hw : statement = true → h.Writable fresh f) :
    (unary sub span op operand f).Evolves fresh h (Outcome.GoesOn fresh statement f) := by
  apply Run.Evolves.bind hr.sound (evolves_expression hsub hr hn)
  intro v k _ hs hlive
  have hr' := hr.steps hs
  have hw' : statement = true → k.Writable fresh f := fun hst => hs.keeps.writable (hw hst)
  cases op with
  | plus => exact evolves_operation hr' hlive trivial hw'
  | negate => exact evolves_operation hr' hlive trivial hw'
  | not => exact .pure (.give trivial hr'.hasFrame hw')

theorem evolves_conditional (hsub : sub.Evolves) (hr : h.Ready fresh f) {span : Span}
    {producesValue : Bool} {condition thenBranch : Node} {elseBranch : Option Node}
    (hn : (Node.conditional span producesValue condition thenBranch elseBranch).Fits statement)
    (hw : statement = true → h.Writable fresh f) :
    (conditional sub span producesValue condition thenBranch elseBranch f).Evolves fresh h
      (Outcome.GoesOn fresh statement f) := by
  obtain ⟨hplace, hcondition, hthen, helse⟩ := hn
  apply Run.Evolves.bind hr.sound (evolves_expression hsub hr hcondition)
  intro c k hk hs _
  have hr' := hr.steps hs
  have hw' : statement = true → k.Writable fresh f := fun hst => hs.keeps.writable (hw hst)
  have hbranch : ∀ branch, branch.Fits (!producesValue) →
      (do
        let outcome ← sub branch f
        if producesValue then return outcome
        else return ⟨.of (.bool false) span f, outcome.frame⟩ : Run Outcome).Evolves fresh k
          (Outcome.GoesOn fresh statement f) := by
    intro branch hfits
    cases producesValue with
    | true =>
        apply Run.Evolves.bind hk (hsub hr' hfits fun hst => absurd hst Bool.false_ne_true)
        intro out l _ hs' hout
        exact .pure (hout.of_false fun hst => hs'.keeps.writable (hw' hst))
    | false =>
        have hst := hplace rfl
        apply Run.Evolves.bind hk (hsub hr' hfits fun _ => .inr (hw' hst))
        intro out l _ _ hout
        refine .pure ⟨trivial, hout.hasFrame, hout.descends, fun _ => hout.writable rfl, ?_⟩
        exact fun hno => absurd (hno.symm.trans hst) Bool.false_ne_true
  split
  · exact .pure (.give trivial hr'.hasFrame hw')
  · rename_i branch hchosen
    refine hbranch branch ?_
    split at hchosen
    · cases hchosen
      exact hthen
    · rw [hchosen] at helse
      exact helse

theorem evolves_prev (hsub : sub.Evolves) (hr : h.Ready fresh f) {span : Span} {expression : Node}
    (hn : expression.IsExpression) (hw : statement = true → h.Writable fresh f) :
    (prev sub span expression f).Evolves fresh h (Outcome.GoesOn fresh statement f) := by
  refine .read_bind ?_
  split
  · rename_i p hp
    have hparent : h.Ready fresh p := ⟨hr.sound, hr.le, hr.sound.hasFrame_parent hr.hasFrame hp⟩
    apply Run.Evolves.bind hr.sound (evolves_expression hsub hparent hn)
    intro v k _ hs hlive
    exact .pure (.give hlive (hr.steps hs).hasFrame fun hst => hs.keeps.writable (hw hst))
  · exact .fail

end Evaluation

end CapsuleScript
