import CapsuleScript.Proofs.Accord.Basic
import CapsuleScript.Proofs.Evaluation.Expressions
import CapsuleScript.Proofs.Matching.Expressions

/-! The constructs that only compute values accord in frames that see the same, if their parts do.
Access to objects is not among them: its right operand is evaluated in the scope of an object, in
which the names of the frame are not seen. -/

namespace CapsuleScript

open Heap

variable {W : Matching} {h h' : Heap} {f f' : FrameId}

/-! ### Operators -/

namespace Operation

variable {left left' right right' : Stamped}

theorem accords_settle (hW : W.Heaps h h') (hl : left.Accord W left') (hr : right.Accord W right')
    {result result' : Except FaultKind Value} (hresult : Agree W result result') :
    Run.Accords W (settle left right result) (settle left' right' result') h h' Value.Match := by
  cases hresult with
  | ok hv => exact .pure hW hv
  | error kind => exact .failed rfl (congrArg₂ Span.through hl.span hr.span)

/-- Two objects are made one in a new frame with a new table. -/
theorem within_merge (c d : Capsule) (entry : Span) : h.Within (c.merge d entry h).2 :=
  Within.opened _ _ _

theorem accords_binary (hW : W.Heaps h h') {op : BinaryOp} (hl : left.Accord W left')
    (hr : right.Accord W right') :
    Run.Accords W (binary op left right) (binary op left' right') h h' Value.Match := by
  refine binary_of_match hW.render_eq hl.value hr.value (accords_settle hW hl hr) fun hc hd => ?_
  rw [hl.span]
  obtain ⟨X, hX, hheaps, hmerged⟩ := hc.merge hW hd left'.span
  exact .done ⟨hX, hheaps, within_merge _ _ _, within_merge _ _ _⟩ hmerged.toValue

end Operation

theorem Stamped.Accord.anchored {s s' : Stamped} (hs : s.Accord W s') (f f' : FrameId) :
    (s.anchored f).Accord W (s'.anchored f') := by
  have hspan : ∀ (s : Stamped) (f : FrameId), (s.anchored f).span = s.span := by
    rintro ⟨value, span, _ | owner⟩ f <;> rfl
  constructor
  · rw [Stamped.anchored_value, Stamped.anchored_value]
    exact hs.value
  · rw [hspan, hspan]
    exact hs.span

namespace Evaluation

variable {sub : Evaluator}

/-! ### Values -/

theorem accords_value {n : Node} (hn : n.Accords sub) (hS : W.SameNames h f h' f') :
    Run.Accords W (value sub n f) (value sub n f') h h' Stamped.Accord := by
  apply Run.Accords.bind (hn hS)
  intro X k k' out out' hX hout
  exact .pure hX.heaps (hout.result.anchored f f')

theorem accords_values {nodes : List Node} (hnodes : ∀ n ∈ nodes, n.Accords sub)
    (hS : W.SameNames h f h' f') :
    Run.Accords W (values sub f nodes) (values sub f' nodes) h h' Value.AllMatch := by
  induction nodes generalizing W h h' with
  | nil => exact .pure hS.heaps .nil
  | cons n rest ih =>
      apply Run.Accords.bind (accords_value (hnodes n List.mem_cons_self) hS)
      intro X k k' s s' hX hs
      apply Run.Accords.bind (ih (fun m hm => hnodes m (List.mem_cons_of_mem n hm)) (hS.grown hX))
      intro Y l l' vs vs' hY hvs
      exact .pure hY.heaps (.cons (hs.value.mono hY.matching) hvs)

theorem accords_list {elements : List Node} (helements : ∀ n ∈ elements, n.Accords sub)
    (hS : W.SameNames h f h' f') (span : Span) :
    Run.Accords W (list sub span elements f) (list sub span elements f') h h'
      (Outcome.Accord f f') := by
  apply Run.Accords.bind (accords_values helements hS)
  intro X k k' vs vs' hX hvs
  exact .pure hX.heaps (.give (.list hvs))

theorem accords_ident (hS : W.SameNames h f h' f') (span : Span) (name : String) :
    Run.Accords W (ident span name f) (ident span name f') h h' (Outcome.Accord f f') := by
  refine .read_bind ?_
  have hlook := hS.lookup name
  generalize h.lookup f name = o at hlook
  generalize h'.lookup f' name = o' at hlook
  cases hlook with
  | none => exact .fail _ _ _ _
  | some hv => exact .pure hS.heaps (.give hv)

/-! ### Operators and choices -/

/-- The result of an operator on operands that accord, as the outcome of an expression. -/
theorem accords_operation (hW : W.Heaps h h') {op : BinaryOp} {left left' right right' : Stamped}
    (span : Span) (hl : left.Accord W left') (hr : right.Accord W right') :
    Run.Accords W (Operation.binary op left right >>= fun v => pure (give v span f))
      (Operation.binary op left' right' >>= fun v => pure (give v span f')) h h'
      (Outcome.Accord f f') := by
  apply Run.Accords.bind (Operation.accords_binary hW hl hr)
  intro X k k' v v' hX hv
  exact .pure hX.heaps (.give hv)

theorem accords_binary {left right : Node} (hleft : left.Accords sub) (hright : right.Accords sub)
    (hS : W.SameNames h f h' f') (span : Span) {op : BinaryOp} (hop : op ≠ .access) :
    Run.Accords W (binary sub span op left right f) (binary sub span op left right f') h h'
      (Outcome.Accord f f') := by
  apply Run.Accords.bind (accords_value hleft hS)
  intro X k k' lv lv' hX hlv
  have hoperation : ∀ op : BinaryOp, Run.Accords X
      (value sub right f >>= fun rv => Operation.binary op lv rv >>= fun v => pure (give v span f))
      (value sub right f' >>= fun rv =>
        Operation.binary op lv' rv >>= fun v => pure (give v span f')) k k'
      (Outcome.Accord f f') := by
    intro op
    apply Run.Accords.bind (accords_value hright (hS.grown hX))
    intro Y l l' rv rv' hY hrv
    exact accords_operation hY.heaps span (hlv.mono hY.matching) hrv
  cases op
  case access => exact absurd rfl hop
  all_goals exact hoperation _

theorem accords_unary {operand : Node} (hoperand : operand.Accords sub)
    (hS : W.SameNames h f h' f') (span : Span) (op : UnaryOp) :
    Run.Accords W (unary sub span op operand f) (unary sub span op operand f') h h'
      (Outcome.Accord f f') := by
  apply Run.Accords.bind (accords_value hoperand hS)
  intro X k k' v v' hX hv
  cases op with
  | plus => exact accords_operation hX.heaps span hv ⟨.number _, hv.span⟩
  | negate => exact accords_operation hX.heaps span hv ⟨.number _, hv.span⟩
  | not =>
      simp only [hv.value.isTrue_eq]
      exact .pure hX.heaps (.give (.bool _))

/-- A choice between values. -/
theorem accords_conditional {condition thenBranch : Node} {elseBranch : Option Node}
    (hcondition : condition.Accords sub) (hthen : thenBranch.Accords sub)
    (helse : ∀ n ∈ elseBranch, n.Accords sub) (hS : W.SameNames h f h' f') (span : Span) :
    Run.Accords W (conditional sub span true condition thenBranch elseBranch f)
      (conditional sub span true condition thenBranch elseBranch f') h h'
      (Outcome.Accord f f') := by
  apply Run.Accords.bind (accords_value hcondition hS)
  intro X k k' c c' hX hc
  have hbranch : ∀ n ∈ (if c'.value.isTrue then some thenBranch else elseBranch),
      n.Accords sub := by
    intro n hn
    split at hn
    · cases hn
      exact hthen
    · exact helse n hn
  simp only [hc.value.isTrue_eq]
  generalize (if c'.value.isTrue then some thenBranch else elseBranch) = taken at hbranch
  cases taken with
  | none => exact .pure hX.heaps (.give (.bool false))
  | some branch =>
      apply Run.Accords.bind (hbranch branch rfl (hS.grown hX))
      intro Y l l' out out' hY hout
      exact .pure hY.heaps hout

end Evaluation

end CapsuleScript
