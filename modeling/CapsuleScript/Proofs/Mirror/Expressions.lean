import CapsuleScript.Proofs.Matching.Expressions
import CapsuleScript.Proofs.Mirror.Operations

/-! Computations on two heaps that look alike. They end in the same way, with related results or
signals, on heaps that look alike again. This module has the rules for the ways in which computations
are put together, operators and the constructs that only compute values. -/

namespace CapsuleScript

open Heap

variable {α β : Type} {W X : Matching} {z z' : Horizon} {h h' : Heap} {f f' : FrameId}
  {statement : Bool}

/-- The computations have ended in the same way: both with a result, both with a signal or both
without fuel. -/
inductive Ending.Mirrors (z z' : Horizon) (W : Matching) (Q : Matching → α → α → Prop) :
    Ending α → Ending α → Prop where
  | done {a a' : α} {k k' : Heap} :
      W.Brings z z' Q (a, k) (a', k') → Ending.Mirrors z z' W Q (.done a k) (.done a' k')
  | raised {signal signal' : Signal} {k k' : Heap} :
      W.Brings z z' Signal.Match (signal, k) (signal', k') →
      Ending.Mirrors z z' W Q (.raised signal k) (.raised signal' k')
  | outOfFuel : Ending.Mirrors z z' W Q .outOfFuel .outOfFuel

/-- The computations end in the same way on two heaps. -/
def Run.Mirrors (z z' : Horizon) (W : Matching) (run run' : Run α) (h h' : Heap)
    (Q : Matching → α → α → Prop) : Prop :=
  Ending.Mirrors z z' W Q (run h) (run' h')

namespace Run.Mirrors

variable {Q : Matching → α → α → Prop} {R : Matching → β → β → Prop} {run run' : Run α}
  {next next' : α → Run β}

theorem pure {a a' : α} (hW : W.Mirrors z z' h h') (ha : Q W a a') :
    Run.Mirrors z z' W (Pure.pure a) (Pure.pure a') h h' Q :=
  .done ⟨W, .refl W, hW, ha⟩

theorem bind (hrun : Run.Mirrors z z' W run run' h h' Q)
    (hnext : ∀ {X k k' a a'}, W.Extends X → X.Mirrors z z' k k' → Q X a a' →
      Run.Mirrors z z' X (next a) (next' a') k k' R) :
    Run.Mirrors z z' W (run >>= next) (run' >>= next') h h' R := by
  unfold Run.Mirrors at *
  rw [Run.bind_apply, Run.bind_apply]
  generalize run h = ending at hrun
  generalize run' h' = ending' at hrun
  cases hrun with
  | done hmade =>
      obtain ⟨X, hX, hheaps, hQ⟩ := hmade
      have hrest := hnext hX hheaps hQ
      simp only
      generalize next _ _ = ending at hrest
      generalize next' _ _ = ending' at hrest
      cases hrest with
      | done hmade =>
          obtain ⟨Y, hY, hheaps', hR⟩ := hmade
          exact .done ⟨Y, hX.trans hY, hheaps', hR⟩
      | raised hmade =>
          obtain ⟨Y, hY, hheaps', hsignal⟩ := hmade
          exact .raised ⟨Y, hX.trans hY, hheaps', hsignal⟩
      | outOfFuel => exact .outOfFuel
  | raised hmade => exact .raised hmade
  | outOfFuel => exact .outOfFuel

theorem read_bind {g g' : Heap → α}
    (hnext : Run.Mirrors z z' W (next (g h)) (next' (g' h')) h h' R) :
    Run.Mirrors z z' W (Run.read g >>= next) (Run.read g' >>= next') h h' R := hnext

theorem make_bind {g g' : Heap → α × Heap} (hmade : W.Brings z z' Q (g h) (g' h'))
    (hnext : ∀ {X k k' a a'}, W.Extends X → X.Mirrors z z' k k' → Q X a a' →
      Run.Mirrors z z' X (next a) (next' a') k k' R) :
    Run.Mirrors z z' W (Run.make g >>= next) (Run.make g' >>= next') h h' R := by
  have hmake : Run.Mirrors z z' W (Run.make g) (Run.make g') h h' Q := .done hmade
  exact hmake.bind hnext

theorem change_bind {g g' : Heap → Heap} {next next' : Unit → Run β}
    (hnext : Run.Mirrors z z' W (next ()) (next' ()) (g h) (g' h') R) :
    Run.Mirrors z z' W (Run.change g >>= next) (Run.change g' >>= next') h h' R := hnext

theorem raise {signal signal' : Signal} (hW : W.Mirrors z z' h h')
    (hsignal : signal.Match W signal') :
    Run.Mirrors z z' W (Run.raise signal : Run α) (Run.raise signal') h h' Q :=
  .raised ⟨W, .refl W, hW, hsignal⟩

theorem fail {kind : FaultKind} {span : Span} (hW : W.Mirrors z z' h h') (hf : W.frames f f') :
    Run.Mirrors z z' W (Run.fail kind span f : Run α) (Run.fail kind span f') h h' Q :=
  raise hW (.failed ⟨rfl, rfl, .some hf⟩)

theorem exhausted : Run.Mirrors z z' W (Run.exhausted : Run α) Run.exhausted h h' Q := .outOfFuel

/-- Signals that are taken up are results. -/
theorem attempt (hrun : Run.Mirrors z z' W run run' h h' Q) :
    Run.Mirrors z z' W run.attempt run'.attempt h h' (Attempt.Match Q) := by
  unfold Run.Mirrors Run.attempt at *
  generalize run h = ending at hrun
  generalize run' h' = ending' at hrun
  cases hrun with
  | done hmade =>
      obtain ⟨X, hX, hheaps, hQ⟩ := hmade
      exact .done ⟨X, hX, hheaps, .ok hQ⟩
  | raised hmade =>
      obtain ⟨X, hX, hheaps, hsignal⟩ := hmade
      exact .done ⟨X, hX, hheaps, .error hsignal⟩
  | outOfFuel => exact .outOfFuel

end Run.Mirrors

/-- The outcomes are the same but for numbers; if a statement may have been evaluated, the frame in
which the next one runs is open. -/
structure Outcome.Mirrors (z : Horizon) (statement : Bool) (W : Matching) (out out' : Outcome) :
    Prop extends out.Match W out' where
  opened : statement = true → z.frames ≤ out.frame.index

theorem Outcome.Mirrors.give {v v' : Value} {span : Span} (hv : v.Match W v') (hf : W.frames f f')
    (hopen : statement = true → z.frames ≤ f.index) :
    Mirrors z statement W (Evaluation.give v span f) (Evaluation.give v' span f') :=
  ⟨.give hv hf, hopen⟩

/-- The evaluator ends in the same way on heaps that look alike, in matched frames: in any frame for
expressions and blocks, in an open one for other statements. -/
def Evaluator.Mirrors (z z' : Horizon) (sub : Evaluator) : Prop :=
  ∀ {W h h' f f' n statement}, W.Mirrors z z' h h' → W.frames f f' → n.Lexical →
    n.Fits statement → (statement = true → n.IsBlock ∨ z.frames ≤ f.index) →
      Run.Mirrors z z' W (sub n f) (sub n f') h h' (Outcome.Mirrors z statement)

/-! ### Operators -/

namespace Operation

variable {left left' right right' : Stamped}

theorem mirrors_settle (hW : W.Mirrors z z' h h') (hl : left.Match W left')
    (hr : right.Match W right') {result result' : Except FaultKind Value}
    (hresult : Agree W result result') :
    Run.Mirrors z z' W (settle left right result) (settle left' right' result') h h'
      Value.Match := by
  cases hresult with
  | ok hv => exact .pure hW hv
  | error kind =>
      refine .raise hW (.failed ⟨rfl, ?_, hl.owner⟩)
      exact congrArg₂ Span.through hl.span hr.span

theorem mirrors_binary (hW : W.Mirrors z z' h h') {op : BinaryOp} (hl : left.Match W left')
    (hr : right.Match W right') :
    Run.Mirrors z z' W (binary op left right) (binary op left' right') h h' Value.Match := by
  refine binary_of_match hW.render_eq hl.value hr.value (mirrors_settle hW hl hr) fun hc hd => ?_
  rw [hl.span]
  exact Run.Mirrors.make_bind (hW.merge hc hd _) fun _ hheaps hmerged =>
    .pure hheaps hmerged.toValue

end Operation

namespace Evaluation

variable {sub : Evaluator}

/-! ### Values -/

theorem mirrors_value (hsub : sub.Mirrors z z') (hW : W.Mirrors z z' h h') (hf : W.frames f f')
    {n : Node} (hlexical : n.Lexical) (hn : n.Fits statement)
    (hopen : statement = true → z.frames ≤ f.index) :
    Run.Mirrors z z' W (value sub n f) (value sub n f') h h' Stamped.Match := by
  apply Run.Mirrors.bind (hsub hW hf hlexical hn fun hst => .inr (hopen hst))
  intro X k k' out out' hX hheaps hout
  exact .pure hheaps (hout.result.anchored (hX.frames hf))

/-- The value of an expression, which may be evaluated in any frame. -/
theorem mirrors_expression (hsub : sub.Mirrors z z') (hW : W.Mirrors z z' h h')
    (hf : W.frames f f') {n : Node} (hlexical : n.Lexical) (hn : n.IsExpression) :
    Run.Mirrors z z' W (value sub n f) (value sub n f') h h' Stamped.Match :=
  mirrors_value hsub hW hf hlexical hn fun hst => absurd hst Bool.false_ne_true

theorem mirrors_values (hsub : sub.Mirrors z z') (hW : W.Mirrors z z' h h') (hf : W.frames f f')
    {nodes : List Node} (hlexical : Node.AllLexical nodes) (hn : Node.AllFit false nodes) :
    Run.Mirrors z z' W (values sub f nodes) (values sub f' nodes) h h' Value.AllMatch := by
  induction nodes generalizing W h h' with
  | nil => exact .pure hW .nil
  | cons n rest ih =>
      apply Run.Mirrors.bind (mirrors_expression hsub hW hf hlexical.1 hn.1)
      intro X k k' s s' hX hheaps hs
      apply Run.Mirrors.bind (ih hheaps (hX.frames hf) hlexical.2 hn.2)
      intro Y l l' vs vs' hY hheaps' hvs
      exact .pure hheaps' (.cons (hs.value.mono hY) hvs)

theorem mirrors_bindingTarget (hW : W.Mirrors z z' h h') (hf : W.Open z f f')
    (name label : String) (span : Span) :
    Run.Mirrors z z' W (bindingTarget name label span f) (bindingTarget name label span f') h h'
      (Matching.Open z) := by
  refine .read_bind ?_
  rw [hW.bindsDirectly hf.1 hf.2 name]
  split
  · exact .done (hW.enter label hf.1 span)
  · exact .pure hW hf

/-! ### Expressions -/

theorem mirrors_list (hsub : sub.Mirrors z z') (hW : W.Mirrors z z' h h') (hf : W.frames f f')
    {span : Span} {elements : List Node} (hlexical : Node.AllLexical elements)
    (hn : Node.AllFit false elements) (hopen : statement = true → z.frames ≤ f.index) :
    Run.Mirrors z z' W (list sub span elements f) (list sub span elements f') h h'
      (Outcome.Mirrors z statement) := by
  apply Run.Mirrors.bind (mirrors_values hsub hW hf hlexical hn)
  intro X k k' vs vs' hX hheaps hvs
  exact .pure hheaps (.give (.list hvs) (hX.frames hf) hopen)

theorem mirrors_ident (hW : W.Mirrors z z' h h') (hf : W.frames f f') {span : Span} {name : String}
    (hopen : statement = true → z.frames ≤ f.index) :
    Run.Mirrors z z' W (ident span name f) (ident span name f') h h'
      (Outcome.Mirrors z statement) := by
  refine .read_bind ?_
  have hlook := hW.lookup hf name
  generalize h.lookup f name = o at hlook
  generalize h'.lookup f' name = o' at hlook
  cases hlook with
  | none => exact .fail hW hf
  | some hv => exact .pure hW (.give hv hf hopen)

/-- The result of an operator on matching operands, as the outcome of an expression. -/
theorem mirrors_operation (hW : W.Mirrors z z' h h') (hf : W.frames f f') {op : BinaryOp}
    {left left' right right' : Stamped} (span : Span) (hl : left.Match W left')
    (hr : right.Match W right') (hopen : statement = true → z.frames ≤ f.index) :
    Run.Mirrors z z' W (Operation.binary op left right >>= fun v => pure (give v span f))
      (Operation.binary op left' right' >>= fun v => pure (give v span f')) h h'
      (Outcome.Mirrors z statement) := by
  apply Run.Mirrors.bind (Operation.mirrors_binary hW hl hr)
  intro X k k' v v' hX hheaps hv
  exact .pure hheaps (.give hv (hX.frames hf) hopen)

theorem mirrors_binary (hsub : sub.Mirrors z z') (hW : W.Mirrors z z' h h') (hf : W.frames f f')
    {span : Span} {op : BinaryOp} {left right : Node} (hleft : left.Lexical)
    (hright : right.Lexical) (hl : left.IsExpression) (hr : right.IsExpression)
    (hopen : statement = true → z.frames ≤ f.index) :
    Run.Mirrors z z' W (binary sub span op left right f) (binary sub span op left right f') h h'
      (Outcome.Mirrors z statement) := by
  apply Run.Mirrors.bind (mirrors_expression hsub hW hf hleft hl)
  intro X k k' lv lv' hX hheaps hlv
  have hoperation : ∀ op : BinaryOp, Run.Mirrors z z' X
      (value sub right f >>= fun rv => Operation.binary op lv rv >>= fun v => pure (give v span f))
      (value sub right f' >>= fun rv =>
        Operation.binary op lv' rv >>= fun v => pure (give v span f')) k k'
      (Outcome.Mirrors z statement) := by
    intro op
    apply Run.Mirrors.bind (mirrors_expression hsub hheaps (hX.frames hf) hright hr)
    intro Y l l' rv rv' hY hheaps' hrv
    exact mirrors_operation hheaps' (hY.frames (hX.frames hf)) span (hlv.mono hY) hrv hopen
  cases op
  case access =>
    obtain ⟨v, lspan, owner⟩ := lv
    obtain ⟨v', lspan', owner'⟩ := lv'
    obtain ⟨hvalue, hspan, howner⟩ := hlv
    cases hvalue with
    | encap _ _ hscope =>
        apply Run.Mirrors.bind (mirrors_expression hsub hheaps hscope hright hr)
        intro Y l l' rv rv' hY hheaps' hrv
        exact .pure hheaps' (.give hrv.value (hY.frames (hX.frames hf)) hopen)
    | _ => exact .raise hheaps (.failed ⟨rfl, hspan, howner⟩)
  all_goals exact hoperation _

theorem mirrors_unary (hsub : sub.Mirrors z z') (hW : W.Mirrors z z' h h') (hf : W.frames f f')
    {span : Span} {op : UnaryOp} {operand : Node} (hlexical : operand.Lexical)
    (hn : operand.IsExpression) (hopen : statement = true → z.frames ≤ f.index) :
    Run.Mirrors z z' W (unary sub span op operand f) (unary sub span op operand f') h h'
      (Outcome.Mirrors z statement) := by
  apply Run.Mirrors.bind (mirrors_expression hsub hW hf hlexical hn)
  intro X k k' v v' hX hheaps hv
  have hfX := hX.frames hf
  cases op with
  | plus => exact mirrors_operation hheaps hfX span hv ⟨.number _, hv.span, hv.owner⟩ hopen
  | negate => exact mirrors_operation hheaps hfX span hv ⟨.number _, hv.span, hv.owner⟩ hopen
  | not =>
      simp only [hv.value.isTrue_eq]
      exact .pure hheaps (.give (.bool _) hfX hopen)

theorem mirrors_conditional (hsub : sub.Mirrors z z') (hW : W.Mirrors z z' h h')
    (hf : W.frames f f') {span : Span} {producesValue : Bool} {condition thenBranch : Node}
    {elseBranch : Option Node}
    (hlexical : (Node.conditional span producesValue condition thenBranch elseBranch).Lexical)
    (hn : (Node.conditional span producesValue condition thenBranch elseBranch).Fits statement)
    (hopen : statement = true → z.frames ≤ f.index) :
    Run.Mirrors z z' W (conditional sub span producesValue condition thenBranch elseBranch f)
      (conditional sub span producesValue condition thenBranch elseBranch f') h h'
      (Outcome.Mirrors z statement) := by
  obtain ⟨hcondition, hthen, helse⟩ := hlexical
  obtain ⟨hplace, hfits, hthenFits, helseFits⟩ := hn
  apply Run.Mirrors.bind (mirrors_expression hsub hW hf hcondition hfits)
  intro X k k' c c' hX hheaps hc
  have hfX := hX.frames hf
  simp only [hc.value.isTrue_eq]
  split
  · exact .pure hheaps (.give (.bool false) hfX hopen)
  · rename_i branch hchosen
    have hbranch : branch.Lexical ∧ branch.Fits (!producesValue) := by
      split at hchosen
      · cases hchosen
        exact ⟨hthen, hthenFits⟩
      · subst hchosen
        exact ⟨helse, helseFits⟩
    cases producesValue with
    | true =>
        have hfits : branch.Fits statement := hbranch.2.of_false
        apply Run.Mirrors.bind (hsub hheaps hfX hbranch.1 hfits fun hst => .inr (hopen hst))
        intro Y l l' out out' _ hheaps' hout
        exact .pure hheaps' hout
    | false =>
        have hst := hplace rfl
        apply Run.Mirrors.bind (hsub hheaps hfX hbranch.1 hbranch.2 fun _ => .inr (hopen hst))
        intro Y l l' out out' hY hheaps' hout
        exact .pure hheaps' ⟨⟨⟨.bool false, rfl, .some (hY.frames hfX)⟩, hout.frame⟩,
          fun _ => hout.opened rfl⟩

end Evaluation

end CapsuleScript
