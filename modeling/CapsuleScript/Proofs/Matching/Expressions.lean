import CapsuleScript.Proofs.Matching.Runs

/-! Every construct ends in the same way on matched heaps, in matched frames, if the evaluator of its
parts does. No node has to be well formed for that. This module has operators, and the constructs
that only compute values. -/

namespace CapsuleScript

variable {W X : Matching} {h h' : Heap} {f f' : FrameId}

/-- The outcomes are the same but for numbers. -/
structure Outcome.Match (W : Matching) (out out' : Outcome) : Prop where
  result : out.result.Match W out'.result
  frame : W.frames out.frame out'.frame

/-- The evaluator ends in the same way on matched heaps, in matched frames. -/
def Evaluator.Matches (sub : Evaluator) : Prop :=
  ∀ {W h h' f f'} (n : Node), W.Heaps h h' → W.frames f f' →
    Run.Matches W (sub n f) (sub n f') h h' Outcome.Match

theorem Outcome.Match.give {v v' : Value} {span : Span} (hv : v.Match W v') (hf : W.frames f f') :
    Match W (Evaluation.give v span f) (Evaluation.give v' span f') :=
  ⟨⟨hv, rfl, .some hf⟩, hf⟩

theorem Stamped.Match.anchored {s s' : Stamped} (hs : s.Match W s') (hf : W.frames f f') :
    (s.anchored f).Match W (s'.anchored f') := by
  obtain ⟨value, span, owner⟩ := s
  obtain ⟨value', span', owner'⟩ := s'
  obtain ⟨hvalue, hspan, howner⟩ := hs
  cases howner with
  | none => exact ⟨hvalue, hspan, .some hf⟩
  | some he => exact ⟨hvalue, hspan, .some he⟩

/-! ### Operators -/

theorem Value.IsPlain.match {v : Value} (hv : v.IsPlain) : v.Match W v := by
  cases v with
  | number x => exact .number x
  | bool b => exact .bool b
  | text s => exact .text s
  | _ => exact hv.elim

namespace Operation

/-- The operations give matching results or fail for the same reason. -/
inductive Agree (W : Matching) : Except FaultKind Value → Except FaultKind Value → Prop where
  | ok {v v' : Value} : v.Match W v' → Agree W (.ok v) (.ok v')
  | error (kind : FaultKind) : Agree W (.error kind) (.error kind)

theorem Agree.of_isPlain {result : Except FaultKind Value}
    (hplain : ∀ {v}, result = .ok v → v.IsPlain) : Agree W result result := by
  cases result with
  | ok v => exact .ok (hplain rfl).match
  | error kind => exact .error kind

theorem agree_numeric {op : BinaryOp} {left left' right right' : Value} (hl : left.Match W left')
    (hr : right.Match W right') : Agree W (numeric op left right) (numeric op left' right') := by
  have heq : numeric op left' right' = numeric op left right := by
    unfold numeric
    rw [hl.number?_eq, hr.number?_eq]
  rw [heq]
  exact .of_isPlain isPlain_numeric

theorem agree_text {op : BinaryOp} {s : String} {right right' : Value} (hr : right.Match W right') :
    Agree W (text op s right) (text op s right') := by
  have heq : text op s right' = text op s right := by
    cases hr <;> rfl
  rw [heq]
  exact .of_isPlain isPlain_text

theorem listIndex_eq (hrender : ∀ {v v' : Value}, v.Match W v' → h.render v = h'.render v')
    {elements elements' : List Value} {right right' : Value}
    (hl : Value.AllMatch W elements elements') (hr : right.Match W right') :
    listIndex h elements right = listIndex h' elements' right' := by
  unfold listIndex
  rw [hr.number?_eq, hl.length_eq, hrender (.list hl)]

theorem agree_list (hrender : ∀ {v v' : Value}, v.Match W v' → h.render v = h'.render v')
    {op : BinaryOp} {elements elements' : List Value} {right right' : Value}
    (hl : Value.AllMatch W elements elements') (hr : right.Match W right') :
    Agree W (list h op elements right) (list h' op elements' right') := by
  have hindex := listIndex_eq hrender hl hr
  have hequal := Value.Match.equal_eq (.list hl) hr
  cases op <;> simp only [list]
  case add => exact .ok (.list (hl.append (.cons hr .nil)))
  case sub =>
    rw [hindex]
    cases listIndex h' elements' right' with
    | ok i => exact .ok (.list (hl.eraseIdx i))
    | error kind => exact .error kind
  case mul =>
    cases hr with
    | list hothers => exact .ok (.list (hl.append hothers))
    | _ => exact .error _
  case div =>
    rw [hindex]
    cases listIndex h' elements' right' with
    | ok i => exact .ok (hl.getD i)
    | error kind => exact .error kind
  case equal =>
    rw [hequal]
    exact .ok (.bool _)
  case notEqual =>
    rw [hequal]
    exact .ok (.bool _)
  all_goals exact .error _

variable {left left' right right' : Stamped}

theorem matches_settle (hW : W.Heaps h h') (hl : left.Match W left') (hr : right.Match W right')
    {result result' : Except FaultKind Value} (hresult : Agree W result result') :
    Run.Matches W (settle left right result) (settle left' right' result') h h' Value.Match := by
  cases hresult with
  | ok hv => exact .pure hW hv
  | error kind =>
      refine .raise hW (.failed ⟨rfl, ?_, hl.owner⟩)
      exact congrArg₂ Span.through hl.span hr.span

/-- What holds of every way in which an operator may end on matching operands holds of the operator:
it settles on results that agree, or it makes one object of two. -/
theorem binary_of_match {P : Ending Value → Ending Value → Prop} {op : BinaryOp}
    (hrender : ∀ {v v' : Value}, v.Match W v' → h.render v = h'.render v')
    (hl : left.value.Match W left'.value) (hr : right.value.Match W right'.value)
    (hsettle : ∀ {result result' : Except FaultKind Value}, Agree W result result' →
      P (settle left right result h) (settle left' right' result' h'))
    (hmerge : ∀ {c c' d d' : Capsule}, c.Match W c' → d.Match W d' →
      P ((Run.make (c.merge d left.span) >>= fun merged => pure merged.toValue) h)
        ((Run.make (c'.merge d' left'.span) >>= fun merged => pure merged.toValue) h')) :
    P (binary op left right h) (binary op left' right' h') := by
  have hfail := hsettle (.error .illegalOperation)
  have hbool : ∀ b b', b = b' → Agree W (.ok (.bool b)) (.ok (.bool b')) := by
    rintro b _ rfl
    exact .ok (.bool b)
  have hobject : ∀ {c c' : Capsule} (op : BinaryOp), c.Match W c' →
      P (object op c left right h) (object op c' left' right' h') := by
    intro c c' op hc
    obtain ⟨value, span, owner⟩ := right
    obtain ⟨value', span', owner'⟩ := right'
    cases op
    case add =>
      cases hr with
      | encap hfields hinherited hscope => exact hmerge hc ⟨hfields, hinherited, rfl, hscope⟩
      | _ => exact hfail
    case div =>
      cases hr with
      | text name =>
          refine hsettle (.ok ?_)
          have hfield := hc.field? name
          generalize c.field? name = o at hfield
          generalize c'.field? name = o' at hfield
          cases hfield with
          | none => exact .null
          | some hv => exact hv
      | _ => exact hfail
    case equal => exact hsettle (hbool _ _ (hl.equal_eq hr))
    case notEqual => exact hsettle (hbool _ _ (congrArg (!·) (hl.equal_eq hr)))
    all_goals exact hfail
  have htyped : ∀ op : BinaryOp, P (typed op left right h) (typed op left' right' h') := by
    intro op
    have hnumeric : P (settle left right (numeric op left.value right.value) h)
        (settle left' right' (numeric op left'.value right'.value) h') :=
      hsettle (agree_numeric hl hr)
    obtain ⟨value, span, owner⟩ := left
    obtain ⟨value', span', owner'⟩ := left'
    cases hl with
    | number _ => exact hnumeric
    | bool _ => exact hnumeric
    | null => exact hnumeric
    | text s => exact hsettle (agree_text hr)
    | list helements => exact hsettle (agree_list hrender helements hr)
    | encap hfields hinherited hscope => exact hobject op ⟨hfields, hinherited, rfl, hscope⟩
    | function _ => exact hfail
    | empty => exact hfail
  cases op
  case and => exact hsettle (hbool _ _ (congrArg₂ (· && ·) hl.isTrue_eq hr.isTrue_eq))
  case or => exact hsettle (hbool _ _ (congrArg₂ (· || ·) hl.isTrue_eq hr.isTrue_eq))
  all_goals exact htyped _

theorem matches_binary (hW : W.Heaps h h') {op : BinaryOp} (hl : left.Match W left')
    (hr : right.Match W right') :
    Run.Matches W (binary op left right) (binary op left' right') h h' Value.Match := by
  refine binary_of_match hW.render_eq hl.value hr.value (matches_settle hW hl hr) fun hc hd => ?_
  rw [hl.span]
  exact Run.Matches.make_bind (hc.merge hW hd _) fun _ hheaps hmerged =>
    .pure hheaps hmerged.toValue

end Operation

namespace Evaluation

variable {sub : Evaluator}

/-! ### Values -/

theorem matches_value (hsub : sub.Matches) (hW : W.Heaps h h') (hf : W.frames f f') (n : Node) :
    Run.Matches W (value sub n f) (value sub n f') h h' Stamped.Match := by
  apply Run.Matches.bind (hsub n hW hf)
  intro X k k' out out' hX hheaps hout
  exact .pure hheaps (hout.result.anchored (hX.frames hf))

theorem matches_values (hsub : sub.Matches) (hW : W.Heaps h h') (hf : W.frames f f')
    (nodes : List Node) :
    Run.Matches W (values sub f nodes) (values sub f' nodes) h h' Value.AllMatch := by
  induction nodes generalizing W h h' with
  | nil => exact .pure hW .nil
  | cons n rest ih =>
      apply Run.Matches.bind (matches_value hsub hW hf n)
      intro X k k' s s' hX hheaps hs
      apply Run.Matches.bind (ih hheaps (hX.frames hf))
      intro Y l l' vs vs' hY hheaps' hvs
      exact .pure hheaps' (.cons (hs.value.mono hY) hvs)

theorem matches_bindingTarget (hW : W.Heaps h h') (hf : W.frames f f') (name label : String)
    (span : Span) :
    Run.Matches W (bindingTarget name label span f) (bindingTarget name label span f') h h'
      fun X => X.frames := by
  refine .read_bind ?_
  rw [hW.bindsDirectly hf name]
  split
  · exact .done (hW.enter label hf span)
  · exact .pure hW hf

/-! ### Expressions -/

theorem matches_list (hsub : sub.Matches) (hW : W.Heaps h h') (hf : W.frames f f') (span : Span)
    (elements : List Node) :
    Run.Matches W (list sub span elements f) (list sub span elements f') h h' Outcome.Match := by
  apply Run.Matches.bind (matches_values hsub hW hf elements)
  intro X k k' vs vs' hX hheaps hvs
  exact .pure hheaps (.give (.list hvs) (hX.frames hf))

theorem matches_ident (hW : W.Heaps h h') (hf : W.frames f f') (span : Span) (name : String) :
    Run.Matches W (ident span name f) (ident span name f') h h' Outcome.Match := by
  refine .read_bind ?_
  have hlook := hW.lookup hf name
  generalize h.lookup f name = o at hlook
  generalize h'.lookup f' name = o' at hlook
  cases hlook with
  | none => exact .fail hW hf
  | some hv => exact .pure hW (.give hv hf)

/-- The result of an operator on matching operands, as the outcome of an expression. -/
theorem matches_operation (hW : W.Heaps h h') (hf : W.frames f f') {op : BinaryOp}
    {left left' right right' : Stamped} (span : Span) (hl : left.Match W left')
    (hr : right.Match W right') :
    Run.Matches W (Operation.binary op left right >>= fun v => pure (give v span f))
      (Operation.binary op left' right' >>= fun v => pure (give v span f')) h h' Outcome.Match := by
  apply Run.Matches.bind (Operation.matches_binary hW hl hr)
  intro X k k' v v' hX hheaps hv
  exact .pure hheaps (.give hv (hX.frames hf))

theorem matches_binary (hsub : sub.Matches) (hW : W.Heaps h h') (hf : W.frames f f') (span : Span)
    (op : BinaryOp) (left right : Node) :
    Run.Matches W (binary sub span op left right f) (binary sub span op left right f') h h'
      Outcome.Match := by
  apply Run.Matches.bind (matches_value hsub hW hf left)
  intro X k k' lv lv' hX hheaps hl
  have hoperation : ∀ op : BinaryOp, Run.Matches X
      (value sub right f >>= fun rv => Operation.binary op lv rv >>= fun v => pure (give v span f))
      (value sub right f' >>= fun rv =>
        Operation.binary op lv' rv >>= fun v => pure (give v span f')) k k' Outcome.Match := by
    intro op
    apply Run.Matches.bind (matches_value hsub hheaps (hX.frames hf) right)
    intro Y l l' rv rv' hY hheaps' hr
    exact matches_operation hheaps' (hY.frames (hX.frames hf)) span (hl.mono hY) hr
  cases op
  case access =>
    obtain ⟨v, lspan, owner⟩ := lv
    obtain ⟨v', lspan', owner'⟩ := lv'
    obtain ⟨hvalue, hspan, howner⟩ := hl
    cases hvalue with
    | encap _ _ hscope =>
        apply Run.Matches.bind (matches_value hsub hheaps hscope right)
        intro Y l l' rv rv' hY hheaps' hr
        exact .pure hheaps' (.give hr.value (hY.frames (hX.frames hf)))
    | _ => exact .raise hheaps (.failed ⟨rfl, hspan, howner⟩)
  all_goals exact hoperation _

theorem matches_unary (hsub : sub.Matches) (hW : W.Heaps h h') (hf : W.frames f f') (span : Span)
    (op : UnaryOp) (operand : Node) :
    Run.Matches W (unary sub span op operand f) (unary sub span op operand f') h h'
      Outcome.Match := by
  apply Run.Matches.bind (matches_value hsub hW hf operand)
  intro X k k' v v' hX hheaps hv
  cases op with
  | plus => exact matches_operation hheaps (hX.frames hf) span hv ⟨.number _, hv.span, hv.owner⟩
  | negate => exact matches_operation hheaps (hX.frames hf) span hv ⟨.number _, hv.span, hv.owner⟩
  | not =>
      simp only [hv.value.isTrue_eq]
      exact .pure hheaps (.give (.bool _) (hX.frames hf))

theorem matches_conditional (hsub : sub.Matches) (hW : W.Heaps h h') (hf : W.frames f f')
    (span : Span) (producesValue : Bool) (condition thenBranch : Node) (elseBranch : Option Node) :
    Run.Matches W (conditional sub span producesValue condition thenBranch elseBranch f)
      (conditional sub span producesValue condition thenBranch elseBranch f') h h'
      Outcome.Match := by
  apply Run.Matches.bind (matches_value hsub hW hf condition)
  intro X k k' c c' hX hheaps hc
  simp only [hc.value.isTrue_eq]
  split
  · exact .pure hheaps (.give (.bool false) (hX.frames hf))
  · apply Run.Matches.bind (hsub _ hheaps (hX.frames hf))
    intro Y l l' out out' hY hheaps' hout
    split
    · exact .pure hheaps' hout
    · exact .pure hheaps' ⟨⟨.bool false, rfl, .some (hY.frames (hX.frames hf))⟩, hout.frame⟩

theorem matches_prev (hsub : sub.Matches) (hW : W.Heaps h h') (hf : W.frames f f') (span : Span)
    (expression : Node) :
    Run.Matches W (prev sub span expression f) (prev sub span expression f') h h'
      Outcome.Match := by
  refine .read_bind ?_
  have hparent := (hW.frame hf).2.2.parent
  generalize (h.frame f).parent = o at hparent
  generalize (h'.frame f').parent = o' at hparent
  cases hparent with
  | none => exact .fail hW hf
  | some hp =>
      apply Run.Matches.bind (matches_value hsub hW hp expression)
      intro X k k' v v' hX hheaps hv
      exact .pure hheaps (.give hv.value (hX.frames hf))

end Evaluation

end CapsuleScript
