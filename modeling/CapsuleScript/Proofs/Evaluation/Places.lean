import CapsuleScript.Proofs.Evaluation.Objects
import CapsuleScript.Proofs.Heap.Places

/-! Evaluation and the places of code. Regions of text are carried along for tracebacks and are never
looked at: what is evaluated with every region forgotten ends in the same way, on the heap with every
region forgotten. One lemma for each construct, with the evaluator of its parts as a hypothesis. -/

namespace CapsuleScript

open Node.bare (nowhere)

variable {α β : Type}

/-- The value as if it was given by code from nowhere. -/
def Stamped.bare (s : Stamped) : Stamped := { s with span := nowhere }

/-- The failure as if the failing code was read from nowhere. -/
def Fault.bare (fault : Fault) : Fault := { fault with span := nowhere }

/-- The signal as if it was raised by code from nowhere. -/
def Signal.bare : Signal → Signal
  | returned s => .returned s.bare
  | exited exit _ f => .exited exit nowhere f
  | failed fault => .failed fault.bare

/-- The outcome as if it was given by code from nowhere. -/
def Outcome.bare (out : Outcome) : Outcome := ⟨out.result.bare, out.frame⟩

/-- What was attempted, with `forget` for what a result has of regions. -/
def Attempt.bare (forget : α → α) : Except Signal α → Except Signal α
  | .ok a => .ok (forget a)
  | .error signal => .error signal.bare

/-- The end of a computation without regions, with `forget` for what a result has of them. -/
def Ending.bare (forget : α → α) : Ending α → Ending α
  | .done a h => .done (forget a) h.bare
  | .raised signal h => .raised signal.bare h.bare
  | .outOfFuel => .outOfFuel

/-- The computation `other` does without regions what `run` does. -/
def Run.Forgets (forget : α → α) (run other : Run α) : Prop :=
  ∀ h : Heap, other h.bare = (run h).bare forget

/-- The evaluator does the same for nodes without their places. -/
def Evaluator.Forgets (sub : Evaluator) : Prop :=
  ∀ n f, (sub n f).Forgets Outcome.bare (sub n.bare f)

namespace Run.Forgets

variable {forget : α → α} {forget' : β → β} {run other : Run α} {next next' : α → Run β}

theorem pure {a b : α} (hb : b = forget a) : (Pure.pure a : Run α).Forgets forget (Pure.pure b) := by
  subst hb
  exact fun _ => rfl

theorem bind (hrun : run.Forgets forget other)
    (hnext : ∀ a, (next a).Forgets forget' (next' (forget a))) :
    (run >>= next).Forgets forget' (other >>= next') := by
  intro h
  rw [Run.bind_apply, Run.bind_apply, hrun h]
  cases run h with
  | done a k => exact hnext a k
  | raised signal k => rfl
  | outOfFuel => rfl

theorem read {g g' : Heap → α} (hg : ∀ h : Heap, g' h.bare = forget (g h)) :
    (Run.read g).Forgets forget (Run.read g') :=
  fun h => congrArg (Ending.done · h.bare) (hg h)

theorem make {g g' : Heap → α × Heap} (hg : ∀ h : Heap, g' h.bare = (g h).map forget Heap.bare) :
    (Run.make g).Forgets forget (Run.make g') :=
  fun h => congrArg (fun made : α × Heap => Ending.done made.1 made.2) (hg h)

theorem change {g g' : Heap → Heap} (hg : ∀ h : Heap, g' h.bare = (g h).bare) :
    (Run.change g).Forgets id (Run.change g') :=
  fun h => congrArg (Ending.done ()) (hg h)

theorem raise (signal : Signal) :
    (Run.raise signal : Run α).Forgets forget (Run.raise signal.bare) := fun _ => rfl

theorem fail (kind : FaultKind) (span : Span) (f : FrameId) :
    (Run.fail kind span f : Run α).Forgets forget (Run.fail kind nowhere f) := fun _ => rfl

theorem attempt (hrun : run.Forgets forget other) :
    run.attempt.Forgets (Attempt.bare forget) other.attempt := by
  intro h
  rw [Run.attempt, Run.attempt, hrun h]
  cases run h <;> rfl

end Run.Forgets

/-! ### Operators -/

namespace Operation

theorem forgets_settle (left right : Stamped) (result : Except FaultKind Value) :
    (settle left right result).Forgets id (settle left.bare right.bare result) := by
  cases result with
  | ok v => exact .pure rfl
  | error kind => exact .raise _

theorem bare_merge (left right : Capsule) (entry : Span) (h : Heap) :
    left.merge right nowhere h.bare = (left.merge right entry h).map id Heap.bare := by
  simp only [Capsule.merge, Heap.bare_newTable, Heap.frame_bare, Prod.map_fst, Prod.map_snd, id_eq]
  rw [Heap.bare_enterTable _ entry]
  rfl

theorem forgets_object (op : BinaryOp) (c : Capsule) (left right : Stamped) :
    (object op c left right).Forgets id (object op c left.bare right.bare) := by
  obtain ⟨v, span, owner⟩ := right
  cases op with
  | add =>
      cases v with
      | encap fields inherited types scope =>
          exact .bind (.make (bare_merge c _ left.span)) fun _ => .pure rfl
      | _ => exact forgets_settle left _ (.error .illegalOperation)
  | div =>
      cases v with
      | text name => exact .pure rfl
      | _ => exact forgets_settle left _ (.error .illegalOperation)
  | equal => exact .pure rfl
  | notEqual => exact .pure rfl
  | _ => exact forgets_settle left _ (.error .illegalOperation)

theorem list_bare (h : Heap) (op : BinaryOp) (elements : List Value) (right : Value) :
    list h.bare op elements right = list h op elements right := by
  have hindex : listIndex h.bare elements right = listIndex h elements right := by
    unfold listIndex
    rw [Heap.render_bare]
  unfold list
  rw [hindex]

theorem forgets_typed (op : BinaryOp) (left right : Stamped) :
    (typed op left right).Forgets id (typed op left.bare right.bare) := by
  obtain ⟨v, span, owner⟩ := left
  cases v with
  | list elements =>
      have hread : (Run.read fun h => list h op elements right.value).Forgets id
          (Run.read fun h => list h op elements right.value) :=
        .read fun h => list_bare h op elements right.value
      exact hread.bind fun _ => forgets_settle _ right _
  | encap fields inherited types scope => exact forgets_object op _ _ right
  | function g => exact forgets_settle _ right (.error .illegalOperation)
  | empty => exact forgets_settle _ right (.error .illegalOperation)
  | _ => exact forgets_settle _ right _

theorem forgets_binary (op : BinaryOp) (left right : Stamped) :
    (binary op left right).Forgets id (binary op left.bare right.bare) := by
  cases op with
  | and => exact .pure rfl
  | or => exact .pure rfl
  | _ => exact forgets_typed _ left right

end Operation

namespace Evaluation

variable {sub : Evaluator} {f : FrameId} {span : Span}

/-! ### Expressions -/

@[simp] theorem bare_span (n : Node) : n.bare.span = nowhere := by
  cases n <;> simp [Node.bare, Node.span]

theorem forgets_value (hsub : sub.Forgets) (n : Node) (f : FrameId) :
    (value sub n f).Forgets Stamped.bare (value sub n.bare f) := by
  refine .bind (hsub n f) fun out => .pure ?_
  obtain ⟨⟨v, span, owner⟩, frame⟩ := out
  cases owner <;> rfl

theorem forgets_values (hsub : sub.Forgets) (nodes : List Node) :
    (values sub f nodes).Forgets id (values sub f (Node.bareAll nodes)) := by
  induction nodes with
  | nil => exact .pure rfl
  | cons n rest ih =>
      refine .bind (forgets_value hsub n f) fun first => ?_
      exact ih.bind fun _ => .pure rfl

theorem forgets_list (hsub : sub.Forgets) (elements : List Node) :
    (list sub span elements f).Forgets Outcome.bare
      (list sub nowhere (Node.bareAll elements) f) :=
  (forgets_values hsub elements).bind fun _ => .pure rfl

theorem forgets_ident (name : String) :
    (ident span name f).Forgets Outcome.bare (ident nowhere name f) := by
  have hread : (Run.read (·.lookup f name)).Forgets id (Run.read (·.lookup f name)) :=
    .read fun _ => Heap.lookup_bare name
  refine hread.bind fun found => ?_
  cases found with
  | none => exact .fail _ _ _
  | some v => exact .pure rfl

theorem forgets_operation (op : BinaryOp) (left right : Stamped) :
    (Operation.binary op left right >>= fun v => pure (give v span f)).Forgets Outcome.bare
      (Operation.binary op left.bare right.bare >>= fun v => pure (give v nowhere f)) :=
  (Operation.forgets_binary op left right).bind fun _ => .pure rfl

theorem forgets_binary (hsub : sub.Forgets) (op : BinaryOp) (left right : Node) :
    (binary sub span op left right f).Forgets Outcome.bare
      (binary sub nowhere op left.bare right.bare f) := by
  refine .bind (forgets_value hsub left f) fun l => ?_
  obtain ⟨v, lspan, owner⟩ := l
  cases op with
  | access =>
      cases v with
      | encap fields inherited types scope =>
          exact (forgets_value hsub right scope).bind fun _ => .pure rfl
      | _ => exact .raise _
  | _ => exact (forgets_value hsub right f).bind fun r => forgets_operation _ _ r

theorem forgets_unary (hsub : sub.Forgets) (op : UnaryOp) (operand : Node) :
    (unary sub span op operand f).Forgets Outcome.bare (unary sub nowhere op operand.bare f) := by
  refine .bind (forgets_value hsub operand f) fun v => ?_
  cases op with
  | plus => exact forgets_operation .mul v ⟨.number 1.0, v.span, v.owner⟩
  | negate => exact forgets_operation .mul v ⟨.number (-1.0), v.span, v.owner⟩
  | not => exact .pure rfl

theorem forgets_conditional (hsub : sub.Forgets) (producesValue : Bool)
    (condition thenBranch : Node) (elseBranch : Option Node) :
    (conditional sub span producesValue condition thenBranch elseBranch f).Forgets Outcome.bare
      (conditional sub nowhere producesValue condition.bare thenBranch.bare
        (Node.bareOption elseBranch) f) := by
  have htaken : ∀ branch, (do
      let outcome ← sub branch f
      if producesValue then return outcome
      else return ⟨.of (.bool false) span f, outcome.frame⟩ : Run Outcome).Forgets Outcome.bare (do
      let outcome ← sub branch.bare f
      if producesValue then return outcome
      else return ⟨.of (.bool false) nowhere f, outcome.frame⟩ : Run Outcome) := by
    refine fun branch => .bind (hsub branch f) fun out => ?_
    cases producesValue <;> exact .pure rfl
  refine .bind (forgets_value hsub condition f) fun c => ?_
  have hcondition : c.bare.value.isTrue = c.value.isTrue := rfl
  rw [hcondition]
  cases c.value.isTrue with
  | true => exact htaken thenBranch
  | false =>
      cases elseBranch with
      | none => exact .pure rfl
      | some branch => exact htaken branch

theorem forgets_prev (hsub : sub.Forgets) (expression : Node) :
    (prev sub span expression f).Forgets Outcome.bare (prev sub nowhere expression.bare f) := by
  have hread : (Run.read fun h => (h.frame f).parent).Forgets id
      (Run.read fun h => (h.frame f).parent) := by
    refine .read fun h => ?_
    rw [Heap.frame_bare]
    rfl
  refine hread.bind fun parent => ?_
  cases parent with
  | none => exact .fail _ _ _
  | some p => exact (forgets_value hsub expression p).bind fun _ => .pure rfl

/-! ### Functions -/

theorem forgets_enter (label : String) :
    (Run.make (·.enter label f span)).Forgets id (Run.make (·.enter label f nowhere)) :=
  .make fun _ => Heap.bare_enter label span

theorem forgets_bindingTarget (name label : String) :
    (bindingTarget name label span f).Forgets id (bindingTarget name label nowhere f) := by
  have hread : (Run.read (·.bindsDirectly f name)).Forgets id (Run.read (·.bindsDirectly f name)) :=
    .read fun _ => Heap.bindsDirectly_bare name
  refine hread.bind fun bound => ?_
  cases bound with
  | true => exact forgets_enter label
  | false => exact .pure rfl

theorem forgets_keep (target : FrameId) (name : String) (v : Value) {out out' : Value → Outcome}
    (hout : ∀ bound, out' bound = (out bound).bare) :
    (do
      let bound ← Run.make (Heap.rehome target v)
      Run.change (·.define target name bound)
      return out bound : Run Outcome).Forgets Outcome.bare (do
      let bound ← Run.make (Heap.rehome target v)
      Run.change (·.define target name bound)
      return out' bound : Run Outcome) := by
  have hrehome : (Run.make (Heap.rehome target v)).Forgets id (Run.make (Heap.rehome target v)) :=
    .make fun h => Heap.bare_rehome target v h
  refine hrehome.bind fun bound => ?_
  refine .bind (.change fun h => Heap.bare_define name) fun _ => .pure (hout bound)

theorem forgets_placeholder? (name : String) :
    (Run.read (·.placeholder? f name)).Forgets id (Run.read (·.placeholder? f name)) :=
  .read fun _ => Heap.placeholder?_bare name

theorem forgets_initializeFrom (g source : FunctionId) :
    (Run.change (·.initializeFrom g source)).Forgets id (Run.change (·.initializeFrom g source)) :=
  .change fun _ => Heap.bare_initializeFrom source

theorem forgets_function (name : Option String) (params : List String) (autoReturn : Bool)
    (body : Node) :
    (function span name params autoReturn body f).Forgets Outcome.bare
      (function nowhere name params autoReturn body.bare f) := by
  have hmake : (Run.make (·.newFunction
      ⟨name.getD "anonymous", params, body, f, autoReturn, true⟩)).Forgets id
      (Run.make (·.newFunction
        ⟨name.getD "anonymous", params, body.bare, f, autoReturn, true⟩)) :=
    .make fun _ => Heap.bare_newFunction ⟨name.getD "anonymous", params, body, f, autoReturn, true⟩
  refine hmake.bind fun g => ?_
  cases name with
  | none => exact .pure rfl
  | some name =>
      refine .bind (forgets_placeholder? name) fun placeholder => ?_
      cases placeholder with
      | none =>
          refine .bind (forgets_bindingTarget name _) fun target => ?_
          exact forgets_keep target name _ fun _ => rfl
      | some placeholder =>
          have htarget : (pure f : Run FrameId).Forgets id (pure f) := .pure rfl
          refine .bind (forgets_initializeFrom placeholder g) fun _ => htarget.bind fun target => ?_
          exact forgets_keep target name _ fun _ => rfl

theorem forgets_declaration (name : String) (placeholder : Node) :
    (declaration span name placeholder f).Forgets Outcome.bare
      (declaration nowhere name placeholder.bare f) := by
  refine .bind (forgets_bindingTarget name _) fun target => ?_
  have hmake : (Run.make (·.newPlaceholder name placeholder target)).Forgets id
      (Run.make (·.newPlaceholder name placeholder.bare target)) :=
    .make fun _ => Heap.bare_newFunction ⟨name, [], placeholder, target, true, false⟩
  refine hmake.bind fun g => ?_
  exact .bind (.change fun h => Heap.bare_define name) fun _ => .pure rfl

/-! ### Calls -/

theorem bare_callFrame (callee : Function) (arguments : List Value) (h : Heap) :
    callFrame callee.bare arguments nowhere h.bare =
      (callFrame callee arguments span h).map id Heap.bare := by
  have hfold : ∀ (frame : FrameId) (entries : List (String × Value)) (k : Heap),
      entries.foldl (fun heap entry => heap.define frame entry.1 entry.2) k.bare =
        (entries.foldl (fun heap entry => heap.define frame entry.1 entry.2) k).bare := by
    intro frame entries
    induction entries with
    | nil => exact fun _ => rfl
    | cons entry rest ih =>
        intro k
        rw [List.foldl_cons, List.foldl_cons, Heap.bare_define, ih]
  unfold callFrame
  rw [show callee.bare.name = callee.name from rfl, show callee.bare.home = callee.home from rfl,
    Heap.bare_enter _ span]
  simp only [Prod.map_fst, Prod.map_snd, id_eq, hfold]
  rfl

theorem forgets_apply (hsub : sub.Forgets) (callee : Function) (arguments : List Value) :
    (apply sub span callee arguments f).Forgets Outcome.bare
      (apply sub nowhere callee.bare arguments f) := by
  unfold apply
  by_cases hmany : callee.params.length < arguments.length
  · rw [if_pos hmany, if_pos (show callee.bare.params.length < arguments.length from hmany)]
    exact .fail _ _ _
  rw [if_neg hmany, if_neg (show ¬ callee.bare.params.length < arguments.length from hmany)]
  by_cases hfew : arguments.length < callee.params.length
  · rw [if_pos hfew, if_pos (show arguments.length < callee.bare.params.length from hfew)]
    exact .fail _ _ _
  rw [if_neg hfew, if_neg (show ¬ arguments.length < callee.bare.params.length from hfew)]
  have hframe : (Run.make (callFrame callee arguments span)).Forgets id
      (Run.make (callFrame callee.bare arguments nowhere)) :=
    .make fun h => bare_callFrame callee arguments h
  refine hframe.bind fun frame => .bind (hsub callee.body frame).attempt fun ending => ?_
  cases ending with
  | ok out => exact .pure rfl
  | error signal =>
      cases signal with
      | returned result => exact .pure rfl
      | exited exit s r => exact .raise _
      | failed fault => exact .raise _

theorem forgets_call (hsub : sub.Forgets) (callee : Node) (arguments : List Node) :
    (call sub span callee arguments f).Forgets Outcome.bare
      (call sub nowhere callee.bare (Node.bareAll arguments) f) := by
  refine .bind (forgets_value hsub callee f) fun c => ?_
  refine .bind (forgets_values hsub arguments) fun vs => ?_
  obtain ⟨v, cspan, owner⟩ := c
  cases v with
  | function g =>
      have hread : (Run.read (·.function g)).Forgets Function.bare (Run.read (·.function g)) :=
        .read fun _ => Heap.function_bare
      exact hread.bind fun data => forgets_apply hsub data vs
  | _ => exact .fail _ _ _

/-! ### Loops -/

/-- The end of a turn as if its value was given by code from nowhere. -/
def Turn.bare (done : Turn) : Turn := { done with result := done.result.map Stamped.bare }

/-- What a loop has come to, as if its last value was given by code from nowhere. -/
def Progress.bare (progress : Progress) : Progress :=
  { progress with result := progress.result.bare }

theorem forgets_turn (hsub : sub.Forgets) (body : Node) (f : FrameId) :
    (turn sub body f).Forgets Turn.bare (turn sub body.bare f) := by
  refine .bind (hsub body f).attempt fun ending => ?_
  cases ending with
  | ok out => exact .pure rfl
  | error signal =>
      cases signal with
      | returned result => exact .raise _
      | exited exit s raised =>
          have hread : (Run.read (·.resume f raised)).Forgets id (Run.read (·.resume f raised)) :=
            .read fun _ => Heap.resume_bare raised
          exact hread.bind fun _ => .pure rfl
      | failed fault => exact .raise _

theorem forgets_whileTurns (hsub : sub.Forgets) (condition body : Node) (bound : Nat)
    (outcome : Outcome) :
    (whileTurns sub condition body bound outcome).Forgets Outcome.bare
      (whileTurns sub condition.bare body.bare bound outcome.bare) := by
  induction bound generalizing outcome with
  | zero => exact fun _ => rfl
  | succ bound ih =>
      refine .bind (forgets_value hsub condition outcome.frame) fun c => ?_
      have hcondition : c.bare.value.isTrue = c.value.isTrue := rfl
      rw [hcondition]
      cases c.value.isTrue with
      | false => exact .pure rfl
      | true =>
          refine .bind (forgets_turn hsub body outcome.frame) fun done => ?_
          obtain ⟨goesOn, result, frame⟩ := done
          cases goesOn with
          | true => cases result <;> exact ih _
          | false => cases result <;> exact .pure rfl

theorem forgets_admitted (hsub : sub.Forgets) (filter : Option Node) (f : FrameId) :
    (admitted sub filter f).Forgets id (admitted sub (Node.bareOption filter) f) := by
  cases filter with
  | none => exact .pure rfl
  | some filter => exact (forgets_value hsub filter f).bind fun _ => .pure rfl

theorem forgets_forTurns (hsub : sub.Forgets) (name : String) (body : Node)
    (filter : Option Node) (elements : List Value) (progress : Progress) :
    (forTurns sub span name body filter elements progress).Forgets Progress.bare
      (forTurns sub nowhere name body.bare (Node.bareOption filter) elements progress.bare) := by
  induction elements generalizing progress with
  | nil => exact .pure rfl
  | cons element rest ih =>
      refine .bind (forgets_enter "<for>") fun frame => ?_
      refine .bind (.change fun h => Heap.bare_define name) fun _ => ?_
      refine .bind (forgets_admitted hsub filter frame) fun passed => ?_
      cases passed with
      | false => exact ih _
      | true =>
          refine .bind (forgets_turn hsub body frame) fun done => ?_
          obtain ⟨goesOn, result, last⟩ := done
          cases goesOn with
          | true => cases result <;> exact ih _
          | false => cases result <;> exact .pure rfl

theorem forgets_forLoop (hsub : sub.Forgets) (name : String) (comprehension : Bool)
    (source body : Node) (filter : Option Node) :
    (forLoop sub span name comprehension source body filter f).Forgets Outcome.bare
      (forLoop sub nowhere name comprehension source.bare body.bare (Node.bareOption filter) f) := by
  have hrender : ∀ v, (Run.read (·.render v)).Forgets id (Run.read (·.render v)) :=
    fun v => .read fun _ => Heap.render_bare
  refine .bind (forgets_value hsub source f) fun given => ?_
  obtain ⟨v, gspan, owner⟩ := given
  cases v with
  | list elements =>
      refine .bind (forgets_forTurns hsub name body filter elements _) fun progress => ?_
      cases comprehension <;> exact .pure rfl
  | _ => exact (hrender _).bind fun _ => .fail _ _ _

/-! ### Statements -/

theorem forgets_bindKept (name : String) (kept : Value) :
    (bindKept span name f kept).Forgets Outcome.bare (bindKept nowhere name f kept) := by
  unfold bindKept
  cases kept.capsule?.isSome with
  | true => exact .bind (forgets_enter name) fun target => forgets_keep target name _ fun _ => rfl
  | false =>
      refine .bind (forgets_bindingTarget name name) fun target => ?_
      exact forgets_keep target name _ fun _ => rfl

theorem forgets_assign (hsub : sub.Forgets) (name : String) (topLevel : Bool) (n : Node) :
    (assign sub span name topLevel n f).Forgets Outcome.bare
      (assign sub nowhere name topLevel n.bare f) := by
  have hread : (Run.read fun heap => (heap.lookup f name).isSome).Forgets id
      (Run.read fun heap => (heap.lookup f name).isSome) :=
    .read fun _ => congrArg Option.isSome (Heap.lookup_bare name)
  rw [assign_eq_bindKept, assign_eq_bindKept]
  refine .bind (forgets_value hsub n f) fun given => ?_
  refine .bind (forgets_placeholder? name) fun placeholder => ?_
  obtain ⟨v, gspan, owner⟩ := given
  have hother : (do
      if topLevel && (← Run.read fun heap => (heap.lookup f name).isSome) then
        Run.fail (.alreadyBound name) span f
      else bindKept span name f v : Run Outcome).Forgets Outcome.bare (do
      if topLevel && (← Run.read fun heap => (heap.lookup f name).isSome) then
        Run.fail (.alreadyBound name) nowhere f
      else bindKept nowhere name f v : Run Outcome) := by
    refine hread.bind fun bound => ?_
    rw [id_eq]
    cases topLevel && bound with
    | true => exact .fail _ _ _
    | false => exact forgets_bindKept name v
  cases placeholder with
  | none => exact hother
  | some placeholder =>
      cases v with
      | function g =>
          exact .bind (forgets_initializeFrom placeholder g) fun _ => forgets_bindKept name _
      | _ => exact hother

theorem forgets_statements (hsub : sub.Forgets) (body : List Node) (outcome : Outcome) :
    (statements sub body outcome).Forgets Outcome.bare
      (statements sub (Node.bareAll body) outcome.bare) := by
  induction body generalizing outcome with
  | nil => exact .pure rfl
  | cons statement rest ih =>
      refine .bind (hsub statement outcome.frame) fun next => ?_
      cases statement <;> exact ih _

theorem forgets_block (hsub : sub.Forgets) (body : List Node) :
    (block sub span body f).Forgets Outcome.bare
      (block sub nowhere (Node.bareAll body) f) :=
  .bind (forgets_enter "<block>") fun _ => forgets_statements hsub body _

theorem forgets_result (hsub : sub.Forgets) (n : Option Node) :
    (result sub span n f).Forgets Outcome.bare (result sub nowhere (Node.bareOption n) f) := by
  cases n with
  | none => exact .raise _
  | some n => exact (forgets_value hsub n f).bind fun _ => .raise _

/-! ### Objects -/

theorem forgets_parents (hsub : sub.Forgets) (n : Option Node) :
    (n.mapM fun n => parent sub span n f).Forgets id
      ((Node.bareOption n).mapM fun n => parent sub nowhere n f) := by
  cases n with
  | none => exact .pure rfl
  | some n =>
      have hparent : (parent sub span n f).Forgets id (parent sub nowhere n.bare f) := by
        refine .bind (forgets_value hsub n f) fun given => ?_
        obtain ⟨v, gspan, owner⟩ := given
        cases v with
        | encap fields inherited types scope => exact .pure rfl
        | _ => exact .fail _ _ _
      exact hparent.bind fun _ => .pure rfl

theorem forgets_table (f : FrameId) :
    (Run.read fun h => (h.frame f).table).Forgets id (Run.read fun h => (h.frame f).table) := by
  refine .read fun h => ?_
  rw [Heap.frame_bare]
  rfl

theorem forgets_base (parent : Option Capsule) :
    (base span parent f).Forgets id (base nowhere parent f) := by
  cases parent with
  | none => exact .pure rfl
  | some capsule =>
      refine .bind (forgets_table capsule.scope) fun table => ?_
      have hsplice : (Run.make fun h => h.splice table (h.frame f).table).Forgets id
          (Run.make fun h => h.splice table (h.frame f).table) := by
        refine .make fun h => ?_
        rw [Heap.frame_bare]
        exact Heap.bare_splice _
      refine hsplice.bind fun point => ?_
      cases point with
      | none => exact .fail _ _ _
      | some point =>
          have henter : (Run.make (·.enterTable "<inherits>" table f span)).Forgets id
              (Run.make (·.enterTable "<inherits>" table f nowhere)) :=
            .make fun _ => Heap.bare_enterTable _ span
          exact henter.bind fun _ => .pure rfl

theorem forgets_built (hsub : sub.Forgets) (body : Node) (parentNode : Option Node) :
    (built sub span body parentNode f).Forgets id
      (built sub nowhere body.bare (Node.bareOption parentNode) f) := by
  refine .bind (forgets_parents hsub parentNode) fun parent => ?_
  refine .bind (forgets_base parent) fun made => .bind (forgets_table f) fun around => ?_
  exact .bind (hsub body made.1) fun _ => .pure rfl

theorem bare_cut (h : Heap) (around t : TableId) :
    cut h.bare around t = (cut h around t).bare := by
  unfold cut
  rw [Heap.table_bare]
  split <;> rfl

theorem forgets_cutFrames (around : TableId) (limit : Nat) (frames : List FrameId) :
    (cutFrames span around limit frames).Forgets id (cutFrames nowhere around limit frames) := by
  induction frames generalizing limit with
  | nil => cases limit <;> exact .pure rfl
  | cons frame rest ih =>
      cases limit with
      | zero => exact .fail _ _ _
      | succ limit =>
          refine .bind (.change fun h => ?_) fun _ => ih limit
          rw [Heap.frame_bare]
          exact bare_cut h around _

theorem fields_bare (h : Heap) (frames : List FrameId) : fields h.bare frames = fields h frames := by
  unfold fields
  simp only [Heap.frame_bare, Heap.table_bare]
  rfl

theorem bare_objectScope (typeName : Option String) (strict : Bool) (body : FrameId)
    (bs : Bindings Value) (h : Heap) :
    objectScope nowhere typeName strict body bs h.bare =
      (objectScope span typeName strict body bs h).map id Heap.bare := by
  unfold objectScope
  simp only [Heap.bare_newTable, Heap.frame_bare, Prod.map_fst, Prod.map_snd, id_eq]
  cases strict with
  | true => exact Heap.bare_detach _ span
  | false => exact Heap.bare_enterTable _ span

theorem forgets_sealed (limit : Nat) (typeName : Option String) (strict : Bool) (b : Built) :
    (sealed limit span typeName strict f b).Forgets Outcome.bare
      (sealed limit nowhere typeName strict f b) := by
  have hframes : (Run.read (b.frames f)).Forgets id (Run.read (b.frames f)) :=
    .read fun _ => congrArg (List.takeWhile _) Heap.ancestry_bare
  have hfields : ∀ frames, (Run.read fun h => fields h frames).Forgets id
      (Run.read fun h => fields h frames) :=
    fun frames => .read fun h => fields_bare h frames
  have hscope : ∀ bs, (Run.make (objectScope span typeName strict b.last bs)).Forgets id
      (Run.make (objectScope nowhere typeName strict b.last bs)) :=
    fun bs => .make fun h => bare_objectScope typeName strict b.last bs h
  refine hframes.bind fun frames => ?_
  cases strict with
  | false => exact (hfields _).bind fun bs => (hscope bs).bind fun _ => .pure rfl
  | true =>
      refine .bind (forgets_cutFrames b.around limit frames) fun _ => (hfields _).bind fun bs => ?_
      have hpoint : (b.point.forM fun t => Run.change (cut · b.around t)).Forgets id
          (b.point.forM fun t => Run.change (cut · b.around t)) := by
        cases b.point with
        | none => exact .pure rfl
        | some t => exact .change fun h => bare_cut h b.around t
      exact hpoint.bind fun _ => (hscope bs).bind fun _ => .pure rfl

theorem forgets_encap (hsub : sub.Forgets) (limit : Nat) (typeName : Option String)
    (strict : Bool) (body : Node) (parentNode : Option Node) :
    (encap sub limit span typeName strict body parentNode f).Forgets Outcome.bare
      (encap sub limit nowhere typeName strict body.bare (Node.bareOption parentNode) f) := by
  rw [encap_eq_built_sealed, encap_eq_built_sealed]
  exact .bind (forgets_built hsub body parentNode) fun b => forgets_sealed limit typeName strict b

/-! ### Programs -/

theorem forgets_node (limits : Limits) (bound : Nat) (hsub : sub.Forgets) :
    Evaluator.Forgets (node limits bound sub) := by
  intro n f
  cases n with
  | number span x => exact .pure rfl
  | text span s => exact .pure rfl
  | list span elements => exact forgets_list hsub elements
  | binary span op left right => exact forgets_binary hsub op left right
  | unary span op operand => exact forgets_unary hsub op operand
  | assign span name topLevel n => exact forgets_assign hsub name topLevel n
  | ident span name => exact forgets_ident name
  | block span mayDeclare body => exact forgets_block hsub body
  | conditional span producesValue condition thenBranch elseBranch =>
      exact forgets_conditional hsub producesValue condition thenBranch elseBranch
  | function span name params autoReturn body => exact forgets_function name params autoReturn body
  | declaration span name placeholder => exact forgets_declaration name placeholder
  | call span callee arguments => exact forgets_call hsub callee arguments
  | result span n => exact forgets_result hsub n
  | stopLoop span => exact .raise _
  | nextTurn span => exact .raise _
  | whileLoop span condition body =>
      have hturns := forgets_whileTurns hsub condition body bound (give .null condition.span f)
      simpa [Node.bare, node, whileLoop, give, Outcome.bare, Stamped.bare, Stamped.of] using hturns
  | forLoop span name comprehension source body filter =>
      exact forgets_forLoop hsub name comprehension source body filter
  | encap span typeName strict body parent =>
      exact forgets_encap hsub limits.nesting typeName strict body parent
  | prev span expression => exact forgets_prev hsub expression

/-- Evaluation never looks at regions of text. -/
theorem forgets_eval (limits : Limits) (fuel : Nat) : Evaluator.Forgets (eval limits fuel) := by
  induction fuel with
  | zero => exact fun _ _ _ => rfl
  | succ fuel ih => exact forgets_node limits fuel ih

theorem forgets_programFrom (hsub : sub.Forgets) (body : List Node) (outcome : Outcome) :
    (programFrom sub body outcome).Forgets Outcome.bare
      (programFrom sub (Node.bareAll body) outcome.bare) := by
  induction body generalizing outcome with
  | nil => exact .pure rfl
  | cons statement rest ih =>
      refine .bind (hsub statement outcome.frame).attempt fun ending => ?_
      cases ending with
      | ok next => exact ih next
      | error signal =>
          cases signal with
          | returned result => exact .pure rfl
          | exited exit s r => exact .raise _
          | failed fault => exact .raise _

/-- Programs that differ only in where they were read from end alike on one heap. -/
theorem programFrom_eq_of_alike (limits : Limits) (fuel : Nat) {body others : List Node}
    (halike : List.Forall₂ Node.Alike body others) (span span' : Span) (f : FrameId) (h : Heap) :
    (programFrom (eval limits fuel) others (give .empty span' f) h).bare Outcome.bare =
      (programFrom (eval limits fuel) body (give .empty span f) h).bare Outcome.bare := by
  have hforgets : Evaluator.Forgets (eval limits fuel) := forgets_eval limits fuel
  have hother := forgets_programFrom hforgets others (give .empty span' f) h
  have hone := forgets_programFrom hforgets body (give .empty span f) h
  rw [Node.Alike.bareAll_eq halike] at hother
  exact hother.symm.trans hone

end Evaluation

end CapsuleScript
