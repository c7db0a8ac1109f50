import CapsuleScript.Proofs.Scoping.Points

/-! Every construct contains the signals of loops if the evaluator of its parts does. A loop takes
up those of its body, and the body of a function has none. -/

namespace CapsuleScript

open Heap

namespace Node

/-- The statement stands in one of the nodes. -/
def AnyLeaves (nodes : List Node) (exit : LoopExit) (s : Span) : Prop :=
  ∃ away, AnyExits nodes away exit s

/-- The statement stands in the node, if there is one. -/
def OptionLeaves (node : Option Node) (exit : LoopExit) (s : Span) : Prop :=
  ∃ away, OptionExits node away exit s

/-- The body of a loop. -/
def loopBody? : Node → Option Node
  | .whileLoop _ _ body => some body
  | .forLoop _ _ _ _ body _ => some body
  | _ => none

end Node

/-! ### Operators -/

namespace Operation

variable {h : Heap} {exit : LoopExit} {kind : FaultKind}

theorem kind_ne_of_numeric {op : BinaryOp} {left right : Value}
    (herror : numeric op left right = .error kind) : kind ≠ .outsideLoop exit := by
  unfold numeric at herror
  split at herror
  · cases op <;> simp only [onNumbers] at herror
    case div =>
      split at herror <;> cases herror
      simp
    all_goals cases herror
    all_goals simp
  · cases herror
    simp

theorem kind_ne_of_onTextAndNumber {op : BinaryOp} {s : String} {x : Float}
    (herror : onTextAndNumber op s x = .error kind) : kind ≠ .outsideLoop exit := by
  cases op <;> simp only [onTextAndNumber] at herror
  case sub =>
    split at herror <;> cases herror
    simp
  case mul =>
    split at herror
    · split at herror <;> cases herror
      simp
    · cases herror
      simp
  case div =>
    split at herror <;> cases herror
    simp
  all_goals cases herror
  all_goals simp

theorem kind_ne_of_text {op : BinaryOp} {s : String} {right : Value}
    (herror : text op s right = .error kind) : kind ≠ .outsideLoop exit := by
  unfold text at herror
  split at herror
  · cases op <;> cases herror
    all_goals simp
  · split at herror
    · exact kind_ne_of_onTextAndNumber herror
    · cases herror
      simp

theorem kind_ne_of_list {op : BinaryOp} {elements : List Value} {right : Value}
    (herror : list h op elements right = .error kind) : kind ≠ .outsideLoop exit := by
  have hindex : ∀ {kind}, listIndex h elements right = .error kind → kind ≠ .outsideLoop exit := by
    intro kind hfound
    unfold listIndex at hfound
    split at hfound
    · split at hfound <;> cases hfound
      simp
    · cases hfound
      simp
  cases op <;> simp only [list] at herror
  case sub =>
    cases hfound : listIndex h elements right <;> rw [hfound] at herror <;> cases herror
    exact hindex hfound
  case div =>
    cases hfound : listIndex h elements right <;> rw [hfound] at herror <;> cases herror
    exact hindex hfound
  case mul =>
    split at herror <;> cases herror
    simp
  all_goals cases herror
  all_goals simp

variable {own : LoopExit → Span → Prop} {left right : Stamped}

theorem within_settle (hh : h.Scoped) {result : Except FaultKind Value}
    (herror : ∀ kind exit, result = .error kind → kind ≠ .outsideLoop exit) :
    (settle left right result).Within h own := by
  cases result with
  | ok v => exact hh
  | error kind => exact ⟨hh, fun exit => herror kind exit rfl⟩

theorem within_illegal (hh : h.Scoped) :
    (settle left right (.error .illegalOperation)).Within h own :=
  ⟨hh, nofun⟩

theorem within_object (hh : h.Scoped) {op : BinaryOp} {c : Capsule} :
    (object op c left right).Within h own := by
  unfold object
  split
  · refine .make_bind (.pure ?_)
    exact hh.of_functions rfl
  · exact .pure hh
  · exact .pure hh
  · exact .pure hh
  · exact within_illegal hh

theorem within_binary (hh : h.Scoped) {op : BinaryOp} : (binary op left right).Within h own := by
  have htyped : (typed op left right).Within h own := by
    unfold typed
    split
    · exact within_settle hh fun _ _ => kind_ne_of_numeric
    · exact within_settle hh fun _ _ => kind_ne_of_numeric
    · exact within_settle hh fun _ _ => kind_ne_of_numeric
    · exact within_settle hh fun _ _ => kind_ne_of_text
    · exact .read_bind (within_settle hh fun _ _ => kind_ne_of_list)
    · exact within_object hh
    · exact within_illegal hh
    · exact within_illegal hh
  unfold binary
  split
  · exact .pure hh
  · exact .pure hh
  · exact htyped

end Operation

namespace Evaluation

variable {h : Heap} {f : FrameId} {span : Span}

/-! ### Constructs that evaluate nothing -/

section Plain

variable {own : LoopExit → Span → Prop}

theorem within_bindingTarget (hh : h.Scoped) (name label : String) :
    (bindingTarget name label span f).Within h own := by
  refine .read_bind ?_
  split
  · exact hh.of_functions rfl
  · exact .pure hh

theorem within_keep (hh : h.Scoped) {target : FrameId} {name : String} {v : Value}
    {out : Value → Outcome} :
    (do
      let bound ← Run.make (Heap.rehome target v)
      Run.change (·.define target name bound)
      return out bound : Run Outcome).Within h own := by
  refine .make_bind (.change_bind (.pure ?_))
  exact (hh.rehome target v).of_functions rfl

theorem within_bindKept (hh : h.Scoped) (name : String) (kept : Value) :
    (bindKept span name f kept).Within h own := by
  unfold bindKept
  split
  · refine .make_bind (within_keep ?_)
    exact hh.of_functions rfl
  · exact .bind (within_bindingTarget hh name name) fun _ _ hk => within_keep hk

theorem within_function (hh : h.Scoped) {body : Node} (hbody : body.isScoped false = true)
    (name : Option String) (params : List String) (autoReturn : Bool) :
    (function span name params autoReturn body f).Within h own := by
  have hadd : (h.addFunction ⟨name.getD "anonymous", params, body, f, autoReturn, true⟩).Scoped :=
    hh.addFunction hbody
  refine .make_bind ?_
  rw [newFunction_eq]
  cases name with
  | none => exact .pure hadd
  | some name =>
      refine .read_bind ?_
      split
      · refine .change_bind (.bind (.pure ?_) fun _ _ hk => within_keep hk)
        exact hadd.initializeFrom _ _
      · exact .bind (within_bindingTarget hadd _ _) fun _ _ hk => within_keep hk

theorem within_declaration (hh : h.Scoped) {placeholder : Node}
    (hplaceholder : placeholder.isScoped false = true) (name : String) :
    (declaration span name placeholder f).Within h own := by
  refine .bind (within_bindingTarget hh name _) fun target k hk => .make_bind (.change_bind ?_)
  have hadd : (k.newPlaceholder name placeholder target).2.Scoped := hk.addFunction hplaceholder
  refine .pure ?_
  exact hadd.of_functions rfl

theorem within_base (hh : h.Scoped) (parent : Option Capsule) :
    (base span parent f).Within h own := by
  cases parent with
  | none => exact .pure hh
  | some c =>
      have hspliced : (h.splice (h.frame c.scope).table (h.frame f).table).2.Scoped :=
        hh.splice _ _
      refine .read_bind (.make_bind ?_)
      split
      · refine .make_bind (.pure ?_)
        exact hspliced.of_functions rfl
      · exact .fail hspliced nofun

theorem within_cutFrames (hh : h.Scoped) (around : TableId) (limit : Nat) (frames : List FrameId) :
    (cutFrames span around limit frames).Within h own := by
  induction frames generalizing h limit with
  | nil => cases limit <;> exact .pure hh
  | cons frame rest ih =>
      cases limit with
      | zero => exact .fail hh nofun
      | succ limit => exact .change_bind (ih (hh.cut _ _) limit)

theorem within_sealed (hh : h.Scoped) (limit : Nat) (typeName : Option String) (strict : Bool)
    (b : Built) : (sealed limit span typeName strict f b).Within h own := by
  refine .read_bind ?_
  split
  · refine .bind (within_cutFrames hh _ _ _) fun _ k hk => .read_bind ?_
    cases b.point with
    | none =>
        refine .bind (.pure hk) fun _ l hl => .make_bind (.pure ?_)
        exact hl.objectScope _ _ _ _ _
    | some t =>
        refine .change_bind (.make_bind (.pure ?_))
        exact Bodies.objectScope (hk.cut _ _) _ _ _ _ _
  · refine .read_bind (.make_bind (.pure ?_))
    exact hh.objectScope _ _ _ _ _

end Plain

/-! ### Expressions -/

variable {taken : Leaving → Point → Prop} {own : LoopExit → Span → Prop} {inLoop : Bool}
variable {sub : Breakpoint → Evaluator}

/-- The evaluator contains the signals of loops, and may be broken off before every evaluation. -/
structure Scopes (taken : Leaving → Point → Prop) (sub : Breakpoint → Evaluator) : Prop where
  contained : ∀ {n : Node} {f : FrameId} {h : Heap} {inLoop : Bool}, h.Scoped →
    n.isScoped inLoop = true → Contained taken n.Leaves (fun stop => sub stop n f) h
  stops : ∀ m : Point, sub never m.node m.frame m.heap = .outOfFuel ∨
    Passes (fun stop => sub stop m.node m.frame) m.heap m

theorem contained_value (hsub : Scopes taken sub) (hh : h.Scoped) {n : Node}
    (hn : n.isScoped inLoop = true) (hown : ∀ exit s, n.Leaves exit s → own exit s) :
    Contained taken own (fun stop => value (sub stop) n f) h :=
  .bind ((hsub.contained hh hn).imp hown) fun _ _ _ hk => .plain (.pure hk)

theorem contained_values (hsub : Scopes taken sub) (hh : h.Scoped) {nodes : List Node}
    (hn : Node.allScoped inLoop nodes = true)
    (hown : ∀ exit s, Node.AnyLeaves nodes exit s → own exit s) :
    Contained taken own (fun stop => values (sub stop) f nodes) h := by
  induction nodes generalizing h with
  | nil => exact .plain (.pure hh)
  | cons n rest ih =>
      simp only [Node.allScoped, Bool.and_eq_true] at hn
      refine .bind (contained_value hsub hh hn.1 fun exit s ⟨away, hexits⟩ =>
        hown exit s ⟨away, .inl hexits⟩) fun v k _ hk => ?_
      refine .bind (ih hk hn.2 fun exit s ⟨away, hexits⟩ => hown exit s ⟨away, .inr hexits⟩) ?_
      exact fun _ _ _ hl => .plain (.pure hl)

theorem contained_operation (hh : h.Scoped) {op : BinaryOp} {left right : Stamped} :
    Contained taken own
      (fun _ => Operation.binary op left right >>= fun v => pure (give v span f)) h :=
  .plain (.bind (Operation.within_binary hh) fun _ _ hk => .pure hk)

theorem contained_binary (hsub : Scopes taken sub) (hh : h.Scoped) {op : BinaryOp}
    {left right : Node} (hn : (Node.binary span op left right).isScoped inLoop = true) :
    Contained taken (Node.binary span op left right).Leaves
      (fun stop => binary (sub stop) span op left right f) h := by
  simp only [Node.isScoped, Bool.and_eq_true] at hn
  refine .bind (contained_value hsub hh hn.1 fun exit s ⟨away, hexits⟩ => ⟨away, .inl hexits⟩)
    fun v k _ hk => ?_
  by_cases hop : op = .access
  · subst hop
    have haway : ∀ exit s, right.Leaves exit s →
        (Node.binary span .access left right).Leaves exit s :=
      fun exit s ⟨deeper, hexits⟩ => ⟨true, .inr (.inr ⟨rfl, rfl, deeper, hexits⟩)⟩
    cases hvalue : v.value with
    | encap fields inherited types scope =>
        exact .bind (contained_value hsub hk hn.2 haway) fun _ _ _ hl => .plain (.pure hl)
    | _ => exact .plain ⟨hk, nofun⟩
  · have hright : ∀ exit s, right.Leaves exit s → (Node.binary span op left right).Leaves exit s :=
      fun exit s ⟨away, hexits⟩ => ⟨away, .inr (.inl ⟨hop, hexits⟩)⟩
    cases op with
    | access => exact absurd rfl hop
    | _ => exact .bind (contained_value hsub hk hn.2 hright) fun _ _ _ hl => contained_operation hl

theorem contained_unary (hsub : Scopes taken sub) (hh : h.Scoped) {op : UnaryOp} {operand : Node}
    (hn : operand.isScoped inLoop = true) :
    Contained taken (Node.unary span op operand).Leaves
      (fun stop => unary (sub stop) span op operand f) h := by
  refine .bind (contained_value hsub hh hn fun _ _ => id) fun v k _ hk => ?_
  cases op with
  | plus => exact contained_operation hk
  | negate => exact contained_operation hk
  | not => exact .plain (.pure hk)

theorem contained_conditional (hsub : Scopes taken sub) (hh : h.Scoped) {producesValue : Bool}
    {condition thenBranch : Node} {elseBranch : Option Node}
    (hn : (Node.conditional span producesValue condition thenBranch elseBranch).isScoped inLoop =
      true) :
    Contained taken (Node.conditional span producesValue condition thenBranch elseBranch).Leaves
      (fun stop => conditional (sub stop) span producesValue condition thenBranch elseBranch f)
        h := by
  simp only [Node.isScoped, Bool.and_eq_true] at hn
  refine .bind (contained_value hsub hh hn.1.1 fun exit s ⟨away, hexits⟩ => ⟨away, .inl hexits⟩)
    fun v k _ hk => ?_
  cases hchosen : (if v.value.isTrue then some thenBranch else elseBranch) with
  | none => exact .plain (.pure hk)
  | some branch =>
      have hbranch : branch.isScoped inLoop = true ∧ ∀ exit s, branch.Leaves exit s →
          (Node.conditional span producesValue condition thenBranch elseBranch).Leaves exit s := by
        split at hchosen
        · cases hchosen
          exact ⟨hn.1.2, fun exit s ⟨away, hexits⟩ => ⟨away, .inr (.inl hexits)⟩⟩
        · subst hchosen
          exact ⟨hn.2, fun exit s ⟨away, hexits⟩ => ⟨away, .inr (.inr hexits)⟩⟩
      refine .bind ((hsub.contained hk hbranch.1).imp hbranch.2) fun out l _ hl => ?_
      cases producesValue <;> exact .plain (.pure hl)

theorem contained_prev (hsub : Scopes taken sub) (hh : h.Scoped) {expression : Node}
    (hn : expression.isScoped inLoop = true) :
    Contained taken (Node.prev span expression).Leaves
      (fun stop => prev (sub stop) span expression f) h := by
  refine .read_bind ?_
  cases (h.frame f).parent with
  | none => exact .plain (.fail hh nofun)
  | some parent =>
      refine .bind (contained_value hsub hh hn fun exit s ⟨deeper, hexits⟩ =>
        ⟨true, rfl, deeper, hexits⟩) ?_
      exact fun _ _ _ hk => .plain (.pure hk)

/-! ### Calls -/

theorem contained_apply (hsub : Scopes taken sub) (hh : h.Scoped) {callee : Function}
    {arguments : List Value} (hbody : callee.body.isScoped false = true) :
    Contained taken own (fun stop => apply (sub stop) span callee arguments f) h := by
  by_cases hmany : callee.params.length < arguments.length
  · simp only [apply, if_pos hmany]
    exact .plain (.fail hh nofun)
  by_cases hfew : arguments.length < callee.params.length
  · simp only [apply, if_neg hmany, if_pos hfew]
    exact .plain (.fail hh nofun)
  simp only [apply, if_neg hmany, if_neg hfew]
  refine .make_bind ?_
  have hframe : (callFrame callee arguments span h).2.Scoped := hh.callFrame callee arguments span
  refine .attempt_bind (hsub.contained hframe hbody) (fun _ _ => rfl) (fun _ _ => id) ?_ ?_
  · exact fun x _ _ hleaves => absurd hleaves (Node.not_leaves_of_isScoped hbody)
  · intro result k hend hk hnot
    cases result with
    | ok outcome => exact .plain (.pure hk)
    | error signal =>
        cases signal with
        | returned value => exact .plain (.pure hk)
        | exited exit s r =>
            have hends := (hsub.contained (f := (callFrame callee arguments span h).1) hframe
              hbody).ends
            rw [Run.Signals.of_attempt hend] at hends
            exact absurd hends.2 (Node.not_leaves_of_isScoped hbody)
        | failed fault => exact absurd rfl (hnot fault)

theorem contained_call (hsub : Scopes taken sub) (hh : h.Scoped) {callee : Node}
    {arguments : List Node} (hn : (Node.call span callee arguments).isScoped inLoop = true) :
    Contained taken (Node.call span callee arguments).Leaves
      (fun stop => call (sub stop) span callee arguments f) h := by
  simp only [Node.isScoped, Bool.and_eq_true] at hn
  refine .bind (contained_value hsub hh hn.1 fun exit s ⟨away, hexits⟩ => ⟨away, .inl hexits⟩)
    fun v k _ hk => ?_
  refine .bind (contained_values hsub hk hn.2 fun exit s ⟨away, hexits⟩ => ⟨away, .inr hexits⟩)
    fun vs l _ hl => ?_
  cases v.value with
  | function g => exact .read_bind (contained_apply hsub hl (hl g))
  | _ => exact .plain (.fail hl nofun)

/-! ### Loops -/

/-- At the point a turn of a loop with the given body begins, which comes to the statement that
raises the signal and ends with it. -/
structure IsTurn (sub : Breakpoint → Evaluator) (body : Node) (x : Leaving) (m : Point) :
    Prop where
  node : m.node = body
  passes : Passes (fun stop => sub stop m.node m.frame) m.heap x.point
  ends : sub never m.node m.frame m.heap = x.ending
  leaves : m.node.Leaves x.exit x.span

theorem contained_turn (hsub : Scopes taken sub) (hh : h.Scoped) {body : Node}
    (hbody : body.isScoped true = true) :
    Contained (fun x m => taken x m ∨ IsTurn sub body x m) own
      (fun stop => turn (sub stop) body f) h := by
  refine .attempt_bind (hsub.contained hh hbody) (fun _ _ => rfl) (fun _ _ => .inl) ?_ ?_
  · intro x hx hend hleaves
    refine .inr ⟨⟨body, f, h⟩, .inr ⟨rfl, hx, hend, hleaves⟩, ?_⟩
    rcases hsub.stops ⟨body, f, h⟩ with hfuel | hpasses
    · exact absurd (hfuel.symm.trans hend) nofun
    · exact Contained.passes_attempt_bind (fun _ _ => rfl) hpasses
  · intro result k _ hk hnot
    cases result with
    | ok outcome => exact .plain (.pure hk)
    | error signal =>
        cases signal with
        | returned value => exact .plain hk
        | exited exit s r => exact .plain (.read_bind (.pure hk))
        | failed fault => exact absurd rfl (hnot fault)

theorem contained_whileTurns (hsub : Scopes taken sub) (hh : h.Scoped) {condition body : Node}
    (hcondition : condition.isScoped inLoop = true) (hbody : body.isScoped true = true)
    {bound : Nat} {outcome : Outcome} :
    Contained (fun x m => taken x m ∨ IsTurn sub body x m) condition.Leaves
      (fun stop => whileTurns (sub stop) condition body bound outcome) h := by
  induction bound generalizing h outcome with
  | zero => exact .plain trivial
  | succ bound ih =>
      have hvalue : Contained taken condition.Leaves
          (fun stop => value (sub stop) condition outcome.frame) h :=
        contained_value hsub hh hcondition fun _ _ => id
      refine .bind (hvalue.or_taken) fun v k _ hk => ?_
      cases v.value.isTrue with
      | false => exact .plain (.pure hk)
      | true =>
          refine .bind (contained_turn hsub hk hbody) fun done l _ hl => ?_
          cases done.goesOn with
          | true => exact ih hl
          | false => exact .plain (.pure hl)

theorem contained_admitted (hsub : Scopes taken sub) (hh : h.Scoped) {filter : Option Node}
    (hfilter : Node.optionScoped inLoop filter = true) :
    Contained taken (Node.OptionLeaves filter) (fun stop => admitted (sub stop) filter f) h := by
  cases filter with
  | none => exact .plain (.pure hh)
  | some filter =>
      refine .bind (contained_value hsub hh hfilter fun _ _ => id) ?_
      exact fun _ _ _ hk => .plain (.pure hk)

theorem contained_forTurns (hsub : Scopes taken sub) (hh : h.Scoped) {name : String} {body : Node}
    {filter : Option Node} (hbody : body.isScoped true = true)
    (hfilter : Node.optionScoped inLoop filter = true) {elements : List Value}
    {progress : Progress} :
    Contained (fun x m => taken x m ∨ IsTurn sub body x m) (Node.OptionLeaves filter)
      (fun stop => forTurns (sub stop) span name body filter elements progress) h := by
  induction elements generalizing h progress with
  | nil => exact .plain (.pure hh)
  | cons element rest ih =>
      refine .make_bind (.change_bind ?_)
      have hframe : ((h.enter "<for>" progress.frame span).2.define
          (h.enter "<for>" progress.frame span).1 name element).Scoped := hh.of_functions rfl
      have hadmitted := contained_admitted (f := (h.enter "<for>" progress.frame span).1) hsub
        hframe hfilter
      refine .bind (hadmitted.or_taken) fun passed k _ hk => ?_
      cases passed with
      | false => exact ih hk
      | true =>
          refine .bind (contained_turn hsub hk hbody) fun done l _ hl => ?_
          cases done.goesOn with
          | true => exact ih hl
          | false => exact .plain (.pure hl)

theorem contained_forLoop (hsub : Scopes taken sub) (hh : h.Scoped) {name : String}
    {comprehension : Bool} {source body : Node} {filter : Option Node}
    (hn : (Node.forLoop span name comprehension source body filter).isScoped inLoop = true) :
    Contained (fun x m => taken x m ∨ IsTurn sub body x m)
      (Node.forLoop span name comprehension source body filter).Leaves
      (fun stop => forLoop (sub stop) span name comprehension source body filter f) h := by
  simp only [Node.isScoped, Bool.and_eq_true] at hn
  have hsource : Contained taken (Node.forLoop span name comprehension source body filter).Leaves
      (fun stop => value (sub stop) source f) h :=
    contained_value hsub hh hn.1.1 fun exit s ⟨away, hexits⟩ => ⟨away, .inl hexits⟩
  refine .bind (hsource.or_taken) fun v k _ hk => ?_
  cases v.value with
  | list elements =>
      refine .bind ((contained_forTurns hsub hk hn.1.2 hn.2).imp
        fun exit s ⟨away, hexits⟩ => ⟨away, .inr hexits⟩) fun progress l _ hl => ?_
      cases comprehension <;> exact .plain (.pure hl)
  | _ => exact .plain (.read_bind (.fail hk nofun))

/-! ### Statements -/

theorem contained_assign (hsub : Scopes taken sub) (hh : h.Scoped) {name : String}
    {topLevel : Bool} {node : Node} (hn : node.isScoped inLoop = true) :
    Contained taken (Node.assign span name topLevel node).Leaves
      (fun stop => assign (sub stop) span name topLevel node f) h := by
  simp only [assign_eq_bindKept]
  refine .bind (contained_value hsub hh hn fun _ _ => id) fun v k _ hk => .plain (.read_bind ?_)
  split
  · exact .change_bind (within_bindKept (hk.initializeFrom _ _) _ _)
  · refine .read_bind ?_
    split
    · exact .fail hk nofun
    · exact within_bindKept hk _ _

theorem contained_statements (hsub : Scopes taken sub) (hh : h.Scoped) {body : List Node}
    (hbody : Node.allScoped inLoop body = true)
    (hown : ∀ exit s, Node.AnyLeaves body exit s → own exit s) {outcome : Outcome} :
    Contained taken own (fun stop => statements (sub stop) body outcome) h := by
  induction body generalizing h outcome with
  | nil => exact .plain (.pure hh)
  | cons statement rest ih =>
      simp only [Node.allScoped, Bool.and_eq_true] at hbody
      refine .bind ((hsub.contained hh hbody.1).imp fun exit s ⟨away, hexits⟩ =>
        hown exit s ⟨away, .inl hexits⟩) fun next k _ hk => ?_
      exact ih hk hbody.2 fun exit s ⟨away, hexits⟩ => hown exit s ⟨away, .inr hexits⟩

theorem contained_block (hsub : Scopes taken sub) (hh : h.Scoped) {body : List Node}
    (hbody : Node.allScoped inLoop body = true) :
    Contained taken (Node.AnyLeaves body) (fun stop => block (sub stop) span body f) h := by
  refine .make_bind (contained_statements hsub ?_ hbody fun _ _ => id)
  exact hh.of_functions rfl

theorem contained_result (hsub : Scopes taken sub) (hh : h.Scoped) {node : Option Node}
    (hn : Node.optionScoped inLoop node = true) :
    Contained taken (Node.OptionLeaves node) (fun stop => result (sub stop) span node f) h := by
  cases node with
  | none => exact .plain hh
  | some node =>
      exact .bind (contained_value hsub hh hn fun _ _ => id) fun _ _ _ hk => .plain hk

/-! ### Objects -/

theorem contained_encap (hsub : Scopes taken sub) (hh : h.Scoped) {limit : Nat}
    {typeName : Option String} {strict : Bool} {body : Node} {parentNode : Option Node}
    (hn : (Node.encap span typeName strict body parentNode).isScoped inLoop = true) :
    Contained taken (Node.encap span typeName strict body parentNode).Leaves
      (fun stop => encap (sub stop) limit span typeName strict body parentNode f) h := by
  simp only [Node.isScoped, Bool.and_eq_true] at hn
  simp only [encap_eq_built_sealed]
  refine .bind ?_ fun b k _ hk => .plain (within_sealed hk _ _ _ b)
  refine .bind ?_ fun parent k _ hk => ?_
  · cases parentNode with
    | none => exact .plain (.pure hh)
    | some node =>
        refine .bind (.bind (contained_value hsub hh hn.2 fun exit s ⟨away, hexits⟩ =>
          ⟨away, .inr hexits⟩) fun v k _ hk => ?_) fun _ _ _ hk => .plain (.pure hk)
        cases v.value.capsule? with
        | some capsule => exact .plain (.pure hk)
        | none => exact .plain (.fail hk nofun)
  · refine .bind (.plain (within_base hk parent)) fun made l _ hl => .read_bind ?_
    refine .bind ((hsub.contained hl hn.1).imp fun exit s ⟨away, hexits⟩ => ⟨away, .inl hexits⟩) ?_
    exact fun _ _ _ hm => .plain (.pure hm)

end Evaluation

end CapsuleScript
