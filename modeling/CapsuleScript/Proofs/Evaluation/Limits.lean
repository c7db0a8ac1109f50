import CapsuleScript.Proofs.Evaluation.Objects

/-! Evaluations under different limits. Two limits break an evaluation off: that on the frames of
strict objects, which makes it fail, and the fuel, which leaves it without an end. Nothing takes such
a failure up. So with higher limits an evaluation does the same step by step, up to where the lower
ones break it off; if they never do, it ends in the same way and on the same heap. -/

namespace CapsuleScript

variable {α β : Type} {unfinished : Prop}

/-- The computation was broken off by the limit on strict objects or, if `unfinished` ones count, by
its fuel. -/
def Ending.Limited (unfinished : Prop) : Ending α → Prop
  | .done _ _ => False
  | .raised (.failed fault) _ => fault.kind = .nestingTooDeep
  | .raised _ _ => False
  | .outOfFuel => unfinished

/-- The computation `other` ends like `run` wherever `run` is not broken off. -/
def Run.Extends (unfinished : Prop) (other run : Run α) : Prop :=
  ∀ h, (run h).Limited unfinished ∨ other h = run h

/-- The evaluator `other` does what `sub` does unless that is broken off. -/
def Evaluator.Extends (unfinished : Prop) (other sub : Evaluator) : Prop :=
  ∀ n f, (other n f).Extends unfinished (sub n f)

namespace Run.Extends

variable {run other : Run α} {next next' : α → Run β}

theorem refl (run : Run α) : run.Extends unfinished run := fun _ => .inr rfl

theorem bind (hrun : other.Extends unfinished run)
    (hnext : ∀ a, (next' a).Extends unfinished (next a)) :
    (other >>= next').Extends unfinished (run >>= next) := by
  intro h
  rw [Run.bind_apply, Run.bind_apply]
  rcases hrun h with hlimited | heq
  · cases hend : run h with
    | done a k =>
        rw [hend] at hlimited
        exact hlimited.elim
    | raised signal k =>
        rw [hend] at hlimited
        cases signal <;> exact .inl hlimited
    | outOfFuel =>
        rw [hend] at hlimited
        exact .inl hlimited
  · rw [heq]
    cases hend : run h with
    | done a k => exact hnext a k
    | raised signal k => exact .inr rfl
    | outOfFuel => exact .inr rfl

/-- What follows may take up the signals of a computation, but not its failures. -/
theorem attempt_bind {next next' : Except Signal α → Run β} (hrun : other.Extends unfinished run)
    (hfailed : ∀ fault, next (.error (.failed fault)) = Run.raise (.failed fault))
    (hnext : ∀ ending, (next' ending).Extends unfinished (next ending)) :
    (other.attempt >>= next').Extends unfinished (run.attempt >>= next) := by
  intro h
  rw [Run.bind_apply, Run.bind_apply, Run.attempt, Run.attempt]
  rcases hrun h with hlimited | heq
  · cases hend : run h with
    | done a k =>
        rw [hend] at hlimited
        exact hlimited.elim
    | raised signal k =>
        rw [hend] at hlimited
        cases signal with
        | returned value => exact hlimited.elim
        | exited exit span f => exact hlimited.elim
        | failed fault =>
            simp only [hfailed]
            exact .inl hlimited
    | outOfFuel =>
        rw [hend] at hlimited
        exact .inl hlimited
  · rw [heq]
    cases hend : run h with
    | done a k => exact hnext _ k
    | raised signal k => exact hnext _ k
    | outOfFuel => exact .inr rfl

end Run.Extends

namespace Evaluation

variable {sub sub' : Evaluator} {f : FrameId} {span : Span}

/-! ### Expressions -/

theorem extends_value (hsub : sub'.Extends unfinished sub) (n : Node) (f : FrameId) :
    (value sub' n f).Extends unfinished (value sub n f) :=
  (hsub n f).bind fun _ => .refl _

theorem extends_values (hsub : sub'.Extends unfinished sub) (nodes : List Node) :
    (values sub' f nodes).Extends unfinished (values sub f nodes) := by
  induction nodes with
  | nil => exact .refl _
  | cons n rest ih =>
      refine .bind (extends_value hsub n f) fun first => ?_
      exact ih.bind fun _ => .refl _

theorem extends_list (hsub : sub'.Extends unfinished sub) (elements : List Node) :
    (list sub' span elements f).Extends unfinished (list sub span elements f) :=
  (extends_values hsub elements).bind fun _ => .refl _

theorem extends_binary (hsub : sub'.Extends unfinished sub) (op : BinaryOp) (left right : Node) :
    (binary sub' span op left right f).Extends unfinished (binary sub span op left right f) := by
  refine .bind (extends_value hsub left f) fun l => ?_
  cases op with
  | access =>
      cases l.value with
      | encap fields inherited types scope =>
          exact (extends_value hsub right scope).bind fun _ => .refl _
      | _ => exact .refl _
  | _ => exact (extends_value hsub right f).bind fun _ => .refl _

theorem extends_unary (hsub : sub'.Extends unfinished sub) (op : UnaryOp) (operand : Node) :
    (unary sub' span op operand f).Extends unfinished (unary sub span op operand f) :=
  (extends_value hsub operand f).bind fun _ => .refl _

theorem extends_conditional (hsub : sub'.Extends unfinished sub) (producesValue : Bool)
    (condition thenBranch : Node) (elseBranch : Option Node) :
    (conditional sub' span producesValue condition thenBranch elseBranch f).Extends unfinished
      (conditional sub span producesValue condition thenBranch elseBranch f) := by
  refine .bind (extends_value hsub condition f) fun c => ?_
  cases if c.value.isTrue then some thenBranch else elseBranch with
  | none => exact .refl _
  | some branch => exact (hsub branch f).bind fun _ => .refl _

theorem extends_prev (hsub : sub'.Extends unfinished sub) (expression : Node) :
    (prev sub' span expression f).Extends unfinished (prev sub span expression f) := by
  refine .bind (.refl _) fun parent => ?_
  cases parent with
  | none => exact .refl _
  | some p => exact (extends_value hsub expression p).bind fun _ => .refl _

/-! ### Calls -/

theorem extends_apply (hsub : sub'.Extends unfinished sub) (callee : Function)
    (arguments : List Value) :
    (apply sub' span callee arguments f).Extends unfinished
      (apply sub span callee arguments f) := by
  unfold apply
  split
  · exact .refl _
  split
  · exact .refl _
  refine .bind (.refl _) fun frame => ?_
  exact .attempt_bind (hsub callee.body frame) (fun _ => rfl) fun _ => .refl _

theorem extends_call (hsub : sub'.Extends unfinished sub) (callee : Node)
    (arguments : List Node) :
    (call sub' span callee arguments f).Extends unfinished
      (call sub span callee arguments f) := by
  refine .bind (extends_value hsub callee f) fun c => ?_
  refine .bind (extends_values hsub arguments) fun vs => ?_
  cases c.value with
  | function g => exact .bind (.refl _) fun data => extends_apply hsub data vs
  | _ => exact .refl _

/-! ### Loops -/

theorem extends_turn (hsub : sub'.Extends unfinished sub) (body : Node) (f : FrameId) :
    (turn sub' body f).Extends unfinished (turn sub body f) :=
  .attempt_bind (hsub body f) (fun _ => rfl) fun _ => .refl _

/-- A loop that may take more turns does the same, if it counts when the turns are used up. -/
theorem extends_whileTurns (hsub : sub'.Extends unfinished sub) (condition body : Node)
    {bound more : Nat} (hle : bound ≤ more) (hsame : bound = more ∨ unfinished)
    (outcome : Outcome) :
    (whileTurns sub' condition body more outcome).Extends unfinished
      (whileTurns sub condition body bound outcome) := by
  induction bound generalizing more outcome with
  | zero =>
      rcases hsame with rfl | hcounts
      · exact .refl _
      · exact fun _ => .inl hcounts
  | succ bound ih =>
      obtain ⟨more, rfl⟩ : ∃ n, more = n + 1 := ⟨more - 1, by omega⟩
      have hrest : ∀ outcome, (whileTurns sub' condition body more outcome).Extends unfinished
          (whileTurns sub condition body bound outcome) :=
        ih (by omega) (hsame.imp_left fun heq => by omega)
      refine .bind (extends_value hsub condition outcome.frame) fun c => ?_
      split
      · refine .bind (extends_turn hsub body outcome.frame) fun done => ?_
        split
        · exact hrest _
        · exact .refl _
      · exact .refl _

theorem extends_admitted (hsub : sub'.Extends unfinished sub) (filter : Option Node)
    (f : FrameId) : (admitted sub' filter f).Extends unfinished (admitted sub filter f) := by
  cases filter with
  | none => exact .refl _
  | some filter => exact (extends_value hsub filter f).bind fun _ => .refl _

theorem extends_forTurns (hsub : sub'.Extends unfinished sub) (name : String) (body : Node)
    (filter : Option Node) (elements : List Value) (progress : Progress) :
    (forTurns sub' span name body filter elements progress).Extends unfinished
      (forTurns sub span name body filter elements progress) := by
  induction elements generalizing progress with
  | nil => exact .refl _
  | cons element rest ih =>
      refine .bind (.refl _) fun frame => .bind (.refl _) fun _ => ?_
      refine .bind (extends_admitted hsub filter frame) fun passed => ?_
      split
      · refine .bind (extends_turn hsub body frame) fun done => ?_
        cases done.result with
        | none =>
            simp only
            split
            · exact ih _
            · exact .refl _
        | some result =>
            simp only
            split
            · exact ih _
            · exact .refl _
      · exact ih _

theorem extends_forLoop (hsub : sub'.Extends unfinished sub) (name : String)
    (comprehension : Bool) (source body : Node) (filter : Option Node) :
    (forLoop sub' span name comprehension source body filter f).Extends unfinished
      (forLoop sub span name comprehension source body filter f) := by
  refine .bind (extends_value hsub source f) fun given => ?_
  cases given.value with
  | list elements =>
      exact .bind (extends_forTurns hsub name body filter elements _) fun _ => .refl _
  | _ => exact .refl _

/-! ### Statements -/

theorem extends_assign (hsub : sub'.Extends unfinished sub) (name : String) (topLevel : Bool)
    (n : Node) :
    (assign sub' span name topLevel n f).Extends unfinished
      (assign sub span name topLevel n f) :=
  (extends_value hsub n f).bind fun _ => .refl _

theorem extends_statements (hsub : sub'.Extends unfinished sub) (body : List Node)
    (outcome : Outcome) :
    (statements sub' body outcome).Extends unfinished (statements sub body outcome) := by
  induction body generalizing outcome with
  | nil => exact .refl _
  | cons statement rest ih => exact .bind (hsub statement outcome.frame) fun _ => ih _

theorem extends_block (hsub : sub'.Extends unfinished sub) (body : List Node) :
    (block sub' span body f).Extends unfinished (block sub span body f) :=
  .bind (.refl _) fun _ => extends_statements hsub body _

theorem extends_result (hsub : sub'.Extends unfinished sub) (n : Option Node) :
    (result sub' span n f).Extends unfinished (result sub span n f) := by
  cases n with
  | none => exact .refl _
  | some n => exact (extends_value hsub n f).bind fun _ => .refl _

/-! ### Objects -/

theorem extends_parents (hsub : sub'.Extends unfinished sub) (n : Option Node) :
    (n.mapM fun n => parent sub' span n f).Extends unfinished
      (n.mapM fun n => parent sub span n f) := by
  cases n with
  | none => exact .refl _
  | some n =>
      have hparent : (parent sub' span n f).Extends unfinished (parent sub span n f) :=
        (extends_value hsub n f).bind fun _ => .refl _
      exact hparent.bind fun _ => .refl _

theorem extends_built (hsub : sub'.Extends unfinished sub) (body : Node)
    (parentNode : Option Node) :
    (built sub' span body parentNode f).Extends unfinished
      (built sub span body parentNode f) := by
  refine .bind (extends_parents hsub parentNode) fun parent => .bind (.refl _) fun made => ?_
  exact .bind (.refl _) fun _ => .bind (hsub body made.1) fun _ => .refl _

/-- With a higher limit the same frames are cut, and more only after the lower one is passed. -/
theorem extends_cutFrames (around : TableId) {limit higher : Nat} (hle : limit ≤ higher)
    (frames : List FrameId) :
    (cutFrames span around higher frames).Extends unfinished
      (cutFrames span around limit frames) := by
  induction frames generalizing limit higher with
  | nil => cases limit <;> cases higher <;> exact .refl _
  | cons frame rest ih =>
      cases limit with
      | zero => exact fun _ => .inl rfl
      | succ limit =>
          obtain ⟨higher, rfl⟩ : ∃ n, higher = n + 1 := ⟨higher - 1, by omega⟩
          exact .bind (.refl _) fun _ => ih (by omega)

theorem extends_sealed {limit higher : Nat} (hle : limit ≤ higher) (typeName : Option String)
    (strict : Bool) (b : Built) :
    (sealed higher span typeName strict f b).Extends unfinished
      (sealed limit span typeName strict f b) := by
  refine .bind (.refl _) fun frames => ?_
  cases strict with
  | false => exact .refl _
  | true => exact .bind (extends_cutFrames b.around hle frames) fun _ => .refl _

theorem extends_encap (hsub : sub'.Extends unfinished sub) {limit higher : Nat}
    (hle : limit ≤ higher) (typeName : Option String) (strict : Bool) (body : Node)
    (parentNode : Option Node) :
    (encap sub' higher span typeName strict body parentNode f).Extends unfinished
      (encap sub limit span typeName strict body parentNode f) := by
  rw [encap_eq_built_sealed, encap_eq_built_sealed]
  exact .bind (extends_built hsub body parentNode) fun b => extends_sealed hle typeName strict b

/-! ### All nodes -/

variable {limits higher : Limits}

theorem extends_node (hle : limits.nesting ≤ higher.nesting) {bound more : Nat}
    (hbound : bound ≤ more) (hsame : bound = more ∨ unfinished)
    (hsub : sub'.Extends unfinished sub) :
    Evaluator.Extends unfinished (node higher more sub') (node limits bound sub) := by
  intro n f
  cases n with
  | number span x => exact .refl _
  | text span s => exact .refl _
  | list span elements => exact extends_list hsub elements
  | binary span op left right => exact extends_binary hsub op left right
  | unary span op operand => exact extends_unary hsub op operand
  | assign span name topLevel n => exact extends_assign hsub name topLevel n
  | ident span name => exact .refl _
  | block span mayDeclare body => exact extends_block hsub body
  | conditional span producesValue condition thenBranch elseBranch =>
      exact extends_conditional hsub producesValue condition thenBranch elseBranch
  | function span name params autoReturn body => exact .refl _
  | declaration span name placeholder => exact .refl _
  | call span callee arguments => exact extends_call hsub callee arguments
  | result span n => exact extends_result hsub n
  | stopLoop span => exact .refl _
  | nextTurn span => exact .refl _
  | whileLoop span condition body =>
      exact extends_whileTurns hsub condition body hbound hsame _
  | forLoop span name comprehension source body filter =>
      exact extends_forLoop hsub name comprehension source body filter
  | encap span typeName strict body parent =>
      exact extends_encap hsub hle typeName strict body parent
  | prev span expression => exact extends_prev hsub expression

/-- With a higher limit on strict objects, and with more fuel if unfinished evaluations count, an
evaluation that is not broken off is the same. -/
theorem extends_eval (hle : limits.nesting ≤ higher.nesting) {fuel more : Nat}
    (hfuel : fuel ≤ more) (hsame : fuel = more ∨ unfinished) :
    Evaluator.Extends unfinished (eval higher more) (eval limits fuel) := by
  induction fuel generalizing more with
  | zero =>
      rcases hsame with rfl | hcounts
      · exact fun _ _ => .refl _
      · exact fun _ _ _ => .inl hcounts
  | succ fuel ih =>
      obtain ⟨more, rfl⟩ : ∃ n, more = n + 1 := ⟨more - 1, by omega⟩
      have hsame' : fuel = more ∨ unfinished := hsame.imp_left fun heq => by omega
      exact extends_node hle (by omega) hsame' (ih (by omega) hsame')

theorem extends_programFrom (hsub : sub'.Extends unfinished sub) (body : List Node)
    (outcome : Outcome) :
    (programFrom sub' body outcome).Extends unfinished (programFrom sub body outcome) := by
  induction body generalizing outcome with
  | nil => exact .refl _
  | cons statement rest ih =>
      refine .attempt_bind (hsub statement outcome.frame) (fun _ => rfl) fun ending => ?_
      cases ending with
      | ok next => exact ih next
      | error signal => cases signal <;> exact .refl _

theorem extends_program (hle : limits.nesting ≤ higher.nesting) {fuel more : Nat}
    (hfuel : fuel ≤ more) (hsame : fuel = more ∨ unfinished) (n : Node) (f : FrameId) :
    (program higher more n f).Extends unfinished (program limits fuel n f) := by
  have hsub : Evaluator.Extends unfinished (eval higher more) (eval limits fuel) :=
    extends_eval hle hfuel hsame
  cases n with
  | block span mayDeclare body => exact extends_programFrom hsub body _
  | _ => exact hsub _ f

end Evaluation

end CapsuleScript
