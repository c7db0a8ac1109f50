import CapsuleScript.Proofs.Evaluation.Objects
import CapsuleScript.Proofs.Heap.WriteOnce

/-! Evaluation writes once. Whatever a node is, in whatever frame and on whatever heap it is
evaluated, and however that ends, everything that was written before is kept. Each construct is
followed on its own; a name is bound only after the table has been asked whether it binds it. -/

namespace CapsuleScript

open Heap

variable {α β : Type} {h k : Heap}

/-- However the computation ends on the heap `h`, what was written is kept. -/
def Run.WritesOnce (run : Run α) (h : Heap) : Prop := ∀ k, (run h).heap? = some k → h.WriteOnce k

/-- The evaluator keeps what was written. -/
def Evaluator.WritesOnce (sub : Evaluator) : Prop := ∀ n f h, (sub n f).WritesOnce h

namespace Run.WritesOnce

variable {run : Run α} {next : α → Run β}

theorem pure {a : α} : (Pure.pure a : Run α).WritesOnce h := by
  intro k hk
  cases hk
  exact .refl h

theorem raise {signal : Signal} : (Run.raise signal : Run α).WritesOnce h := by
  intro k hk
  cases hk
  exact .refl h

theorem fail {kind : FaultKind} {span : Span} {f : FrameId} :
    (Run.fail kind span f : Run α).WritesOnce h := raise

theorem exhausted : (Run.exhausted : Run α).WritesOnce h := by
  intro k hk
  cases hk

/-- What follows a computation starts on the heap that the computation leaves. -/
theorem bind (hrun : run.WritesOnce h)
    (hnext : ∀ a k, run h = .done a k → (next a).WritesOnce k) : (run >>= next).WritesOnce h := by
  intro l hl
  rw [Run.bind_apply] at hl
  cases hend : run h with
  | done a k =>
      rw [hend] at hl
      have hk : h.WriteOnce k := hrun k (by rw [hend]; rfl)
      exact hk.trans (hnext a k hend l hl)
  | raised signal k =>
      rw [hend] at hl
      exact hrun l (by rw [hend]; exact hl)
  | outOfFuel =>
      rw [hend] at hl
      cases hl

/-- What was read is known in what follows. -/
theorem read_bind {f : Heap → α} (hnext : (next (f h)).WritesOnce h) :
    (Run.read f >>= next).WritesOnce h := hnext

theorem make_bind {f : Heap → α × Heap} (hmade : h.WriteOnce (f h).2)
    (hnext : (next (f h).1).WritesOnce (f h).2) : (Run.make f >>= next).WritesOnce h :=
  fun l hl => hmade.trans (hnext l hl)

theorem change_bind {f : Heap → Heap} {next : Unit → Run β} (hchanged : h.WriteOnce (f h))
    (hnext : (next ()).WritesOnce (f h)) : (Run.change f >>= next).WritesOnce h :=
  fun l hl => hchanged.trans (hnext l hl)

theorem attempt (hrun : run.WritesOnce h) : run.attempt.WritesOnce h := by
  intro k hk
  refine hrun k ?_
  unfold Run.attempt at hk
  cases hend : run h with
  | done a l =>
      rw [hend] at hk
      exact hk
  | raised signal l =>
      rw [hend] at hk
      exact hk
  | outOfFuel =>
      rw [hend] at hk
      cases hk

end Run.WritesOnce

/-! ### Operators -/

namespace Operation

theorem writesOnce_settle (left right : Stamped) (result : Except FaultKind Value) :
    (settle left right result).WritesOnce h := by
  cases result with
  | ok v => exact .pure
  | error kind => exact .raise

theorem writesOnce_object (op : BinaryOp) (c : Capsule) (left right : Stamped) :
    (object op c left right).WritesOnce h := by
  unfold object
  split
  · exact .make_bind (.opened _ _ _) .pure
  · exact .pure
  · exact .pure
  · exact .pure
  · exact writesOnce_settle left right _

theorem writesOnce_typed (op : BinaryOp) (left right : Stamped) :
    (typed op left right).WritesOnce h := by
  unfold typed
  split
  · exact writesOnce_settle left right _
  · exact writesOnce_settle left right _
  · exact writesOnce_settle left right _
  · exact writesOnce_settle left right _
  · exact .read_bind (writesOnce_settle left right _)
  · exact writesOnce_object op _ left right
  · exact writesOnce_settle left right _
  · exact writesOnce_settle left right _

theorem writesOnce_binary (op : BinaryOp) (left right : Stamped) :
    (binary op left right).WritesOnce h := by
  unfold binary
  split
  · exact .pure
  · exact .pure
  · exact writesOnce_typed op left right

end Operation

namespace Evaluation

variable {sub : Evaluator} {f : FrameId} {span : Span}

/-! ### Expressions -/

theorem writesOnce_value (hsub : sub.WritesOnce) (n : Node) (f : FrameId) :
    (value sub n f).WritesOnce h :=
  .bind (hsub n f h) fun _ _ _ => .pure

theorem writesOnce_values (hsub : sub.WritesOnce) (nodes : List Node) :
    (values sub f nodes).WritesOnce h := by
  induction nodes generalizing h with
  | nil => exact .pure
  | cons n rest ih =>
      refine .bind (writesOnce_value hsub n f) fun first k _ => ?_
      exact .bind ih fun _ _ _ => .pure

theorem writesOnce_list (hsub : sub.WritesOnce) (elements : List Node) :
    (list sub span elements f).WritesOnce h :=
  .bind (writesOnce_values hsub elements) fun _ _ _ => .pure

theorem writesOnce_ident (name : String) : (ident span name f).WritesOnce h := by
  refine .read_bind ?_
  split
  · exact .pure
  · exact .fail

theorem writesOnce_binary (hsub : sub.WritesOnce) (op : BinaryOp) (left right : Node) :
    (binary sub span op left right f).WritesOnce h := by
  refine .bind (writesOnce_value hsub left f) fun l k _ => ?_
  split
  · split
    · exact .bind (writesOnce_value hsub right _) fun _ _ _ => .pure
    · exact .raise
  · refine .bind (writesOnce_value hsub right f) fun r _ _ => ?_
    exact .bind (Operation.writesOnce_binary _ l r) fun _ _ _ => .pure

theorem writesOnce_unary (hsub : sub.WritesOnce) (op : UnaryOp) (operand : Node) :
    (unary sub span op operand f).WritesOnce h := by
  refine .bind (writesOnce_value hsub operand f) fun v k _ => ?_
  cases op with
  | plus => exact .bind (Operation.writesOnce_binary _ _ _) fun _ _ _ => .pure
  | negate => exact .bind (Operation.writesOnce_binary _ _ _) fun _ _ _ => .pure
  | not => exact .pure

theorem writesOnce_conditional (hsub : sub.WritesOnce) (producesValue : Bool)
    (condition thenBranch : Node) (elseBranch : Option Node) :
    (conditional sub span producesValue condition thenBranch elseBranch f).WritesOnce h := by
  refine .bind (writesOnce_value hsub condition f) fun c k _ => ?_
  split
  · exact .pure
  · rename_i branch _
    refine .bind (hsub branch f k) fun out l _ => ?_
    split <;> exact .pure

theorem writesOnce_prev (hsub : sub.WritesOnce) (expression : Node) :
    (prev sub span expression f).WritesOnce h := by
  refine .read_bind ?_
  split
  · exact .bind (writesOnce_value hsub expression _) fun _ _ _ => .pure
  · exact .fail

/-! ### Names -/

theorem writeOnce_enter (label : String) (f : FrameId) (span : Span) :
    h.WriteOnce (h.enter label f span).2 := .opened _ _ _

theorem writesOnce_bindingTarget (name label : String) :
    (bindingTarget name label span f).WritesOnce h := by
  refine .read_bind ?_
  split
  · intro k hk
    cases hk
    exact writeOnce_enter label f span
  · exact .pure

/-- The frame in which a name is bound does not bind it yet. -/
theorem get?_bindingTarget {name label : String} {target : FrameId}
    (hend : bindingTarget name label span f h = .done target k) :
    (k.table (k.frame target).table).bindings.get? name = none := by
  unfold bindingTarget at hend
  rw [Run.bind_apply] at hend
  cases hbinds : h.bindsDirectly f name with
  | true =>
      simp only [Run.read, hbinds, if_true, Run.make] at hend
      cases hend
      rw [bindings_enter]
      rfl
  | false =>
      simp only [Run.read, hbinds] at hend
      cases hend
      simpa [bindsDirectly, Bindings.has] using hbinds

/-- A value is kept in a frame that does not bind the name itself. -/
theorem writesOnce_keep {target : FrameId} {name : String} {v : Value} {out : Value → Outcome}
    (hnone : (h.table (h.frame target).table).bindings.get? name = none) :
    (do
      let bound ← Run.make (Heap.rehome target v)
      Run.change (·.define target name bound)
      return out bound).WritesOnce h := by
  refine .make_bind (.rehome target v h) (.change_bind ?_ .pure)
  obtain ⟨htables, hframes⟩ := rehome_parts target v h
  refine .bind ?_ _
  rw [table_congr htables, frame_congr hframes]
  exact hnone

/-! ### Functions -/

theorem writesOnce_function (name : Option String) (params : List String) (autoReturn : Bool)
    (body : Node) : (function span name params autoReturn body f).WritesOnce h := by
  refine .make_bind (.addFunction _) ?_
  rw [newFunction_eq]
  generalize hk : h.addFunction ⟨name.getD "anonymous", params, body, f, autoReturn, true⟩ = k
  cases name with
  | none => exact .pure
  | some name =>
      refine .read_bind ?_
      cases hplaceholder : k.placeholder? f name with
      | none =>
          refine .bind (writesOnce_bindingTarget name _) fun target l hend => ?_
          exact writesOnce_keep (get?_bindingTarget hend)
      | some placeholder =>
          have hinit : (k.function ⟨h.functions.size⟩).initialized = true := by
            rw [← hk, function_addFunction, if_pos rfl]
          have hnot := (placeholder?_eq_some.mp hplaceholder).2
          have hwritten : k.WriteOnce ((k.initializeFrom placeholder ⟨h.functions.size⟩).addFunction
              { k.function ⟨h.functions.size⟩ with home := f }) :=
            (WriteOnce.initializeFrom hnot _).trans (.addFunction _)
          -- The placeholder is defined before it is replaced, so the three changes are one.
          intro l hl
          cases hl.symm.trans (congrArg Ending.heap? (fulfil_apply hinit hnot))
          exact hwritten.bind_of_placeholder? (by simp) hplaceholder _

theorem writesOnce_declaration (name : String) (placeholder : Node) :
    (declaration span name placeholder f).WritesOnce h := by
  refine .bind (writesOnce_bindingTarget name _) fun target k hend => ?_
  have hnone := get?_bindingTarget hend
  refine .make_bind (.addFunction _) (.change_bind (.bind ?_ _) .pure)
  exact hnone

theorem writesOnce_apply (hsub : sub.WritesOnce) (callee : Function) (arguments : List Value) :
    (apply sub span callee arguments f).WritesOnce h := by
  unfold apply
  split
  · exact .fail
  split
  · exact .fail
  have hframe : h.WriteOnce (callFrame callee arguments span h).2 := by
    rw [callFrame_eq]
    exact .opened _ _ _
  refine .make_bind hframe (.bind (hsub callee.body _ _).attempt fun ending k _ => ?_)
  split
  · exact .pure
  · exact .pure
  · exact .raise

theorem writesOnce_call (hsub : sub.WritesOnce) (callee : Node) (arguments : List Node) :
    (call sub span callee arguments f).WritesOnce h := by
  refine .bind (writesOnce_value hsub callee f) fun c k _ => ?_
  refine .bind (writesOnce_values hsub arguments) fun vs l _ => ?_
  split
  · exact .read_bind (writesOnce_apply hsub _ vs)
  · exact .fail

/-! ### Loops -/

theorem writesOnce_turn (hsub : sub.WritesOnce) (body : Node) (f : FrameId) :
    (turn sub body f).WritesOnce h := by
  refine .bind (hsub body f h).attempt fun ending k _ => ?_
  split
  · exact .pure
  · exact .read_bind .pure
  · exact .raise

theorem writesOnce_whileTurns (hsub : sub.WritesOnce) (condition body : Node) (bound : Nat)
    (outcome : Outcome) : (whileTurns sub condition body bound outcome).WritesOnce h := by
  induction bound generalizing h outcome with
  | zero => exact .exhausted
  | succ bound ih =>
      refine .bind (writesOnce_value hsub condition outcome.frame) fun c k _ => ?_
      split
      · refine .bind (writesOnce_turn hsub body outcome.frame) fun done l _ => ?_
        split
        · exact ih _
        · exact .pure
      · exact .pure

theorem writesOnce_admitted (hsub : sub.WritesOnce) (filter : Option Node) (f : FrameId) :
    (admitted sub filter f).WritesOnce h := by
  cases filter with
  | none => exact .pure
  | some filter => exact .bind (writesOnce_value hsub filter f) fun _ _ _ => .pure

theorem writesOnce_forTurns (hsub : sub.WritesOnce) (name : String) (body : Node)
    (filter : Option Node) (elements : List Value) (progress : Progress) :
    (forTurns sub span name body filter elements progress).WritesOnce h := by
  induction elements generalizing h progress with
  | nil => exact .pure
  | cons element rest ih =>
      refine .make_bind (writeOnce_enter "<for>" progress.frame span) (.change_bind (.bind ?_ _) ?_)
      · rw [bindings_enter]
        rfl
      refine .bind (writesOnce_admitted hsub filter _) fun passed k _ => ?_
      split
      · refine .bind (writesOnce_turn hsub body _) fun done l _ => ?_
        split <;> split
        · exact ih _
        · exact .pure
        · exact ih _
        · exact .pure
      · exact ih _

theorem writesOnce_forLoop (hsub : sub.WritesOnce) (name : String) (comprehension : Bool)
    (source body : Node) (filter : Option Node) :
    (forLoop sub span name comprehension source body filter f).WritesOnce h := by
  refine .bind (writesOnce_value hsub source f) fun given k _ => ?_
  split
  · refine .bind (writesOnce_forTurns hsub name body filter _ _) fun progress l _ => ?_
    split <;> exact .pure
  · exact .read_bind .fail

/-! ### Statements -/

theorem writesOnce_bindKept (name : String) (kept : Value) :
    (bindKept span name f kept).WritesOnce h := by
  unfold bindKept
  split
  · refine .make_bind (writeOnce_enter name f span) (writesOnce_keep ?_)
    rw [bindings_enter]
    rfl
  · refine .bind (writesOnce_bindingTarget name name) fun target k hend => ?_
    exact writesOnce_keep (get?_bindingTarget hend)

theorem writesOnce_assign (hsub : sub.WritesOnce) (name : String) (topLevel : Bool) (n : Node) :
    (assign sub span name topLevel n f).WritesOnce h := by
  rw [assign_eq_bindKept]
  refine .bind (writesOnce_value hsub n f) fun given k _ => .read_bind ?_
  split
  · rename_i placeholder g hplaceholder _
    refine .change_bind ?_ (writesOnce_bindKept name _)
    exact .initializeFrom (placeholder?_eq_some.mp hplaceholder).2 g
  · refine .read_bind ?_
    split
    · exact .fail
    · exact writesOnce_bindKept name _

theorem writesOnce_statements (hsub : sub.WritesOnce) (body : List Node) (outcome : Outcome) :
    (statements sub body outcome).WritesOnce h := by
  induction body generalizing h outcome with
  | nil => exact .pure
  | cons statement rest ih => exact .bind (hsub statement outcome.frame h) fun _ _ _ => ih _

theorem writesOnce_block (hsub : sub.WritesOnce) (body : List Node) :
    (block sub span body f).WritesOnce h :=
  .make_bind (writeOnce_enter "<block>" f span) (writesOnce_statements hsub body _)

theorem writesOnce_result (hsub : sub.WritesOnce) (n : Option Node) :
    (result sub span n f).WritesOnce h := by
  cases n with
  | none => exact .raise
  | some n => exact .bind (writesOnce_value hsub n f) fun _ _ _ => .raise

/-! ### Objects -/

theorem writesOnce_parents (hsub : sub.WritesOnce) (n : Option Node) :
    (n.mapM fun n => parent sub span n f).WritesOnce h := by
  cases n with
  | none => exact .pure
  | some n =>
      refine .bind (.bind (writesOnce_value hsub n f) fun v k _ => ?_) fun _ _ _ => .pure
      split
      · exact .pure
      · exact .fail

theorem writesOnce_base (parent : Option Capsule) : (base span parent f).WritesOnce h := by
  cases parent with
  | none => exact .pure
  | some c =>
      refine .read_bind (.make_bind (.splice _ _) ?_)
      split
      · exact .make_bind (.addFrame _) .pure
      · exact .fail

theorem writesOnce_built (hsub : sub.WritesOnce) (body : Node) (parentNode : Option Node) :
    (built sub span body parentNode f).WritesOnce h := by
  refine .bind (writesOnce_parents hsub parentNode) fun parent k _ => ?_
  refine .bind (writesOnce_base parent) fun made l _ => .read_bind ?_
  exact .bind (hsub body _ _) fun _ _ _ => .pure

theorem writesOnce_cutFrames (around : TableId) (limit : Nat) (frames : List FrameId) :
    (cutFrames span around limit frames).WritesOnce h := by
  induction frames generalizing h limit with
  | nil => cases limit <;> exact .pure
  | cons frame rest ih =>
      cases limit with
      | zero => exact .fail
      | succ limit => exact .change_bind (.cut _ _) (ih limit)

theorem writeOnce_objectScope (typeName : Option String) (strict : Bool) (body : FrameId)
    (fields : Bindings Value) :
    h.WriteOnce (objectScope span typeName strict body fields h).2 := by
  unfold objectScope
  cases strict <;> exact .opened _ _ _

theorem writesOnce_sealed (limit : Nat) (typeName : Option String) (strict : Bool) (b : Built) :
    (sealed limit span typeName strict f b).WritesOnce h := by
  refine .read_bind ?_
  split
  · refine .bind (writesOnce_cutFrames _ _ _) fun _ k _ => .read_bind ?_
    cases b.point with
    | none => exact .make_bind (writeOnce_objectScope _ _ _ _) .pure
    | some t => exact .change_bind (.cut _ _) (.make_bind (writeOnce_objectScope _ _ _ _) .pure)
  · exact .read_bind (.make_bind (writeOnce_objectScope _ _ _ _) .pure)

theorem writesOnce_encap (hsub : sub.WritesOnce) (limit : Nat) (typeName : Option String)
    (strict : Bool) (body : Node) (parentNode : Option Node) :
    (encap sub limit span typeName strict body parentNode f).WritesOnce h := by
  rw [encap_eq_built_sealed]
  exact .bind (writesOnce_built hsub body parentNode) fun b _ _ => writesOnce_sealed _ _ _ b

/-! ### All nodes -/

theorem writesOnce_node (limits : Limits) (bound : Nat) (hsub : sub.WritesOnce) :
    Evaluator.WritesOnce (node limits bound sub) := by
  intro n f h
  cases n with
  | number span x => exact .pure
  | text span s => exact .pure
  | list span elements => exact writesOnce_list hsub elements
  | binary span op left right => exact writesOnce_binary hsub op left right
  | unary span op operand => exact writesOnce_unary hsub op operand
  | assign span name topLevel n => exact writesOnce_assign hsub name topLevel n
  | ident span name => exact writesOnce_ident name
  | block span mayDeclare body => exact writesOnce_block hsub body
  | conditional span producesValue condition thenBranch elseBranch =>
      exact writesOnce_conditional hsub producesValue condition thenBranch elseBranch
  | function span name params autoReturn body =>
      exact writesOnce_function name params autoReturn body
  | declaration span name placeholder => exact writesOnce_declaration name placeholder
  | call span callee arguments => exact writesOnce_call hsub callee arguments
  | result span n => exact writesOnce_result hsub n
  | stopLoop span => exact .raise
  | nextTurn span => exact .raise
  | whileLoop span condition body => exact writesOnce_whileTurns hsub condition body bound _
  | forLoop span name comprehension source body filter =>
      exact writesOnce_forLoop hsub name comprehension source body filter
  | encap span typeName strict body parent => exact writesOnce_encap hsub _ typeName strict body parent
  | prev span expression => exact writesOnce_prev hsub expression

theorem writesOnce_eval (limits : Limits) (fuel : Nat) :
    Evaluator.WritesOnce (eval limits fuel) := by
  induction fuel with
  | zero => exact fun _ _ _ => .exhausted
  | succ fuel ih => exact writesOnce_node limits fuel ih

/-- Whatever node is evaluated, in whatever frame and on whatever heap, and whether it ends with a
value or with a signal: tables keep their names in front and what they bind them to, placeholders
apart, and functions keep their names and, once defined, everything. -/
theorem writeOnce_of_eval {limits : Limits} {fuel : Nat} {n : Node} {f : FrameId}
    (hend : (eval limits fuel n f h).heap? = some k) : h.WriteOnce k :=
  writesOnce_eval limits fuel n f h k hend

/-- A piece of no text. -/
def nowhere : Span := ⟨"", .origin, .origin⟩

/-- A heap with one frame, in which the function `f` is declared. -/
def declared : Heap :=
  let start : Heap := { tables := #[{}], frames := #[⟨"main", ⟨0⟩, none, none, ⟨0⟩⟩] }
  (eval {} 1 (.declaration nowhere "f" (.ident nowhere "null")) ⟨0⟩ start).heap?.getD {}

/-- The definition of the declared function puts another function in the place of the placeholder,
and all else is as it was written. -/
theorem writeOnce_definition : ∃ k,
    (eval {} 1 (.function nowhere (some "f") [] true (.ident nowhere "null")) ⟨0⟩ declared).heap? =
      some k ∧
    ((declared.table ⟨0⟩).bindings.get? "f").bind Value.function? = some ⟨0⟩ ∧
    ((k.table ⟨0⟩).bindings.get? "f").bind Value.function? = some ⟨2⟩ ∧ declared.WriteOnce k := by
  have hend : ((eval {} 1 (.function nowhere (some "f") [] true (.ident nowhere "null")) ⟨0⟩
      declared).heap?.any fun k =>
        ((k.table ⟨0⟩).bindings.get? "f").bind Value.function? == some ⟨2⟩) = true := by decide
  obtain ⟨k, hk, hbound⟩ := (Option.any_eq_true _ _).mp hend
  exact ⟨k, hk, by decide, eq_of_beq hbound, writeOnce_of_eval hk⟩

end Evaluation

end CapsuleScript
