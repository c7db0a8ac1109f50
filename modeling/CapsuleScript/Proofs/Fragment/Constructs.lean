import CapsuleScript.Proofs.Fragment.Values
import CapsuleScript.Proofs.Scoping.Constructs

/-! Evaluation stays in a fragment of the language. A node of the fragment on a heap of the fragment
gives a value of the fragment, or returns one, and leaves a heap of the fragment: only a block without
statements could give the empty value, and there is none. One lemma for each construct, with the
evaluator of its parts as a hypothesis. -/

namespace CapsuleScript

open Heap

variable {L : Fragment} {broken : Prop} {α β : Type}

/-- Values are returned only if the fragment has results, and are of the fragment. Unless the
computation may be `broken` off, a failure is not that of a loop signal which nothing took up. -/
def Signal.Belongs (L : Fragment) (broken : Prop) : Signal → Prop
  | returned result => L.results ∧ result.value.Belongs L
  | exited .. => True
  | failed fault => broken ∨ ∀ exit, fault.kind ≠ .outsideLoop exit

/-- However the computation ended, the heap and what it gave or raised are of the fragment. -/
def Ending.Belongs (L : Fragment) (broken : Prop) (Q : α → Prop) : Ending α → Prop
  | .done a k => k.Belongs L ∧ Q a
  | .raised signal k => k.Belongs L ∧ signal.Belongs L broken
  | .outOfFuel => True

/-- The computation ends so on the heap `h`. -/
def Run.Belongs (L : Fragment) (broken : Prop) (run : Run α) (h : Heap) (Q : α → Prop) : Prop :=
  (run h).Belongs L broken Q

/-- What was attempted has given a result that passes the test, or a signal of the fragment. -/
def Attempt.Belongs (L : Fragment) (broken : Prop) (Q : α → Prop) : Except Signal α → Prop
  | .ok a => Q a
  | .error signal => signal.Belongs L broken

namespace Run.Belongs

variable {h : Heap} {run : Run α} {next : α → Run β} {Q : α → Prop} {R : β → Prop}

theorem pure {a : α} (hh : h.Belongs L) (ha : Q a) :
    Run.Belongs L broken (Pure.pure a) h Q := ⟨hh, ha⟩

theorem bind (hrun : Run.Belongs L broken run h Q)
    (hnext : ∀ a k, k.Belongs L → Q a → Run.Belongs L broken (next a) k R) :
    Run.Belongs L broken (run >>= next) h R := by
  unfold Run.Belongs at *
  rw [Run.bind_apply]
  cases hend : run h with
  | done a k =>
      rw [hend] at hrun
      exact hnext a k hrun.1 hrun.2
  | raised signal k =>
      rw [hend] at hrun
      exact hrun
  | outOfFuel => trivial

theorem imp {R : α → Prop} (hrun : Run.Belongs L broken run h Q) (himp : ∀ a, Q a → R a) :
    Run.Belongs L broken run h R := by
  unfold Run.Belongs at *
  cases hend : run h with
  | done a k =>
      rw [hend] at hrun
      exact ⟨hrun.1, himp a hrun.2⟩
  | raised signal k =>
      rw [hend] at hrun
      exact hrun
  | outOfFuel => trivial

theorem read_bind {g : Heap → α} (hnext : Run.Belongs L broken (next (g h)) h R) :
    Run.Belongs L broken (Run.read g >>= next) h R := hnext

theorem make_bind {g : Heap → α × Heap}
    (hnext : Run.Belongs L broken (next (g h).1) (g h).2 R) :
    Run.Belongs L broken (Run.make g >>= next) h R := hnext

theorem change_bind {g : Heap → Heap} {next : Unit → Run β}
    (hnext : Run.Belongs L broken (next ()) (g h) R) :
    Run.Belongs L broken (Run.change g >>= next) h R := hnext

theorem raise {signal : Signal} (hh : h.Belongs L) (hsignal : signal.Belongs L broken) :
    Run.Belongs L broken (Run.raise signal : Run α) h Q := ⟨hh, hsignal⟩

theorem fail {kind : FaultKind} {span : Span} {f : FrameId} (hh : h.Belongs L)
    (hkind : ∀ exit, kind ≠ .outsideLoop exit) :
    Run.Belongs L broken (Run.fail kind span f : Run α) h Q := ⟨hh, .inr hkind⟩

theorem attempt (hrun : Run.Belongs L broken run h Q) :
    Run.Belongs L broken run.attempt h (Attempt.Belongs L broken Q) := by
  unfold Run.Belongs Run.attempt at *
  cases hend : run h with
  | done a k =>
      rw [hend] at hrun
      exact hrun
  | raised signal k =>
      rw [hend] at hrun
      exact hrun
  | outOfFuel => trivial

end Run.Belongs

/-- The outcome is a value of the fragment. -/
def Outcome.Belongs (L : Fragment) (out : Outcome) : Prop := out.result.value.Belongs L

/-- The evaluator stays in the fragment. -/
def Evaluator.Belongs (L : Fragment) (broken : Prop) (sub : Evaluator) : Prop :=
  ∀ {n f h}, n.Belongs L → h.Belongs L →
    Run.Belongs L broken (sub n f) h (Outcome.Belongs L)

/-! ### Operators -/

namespace Operation

variable {h : Heap} {left right : Stamped}

theorem belongs_settle (hh : h.Belongs L) {result : Except FaultKind Value}
    (hvalue : ∀ v, result = .ok v → v.Belongs L)
    (hkind : ∀ kind exit, result = .error kind → kind ≠ .outsideLoop exit) :
    Run.Belongs L broken (settle left right result) h (Value.Belongs L) := by
  cases result with
  | ok v => exact .pure hh (hvalue v rfl)
  | error kind => exact .raise hh (.inr fun exit => hkind kind exit rfl)

theorem belongs_illegal (hh : h.Belongs L) :
    Run.Belongs L broken (settle left right (.error .illegalOperation)) h (Value.Belongs L) :=
  .raise hh (.inr fun _ => by simp [Stamped.fault])

theorem belongs_object (hh : h.Belongs L) {op : BinaryOp} {c : Capsule}
    (hc : c.toValue.Belongs L) (hr : right.value.Belongs L) :
    Run.Belongs L broken (object op c left right) h (Value.Belongs L) := by
  unfold object
  split
  · rename_i fields inherited types scope hvalue
    rw [hvalue] at hr
    obtain ⟨hheap, hmerged⟩ := hh.merge (d := ⟨fields, inherited, types, scope⟩) hc hr left.span
    exact .make_bind (.pure hheap hmerged)
  · rename_i name _
    refine .pure hh ?_
    cases hfield : c.field? name with
    | none => trivial
    | some v => exact hc.field? hfield
  · exact .pure hh trivial
  · exact .pure hh trivial
  · exact belongs_illegal hh

theorem belongs_typed (hh : h.Belongs L) {op : BinaryOp} (hl : left.value.Belongs L)
    (hr : right.value.Belongs L) :
    Run.Belongs L broken (typed op left right) h (Value.Belongs L) := by
  have hnumeric : Run.Belongs L broken (settle left right (numeric op left.value right.value)) h
      (Value.Belongs L) :=
    belongs_settle hh (fun _ hv => (isPlain_numeric hv).belongs) fun _ _ => kind_ne_of_numeric
  unfold typed
  split
  · exact hnumeric
  · exact hnumeric
  · exact hnumeric
  · exact belongs_settle hh (fun _ hv => (isPlain_text hv).belongs) fun _ _ => kind_ne_of_text
  · rename_i elements hvalue
    rw [hvalue] at hl
    refine .read_bind (belongs_settle hh (fun v hv => ?_) fun _ _ => kind_ne_of_list)
    exact holds_list (P := Value.Belongs L) Value.allBelong_iff (fun _ => trivial) trivial
      hl.elements hr hv
  · rename_i fields inherited types scope hvalue
    rw [hvalue] at hl
    exact belongs_object (c := ⟨fields, inherited, types, scope⟩) hh hl hr
  · exact belongs_illegal hh
  · exact belongs_illegal hh

theorem belongs_binary (hh : h.Belongs L) {op : BinaryOp} (hl : left.value.Belongs L)
    (hr : right.value.Belongs L) :
    Run.Belongs L broken (binary op left right) h (Value.Belongs L) := by
  unfold binary
  split
  · exact .pure hh trivial
  · exact .pure hh trivial
  · exact belongs_typed hh hl hr

end Operation

namespace Evaluation

variable {h : Heap} {f : FrameId} {span : Span} {sub : Evaluator}

/-! ### Expressions -/

theorem belongs_value (hsub : sub.Belongs L broken) {n : Node} (hn : n.Belongs L)
    (hh : h.Belongs L) :
    Run.Belongs L broken (value sub n f) h fun v => v.value.Belongs L := by
  refine .bind (hsub hn hh) fun out k hk hout => .pure hk ?_
  have hsame : (out.result.anchored f).value = out.result.value := by
    unfold Stamped.anchored
    split <;> rfl
  rw [hsame]
  exact hout

theorem belongs_values (hsub : sub.Belongs L broken) {nodes : List Node}
    (hn : Node.AllBelong L nodes) (hh : h.Belongs L) :
    Run.Belongs L broken (values sub f nodes) h fun vs => ∀ v ∈ vs, v.Belongs L := by
  induction nodes generalizing h with
  | nil => exact .pure hh (by simp)
  | cons n rest ih =>
      refine .bind (belongs_value hsub hn.1 hh) fun v k hk hv => ?_
      exact .bind (ih hn.2 hk) fun vs l hl hvs =>
        .pure hl (List.forall_mem_cons.mpr ⟨hv, hvs⟩)

theorem belongs_ident (hh : h.Belongs L) (name : String) :
    Run.Belongs L broken (ident span name f) h (Outcome.Belongs L) := by
  refine .read_bind ?_
  cases hlook : h.lookup f name with
  | some v => exact .pure hh (hh.lookup hlook)
  | none => exact .fail hh fun _ => by simp

theorem belongs_operation (hh : h.Belongs L) {op : BinaryOp} {left right : Stamped}
    (hl : left.value.Belongs L) (hr : right.value.Belongs L) :
    Run.Belongs L broken (Operation.binary op left right >>= fun v => pure (give v span f)) h
      (Outcome.Belongs L) :=
  .bind (Operation.belongs_binary hh hl hr) fun _ _ hk hv => .pure hk hv

theorem belongs_binary (hsub : sub.Belongs L broken) {op : BinaryOp} {left right : Node}
    (hn : left.Belongs L ∧ right.Belongs L) (hh : h.Belongs L) :
    Run.Belongs L broken (binary sub span op left right f) h (Outcome.Belongs L) := by
  refine .bind (belongs_value hsub hn.1 hh) fun l k hk hl => ?_
  cases op with
  | access =>
      cases hvalue : l.value with
      | encap fields inherited types scope =>
          exact .bind (belongs_value hsub hn.2 hk) fun _ _ hm hr => .pure hm hr
      | _ => exact .raise hk (.inr fun _ => by simp [Stamped.fault])
  | _ =>
      exact .bind (belongs_value hsub hn.2 hk) fun _ _ hm hr => belongs_operation hm hl hr

theorem belongs_unary (hsub : sub.Belongs L broken) {op : UnaryOp} {operand : Node}
    (hn : operand.Belongs L) (hh : h.Belongs L) :
    Run.Belongs L broken (unary sub span op operand f) h (Outcome.Belongs L) := by
  refine .bind (belongs_value hsub hn hh) fun v k hk hv => ?_
  cases op with
  | plus => exact belongs_operation hk hv trivial
  | negate => exact belongs_operation hk hv trivial
  | not => exact .pure hk trivial

theorem belongs_conditional (hsub : sub.Belongs L broken) {producesValue : Bool}
    {condition thenBranch : Node} {elseBranch : Option Node}
    (hn : condition.Belongs L ∧ thenBranch.Belongs L ∧ Node.OptionBelongs L elseBranch)
    (hh : h.Belongs L) :
    Run.Belongs L broken (conditional sub span producesValue condition thenBranch elseBranch f) h
      (Outcome.Belongs L) := by
  refine .bind (belongs_value hsub hn.1 hh) fun c k hk _ => ?_
  cases hchosen : (if c.value.isTrue then some thenBranch else elseBranch) with
  | none => exact .pure hk trivial
  | some branch =>
      have hbranch : branch.Belongs L := by
        split at hchosen
        · cases hchosen
          exact hn.2.1
        · subst hchosen
          exact hn.2.2
      refine .bind (hsub hbranch hk) fun out l hl hout => ?_
      cases producesValue with
      | true => exact .pure hl hout
      | false => exact .pure hl trivial

theorem belongs_prev (hsub : sub.Belongs L broken) {expression : Node}
    (hn : expression.Belongs L) (hh : h.Belongs L) :
    Run.Belongs L broken (prev sub span expression f) h (Outcome.Belongs L) := by
  refine .read_bind ?_
  cases (h.frame f).parent with
  | none => exact .fail hh fun _ => by simp
  | some p => exact .bind (belongs_value hsub hn hh) fun _ _ hk hv => .pure hk hv

/-! ### Functions -/

theorem belongs_bindingTarget (hh : h.Belongs L) (name label : String) :
    Run.Belongs L broken (bindingTarget name label span f) h fun _ => True := by
  refine .read_bind ?_
  split
  · exact ⟨hh.enter label f span, trivial⟩
  · exact .pure hh trivial

theorem belongs_keep (hh : h.Belongs L) {target : FrameId} {name : String} {v : Value}
    (hv : v.Belongs L) {out : Value → Outcome}
    (hout : ∀ bound, bound.Belongs L → (out bound).Belongs L) :
    Run.Belongs L broken (do
      let bound ← Run.make (Heap.rehome target v)
      Run.change (·.define target name bound)
      return out bound : Run Outcome) h (Outcome.Belongs L) := by
  have hbound : (Heap.rehome target v h).1.Belongs L := Heap.Belongs.rehome_value target v hv
  refine .make_bind (.change_bind (.pure ?_ (hout _ hbound)))
  exact (hh.rehome target v).define target name hbound

theorem belongs_function (hh : h.Belongs L) {body : Node} (hn : L.functions ∧ body.Belongs L)
    (name : Option String) (params : List String) (autoReturn : Bool) :
    Run.Belongs L broken (function span name params autoReturn body f) h (Outcome.Belongs L) := by
  have hadd : (h.addFunction
      ⟨name.getD "anonymous", params, body, f, autoReturn, true⟩).Belongs L :=
    hh.addFunction hn.2
  have hmade : ∀ g, (Value.function g).Belongs L := fun _ => hn.1
  refine .make_bind ?_
  rw [newFunction_eq]
  cases name with
  | none => exact .pure hadd hn.1
  | some name =>
      refine .read_bind ?_
      split
      · refine .change_bind (.bind (Q := fun _ => True) (.pure (hadd.initializeFrom _ _) trivial) ?_)
        exact fun _ k hk _ => belongs_keep hk (hmade _) fun _ hbound => hbound
      · refine .bind (belongs_bindingTarget hadd _ _) fun _ k hk _ => ?_
        exact belongs_keep hk (hmade _) fun _ hbound => hbound

theorem belongs_declaration (hh : h.Belongs L) {placeholder : Node}
    (hn : L.functions ∧ placeholder.Belongs L) (name : String) :
    Run.Belongs L broken (declaration span name placeholder f) h (Outcome.Belongs L) := by
  refine .bind (belongs_bindingTarget hh name _) fun target k hk _ => .make_bind (.change_bind ?_)
  have hadd : (k.newPlaceholder name placeholder target).2.Belongs L := hk.addFunction hn.2
  exact .pure (hadd.define target name hn.1) hn.1

/-! ### Calls -/

theorem belongs_apply (hsub : sub.Belongs L broken) (hh : h.Belongs L) {callee : Function}
    (hbody : callee.body.Belongs L) {arguments : List Value}
    (harguments : ∀ v ∈ arguments, v.Belongs L) :
    Run.Belongs L broken (apply sub span callee arguments f) h (Outcome.Belongs L) := by
  unfold apply
  split
  · exact .fail hh fun _ => by simp
  split
  · exact .fail hh fun _ => by simp
  have hframe := hh.callFrame callee harguments span
  refine .make_bind (.bind (hsub hbody hframe).attempt fun ending k hk hending => ?_)
  cases ending with
  | ok outcome =>
      refine .pure hk ?_
      cases callee.autoReturn with
      | true => exact hending
      | false => trivial
  | error signal =>
      cases signal with
      | returned result => exact .pure hk hending.2
      | exited exit s r => exact .raise hk hending
      | failed fault => exact .raise hk hending

theorem belongs_call (hsub : sub.Belongs L broken) {callee : Node} {arguments : List Node}
    (hn : callee.Belongs L ∧ Node.AllBelong L arguments) (hh : h.Belongs L) :
    Run.Belongs L broken (call sub span callee arguments f) h (Outcome.Belongs L) := by
  refine .bind (belongs_value hsub hn.1 hh) fun c k hk _ => ?_
  refine .bind (belongs_values hsub hn.2 hk) fun vs l hl hvs => ?_
  cases c.value with
  | function g => exact .read_bind (belongs_apply hsub hl (hl.bodies g) hvs)
  | _ => exact .fail hl fun _ => by simp

/-! ### Loops -/

theorem belongs_turn (hsub : sub.Belongs L broken) {body : Node} (hn : body.Belongs L)
    (hh : h.Belongs L) :
    Run.Belongs L broken (turn sub body f) h fun done =>
      ∀ result ∈ done.result, result.value.Belongs L := by
  refine .bind (hsub hn hh).attempt fun ending k hk hending => ?_
  cases ending with
  | ok outcome =>
      refine .pure hk fun result hresult => ?_
      cases hresult
      exact hending
  | error signal =>
      cases signal with
      | returned result => exact .raise hk hending
      | exited exit s r => exact .read_bind (.pure hk (by simp))
      | failed fault => exact .raise hk hending

theorem belongs_whileTurns (hsub : sub.Belongs L broken) {condition body : Node}
    (hn : condition.Belongs L ∧ body.Belongs L) (bound : Nat) {outcome : Outcome}
    (hh : h.Belongs L) (hout : outcome.Belongs L) :
    Run.Belongs L broken (whileTurns sub condition body bound outcome) h (Outcome.Belongs L) := by
  induction bound generalizing h outcome with
  | zero => trivial
  | succ bound ih =>
      refine .bind (belongs_value hsub hn.1 hh) fun c k hk _ => ?_
      split
      · refine .bind (belongs_turn hsub hn.2 hk) fun done l hl hdone => ?_
        have hnext : Outcome.Belongs L ⟨done.result.getD outcome.result, done.frame⟩ := by
          cases hresult : done.result with
          | none => exact hout
          | some result => exact hdone result (by simp [hresult])
        simp only
        split
        · exact ih hl hnext
        · exact .pure hl hnext
      · exact .pure hk hout

theorem belongs_admitted (hsub : sub.Belongs L broken) {filter : Option Node}
    (hn : Node.OptionBelongs L filter) (hh : h.Belongs L) :
    Run.Belongs L broken (admitted sub filter f) h fun _ => True := by
  cases filter with
  | none => exact .pure hh trivial
  | some filter => exact .bind (belongs_value hsub hn hh) fun _ _ hk _ => .pure hk trivial

/-- What the loop has come to is of the fragment. -/
structure Progress.Belongs (L : Fragment) (progress : Progress) : Prop where
  collected : ∀ v ∈ progress.collected, v.Belongs L
  result : progress.result.value.Belongs L

theorem belongs_forTurns (hsub : sub.Belongs L broken) {name : String} {body : Node}
    {filter : Option Node} (hbody : body.Belongs L) (hfilter : Node.OptionBelongs L filter)
    {elements : List Value} (helements : ∀ v ∈ elements, v.Belongs L) {progress : Progress}
    (hh : h.Belongs L) (hprogress : progress.Belongs L) :
    Run.Belongs L broken (forTurns sub span name body filter elements progress) h
      (Progress.Belongs L) := by
  induction elements generalizing h progress with
  | nil => exact .pure hh hprogress
  | cons element rest ih =>
      obtain ⟨helement, hrest⟩ := List.forall_mem_cons.mp helements
      have hframe := (hh.enter "<for>" progress.frame span).define
        (h.enter "<for>" progress.frame span).1 name helement
      refine .make_bind (.change_bind (.bind (belongs_admitted hsub hfilter hframe) ?_))
      intro passed k hk _
      split
      · refine .bind (belongs_turn hsub hbody hk) fun done l hl hdone => ?_
        cases hresult : done.result with
        | none =>
            have hnext : Progress.Belongs L ⟨progress.collected, progress.result, done.frame⟩ :=
              ⟨hprogress.collected, hprogress.result⟩
            simp only
            split
            · exact ih hrest hl hnext
            · exact .pure hl hnext
        | some result =>
            have hvalue := hdone result (by simp [hresult])
            have hnext : Progress.Belongs L
                ⟨result.value :: progress.collected, result, done.frame⟩ :=
              ⟨List.forall_mem_cons.mpr ⟨hvalue, hprogress.collected⟩, hvalue⟩
            simp only
            split
            · exact ih hrest hl hnext
            · exact .pure hl hnext
      · exact ih hrest hk ⟨hprogress.collected, hprogress.result⟩

theorem belongs_forLoop (hsub : sub.Belongs L broken) {name : String} {comprehension : Bool}
    {source body : Node} {filter : Option Node}
    (hn : source.Belongs L ∧ body.Belongs L ∧ Node.OptionBelongs L filter) (hh : h.Belongs L) :
    Run.Belongs L broken (forLoop sub span name comprehension source body filter f) h
      (Outcome.Belongs L) := by
  refine .bind (belongs_value hsub hn.1 hh) fun given k hk hgiven => ?_
  cases hvalue : given.value with
  | list elements =>
      rw [hvalue] at hgiven
      have hstart : Progress.Belongs L ⟨[], .of .null span f, f⟩ := ⟨by simp, trivial⟩
      refine .bind (belongs_forTurns hsub hn.2.1 hn.2.2 hgiven.elements hk hstart) ?_
      intro progress l hl hprogress
      cases comprehension with
      | true =>
          refine .pure hl (Value.Belongs.list fun v hv => ?_)
          exact hprogress.collected v (List.mem_reverse.mp hv)
      | false => exact .pure hl hprogress.result
  | _ => exact .read_bind (.fail hk fun _ => by simp)

/-! ### Statements -/

theorem belongs_bindKept (hh : h.Belongs L) (name : String) {kept : Value}
    (hkept : kept.Belongs L) :
    Run.Belongs L broken (bindKept span name f kept) h (Outcome.Belongs L) := by
  unfold bindKept
  split
  · exact .make_bind (belongs_keep (hh.enter name f span) hkept fun _ hbound => hbound)
  · exact .bind (belongs_bindingTarget hh name name) fun _ k hk _ =>
      belongs_keep hk hkept fun _ hbound => hbound

theorem belongs_assign (hsub : sub.Belongs L broken) {name : String} {topLevel : Bool}
    {node : Node} (hn : node.Belongs L) (hh : h.Belongs L) :
    Run.Belongs L broken (assign sub span name topLevel node f) h (Outcome.Belongs L) := by
  rw [assign_eq_bindKept]
  refine .bind (belongs_value hsub hn hh) fun given k hk hgiven => .read_bind ?_
  split
  · rename_i placeholder g _ hvalue
    rw [hvalue] at hgiven
    exact .change_bind (belongs_bindKept (hk.initializeFrom _ _) name hgiven)
  · refine .read_bind ?_
    split
    · exact .fail hk fun _ => by simp
    · exact belongs_bindKept hk name hgiven

/-- The value of a row of statements is that of its last one; only without any it is the one the row
started with. -/
theorem belongs_statements (hsub : sub.Belongs L broken) {body : List Node}
    (hn : Node.AllBelong L body) {outcome : Outcome} (hh : h.Belongs L)
    (hout : body ≠ [] ∨ outcome.Belongs L) :
    Run.Belongs L broken (statements sub body outcome) h (Outcome.Belongs L) := by
  induction body generalizing h outcome with
  | nil => exact .pure hh (hout.resolve_left fun hne => hne rfl)
  | cons statement rest ih =>
      refine .bind (hsub hn.1 hh) fun next k hk hnext => ?_
      exact ih hn.2 hk (.inr hnext)

theorem belongs_block (hsub : sub.Belongs L broken) {body : List Node}
    (hn : body ≠ [] ∧ Node.AllBelong L body) (hh : h.Belongs L) :
    Run.Belongs L broken (block sub span body f) h (Outcome.Belongs L) :=
  .make_bind (belongs_statements hsub hn.2 (hh.enter "<block>" f span) (.inl hn.1))

theorem belongs_result (hsub : sub.Belongs L broken) {node : Option Node}
    (hn : L.results ∧ Node.OptionBelongs L node) (hh : h.Belongs L) :
    Run.Belongs L broken (result sub span node f) h (Outcome.Belongs L) := by
  cases node with
  | none => exact .raise hh ⟨hn.1, trivial⟩
  | some node =>
      exact .bind (belongs_value hsub hn.2 hh) fun _ _ hk hv => .raise hk ⟨hn.1, hv⟩

/-! ### Objects -/

theorem belongs_parents (hsub : sub.Belongs L broken) {node : Option Node}
    (hn : Node.OptionBelongs L node) (hh : h.Belongs L) :
    Run.Belongs L broken (node.mapM fun node => parent sub span node f) h fun parent =>
      ∀ c ∈ parent, c.toValue.Belongs L := by
  cases node with
  | none => exact .pure hh (by simp)
  | some node =>
      have hparent : Run.Belongs L broken (parent sub span node f) h fun c =>
          c.toValue.Belongs L := by
        refine .bind (belongs_value hsub hn hh) fun v k hk hv => ?_
        cases hc : v.value.capsule? with
        | some c => exact .pure hk (hv.of_capsule? hc)
        | none => exact .fail hk fun _ => by simp
      exact .bind hparent fun c k hk hc => .pure hk (by simpa using hc)

theorem belongs_base (hh : h.Belongs L) (parent : Option Capsule) :
    Run.Belongs L broken (base span parent f) h fun _ => True := by
  cases parent with
  | none => exact .pure hh trivial
  | some c =>
      have hspliced := hh.splice (h.frame c.scope).table (h.frame f).table
      refine .read_bind (.make_bind ?_)
      split
      · exact .make_bind (.pure (hspliced.addFrame _) trivial)
      · exact .fail hspliced fun _ => by simp

theorem belongs_built (hsub : sub.Belongs L broken) {body : Node} {parentNode : Option Node}
    (hbody : body.Belongs L) (hparent : Node.OptionBelongs L parentNode) (hh : h.Belongs L) :
    Run.Belongs L broken (built sub span body parentNode f) h fun b =>
      ∀ c ∈ b.parent, c.toValue.Belongs L := by
  refine .bind (belongs_parents hsub hparent hh) fun parent k hk hc => ?_
  refine .bind (belongs_base hk parent) fun made l hl _ => .read_bind ?_
  exact .bind (hsub hbody hl) fun _ _ hm _ => .pure hm hc

theorem belongs_cutFrames (hh : h.Belongs L) (around : TableId) (limit : Nat)
    (frames : List FrameId) :
    Run.Belongs L broken (cutFrames span around limit frames) h fun _ => True := by
  induction frames generalizing h limit with
  | nil => cases limit <;> exact .pure hh trivial
  | cons frame rest ih =>
      cases limit with
      | zero => exact .fail hh fun _ => by simp
      | succ limit => exact .change_bind (ih (hh.cut _ _) limit)

theorem belongs_sealed (hobjects : L.objects) {b : Built}
    (hb : ∀ c ∈ b.parent, c.toValue.Belongs L) (hh : h.Belongs L) (limit : Nat)
    (typeName : Option String) (strict : Bool) :
    Run.Belongs L broken (sealed limit span typeName strict f b) h (Outcome.Belongs L) := by
  have hinherited : Value.EntriesBelong L (b.parent.elim [] Capsule.members) := by
    cases hparent : b.parent with
    | none => trivial
    | some c => exact Value.entriesBelong_iff.mpr (hb c (by simp [hparent])).members
  -- The object is made from the fields, however far its frames were cut off before.
  have hmade : ∀ {k l : Heap} (frames : List FrameId), k.Belongs L → l.Belongs L →
      Run.Belongs L broken (do
        let scope ← Run.make (objectScope span typeName strict b.last (fields k frames))
        return give (.encap (fields k frames) (b.parent.elim [] Capsule.members)
          (b.parent.elim [] Capsule.types ++ typeName.toList) scope) span f) l
        (Outcome.Belongs L) := by
    intro k l frames hk hl
    have hfields := hk.fields frames
    refine .make_bind (.pure (hl.objectScope _ _ _ _ hfields) ?_)
    exact ⟨hobjects, Value.entriesBelong_iff.mpr hfields, hinherited⟩
  refine .read_bind ?_
  cases strict with
  | false => exact .read_bind (hmade _ hh hh)
  | true =>
      refine .bind (belongs_cutFrames hh _ _ _) fun _ k hk _ => .read_bind ?_
      cases b.point with
      | none => exact .bind (.pure (Q := fun _ => True) hk trivial) fun _ l hl _ => hmade _ hk hl
      | some t => exact .change_bind (hmade _ hk (hk.cut _ _))

theorem belongs_encap (hsub : sub.Belongs L broken) {body : Node} {parentNode : Option Node}
    (hn : L.objects ∧ body.Belongs L ∧ Node.OptionBelongs L parentNode) (hh : h.Belongs L)
    (limit : Nat) (typeName : Option String) (strict : Bool) :
    Run.Belongs L broken (encap sub limit span typeName strict body parentNode f) h
      (Outcome.Belongs L) := by
  rw [encap_eq_built_sealed]
  exact .bind (belongs_built hsub hn.2.1 hn.2.2 hh) fun b k hk hb =>
    belongs_sealed hn.1 hb hk limit typeName strict

/-! ### All nodes -/

theorem belongs_node (limits : Limits) (bound : Nat) (hsub : sub.Belongs L broken) :
    Evaluator.Belongs L broken (node limits bound sub) := by
  intro n f h hn hh
  cases n with
  | number => exact .pure hh trivial
  | text => exact .pure hh trivial
  | list span elements =>
      exact .bind (belongs_values hsub hn hh) fun _ _ hk hvs => .pure hk (.list hvs)
  | binary => exact belongs_binary hsub hn hh
  | unary => exact belongs_unary hsub hn hh
  | assign => exact belongs_assign hsub hn hh
  | ident span name => exact belongs_ident hh name
  | block => exact belongs_block hsub hn hh
  | conditional => exact belongs_conditional hsub hn hh
  | function span name params autoReturn body => exact belongs_function hh hn name params autoReturn
  | declaration span name placeholder => exact belongs_declaration hh hn name
  | call => exact belongs_call hsub hn hh
  | result => exact belongs_result hsub hn hh
  | stopLoop => exact .raise hh trivial
  | nextTurn => exact .raise hh trivial
  | whileLoop span condition body => exact belongs_whileTurns hsub hn bound hh trivial
  | forLoop => exact belongs_forLoop hsub hn hh
  | encap span typeName strict body parent => exact belongs_encap hsub hn hh _ typeName strict
  | prev => exact belongs_prev hsub hn hh

/-- Every evaluation stays in the fragment, wherever it is broken off. -/
theorem belongs_evalUntil {stop : Breakpoint}
    (hstop : ∀ n f h fault, n.Belongs L → stop n f h = some fault → broken) (limits : Limits)
    (fuel : Nat) : Evaluator.Belongs L broken (evalUntil stop limits fuel) := by
  induction fuel with
  | zero => exact fun _ _ => trivial
  | succ fuel ih =>
      intro n f h hn hh
      refine .read_bind ?_
      cases hfault : stop n f h with
      | some fault => exact .raise hh (.inl (hstop n f h fault hn hfault))
      | none => exact belongs_node limits fuel ih hn hh

theorem belongs_eval (limits : Limits) (fuel : Nat) :
    Evaluator.Belongs L broken (eval limits fuel) := by
  rw [← evalUntil_none]
  exact belongs_evalUntil (fun _ _ _ _ _ hnone => by cases hnone) limits fuel

end Evaluation

end CapsuleScript
