import CapsuleScript.Proofs.Evaluation.Program
import CapsuleScript.Proofs.Sealing.Operations

/-! Computations on a sealed heap. A computation seals the heap if, however it ends, it has bound
nothing in sealed tables, the heap it leaves is sealed, and so are the objects it gives. This module
has the rules for the ways in which computations are put together, operators and the constructs that
only compute values. -/

namespace CapsuleScript

open Heap

variable {α β : Type} {S T : TableId → Prop} {h k : Heap} {f : FrameId} {statement : Bool}

/-- What the signal carries is settled, and the frame of a loop signal is one in which names may be
bound. -/
def Signal.Settled (S : TableId → Prop) (h : Heap) : Signal → Prop
  | .returned result => result.value.Settled S h
  | .exited _ _ f => h.Free S f
  | .failed _ => True

/-- The attempt gave a result that passes the test, or a signal that is settled. -/
def Attempt.Settled (Q : (TableId → Prop) → α → Heap → Prop) (S : TableId → Prop) :
    Except Signal α → Heap → Prop
  | .ok a, h => Q S a h
  | .error signal, h => signal.Settled S h

/-- However the computation ends on the heap `h`, it leaves a sealed heap, and a result passes the
test. -/
def Run.Seals (S : TableId → Prop) (run : Run α) (h : Heap)
    (Q : (TableId → Prop) → α → Heap → Prop) : Prop :=
  match run h with
  | .done a k => ∃ T, Later S h T k ∧ Q T a k
  | .raised signal k => ∃ T, Later S h T k ∧ signal.Settled T k
  | .outOfFuel => True

namespace Run.Seals

variable {Q : (TableId → Prop) → α → Heap → Prop} {R : (TableId → Prop) → β → Heap → Prop}
  {run : Run α} {next : α → Run β}

theorem pure {a : α} (hS : h.Sealing S) (ha : Q S a h) : Run.Seals S (Pure.pure a) h Q :=
  ⟨S, .refl hS, ha⟩

theorem raise {signal : Signal} (hS : h.Sealing S) (hsignal : signal.Settled S h) :
    Run.Seals S (Run.raise signal : Run α) h Q :=
  ⟨S, .refl hS, hsignal⟩

theorem fail {kind : FaultKind} {span : Span} (hS : h.Sealing S) :
    Run.Seals S (Run.fail kind span f : Run α) h Q :=
  raise hS trivial

theorem exhausted : Run.Seals S (Run.exhausted : Run α) h Q := trivial

/-- What was done before a computation counts for what it leaves. -/
theorem before {run : Run β} (hrun : run.Seals T k R) (hlater : Later S h T k) (first : Run β)
    (heq : first h = run k) : first.Seals S h R := by
  unfold Seals at *
  rw [heq]
  cases hend : run k with
  | done b l =>
      rw [hend] at hrun
      obtain ⟨U, hl, hR⟩ := hrun
      exact ⟨U, hlater.trans hl, hR⟩
  | raised signal l =>
      rw [hend] at hrun
      obtain ⟨U, hl, hsignal⟩ := hrun
      exact ⟨U, hlater.trans hl, hsignal⟩
  | outOfFuel => trivial

theorem bind (hrun : run.Seals S h Q)
    (hnext : ∀ a T k, run h = .done a k → Later S h T k → Q T a k → (next a).Seals T k R) :
    (run >>= next).Seals S h R := by
  unfold Seals at hrun
  cases hend : run h with
  | done a k =>
      rw [hend] at hrun
      obtain ⟨T, hlater, hQ⟩ := hrun
      refine (hnext a T k hend hlater hQ).before hlater _ ?_
      rw [Run.bind_apply, hend]
  | raised signal k =>
      rw [hend] at hrun
      unfold Seals
      rw [Run.bind_apply, hend]
      exact hrun
  | outOfFuel =>
      unfold Seals
      rw [Run.bind_apply, hend]
      trivial

theorem read_bind {g : Heap → α} (hnext : (next (g h)).Seals S h R) :
    (Run.read g >>= next).Seals S h R := hnext

theorem make {g : Heap → α × Heap} (hlater : Later S h T (g h).2) (hQ : Q T (g h).1 (g h).2) :
    (Run.make g).Seals S h Q :=
  ⟨T, hlater, hQ⟩

theorem make_bind {g : Heap → α × Heap} (hlater : Later S h T (g h).2)
    (hnext : (next (g h).1).Seals T (g h).2 R) : (Run.make g >>= next).Seals S h R :=
  hnext.before hlater _ rfl

theorem change_bind {g : Heap → Heap} {next : Unit → Run β} (hlater : Later S h T (g h))
    (hnext : (next ()).Seals T (g h) R) : (Run.change g >>= next).Seals S h R :=
  hnext.before hlater _ rfl

/-- A signal that is taken up is a result. -/
theorem attempt (hrun : run.Seals S h Q) : run.attempt.Seals S h (Attempt.Settled Q) := by
  unfold Seals Run.attempt at *
  cases hend : run h with
  | done a k =>
      rw [hend] at hrun
      exact hrun
  | raised signal k =>
      rw [hend] at hrun
      exact hrun
  | outOfFuel => trivial

theorem of_done {a : α} (hend : run h = .done a k) (hlater : Later S h T k) (ha : Q T a k) :
    run.Seals S h Q := by
  unfold Seals
  rw [hend]
  exact ⟨T, hlater, ha⟩

theorem done_of {a : α} (hrun : run.Seals S h Q) (hend : run h = .done a k) :
    ∃ T, Later S h T k ∧ Q T a k := by
  unfold Seals at hrun
  rwa [hend] at hrun

/-- The heap that the computation leaves is sealed. -/
theorem later_of_heap? (hrun : run.Seals S h Q) (hend : (run h).heap? = some k) :
    ∃ T, Later S h T k := by
  unfold Seals at hrun
  cases hrunh : run h <;> rw [hrunh] at hrun hend <;> cases hend
  · obtain ⟨T, hlater, -⟩ := hrun
    exact ⟨T, hlater⟩
  · obtain ⟨T, hlater, -⟩ := hrun
    exact ⟨T, hlater⟩

end Run.Seals

/-- Where an evaluation in the frame `f` leaves off, if a statement may be what was evaluated. -/
structure Outcome.Settled (statement : Bool) (f : FrameId) (S : TableId → Prop) (out : Outcome)
    (h : Heap) : Prop where
  value : out.result.value.Settled S h
  free : statement = true → h.Free S out.frame
  same : statement = false → out.frame = f

/-- The evaluator seals every sealed heap, in any frame for expressions and blocks and in a free
frame for other statements. -/
def Evaluator.Seals (sub : Evaluator) : Prop :=
  ∀ {S h n f statement}, h.Sealing S → h.HasFrame f → n.Fits statement →
    (statement = true → n.IsBlock ∨ h.Free S f) →
      (sub n f).Seals S h (Outcome.Settled statement f)

theorem Outcome.Settled.give {v : Value} {span : Span} (hv : v.Settled S h)
    (hf : statement = true → h.Free S f) :
    Settled statement f S (Evaluation.give v span f) h :=
  ⟨hv, hf, fun _ => rfl⟩

/-! ### Operators -/

namespace Operation

theorem seals_settle (hS : h.Sealing S) {left right : Stamped} {result : Except FaultKind Value}
    (hresult : ∀ v, result = .ok v → v.Settled S h) :
    (settle left right result).Seals S h fun T v k => v.Settled T k := by
  cases result with
  | ok v => exact .pure hS (hresult v rfl)
  | error kind => exact .raise hS trivial

/-- The table of a merged object is sealed, and binds all its members. -/
theorem later_merge (hS : h.Sealing S) {c d : Capsule} (hc : c.toValue.Settled S h)
    (hd : d.toValue.Settled S h) (entry : Span) : ∃ T, Later S h T (c.merge d entry h).2 ∧
      (c.merge d entry h).1.toValue.Settled T (c.merge d entry h).2 := by
  have hmembers : ∀ e ∈ c.mergedMembers d, e.2.Settled S h := by
    intro e he
    rcases Bindings.mem_of_mem_override he with hmem | hmem
    · exact hc.members e hmem
    · exact hd.members e hmem
  refine Later.object hS _ (Capsule.Lives.step_merge hS.sound hc.live hd.live entry)
    (hS.sound.hasTable hc.live.2.2) rfl (hS.root c.scope) hmembers (by simp) ?_ List.nodup_nil (by simp)
  exact (Value.settled_toValue_iff.mp hc).1.distinct_members.override _

theorem seals_object (hS : h.Sealing S) {op : BinaryOp} {c : Capsule} {left right : Stamped}
    (hc : c.toValue.Settled S h) (hright : right.value.Settled S h) :
    (object op c left right).Seals S h fun T v k => v.Settled T k := by
  unfold object
  split
  · rename_i fields inherited types scope hvalue
    rw [hvalue] at hright
    obtain ⟨T, hlater, hmerged⟩ := later_merge (d := ⟨fields, inherited, types, scope⟩) hS hc hright
      left.span
    exact .make_bind hlater (.pure hlater.sealing hmerged)
  · cases hfield : c.field? _ with
    | none => exact .pure hS ⟨trivial, trivial⟩
    | some v => exact .pure hS (hc.field? hfield)
  · exact .pure hS ⟨trivial, trivial⟩
  · exact .pure hS ⟨trivial, trivial⟩
  · exact seals_settle hS fun v hv => by cases hv

theorem seals_binary (hS : h.Sealing S) {op : BinaryOp} {left right : Stamped}
    (hleft : left.value.Settled S h) (hright : right.value.Settled S h) :
    (binary op left right).Seals S h fun T v k => v.Settled T k := by
  have htyped : (typed op left right).Seals S h fun T v k => v.Settled T k := by
    unfold typed
    split
    · exact seals_settle hS fun v hv => (isPlain_numeric hv).settled
    · exact seals_settle hS fun v hv => (isPlain_numeric hv).settled
    · exact seals_settle hS fun v hv => (isPlain_numeric hv).settled
    · exact seals_settle hS fun v hv => (isPlain_text hv).settled
    · rename_i elements hvalue
      rw [hvalue] at hleft
      refine .read_bind (seals_settle hS fun v hv => ?_)
      exact holds_list (P := fun v => v.Settled S h) Value.settled_list_iff
        (fun _ => ⟨trivial, trivial⟩) ⟨trivial, trivial⟩ (Value.settled_list_iff.mp hleft) hright hv
    · rename_i fields inherited types scope hvalue
      rw [hvalue] at hleft
      exact seals_object (c := ⟨fields, inherited, types, scope⟩) hS hleft hright
    · exact seals_settle hS fun v hv => by cases hv
    · exact seals_settle hS fun v hv => by cases hv
  unfold binary
  split
  · exact .pure hS ⟨trivial, trivial⟩
  · exact .pure hS ⟨trivial, trivial⟩
  · exact htyped

end Operation

namespace Evaluation

variable {sub : Evaluator}

/-! ### Values -/

theorem seals_value (hsub : sub.Seals) (hS : h.Sealing S) (hf : h.HasFrame f) {n : Node}
    (hn : n.Fits statement) (hfree : statement = true → h.Free S f) :
    (value sub n f).Seals S h fun T s k => s.value.Settled T k := by
  refine .bind (hsub hS hf hn fun hst => .inr (hfree hst)) fun out T k _ hk hout => ?_
  refine .pure hk.sealing ?_
  rw [Stamped.anchored_value]
  exact hout.value

/-- The value of an expression, which may be evaluated in any frame. -/
theorem seals_expression (hsub : sub.Seals) (hS : h.Sealing S) (hf : h.HasFrame f) {n : Node}
    (hn : n.IsExpression) : (value sub n f).Seals S h fun T s k => s.value.Settled T k :=
  seals_value hsub hS hf hn fun hst => absurd hst Bool.false_ne_true

theorem seals_values (hsub : sub.Seals) (hS : h.Sealing S) (hf : h.HasFrame f) {nodes : List Node}
    (hn : Node.AllFit false nodes) :
    (values sub f nodes).Seals S h fun T vs k => ∀ v ∈ vs, v.Settled T k := by
  induction nodes generalizing S h with
  | nil => exact .pure hS (by simp)
  | cons n rest ih =>
      refine .bind (seals_expression hsub hS hf hn.1) fun s T k _ hk hs => ?_
      refine .bind (ih hk.sealing (hk.hasFrame hf) hn.2) fun vs U l _ hl hvs => ?_
      exact .pure hl.sealing
        (List.forall_mem_cons.mpr ⟨hs.spares hk.sealing.sound hl.toSpares, hvs⟩)

theorem seals_bindingTarget (hS : h.Sealing S) (hf : h.Free S f) (name label : String)
    (span : Span) : (bindingTarget name label span f).Seals S h fun T g k => k.Free T g ∧
      (k.table (k.frame g).table).bindings.get? name = none := by
  refine .read_bind ?_
  split
  · obtain ⟨hk, hfree⟩ := Later.enter hS label hf.1 span
    refine .make hk ⟨hfree, ?_⟩
    rw [bindings_enter]
    rfl
  · rename_i hbinds
    exact .pure hS ⟨hf, by simpa [bindsDirectly, Bindings.has] using hbinds⟩

/-! ### Expressions -/

theorem seals_list (hsub : sub.Seals) (hS : h.Sealing S) (hf : h.HasFrame f) {span : Span}
    {elements : List Node} (hn : Node.AllFit false elements)
    (hfree : statement = true → h.Free S f) :
    (list sub span elements f).Seals S h (Outcome.Settled statement f) := by
  refine .bind (seals_values hsub hS hf hn) fun vs T k _ hk hvs => ?_
  exact .pure hk.sealing (.give (Value.settled_list_iff.mpr hvs)
    fun hst => hk.free hS.sound (hfree hst))

theorem seals_ident (hS : h.Sealing S) {span : Span} {name : String}
    (hfree : statement = true → h.Free S f) :
    (ident span name f).Seals S h (Outcome.Settled statement f) := by
  refine .read_bind ?_
  split
  · rename_i v hlook
    exact .pure hS (.give (hS.settled_lookup hlook) hfree)
  · exact .fail hS

/-- The result of an operator on settled operands, as the outcome of an expression. -/
theorem seals_operation (hS : h.Sealing S) {op : BinaryOp} {left right : Stamped} {span : Span}
    (hleft : left.value.Settled S h) (hright : right.value.Settled S h)
    (hfree : statement = true → h.Free S f) :
    (Operation.binary op left right >>= fun v => pure (give v span f)).Seals S h
      (Outcome.Settled statement f) := by
  refine .bind (Operation.seals_binary hS hleft hright) fun v T k _ hk hv => ?_
  exact .pure hk.sealing (.give hv fun hst => hk.free hS.sound (hfree hst))

theorem seals_binary (hsub : sub.Seals) (hS : h.Sealing S) (hf : h.HasFrame f) {span : Span}
    {op : BinaryOp} {left right : Node} (hl : left.IsExpression) (hr : right.IsExpression)
    (hfree : statement = true → h.Free S f) :
    (binary sub span op left right f).Seals S h (Outcome.Settled statement f) := by
  refine .bind (seals_expression hsub hS hf hl) fun lv T k _ hk hlv => ?_
  split
  · split
    · rename_i fields inherited types scope hvalue
      rw [hvalue] at hlv
      refine .bind (seals_expression hsub hk.sealing hlv.live.2.2 hr) fun rv U l _ hl hrv => ?_
      exact .pure hl.sealing (.give hrv fun hst => (hk.trans hl).free hS.sound (hfree hst))
    · exact .raise hk.sealing trivial
  · refine .bind (seals_expression hsub hk.sealing (hk.hasFrame hf) hr) fun rv U l _ hl hrv => ?_
    exact seals_operation hl.sealing (hlv.spares hk.sealing.sound hl.toSpares) hrv
      fun hst => (hk.trans hl).free hS.sound (hfree hst)

theorem seals_unary (hsub : sub.Seals) (hS : h.Sealing S) (hf : h.HasFrame f) {span : Span}
    {op : UnaryOp} {operand : Node} (hn : operand.IsExpression)
    (hfree : statement = true → h.Free S f) :
    (unary sub span op operand f).Seals S h (Outcome.Settled statement f) := by
  refine .bind (seals_expression hsub hS hf hn) fun v T k _ hk hv => ?_
  have hfree' : statement = true → k.Free T f := fun hst => hk.free hS.sound (hfree hst)
  cases op with
  | plus => exact seals_operation hk.sealing hv ⟨trivial, trivial⟩ hfree'
  | negate => exact seals_operation hk.sealing hv ⟨trivial, trivial⟩ hfree'
  | not => exact .pure hk.sealing (.give ⟨trivial, trivial⟩ hfree')

theorem seals_conditional (hsub : sub.Seals) (hS : h.Sealing S) (hf : h.HasFrame f) {span : Span}
    {producesValue : Bool} {condition thenBranch : Node} {elseBranch : Option Node}
    (hn : (Node.conditional span producesValue condition thenBranch elseBranch).Fits statement)
    (hfree : statement = true → h.Free S f) :
    (conditional sub span producesValue condition thenBranch elseBranch f).Seals S h
      (Outcome.Settled statement f) := by
  obtain ⟨hplace, hcondition, hthen, helse⟩ := hn
  refine .bind (seals_expression hsub hS hf hcondition) fun c T k _ hk _ => ?_
  have hfree' : statement = true → k.Free T f := fun hst => hk.free hS.sound (hfree hst)
  split
  · exact .pure hk.sealing (.give ⟨trivial, trivial⟩ hfree')
  · rename_i branch hchosen
    have hfits : branch.Fits (!producesValue) := by
      split at hchosen
      · cases hchosen
        exact hthen
      · subst hchosen
        exact helse
    cases producesValue with
    | true =>
        refine .bind (hsub hk.sealing (hk.hasFrame hf) hfits fun hst =>
          absurd hst Bool.false_ne_true) fun out U l _ hl hout => ?_
        refine .pure hl.sealing ⟨hout.value, fun hst => ?_, fun _ => hout.same rfl⟩
        rw [hout.same rfl]
        exact hl.free hk.sealing.sound (hfree' hst)
    | false =>
        have hst := hplace rfl
        refine .bind (hsub hk.sealing (hk.hasFrame hf) hfits fun _ => .inr (hfree' hst))
          fun out U l _ hl hout => ?_
        exact .pure hl.sealing ⟨⟨trivial, trivial⟩, fun _ => hout.free rfl,
          fun hno => absurd (hno.symm.trans hst) Bool.false_ne_true⟩

theorem seals_prev (hsub : sub.Seals) (hS : h.Sealing S) (hf : h.HasFrame f) {span : Span}
    {expression : Node} (hn : expression.IsExpression) (hfree : statement = true → h.Free S f) :
    (prev sub span expression f).Seals S h (Outcome.Settled statement f) := by
  refine .read_bind ?_
  split
  · rename_i p hp
    refine .bind (seals_expression hsub hS (hS.sound.hasFrame_parent hf hp) hn)
      fun v T k _ hk hv => ?_
    exact .pure hk.sealing (.give hv fun hst => hk.free hS.sound (hfree hst))
  · exact .fail hS

end Evaluation

end CapsuleScript
