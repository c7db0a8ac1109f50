import CapsuleScript.Proofs.Evaluation.Objects
import CapsuleScript.Proofs.Heap.Shielding

/-! Every construct shields the tables before a given one if the evaluator of its parts does. An
expression may be evaluated in any frame, which stays the current one and stamps the value; a
statement is evaluated in a frame that may be written to, and so is every frame that it leaves or
that a loop signal carries. The heap need not be sound: its links may lead anywhere. -/

namespace CapsuleScript

open Heap

variable {α β : Type} {fresh : Nat} {h k : Heap} {f : FrameId} {statement : Bool}

/-! ### Computations -/

/-- Names may be bound in the frame of a loop signal. -/
def Signal.Shields (fresh : Nat) (h : Heap) : Signal → Prop
  | .returned _ => True
  | .exited _ _ f => h.Writable fresh f
  | .failed _ => True

/-- The attempt gave a result that passes the test, or a signal after which names may be bound. -/
def Attempt.Shields (fresh : Nat) (Q : α → Heap → Prop) : Except Signal α → Heap → Prop
  | .ok a, h => Q a h
  | .error signal, h => signal.Shields fresh h

/-- However the computation ends on the heap `h`, it has shielded the tables before `fresh`, and a
result passes the test. -/
def Run.Shields (fresh : Nat) (run : Run α) (h : Heap) (Q : α → Heap → Prop) : Prop :=
  match run h with
  | .done a k => Heap.Shields fresh h k ∧ Q a k
  | .raised signal k => Heap.Shields fresh h k ∧ signal.Shields fresh k
  | .outOfFuel => True

namespace Run.Shields

variable {Q : α → Heap → Prop} {R : β → Heap → Prop} {run : Run α} {next : α → Run β}

theorem pure (hh : h.Guarded fresh) {a : α} (ha : Q a h) : Run.Shields fresh (Pure.pure a) h Q :=
  ⟨.refl hh, ha⟩

theorem raise (hh : h.Guarded fresh) {signal : Signal} (hsignal : signal.Shields fresh h) :
    (Run.raise signal : Run α).Shields fresh h Q :=
  ⟨.refl hh, hsignal⟩

theorem fail (hh : h.Guarded fresh) {kind : FaultKind} {span : Span} :
    (Run.fail kind span f : Run α).Shields fresh h Q :=
  ⟨.refl hh, trivial⟩

theorem exhausted : (Run.exhausted : Run α).Shields fresh h Q := trivial

/-- What follows on a heap that comes from `h` by changes that shield the tables. -/
theorem after (hs : Heap.Shields fresh h k) {run' : Run α} (heq : run' h = run k)
    (hrun : run.Shields fresh k Q) : run'.Shields fresh h Q := by
  unfold Run.Shields at *
  rw [heq]
  cases hend : run k with
  | done a l =>
      rw [hend] at hrun
      exact ⟨hs.trans hrun.1, hrun.2⟩
  | raised signal l =>
      rw [hend] at hrun
      exact ⟨hs.trans hrun.1, hrun.2⟩
  | outOfFuel => trivial

theorem bind (hh : h.Guarded fresh) (hrun : run.Shields fresh h Q)
    (hnext : ∀ a k, k.Guarded fresh → Heap.Shields fresh h k → Q a k → (next a).Shields fresh k R) :
    (run >>= next).Shields fresh h R := by
  unfold Run.Shields at hrun
  cases hend : run h with
  | done a k =>
      rw [hend] at hrun
      refine after hrun.1 ?_ (hnext a k (hrun.1.guarded hh) hrun.1 hrun.2)
      rw [Run.bind_apply, hend]
  | raised signal k =>
      rw [hend] at hrun
      unfold Run.Shields
      rw [Run.bind_apply, hend]
      exact hrun
  | outOfFuel =>
      unfold Run.Shields
      rw [Run.bind_apply, hend]
      trivial

theorem read_bind {g : Heap → α} (hnext : (next (g h)).Shields fresh h R) :
    (Run.read g >>= next).Shields fresh h R := hnext

theorem make_bind {g : Heap → α × Heap} (hs : Heap.Shields fresh h (g h).2)
    (hnext : (next (g h).1).Shields fresh (g h).2 R) : (Run.make g >>= next).Shields fresh h R :=
  after hs rfl hnext

theorem change_bind {g : Heap → Heap} {next : Unit → Run β} (hs : Heap.Shields fresh h (g h))
    (hnext : (next ()).Shields fresh (g h) R) : (Run.change g >>= next).Shields fresh h R :=
  after hs rfl hnext

/-- A signal that is taken up is a result. -/
theorem attempt (hrun : run.Shields fresh h Q) :
    run.attempt.Shields fresh h (Attempt.Shields fresh Q) := by
  unfold Run.Shields Run.attempt at *
  cases hend : run h with
  | done a k =>
      rw [hend] at hrun
      exact hrun
  | raised signal k =>
      rw [hend] at hrun
      exact hrun
  | outOfFuel => trivial

/-- However the computation ends, the tables before `fresh` are shielded. -/
theorem of_heap? (hrun : run.Shields fresh h Q) (hend : (run h).heap? = some k) :
    Heap.Shields fresh h k := by
  unfold Run.Shields at hrun
  cases hrunh : run h with
  | done a l =>
      rw [hrunh] at hrun hend
      cases hend
      exact hrun.1
  | raised signal l =>
      rw [hrunh] at hrun hend
      cases hend
      exact hrun.1
  | outOfFuel =>
      rw [hrunh] at hend
      cases hend

theorem of_done (hrun : run.Shields fresh h Q) {a : α} (hend : run h = .done a k) : Q a k := by
  unfold Run.Shields at hrun
  rw [hend] at hrun
  exact hrun.2

end Run.Shields

/-- Where an evaluation in the frame `f` leaves off, if a statement may be what was evaluated. -/
structure Outcome.Stays (fresh : Nat) (statement : Bool) (f : FrameId) (out : Outcome) (k : Heap) :
    Prop where
  writable : statement = true → k.Writable fresh out.frame
  frame : statement = false → out.frame = f
  owner : statement = false → out.result.owner = some f

/-- The evaluator shields the tables before `fresh`, in any frame for expressions and blocks and in
a frame that may be written to for other statements. -/
def Evaluator.Shields (sub : Evaluator) : Prop :=
  ∀ {fresh h n f statement}, h.Guarded fresh → n.Fits statement →
    (statement = true → n.IsBlock ∨ h.Writable fresh f) →
      (sub n f).Shields fresh h (Outcome.Stays fresh statement f)

theorem Outcome.Stays.give {v : Value} {span : Span} (hw : statement = true → k.Writable fresh f) :
    Stays fresh statement f (Evaluation.give v span f) k :=
  ⟨hw, fun _ => rfl, fun _ => rfl⟩

/-- A statement goes on in a frame that may be written to. -/
theorem Outcome.Stays.of_writable {out : Outcome} (hw : k.Writable fresh out.frame) :
    Stays fresh true f out k :=
  ⟨fun _ => hw, fun hst => absurd hst.symm Bool.false_ne_true,
    fun hst => absurd hst.symm Bool.false_ne_true⟩

theorem Operation.shields_settle (hh : h.Guarded fresh) {left right : Stamped}
    {result : Except FaultKind Value} :
    (settle left right result).Shields fresh h fun _ _ => True := by
  cases result with
  | ok v => exact .pure hh trivial
  | error kind => exact .raise hh trivial

theorem Operation.shields_binary (hh : h.Guarded fresh) {op : BinaryOp} {left right : Stamped} :
    (binary op left right).Shields fresh h fun _ _ => True := by
  have hobject : ∀ c, (object op c left right).Shields fresh h fun _ _ => True := by
    intro c
    unfold object
    split
    · have hopened := fun p bs frame => Heap.Shields.opened hh p bs frame
      exact .make_bind (hopened _ _ _) (.pure ((hopened _ _ _).guarded hh) trivial)
    · exact .pure hh trivial
    · exact .pure hh trivial
    · exact .pure hh trivial
    · exact shields_settle hh
  have htyped : (typed op left right).Shields fresh h fun _ _ => True := by
    unfold typed
    split
    · exact shields_settle hh
    · exact shields_settle hh
    · exact shields_settle hh
    · exact shields_settle hh
    · exact .read_bind (shields_settle hh)
    · exact hobject _
    · exact shields_settle hh
    · exact shields_settle hh
  unfold binary
  split
  · exact .pure hh trivial
  · exact .pure hh trivial
  · exact htyped

namespace Evaluation

variable {sub : Evaluator} {span : Span}

/-! ### Values -/

theorem shields_value (hsub : sub.Shields) (hh : h.Guarded fresh) {n : Node} (hn : n.Fits statement)
    (hw : statement = true → h.Writable fresh f) :
    (value sub n f).Shields fresh h fun _ _ => True :=
  .bind hh (hsub hh hn fun hst => .inr (hw hst)) fun _ _ hk _ _ => .pure hk trivial

/-- The value of an expression, which may be evaluated in any frame. -/
theorem shields_expression (hsub : sub.Shields) (hh : h.Guarded fresh) {n : Node}
    (hn : n.IsExpression) : (value sub n f).Shields fresh h fun _ _ => True :=
  shields_value hsub hh hn fun hst => absurd hst Bool.false_ne_true

theorem shields_values (hsub : sub.Shields) (hh : h.Guarded fresh) {nodes : List Node}
    (hn : Node.AllFit false nodes) : (values sub f nodes).Shields fresh h fun _ _ => True := by
  induction nodes generalizing h with
  | nil => exact .pure hh trivial
  | cons n rest ih =>
      refine .bind hh (shields_expression hsub hh hn.1) fun _ k hk _ _ => ?_
      exact .bind hk (ih hk hn.2) fun _ _ hl _ _ => .pure hl trivial

theorem shields_operation (hh : h.Guarded fresh) {op : BinaryOp} {left right : Stamped}
    (hw : statement = true → h.Writable fresh f) :
    (Operation.binary op left right >>= fun v => pure (give v span f)).Shields fresh h
      (Outcome.Stays fresh statement f) :=
  .bind hh (Operation.shields_binary hh) fun _ _ hk hs _ =>
    .pure hk (.give fun hst => hs.writable (hw hst))

/-! ### Expressions -/

theorem shields_list (hsub : sub.Shields) (hh : h.Guarded fresh) {elements : List Node}
    (hn : Node.AllFit false elements) (hw : statement = true → h.Writable fresh f) :
    (list sub span elements f).Shields fresh h (Outcome.Stays fresh statement f) :=
  .bind hh (shields_values hsub hh hn) fun _ _ hk hs _ =>
    .pure hk (.give fun hst => hs.writable (hw hst))

theorem shields_ident (hh : h.Guarded fresh) {name : String}
    (hw : statement = true → h.Writable fresh f) :
    (ident span name f).Shields fresh h (Outcome.Stays fresh statement f) := by
  refine .read_bind ?_
  split
  · exact .pure hh (.give hw)
  · exact .fail hh

theorem shields_binary (hsub : sub.Shields) (hh : h.Guarded fresh) {op : BinaryOp}
    {left right : Node} (hl : left.IsExpression) (hr : right.IsExpression)
    (hw : statement = true → h.Writable fresh f) :
    (binary sub span op left right f).Shields fresh h (Outcome.Stays fresh statement f) := by
  refine .bind hh (shields_expression hsub hh hl) fun v k hk hs _ => ?_
  split
  · split
    · -- Nothing is bound in the scope of the object either.
      refine .bind hk (shields_expression hsub hk hr) fun _ l hl hs' _ => ?_
      exact .pure hl (.give fun hst => hs'.writable (hs.writable (hw hst)))
    · exact .raise hk trivial
  · refine .bind hk (shields_expression hsub hk hr) fun _ l hl hs' _ => ?_
    exact shields_operation hl fun hst => hs'.writable (hs.writable (hw hst))

theorem shields_unary (hsub : sub.Shields) (hh : h.Guarded fresh) {op : UnaryOp} {operand : Node}
    (hn : operand.IsExpression) (hw : statement = true → h.Writable fresh f) :
    (unary sub span op operand f).Shields fresh h (Outcome.Stays fresh statement f) := by
  refine .bind hh (shields_expression hsub hh hn) fun v k hk hs _ => ?_
  have hw' : statement = true → k.Writable fresh f := fun hst => hs.writable (hw hst)
  cases op with
  | plus => exact shields_operation hk hw'
  | negate => exact shields_operation hk hw'
  | not => exact .pure hk (.give hw')

theorem shields_conditional (hsub : sub.Shields) (hh : h.Guarded fresh) {producesValue : Bool}
    {condition thenBranch : Node} {elseBranch : Option Node}
    (hn : (Node.conditional span producesValue condition thenBranch elseBranch).Fits statement)
    (hw : statement = true → h.Writable fresh f) :
    (conditional sub span producesValue condition thenBranch elseBranch f).Shields fresh h
      (Outcome.Stays fresh statement f) := by
  obtain ⟨hplace, hcondition, hthen, helse⟩ := hn
  refine .bind hh (shields_expression hsub hh hcondition) fun v k hk hs _ => ?_
  have hw' : statement = true → k.Writable fresh f := fun hst => hs.writable (hw hst)
  split
  · exact .pure hk (.give hw')
  · rename_i branch hchosen
    have hfits : branch.Fits (!producesValue) := by
      split at hchosen
      · cases hchosen
        exact hthen
      · rw [hchosen] at helse
        exact helse
    cases producesValue with
    | true =>
        refine .bind hk (hsub hk hfits fun hst => absurd hst Bool.false_ne_true)
          fun out l hl hs' hout => ?_
        -- The branch is an expression, so its frame is the current one.
        refine .pure hl ⟨fun hst => ?_, fun _ => hout.frame rfl, fun _ => hout.owner rfl⟩
        rw [hout.frame rfl]
        exact hs'.writable (hw' hst)
    | false =>
        obtain rfl := hplace rfl
        refine .bind hk (hsub hk hfits fun _ => .inr (hw' rfl)) fun out l hl _ hout => ?_
        exact .pure hl (.of_writable (hout.writable rfl))

theorem shields_prev (hsub : sub.Shields) (hh : h.Guarded fresh) {expression : Node}
    (hn : expression.IsExpression) (hw : statement = true → h.Writable fresh f) :
    (prev sub span expression f).Shields fresh h (Outcome.Stays fresh statement f) := by
  refine .read_bind ?_
  split
  · refine .bind hh (shields_expression hsub hh hn) fun _ k hk hs _ => ?_
    exact .pure hk (.give fun hst => hs.writable (hw hst))
  · exact .fail hh

/-! ### Names -/

theorem shields_bindingTarget (hh : h.Guarded fresh) (hw : h.Writable fresh f)
    (name label : String) :
    (bindingTarget name label span f).Shields fresh h fun g k => k.Writable fresh g := by
  refine .read_bind ?_
  split
  · exact ⟨.enter hh label f span, writable_enter hh.le label f span⟩
  · exact .pure hh hw

/-- A value is kept in a frame that may be written to. -/
theorem shields_keep (hh : h.Guarded fresh) {target : FrameId} (hw : h.Writable fresh target)
    {name : String} {v : Value} {out : Value → Outcome} (hframe : ∀ b, (out b).frame = target) :
    (do
      let bound ← Run.make (Heap.rehome target v)
      Run.change (·.define target name bound)
      return out bound : Run Outcome).Shields fresh h (Outcome.Stays fresh true f) := by
  have hrehome := Heap.Shields.rehome hh target v
  have hk := hrehome.guarded hh
  have hdefine := Heap.Shields.define hk (hrehome.writable hw) name (Heap.rehome target v h).1
  refine .make_bind hrehome (.change_bind hdefine (.pure (hdefine.guarded hk) (.of_writable ?_)))
  rw [hframe]
  exact hdefine.writable (hrehome.writable hw)

/-! ### Functions -/

theorem shields_function (hh : h.Guarded fresh) {name : Option String} {params : List String}
    {autoReturn : Bool} {body : Node}
    (hn : (Node.function span name params autoReturn body).Fits statement)
    (hw : statement = true → h.Writable fresh f) :
    (function span name params autoReturn body f).Shields fresh h
      (Outcome.Stays fresh statement f) := by
  obtain ⟨hplace, hbody⟩ := hn
  have hadd : Heap.Shields fresh h
      (h.addFunction ⟨name.getD "anonymous", params, body, f, autoReturn, true⟩) :=
    .addFunction hh hbody
  have hk := hadd.guarded hh
  refine .make_bind hadd ?_
  rw [newFunction_eq]
  cases name with
  | none => exact .pure hk (.give fun hst => hadd.writable (hw hst))
  | some name =>
      obtain rfl := hplace rfl
      have hw' := hadd.writable (hw rfl)
      refine .read_bind ?_
      split
      · rename_i placeholder _
        have hinit := Heap.Shields.initializeFrom hk placeholder ⟨h.functions.size⟩
        have hl := hinit.guarded hk
        refine .change_bind hinit (.bind (Q := fun g l => l.Writable fresh g) hl
          (.pure hl (hinit.writable hw')) fun target m hm _ hwt => ?_)
        exact shields_keep hm hwt fun _ => rfl
      · refine .bind hk (shields_bindingTarget hk hw' _ _) fun target l hl _ hwt => ?_
        exact shields_keep hl hwt fun _ => rfl

theorem shields_declaration (hh : h.Guarded fresh) {name : String} {placeholder : Node}
    (hn : placeholder.IsStatement) (hw : h.Writable fresh f) :
    (declaration span name placeholder f).Shields fresh h (Outcome.Stays fresh true f) := by
  refine .bind hh (shields_bindingTarget hh hw _ _) fun target k hk _ hwt => ?_
  have hadd : Heap.Shields fresh k (k.newPlaceholder name placeholder target).2 :=
    .addFunction hk hn
  have hdefine := Heap.Shields.define (hadd.guarded hk) (hadd.writable hwt) name
    (.function (k.newPlaceholder name placeholder target).1)
  refine .make_bind hadd (.change_bind hdefine (.pure (hdefine.guarded (hadd.guarded hk)) ?_))
  exact .of_writable (hdefine.writable (hadd.writable hwt))

theorem shields_apply (hsub : sub.Shields) (hh : h.Guarded fresh) {callee : Function}
    {arguments : List Value} (hbody : callee.body.IsStatement)
    (hw : statement = true → h.Writable fresh f) :
    (apply sub span callee arguments f).Shields fresh h (Outcome.Stays fresh statement f) := by
  unfold apply
  split
  · exact .fail hh
  split
  · exact .fail hh
  have hframe := Heap.Shields.callFrame hh callee arguments span
  have hk := hframe.guarded hh
  have hwf := writable_callFrame hh.le callee arguments span
  refine .make_bind hframe (.bind hk (hsub hk hbody fun _ => .inr hwf).attempt ?_)
  intro ending l hl hs hending
  have hw' : statement = true → l.Writable fresh f := fun hst =>
    hs.writable (hframe.writable (hw hst))
  split
  · exact .pure hl (.give hw')
  · exact .pure hl (.give hw')
  · exact .raise hl hending

theorem shields_call (hsub : sub.Shields) (hh : h.Guarded fresh) {callee : Node}
    {arguments : List Node} (hcallee : callee.IsExpression)
    (harguments : Node.AllFit false arguments) (hw : statement = true → h.Writable fresh f) :
    (call sub span callee arguments f).Shields fresh h (Outcome.Stays fresh statement f) := by
  refine .bind hh (shields_expression hsub hh hcallee) fun v k hk hs _ => ?_
  refine .bind hk (shields_values hsub hk harguments) fun vs l hl hs' _ => ?_
  split
  · refine .read_bind (shields_apply hsub hl (hl.bodies _) fun hst => ?_)
    exact hs'.writable (hs.writable (hw hst))
  · exact .fail hl

/-! ### Loops -/

/-- A turn in a frame that may be written to leaves such a frame, also when it is cut short. -/
theorem shields_turn (hsub : sub.Shields) (hh : h.Guarded fresh) (hw : h.Writable fresh f)
    {body : Node} (hbody : body.Fits statement) :
    (turn sub body f).Shields fresh h fun done k => k.Writable fresh done.frame := by
  refine .bind hh (hsub hh hbody fun _ => .inr hw).attempt fun ending k hk hs hending => ?_
  have hw' := hs.writable hw
  split
  · rename_i outcome
    refine .pure hk ?_
    cases hst : statement with
    | true => exact hending.writable hst
    | false =>
        show k.Writable fresh outcome.frame
        rw [hending.frame hst]
        exact hw'
  · rename_i raised
    refine .read_bind (.pure hk ?_)
    show k.Writable fresh (k.resume f raised)
    unfold resume
    split
    · exact hending
    · exact hw'
  · exact .raise hk hending

theorem shields_whileTurns (hsub : sub.Shields) (hh : h.Guarded fresh) {condition body : Node}
    (hcondition : condition.IsExpression) (hbody : body.IsStatement) {bound : Nat}
    {outcome : Outcome} (hw : h.Writable fresh outcome.frame) :
    (whileTurns sub condition body bound outcome).Shields fresh h (Outcome.Stays fresh true f) := by
  induction bound generalizing h outcome with
  | zero => exact .exhausted
  | succ bound ih =>
      refine .bind hh (shields_expression hsub hh hcondition) fun v k hk hs _ => ?_
      split
      · refine .bind hk (shields_turn hsub hk (hs.writable hw) hbody) fun done l hl _ hdone => ?_
        split
        · exact ih hl hdone
        · exact .pure hl (.of_writable hdone)
      · exact .pure hk (.of_writable (hs.writable hw))

theorem shields_admitted (hsub : sub.Shields) (hh : h.Guarded fresh) {filter : Option Node}
    (hfilter : Node.OptionFits false filter) :
    (admitted sub filter f).Shields fresh h fun _ _ => True := by
  cases filter with
  | none => exact .pure hh trivial
  | some filter =>
      refine .bind hh (shields_expression hsub hh hfilter) ?_
      exact fun _ _ hk _ _ => .pure hk trivial

/-- The turns of a loop over a list may start in any frame: each opens one of its own. -/
theorem shields_forTurns (hsub : sub.Shields) (hh : h.Guarded fresh) {name : String} {body : Node}
    {filter : Option Node} (hbody : body.Fits statement) (hfilter : Node.OptionFits false filter)
    {elements : List Value} {progress : Progress}
    (hprogress : progress.frame = f ∨ h.Writable fresh progress.frame) :
    (forTurns sub span name body filter elements progress).Shields fresh h
      fun progress k => progress.frame = f ∨ k.Writable fresh progress.frame := by
  induction elements generalizing h progress with
  | nil => exact .pure hh hprogress
  | cons element rest ih =>
      have henter := Heap.Shields.enter hh "<for>" progress.frame span
      have hw := writable_enter hh.le "<for>" progress.frame span
      have hdefine := Heap.Shields.define (henter.guarded hh) hw name element
      have hk := hdefine.guarded (henter.guarded hh)
      have hw' := hdefine.writable hw
      refine .make_bind henter (.change_bind hdefine ?_)
      refine .bind hk (shields_admitted hsub hk hfilter) fun passed l hl hs _ => ?_
      split
      · refine .bind hl (shields_turn hsub hl (hs.writable hw') hbody) fun done m hm _ hdone => ?_
        split <;> split
        · exact ih hm (.inr hdone)
        · exact .pure hm (.inr hdone)
        · exact ih hm (.inr hdone)
        · exact .pure hm (.inr hdone)
      · exact ih hl (.inr (hs.writable hw'))

theorem shields_forLoop (hsub : sub.Shields) (hh : h.Guarded fresh) {name : String}
    {comprehension : Bool} {source body : Node} {filter : Option Node}
    (hn : (Node.forLoop span name comprehension source body filter).Fits statement)
    (hw : statement = true → h.Writable fresh f) :
    (forLoop sub span name comprehension source body filter f).Shields fresh h
      (Outcome.Stays fresh statement f) := by
  obtain ⟨hplace, hsource, hbody, hfilter⟩ := hn
  refine .bind hh (shields_expression hsub hh hsource) fun v k hk hs _ => ?_
  split
  · refine .bind hk (shields_forTurns hsub hk hbody hfilter (.inl rfl))
      fun progress l hl hs' hprogress => ?_
    have hw' : statement = true → l.Writable fresh f := fun hst =>
      hs'.writable (hs.writable (hw hst))
    split
    · exact .pure hl (.give hw')
    · rename_i hnot
      obtain rfl := hplace (by simpa using hnot)
      refine .pure hl (.of_writable ?_)
      show l.Writable fresh progress.frame
      rcases hprogress with heq | hwritable
      · rw [heq]
        exact hw' rfl
      · exact hwritable
  · exact .read_bind (.fail hk)

/-! ### Statements -/

theorem shields_bindKept (hh : h.Guarded fresh) (hw : h.Writable fresh f) {name : String}
    {kept : Value} : (bindKept span name f kept).Shields fresh h (Outcome.Stays fresh true f) := by
  unfold bindKept
  split
  · have henter := Heap.Shields.enter hh name f span
    exact .make_bind henter (shields_keep (henter.guarded hh) (writable_enter hh.le name f span)
      fun _ => rfl)
  · refine .bind hh (shields_bindingTarget hh hw name name) fun target k hk _ hwt => ?_
    exact shields_keep hk hwt fun _ => rfl

theorem shields_assign (hsub : sub.Shields) (hh : h.Guarded fresh) (hw : h.Writable fresh f)
    {name : String} {topLevel : Bool} {node : Node} (hn : node.IsStatement) :
    (assign sub span name topLevel node f).Shields fresh h (Outcome.Stays fresh true f) := by
  rw [assign_eq_bindKept]
  refine .bind hh (shields_value hsub hh hn fun _ => hw) fun v k hk hs _ => .read_bind ?_
  have hw' := hs.writable hw
  split
  · rename_i placeholder g _ _
    have hinit := Heap.Shields.initializeFrom hk placeholder g
    exact .change_bind hinit (shields_bindKept (hinit.guarded hk) (hinit.writable hw'))
  · refine .read_bind ?_
    split
    · exact .fail hk
    · exact shields_bindKept hk hw'

theorem shields_statements (hsub : sub.Shields) (hh : h.Guarded fresh) {body : List Node}
    (hbody : Node.AllFit true body) {outcome : Outcome} (hw : h.Writable fresh outcome.frame) :
    (statements sub body outcome).Shields fresh h (Outcome.Stays fresh true f) := by
  induction body generalizing h outcome with
  | nil => exact .pure hh (.of_writable hw)
  | cons statement rest ih =>
      refine .bind hh (hsub hh hbody.1 fun _ => .inr hw) fun next k hk hs hnext => ?_
      split
      · exact ih hk hbody.2 (hs.writable hw)
      · exact ih hk hbody.2 (hnext.writable rfl)

theorem shields_block (hsub : sub.Shields) (hh : h.Guarded fresh) {body : List Node}
    (hbody : Node.AllFit true body) :
    (block sub span body f).Shields fresh h (Outcome.Stays fresh true f) := by
  have henter := Heap.Shields.enter hh "<block>" f span
  refine .make_bind henter (shields_statements hsub (henter.guarded hh) hbody ?_)
  exact writable_enter hh.le "<block>" f span

theorem shields_result (hsub : sub.Shields) (hh : h.Guarded fresh) {node : Option Node}
    (hn : Node.OptionFits false node) :
    (result sub span node f).Shields fresh h (Outcome.Stays fresh statement f) := by
  cases node with
  | none => exact .raise hh trivial
  | some node =>
      exact .bind hh (shields_expression hsub hh hn) fun _ _ hk _ _ => .raise hk trivial

/-! ### Objects -/

theorem shields_base (hh : h.Guarded fresh) {parent : Option Capsule} :
    (base span parent f).Shields fresh h fun _ _ => True := by
  cases parent with
  | none => exact .pure hh trivial
  | some c =>
      have hsplice := Heap.Shields.splice hh (h.frame c.scope).table (h.frame f).table
      have hk := hsplice.guarded hh
      refine .read_bind (.make_bind hsplice ?_)
      split
      · have hadd := fun frame => Heap.Shields.addFrame hk frame
        exact .make_bind (hadd _) (.pure ((hadd _).guarded hk) trivial)
      · exact .fail hk

/-- The body of an object literal is a block, so it may run on top of any frame. -/
theorem shields_built (hsub : sub.Shields) (hh : h.Guarded fresh) {body : Node}
    {parentNode : Option Node} (hblock : body.IsBlock) (hbody : body.IsStatement)
    (hparent : Node.OptionFits false parentNode) :
    (built sub span body parentNode f).Shields fresh h fun _ _ => True := by
  refine .bind (Q := fun _ _ => True) hh ?_ fun parent k hk _ _ => ?_
  · cases parentNode with
    | none => exact .pure hh trivial
    | some node =>
        refine .bind (Q := fun _ _ => True) hh (.bind hh (shields_expression hsub hh hparent)
          fun v k hk _ _ => ?_) fun _ _ hk _ _ => .pure hk trivial
        split
        · exact .pure hk trivial
        · exact .fail hk
  · refine .bind hk (shields_base hk) fun made l hl _ _ => .read_bind ?_
    exact .bind hl (hsub hl hbody fun _ => .inl hblock) fun _ _ hm _ _ => .pure hm trivial

theorem shields_cutFrames (hh : h.Guarded fresh) {around : TableId} {limit : Nat}
    {frames : List FrameId} :
    (cutFrames span around limit frames).Shields fresh h fun _ _ => True := by
  induction frames generalizing h limit with
  | nil => cases limit <;> exact .pure hh trivial
  | cons frame rest ih =>
      cases limit with
      | zero => exact .fail hh
      | succ limit =>
          have hcut := Heap.Shields.cut hh around (h.frame frame).table
          exact .change_bind hcut (ih (hcut.guarded hh))

theorem shields_sealed (hh : h.Guarded fresh) {limit : Nat} {typeName : Option String}
    {strict : Bool} {b : Built} (hw : statement = true → h.Writable fresh f) :
    (sealed limit span typeName strict f b).Shields fresh h (Outcome.Stays fresh statement f) := by
  have hscope : ∀ {k : Heap} (fields : Bindings Value), k.Guarded fresh → Heap.Shields fresh h k →
      (do
        let scope ← Run.make (objectScope span typeName strict b.last fields)
        return give (.encap fields (b.parent.elim [] Capsule.members)
          (b.parent.elim [] Capsule.types ++ typeName.toList) scope) span f : Run Outcome).Shields
            fresh k (Outcome.Stays fresh statement f) := by
    intro k fields hk hs
    have hmade := Heap.Shields.objectScope hk span typeName strict b.last fields
    exact .make_bind hmade (.pure (hmade.guarded hk)
      (.give fun hst => hmade.writable (hs.writable (hw hst))))
  refine .read_bind ?_
  split
  · refine .bind hh (shields_cutFrames hh) fun _ k hk hs _ => .read_bind ?_
    cases b.point with
    | none => exact hscope _ hk hs
    | some t =>
        have hcut := Heap.Shields.cut hk b.around t
        exact .change_bind hcut (hscope _ (hcut.guarded hk) (hs.trans hcut))
  · exact .read_bind (hscope _ hh (.refl hh))

theorem shields_encap (hsub : sub.Shields) (hh : h.Guarded fresh) {limit : Nat}
    {typeName : Option String} {strict : Bool} {body : Node} {parentNode : Option Node}
    (hblock : body.IsBlock) (hbody : body.IsStatement) (hparent : Node.OptionFits false parentNode)
    (hw : statement = true → h.Writable fresh f) :
    (encap sub limit span typeName strict body parentNode f).Shields fresh h
      (Outcome.Stays fresh statement f) := by
  rw [encap_eq_built_sealed]
  refine .bind hh (shields_built hsub hh hblock hbody hparent) fun b k hk hs _ => ?_
  exact shields_sealed hk fun hst => hs.writable (hw hst)

/-! ### All nodes -/

theorem shields_node (limits : Limits) (bound : Nat) (hsub : sub.Shields) :
    Evaluator.Shields (node limits bound sub) := by
  intro fresh h n f statement hh hn hplace
  have hw : ¬ n.IsBlock → statement = true → h.Writable fresh f := fun hnot hst =>
    (hplace hst).resolve_left hnot
  cases n with
  | number => exact .pure hh (.give (hw id))
  | text => exact .pure hh (.give (hw id))
  | list span elements => exact shields_list hsub hh hn (hw id)
  | binary span op left right => exact shields_binary hsub hh hn.1 hn.2 (hw id)
  | unary span op operand => exact shields_unary hsub hh hn (hw id)
  | assign span name topLevel value =>
      obtain ⟨rfl, hvalue⟩ := hn
      exact shields_assign hsub hh (hw id rfl) hvalue
  | ident span name => exact shields_ident hh (hw id)
  | block span mayDeclare body =>
      obtain ⟨rfl, hbody⟩ := hn
      exact shields_block hsub hh hbody
  | conditional => exact shields_conditional hsub hh hn (hw id)
  | function => exact shields_function hh hn (hw id)
  | declaration span name placeholder =>
      obtain ⟨rfl, hplaceholder⟩ := hn
      exact shields_declaration hh hplaceholder (hw id rfl)
  | call span callee arguments => exact shields_call hsub hh hn.1 hn.2 (hw id)
  | result span value => exact shields_result hsub hh hn.2
  | stopLoop span =>
      obtain rfl : statement = true := hn
      exact .raise hh (hw id rfl)
  | nextTurn span =>
      obtain rfl : statement = true := hn
      exact .raise hh (hw id rfl)
  | whileLoop span condition body =>
      obtain ⟨rfl, hcondition, hbody⟩ := hn
      exact shields_whileTurns hsub hh hcondition hbody (hw id rfl)
  | forLoop => exact shields_forLoop hsub hh hn (hw id)
  | encap => exact shields_encap hsub hh hn.1 hn.2.1 hn.2.2 (hw id)
  | prev span expression => exact shields_prev hsub hh hn (hw id)

/-- Every evaluation shields the tables before `fresh`. -/
theorem shields_eval (limits : Limits) (fuel : Nat) : Evaluator.Shields (eval limits fuel) := by
  induction fuel with
  | zero => exact fun _ _ _ => .exhausted
  | succ fuel ih => exact shields_node limits fuel ih

end Evaluation

end CapsuleScript
