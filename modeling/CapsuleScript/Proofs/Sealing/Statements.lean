import CapsuleScript.Proofs.Evaluation.Statements
import CapsuleScript.Proofs.Sealing.Expressions

/-! Functions, loops and statements seal the heap if the evaluator of their parts does. Names are
bound only in the frames that statements run in, which are never the scopes of objects. -/

namespace CapsuleScript.Evaluation

open Heap

variable {S T : TableId → Prop} {h k : Heap} {f : FrameId} {statement : Bool} {sub : Evaluator}

/-! ### Functions -/

theorem seals_keep {target : FrameId} {name : String} {v : Value} {out : Value → Outcome}
    (hS : h.Sealing S) (htarget : h.Free S target)
    (hnone : (h.table (h.frame target).table).bindings.get? name = none) (hv : v.Settled S h)
    (hvalue : ∀ b, (out b).result.value = b) (hframe : ∀ b, (out b).frame = target) :
    (do
      let bound ← Run.make (Heap.rehome target v)
      Run.change (·.define target name bound)
      return out bound).Seals S h (Outcome.Settled true f) := by
  obtain ⟨hk, hb⟩ := Later.rehome hS htarget.1 hv
  refine .make_bind hk ?_
  obtain ⟨htables, hframes⟩ := rehome_parts target v h
  have hfree := hk.free hS.sound htarget
  generalize (rehome target v h).2 = k at *
  generalize (rehome target v h).1 = b at *
  have hl : Later S k S (k.define target name b) := by
    refine Later.define hk.sealing hfree hb ?_
    rw [table_congr htables, frame_congr hframes]
    exact hnone
  refine .change_bind hl (.pure hl.sealing ⟨?_, fun _ => ?_, ?_⟩)
  · rw [hvalue]
    exact hb.spares hk.sealing.sound hl.toSpares
  · rw [hframe]
    exact hl.free hk.sealing.sound hfree
  · exact fun hst => absurd hst.symm Bool.false_ne_true

theorem seals_function (hS : h.Sealing S) (hf : h.HasFrame f) {span : Span} {name : Option String}
    {params : List String} {autoReturn : Bool} {body : Node}
    (hn : (Node.function span name params autoReturn body).Fits statement)
    (hfree : statement = true → h.Free S f) :
    (function span name params autoReturn body f).Seals S h (Outcome.Settled statement f) := by
  obtain ⟨hplace, hbody⟩ := hn
  have hadd : Later S h S
      (h.addFunction ⟨name.getD "anonymous", params, body, f, autoReturn, true⟩) :=
    .of_functions hS (.single (.added hf hbody)) ⟨rfl, rfl⟩
  refine .make_bind hadd ?_
  rw [newFunction_eq]
  generalize hk : h.addFunction ⟨name.getD "anonymous", params, body, f, autoReturn, true⟩ = k at *
  have hnew : k.HasFunction ⟨h.functions.size⟩ := by simp [← hk, HasFunction]
  have hinit : (k.function ⟨h.functions.size⟩).initialized = true := by
    rw [← hk, function_addFunction, if_pos rfl]
  have hfree' : statement = true → k.Free S f := fun hst => hadd.free hS.sound (hfree hst)
  cases name with
  | none => exact .pure hadd.sealing (.give ⟨hnew, trivial⟩ hfree')
  | some name =>
      obtain rfl := hplace rfl
      refine .read_bind ?_
      cases hplaceholder : k.placeholder? f name with
      | none =>
          refine .bind (seals_bindingTarget hadd.sealing (hfree' rfl) _ _ _)
            fun target T l _ hl htarget => ?_
          exact seals_keep hl.sealing htarget.1 htarget.2
            ⟨hl.steps.keeps.hasFunction hnew, trivial⟩ (fun _ => rfl) fun _ => rfl
      | some placeholder =>
          obtain ⟨hlook, hnot⟩ := placeholder?_eq_some.mp hplaceholder
          have hf' := hfree' rfl
          have hwritable : k.Writable 0 f := ⟨hf'.1, Nat.zero_le _⟩
          have hsteps := hadd.sealing.sound.steps_fulfil hwritable hlook hnot hnew
          have hl := Later.bind (v := .function _) hadd.sealing hf' (by simp) (by simp) hsteps
            trivial
          refine .of_done (fulfil_apply hinit hnot) hl ⟨⟨?_, trivial⟩, fun _ => ?_, fun _ => rfl⟩
          · show k.functions.size < ((k.initializeFrom placeholder _).functions.push _).size
            simp
          · exact hl.free hadd.sealing.sound hf'

theorem seals_declaration (hS : h.Sealing S) {span : Span} {name : String} {placeholder : Node}
    (hn : placeholder.IsStatement) (hfree : h.Free S f) :
    (declaration span name placeholder f).Seals S h (Outcome.Settled true f) := by
  refine .bind (seals_bindingTarget hS hfree _ _ _) fun target T k _ hk htarget => ?_
  obtain ⟨htarget, hnone⟩ := htarget
  have hadd : Later T k T (k.newPlaceholder name placeholder target).2 :=
    .of_functions hk.sealing (.single (.added htarget.1 hn)) ⟨rfl, rfl⟩
  have hnew : (k.newPlaceholder name placeholder target).2.HasFunction ⟨k.functions.size⟩ := by
    show k.functions.size < (k.functions.push _).size
    simp
  refine .make_bind hadd ?_
  have htarget' := hadd.free hk.sealing.sound htarget
  have hl := Later.define (v := .function ⟨k.functions.size⟩) hadd.sealing htarget'
    ⟨hnew, trivial⟩ hnone
  refine .change_bind hl (.pure hl.sealing ⟨⟨hl.steps.keeps.hasFunction hnew, trivial⟩,
    fun _ => hl.free hadd.sealing.sound htarget', fun hst => ?_⟩)
  exact absurd hst.symm Bool.false_ne_true

theorem seals_apply (hsub : sub.Seals) (hS : h.Sealing S) {span : Span}
    {callee : Function} {arguments : List Value} (hhome : h.HasFrame callee.home)
    (hbody : callee.body.IsStatement) (hsettled : ∀ v ∈ arguments, v.Settled S h)
    (hfree : statement = true → h.Free S f) :
    (apply sub span callee arguments f).Seals S h (Outcome.Settled statement f) := by
  unfold apply
  split
  · exact .fail hS
  split
  · exact .fail hS
  obtain ⟨hk, hcalled⟩ := Later.callFrame hS hhome hsettled span
  refine .make_bind hk ?_
  refine .bind (hsub hk.sealing hcalled.1 hbody fun _ => .inr hcalled).attempt
    fun ending T l _ hl hending => ?_
  have hfree' : statement = true → l.Free T f := fun hst => (hk.trans hl).free hS.sound (hfree hst)
  split
  · refine .pure hl.sealing (.give ?_ hfree')
    split
    · exact hending.value
    · exact ⟨trivial, trivial⟩
  · exact .pure hl.sealing (.give hending hfree')
  · exact .raise hl.sealing hending

theorem seals_call (hsub : sub.Seals) (hS : h.Sealing S) (hf : h.HasFrame f) {span : Span}
    {callee : Node} {arguments : List Node} (hcallee : callee.IsExpression)
    (harguments : Node.AllFit false arguments) (hfree : statement = true → h.Free S f) :
    (call sub span callee arguments f).Seals S h (Outcome.Settled statement f) := by
  refine .bind (seals_expression hsub hS hf hcallee) fun c T k _ hk hc => ?_
  refine .bind (seals_values hsub hk.sealing (hk.hasFrame hf) harguments)
    fun vs U l _ hl hvs => ?_
  split
  · rename_i g hvalue
    rw [hvalue] at hc
    have hg : l.HasFunction g := hl.steps.keeps.hasFunction hc.live
    exact .read_bind (seals_apply hsub hl.sealing (hl.sealing.sound.home hg)
      (hl.sealing.sound.body hg) hvs fun hst => (hk.trans hl).free hS.sound (hfree hst))
  · exact .fail hl.sealing

/-! ### Loops -/

/-- How a turn ends. -/
structure Turn.Settled (S : TableId → Prop) (done : Turn) (h : Heap) : Prop where
  value : ∀ result, done.result = some result → result.value.Settled S h
  free : h.Free S done.frame

theorem seals_turn (hsub : sub.Seals) (hS : h.Sealing S) (hfree : h.Free S f) {body : Node}
    (hbody : body.Fits statement) : (turn sub body f).Seals S h Turn.Settled := by
  refine .bind (hsub hS hfree.1 hbody fun _ => .inr hfree).attempt
    fun ending T k _ hk hending => ?_
  have hfree' := hk.free hS.sound hfree
  split
  · rename_i outcome _
    refine .pure hk.sealing ⟨fun result hresult => ?_, ?_⟩
    · cases hresult
      exact hending.value
    · cases hst : statement with
      | true => exact hending.free hst
      | false =>
          show k.Free T outcome.frame
          rw [hending.same hst]
          exact hfree'
  · rename_i raised _
    refine .read_bind (.pure hk.sealing ⟨fun result hresult => ?_, ?_⟩)
    · cases hresult
    · show k.Free T (k.resume f raised)
      unfold resume
      split
      · exact hending
      · exact hfree'
  · exact .raise hk.sealing hending

theorem seals_whileTurns (hsub : sub.Seals) {condition body : Node}
    (hcondition : condition.IsExpression) (hbody : body.IsStatement) {bound : Nat}
    {outcome : Outcome} (hS : h.Sealing S) (hout : outcome.Settled true f S h) :
    (whileTurns sub condition body bound outcome).Seals S h (Outcome.Settled true f) := by
  induction bound generalizing S h outcome with
  | zero => exact .exhausted
  | succ bound ih =>
      have hfree := hout.free rfl
      refine .bind (seals_expression hsub hS hfree.1 hcondition) fun c T k _ hk _ => ?_
      have hfree' := hk.free hS.sound hfree
      have hvalue := hout.value.spares hS.sound hk.toSpares
      split
      · refine .bind (seals_turn hsub hk.sealing hfree' hbody) fun done U l _ hl hdone => ?_
        have hnext : Outcome.Settled true f U ⟨done.result.getD outcome.result, done.frame⟩ l := by
          refine ⟨?_, fun _ => hdone.free, fun hst => absurd hst.symm Bool.false_ne_true⟩
          cases hresult : done.result with
          | none => exact hvalue.spares hk.sealing.sound hl.toSpares
          | some result => exact hdone.value result hresult
        split
        · exact ih hl.sealing hnext
        · exact .pure hl.sealing hnext
      · exact .pure hk.sealing
          ⟨hvalue, fun _ => hfree', fun hst => absurd hst.symm Bool.false_ne_true⟩

theorem seals_admitted (hsub : sub.Seals) (hS : h.Sealing S) (hf : h.HasFrame f)
    {filter : Option Node} (hfilter : Node.OptionFits false filter) :
    (admitted sub filter f).Seals S h fun _ _ _ => True := by
  cases filter with
  | none => exact .pure hS trivial
  | some filter =>
      exact .bind (seals_expression hsub hS hf hfilter) fun _ _ _ _ hk _ => .pure hk.sealing trivial

/-- What a loop over a list has come to. -/
structure Progress.Settled (free : Bool) (S : TableId → Prop) (progress : Progress) (h : Heap) :
    Prop where
  collected : ∀ v ∈ progress.collected, v.Settled S h
  value : progress.result.value.Settled S h
  hasFrame : h.HasFrame progress.frame
  free : free = true → h.Free S progress.frame

theorem seals_forTurns (hsub : sub.Seals) {span : Span} {name : String} {body : Node}
    {filter : Option Node} (hbody : body.Fits statement) (hfilter : Node.OptionFits false filter)
    {free : Bool} {elements : List Value} {progress : Progress} (hS : h.Sealing S)
    (helements : ∀ v ∈ elements, v.Settled S h) (hprogress : progress.Settled free S h) :
    (forTurns sub span name body filter elements progress).Seals S h (Progress.Settled free) := by
  induction elements generalizing S h progress with
  | nil => exact .pure hS hprogress
  | cons element rest ih =>
      obtain ⟨helement, hrest⟩ := List.forall_mem_cons.mp helements
      obtain ⟨hk, hframe⟩ := Later.enter hS "<for>" hprogress.hasFrame span
      refine .make_bind hk ?_
      have hempty := bindings_enter (h := h) "<for>" progress.frame span
      generalize (h.enter "<for>" progress.frame span).2 = k at *
      generalize (h.enter "<for>" progress.frame span).1 = frame at *
      have hdefine : Later S k S (k.define frame name element) :=
        Later.define hk.sealing hframe (helement.spares hS.sound hk.toSpares) (by rw [hempty]; rfl)
      refine .change_bind hdefine ?_
      have hl := hk.trans hdefine
      have hframe' := hdefine.free hk.sealing.sound hframe
      generalize k.define frame name element = l at *
      refine .bind (seals_admitted hsub hl.sealing hframe'.1 hfilter) fun passed T m _ hm _ => ?_
      have hframe'' := hm.free hl.sealing.sound hframe'
      split
      · refine .bind (seals_turn hsub hm.sealing hframe'' hbody) fun done U n _ hn hdone => ?_
        have hall := (hl.trans hm).trans hn
        have hcollected : ∀ v ∈ progress.collected, v.Settled U n := fun v hv =>
          (hprogress.collected v hv).spares hS.sound hall.toSpares
        have hgo : ∀ next : Progress, next.Settled free U n →
            (if done.goesOn then forTurns sub span name body filter rest next
              else pure next : Run Progress).Seals U n (Progress.Settled free) := by
          intro next hnext
          split
          · exact ih hn.sealing (fun v hv => (hrest v hv).spares hS.sound hall.toSpares) hnext
          · exact .pure hn.sealing hnext
        split
        · rename_i result hresult
          have hvalue := hdone.value result hresult
          exact hgo _ ⟨List.forall_mem_cons.mpr ⟨hvalue, hcollected⟩, hvalue, hdone.free.1,
            fun _ => hdone.free⟩
        · exact hgo _ ⟨hcollected, hprogress.value.spares hS.sound hall.toSpares, hdone.free.1,
            fun _ => hdone.free⟩
      · have hall := (hl.trans hm).toSpares
        exact ih hm.sealing (fun v hv => (hrest v hv).spares hS.sound hall)
          ⟨fun v hv => (hprogress.collected v hv).spares hS.sound hall,
            hprogress.value.spares hS.sound hall, hframe''.1, fun _ => hframe''⟩

theorem seals_forLoop (hsub : sub.Seals) (hS : h.Sealing S) (hf : h.HasFrame f) {span : Span}
    {name : String} {comprehension : Bool} {source body : Node} {filter : Option Node}
    (hn : (Node.forLoop span name comprehension source body filter).Fits statement)
    (hfree : statement = true → h.Free S f) :
    (forLoop sub span name comprehension source body filter f).Seals S h
      (Outcome.Settled statement f) := by
  obtain ⟨hplace, hsource, hbody, hfilter⟩ := hn
  refine .bind (seals_expression hsub hS hf hsource) fun given T k _ hk hgiven => ?_
  split
  · rename_i elements hvalue
    rw [hvalue] at hgiven
    have hstart : Progress.Settled statement T ⟨[], .of .null span f, f⟩ k :=
      ⟨by simp, ⟨trivial, trivial⟩, hk.hasFrame hf, fun hst => hk.free hS.sound (hfree hst)⟩
    refine .bind (seals_forTurns hsub hbody hfilter hk.sealing
      (Value.settled_list_iff.mp hgiven) hstart) fun progress U l _ hl hprogress => ?_
    split
    · refine .pure hl.sealing (.give (Value.settled_list_iff.mpr fun v hv => ?_)
        fun hst => (hk.trans hl).free hS.sound (hfree hst))
      exact hprogress.collected v (List.mem_reverse.mp hv)
    · rename_i hnot
      have hst := hplace (by simpa using hnot)
      exact .pure hl.sealing ⟨hprogress.value, hprogress.free,
        fun hno => absurd (hno.symm.trans hst) Bool.false_ne_true⟩
  · exact .read_bind (.fail hk.sealing)

/-! ### Statements -/

theorem seals_bindKept (hS : h.Sealing S) (hfree : h.Free S f) {span : Span} {name : String}
    {kept : Value} (hkept : kept.Settled S h) :
    (bindKept span name f kept).Seals S h (Outcome.Settled true f) := by
  unfold bindKept
  split
  · obtain ⟨hk, htarget⟩ := Later.enter hS name hfree.1 span
    refine .make_bind hk ?_
    refine seals_keep hk.sealing htarget ?_ (hkept.spares hS.sound hk.toSpares) (fun _ => rfl)
      fun _ => rfl
    rw [bindings_enter]
    rfl
  · refine .bind (seals_bindingTarget hS hfree name name span) fun target T k _ hk htarget => ?_
    exact seals_keep hk.sealing htarget.1 htarget.2 (hkept.spares hS.sound hk.toSpares)
      (fun _ => rfl) fun _ => rfl

theorem seals_assign (hsub : sub.Seals) (hS : h.Sealing S) (hfree : h.Free S f) {span : Span}
    {name : String} {topLevel : Bool} {node : Node} (hn : node.IsStatement) :
    (assign sub span name topLevel node f).Seals S h (Outcome.Settled true f) := by
  rw [assign_eq_bindKept]
  refine .bind (seals_value hsub hS hfree.1 hn fun _ => hfree) fun given T k _ hk hgiven => ?_
  have hfree' := hk.free hS.sound hfree
  refine .read_bind ?_
  split
  · rename_i placeholder g hplaceholder hvalue
    rw [hvalue] at hgiven
    obtain ⟨hlook, hnot⟩ := placeholder?_eq_some.mp hplaceholder
    have hp : k.HasFunction placeholder := hk.sealing.sound.lives_of_lookup hlook
    have hl : Later T k T (k.initializeFrom placeholder g) :=
      .of_functions hk.sealing (.single (.defined hp hgiven.live hnot))
        ⟨tables_initializeFrom _ _, frames_initializeFrom _ _⟩
    refine .change_bind hl ?_
    exact seals_bindKept hl.sealing (hl.free hk.sealing.sound hfree')
      ⟨hl.steps.keeps.hasFunction hp, trivial⟩
  · refine .read_bind ?_
    split
    · exact .fail hk.sealing
    · exact seals_bindKept hk.sealing hfree' hgiven

theorem seals_statements (hsub : sub.Seals) {body : List Node} (hbody : Node.AllFit true body)
    {outcome : Outcome} (hS : h.Sealing S) (hout : outcome.Settled true f S h) :
    (statements sub body outcome).Seals S h (Outcome.Settled true f) := by
  induction body generalizing S h outcome with
  | nil => exact .pure hS hout
  | cons statement rest ih =>
      have hfree := hout.free rfl
      refine .bind (hsub hS hfree.1 hbody.1 fun _ => .inr hfree) fun next T k _ hk hnext => ?_
      have hgo : ∀ frame, k.Free T frame → Outcome.Settled true f T ⟨next.result, frame⟩ k :=
        fun frame hframe =>
          ⟨hnext.value, fun _ => hframe, fun hst => absurd hst.symm Bool.false_ne_true⟩
      split
      · exact ih hbody.2 hk.sealing (hgo _ (hk.free hS.sound hfree))
      · exact ih hbody.2 hk.sealing (hgo _ (hnext.free rfl))

theorem seals_block (hsub : sub.Seals) (hS : h.Sealing S) (hf : h.HasFrame f) {span : Span}
    {body : List Node} (hbody : Node.AllFit true body) :
    (block sub span body f).Seals S h (Outcome.Settled true f) := by
  obtain ⟨hk, hscope⟩ := Later.enter hS "<block>" hf span
  refine .make_bind hk (seals_statements hsub hbody hk.sealing ?_)
  exact ⟨⟨trivial, trivial⟩, fun _ => hscope, fun hst => absurd hst.symm Bool.false_ne_true⟩

theorem seals_result (hsub : sub.Seals) (hS : h.Sealing S) (hf : h.HasFrame f) {span : Span}
    {node : Option Node} (hn : Node.OptionFits false node) :
    (result sub span node f).Seals S h (Outcome.Settled true f) := by
  cases node with
  | none => exact .raise hS ⟨trivial, trivial⟩
  | some node =>
      exact .bind (seals_expression hsub hS hf hn) fun _ _ _ _ hk hv => .raise hk.sealing hv

end CapsuleScript.Evaluation
