import CapsuleScript.Proofs.Evaluation.Expressions

/-! Functions, loops and statements evolve the heap if the evaluator of their parts does. -/

namespace CapsuleScript.Evaluation

open Heap

variable {fresh : Nat} {h k : Heap} {f : FrameId} {statement : Bool} {sub : Evaluator}

/-! ### Functions -/

/-- A value is kept in a frame that does not bind the name itself. -/
theorem evolves_keep {target : FrameId} {name : String} {v : Value} {out : Value → Outcome}
    (hh : h.Sound) (hw : h.Writable fresh target) (hd : h.Descends f target)
    (hnone : (h.table (h.frame target).table).bindings.get? name = none) (hv : v.Lives h)
    (hvalue : ∀ b, (out b).result.value = b) (hframe : ∀ b, (out b).frame = target) :
    (do
      let bound ← Run.make (Heap.rehome target v)
      Run.change (·.define target name bound)
      return out bound).Evolves fresh h (Outcome.GoesOn fresh true f) := by
  obtain ⟨hsteps, hlive⟩ := steps_rehome hh hw.1 hv
  refine .make_bind hsteps ?_
  obtain ⟨htables, hframes⟩ := rehome_parts target v h
  generalize (rehome target v h).2 = k at *
  generalize (rehome target v h).1 = b at *
  have hk := hsteps.sound hh
  have hw' := hsteps.keeps.writable hw
  have hdefine : Step fresh k (k.define target name b) := by
    refine hk.step_define hw' hlive ?_
    rw [table_congr htables, frame_congr hframes]
    exact hnone
  refine .change_bind (.single hdefine) (.pure ?_)
  refine ⟨?_, ?_, ?_, ?_, fun hst => absurd hst.symm Bool.false_ne_true⟩
  · rw [hvalue]
    exact hdefine.keeps.lives hlive
  · rw [hframe]
    exact hw'.1
  · rw [hframe]
    exact (hd.keeps hh hsteps.keeps hw.1).keeps hk hdefine.keeps hw'.1
  · rw [hframe]
    exact fun _ => hdefine.keeps.writable hw'

/-- A declared function is defined by a function: the placeholder first, then a copy of the function
with its own home. -/
theorem fulfil_apply {name : String} {placeholder g : FunctionId} {span : Span}
    (hinit : (h.function g).initialized = true)
    (hnot : (h.function placeholder).initialized = false) :
    (do
      Run.change (·.initializeFrom placeholder g)
      let bound ← Run.make (Heap.rehome f (.function g))
      Run.change (·.define f name bound)
      return (⟨.of bound span f, f⟩ : Outcome)) h =
    .done ⟨.of (.function ⟨h.functions.size⟩) span f, f⟩
      (((h.initializeFrom placeholder g).addFunction { h.function g with home := f }).bind
        (h.frame f).table name (.function ⟨h.functions.size⟩)) := by
  have hne : g ≠ placeholder := by
    rintro rfl
    rw [hinit] at hnot
    cases hnot
  have hkept : (h.initializeFrom placeholder g).function g = h.function g := by
    rw [function_initializeFrom, if_neg fun hc => hne hc.1]
  have hrehome : rehome f (.function g) (h.initializeFrom placeholder g) =
      (.function ⟨h.functions.size⟩,
        (h.initializeFrom placeholder g).addFunction { h.function g with home := f }) := by
    rw [rehome, hkept, if_pos hinit, withHome, newFunction_eq, hkept]
    simp
  simp only [Run.bind_apply, Run.change, Run.make, hrehome, Run.pure_apply]
  rw [define_eq, frame_congr (h := h) (by simp)]

theorem evolves_function (hr : h.Ready fresh f) {span : Span} {name : Option String}
    {params : List String} {autoReturn : Bool} {body : Node}
    (hn : (Node.function span name params autoReturn body).Fits statement)
    (hw : statement = true → h.Writable fresh f) :
    (function span name params autoReturn body f).Evolves fresh h
      (Outcome.GoesOn fresh statement f) := by
  obtain ⟨hplace, hbody⟩ := hn
  have hadd : Steps fresh h
      (h.addFunction ⟨name.getD "anonymous", params, body, f, autoReturn, true⟩) :=
    .single (.added hr.hasFrame hbody)
  refine .make_bind hadd ?_
  rw [newFunction_eq]
  generalize hk : h.addFunction ⟨name.getD "anonymous", params, body, f, autoReturn, true⟩ = k at *
  have hr' := hr.steps hadd
  have hnew : k.HasFunction ⟨h.functions.size⟩ := by simp [← hk, HasFunction]
  have hinit : (k.function ⟨h.functions.size⟩).initialized = true := by
    rw [← hk, function_addFunction, if_pos rfl]
  have hw' : statement = true → k.Writable fresh f := fun hst => hadd.keeps.writable (hw hst)
  cases name with
  | none => exact .pure (.give hnew hr'.hasFrame hw')
  | some name =>
      obtain rfl := hplace rfl
      refine .read_bind ?_
      cases hplaceholder : k.placeholder? f name with
      | none =>
          apply Run.Evolves.bind hr'.sound (evolves_bindingTarget hr' (hw' rfl) _ _ _)
          intro target l hl hs htarget
          obtain ⟨hwt, hd, hnone⟩ := htarget
          exact evolves_keep hl hwt hd hnone (hs.keeps.hasFunction hnew) (fun _ => rfl) fun _ => rfl
      | some placeholder =>
          obtain ⟨hlook, hnot⟩ := placeholder?_eq_some.mp hplaceholder
          have hsteps := hr'.sound.steps_fulfil (hw' rfl) hlook hnot hnew
          have hkeeps := hsteps.keeps
          refine .of_done (fulfil_apply hinit hnot) hsteps ?_
          refine ⟨?_, hkeeps.hasFrame hr'.hasFrame, .refl, fun _ => hkeeps.writable (hw' rfl),
            fun _ => rfl⟩
          show k.functions.size < ((k.initializeFrom placeholder _).functions.push _).size
          simp

theorem evolves_declaration (hr : h.Ready fresh f) {span : Span} {name : String} {placeholder : Node}
    (hn : placeholder.IsStatement) (hw : h.Writable fresh f) :
    (declaration span name placeholder f).Evolves fresh h (Outcome.GoesOn fresh true f) := by
  apply Run.Evolves.bind hr.sound (evolves_bindingTarget hr hw _ _ _)
  intro target k hk hs htarget
  obtain ⟨hwt, hd, hnone⟩ := htarget
  have hadd : Step fresh k (k.newPlaceholder name placeholder target).2 := .added hwt.1 hn
  refine .make_bind (.single hadd) ?_
  have hl := hadd.sound hk
  have hwt' := hadd.keeps.writable hwt
  have hdefine : Step fresh (k.newPlaceholder name placeholder target).2
      ((k.newPlaceholder name placeholder target).2.define target name
        (.function ⟨k.functions.size⟩)) := by
    refine hl.step_define hwt' ?_ hnone
    show k.functions.size < (k.functions.push _).size
    simp
  refine .change_bind (.single hdefine) (.pure ⟨?_, hwt'.1, ?_, fun _ => ?_, fun hst => ?_⟩)
  · show k.functions.size < (k.functions.push _).size
    simp
  · exact (hd.keeps hk hadd.keeps hwt.1).keeps hl hdefine.keeps hwt'.1
  · exact hdefine.keeps.writable hwt'
  · exact absurd hst.symm Bool.false_ne_true

theorem evolves_apply (hsub : sub.Evolves) (hr : h.Ready fresh f) {span : Span} {callee : Function}
    {arguments : List Value} (hhome : h.HasFrame callee.home) (hbody : callee.body.IsStatement)
    (hlive : Value.AllLive h arguments) (hw : statement = true → h.Writable fresh f) :
    (apply sub span callee arguments f).Evolves fresh h (Outcome.GoesOn fresh statement f) := by
  unfold apply
  split
  · exact .fail
  split
  · exact .fail
  have hstep : Step fresh h (callFrame callee arguments span h).2 :=
    hr.sound.step_callFrame hhome hlive span
  refine .make_bind (.single hstep) ?_
  have hr' := hr.steps (.single hstep)
  have hframe := writable_callFrame hr.le callee arguments span
  generalize (callFrame callee arguments span h).2 = k at *
  generalize (callFrame callee arguments span h).1 = frame at *
  have hcalled : k.Ready fresh frame := ⟨hr'.sound, hr'.le, hframe.1⟩
  have hend := (hsub hcalled hbody fun _ => .inr hframe).attempt
  apply Run.Evolves.bind hr'.sound hend
  intro ending l _ hs hending
  have hf := (hr'.steps hs).hasFrame
  have hw' : statement = true → l.Writable fresh f := fun hst =>
    hs.keeps.writable (hstep.keeps.writable (hw hst))
  split
  · refine .pure (.give ?_ hf hw')
    split
    · exact hending.live
    · trivial
  · exact .pure (.give hending hf hw')
  · exact .raise hending

theorem evolves_call (hsub : sub.Evolves) (hr : h.Ready fresh f) {span : Span} {callee : Node}
    {arguments : List Node} (hcallee : callee.IsExpression) (harguments : Node.AllFit false arguments)
    (hw : statement = true → h.Writable fresh f) :
    (call sub span callee arguments f).Evolves fresh h (Outcome.GoesOn fresh statement f) := by
  apply Run.Evolves.bind hr.sound (evolves_expression hsub hr hcallee)
  intro c k hk hs hc
  have hr' := hr.steps hs
  apply Run.Evolves.bind hk (evolves_values hsub hr' harguments)
  intro vs l hl hs' hlive
  split
  · rename_i g hvalue
    rw [hvalue] at hc
    have hg : l.HasFunction g := hs'.keeps.hasFunction hc
    refine .read_bind ?_
    exact evolves_apply hsub (hr'.steps hs') (hl.home hg) (hl.body hg) hlive
      fun hst => hs'.keeps.writable (hs.keeps.writable (hw hst))
  · exact .fail

/-! ### Loops -/

/-- How a turn in the frame `f` ends. -/
structure Turn.GoesOn (fresh : Nat) (f : FrameId) (done : Turn) (k : Heap) : Prop where
  live : ∀ result, done.result = some result → result.value.Lives k
  writable : k.Writable fresh done.frame
  descends : k.Descends f done.frame

theorem evolves_turn (hsub : sub.Evolves) (hr : h.Ready fresh f) (hw : h.Writable fresh f)
    {body : Node} (hbody : body.Fits statement) :
    (turn sub body f).Evolves fresh h (Turn.GoesOn fresh f) := by
  have hend := (hsub hr hbody fun _ => .inr hw).attempt
  apply Run.Evolves.bind hr.sound hend
  intro ending k _ hs hending
  have hw' := hs.keeps.writable hw
  split
  · rename_i outcome
    refine .pure ⟨fun result hresult => ?_, ?_, hending.descends⟩
    · cases hresult
      exact hending.live
    · cases hst : statement with
      | true => exact hending.writable hst
      | false =>
          show k.Writable fresh outcome.frame
          rw [hending.same hst]
          exact hw'
  · rename_i raised
    refine .read_bind (.pure ⟨fun result hresult => ?_, ?_, ?_⟩)
    · cases hresult
    · show k.Writable fresh (k.resume f raised)
      unfold resume
      split
      · exact hending
      · exact hw'
    · show k.Descends f (k.resume f raised)
      unfold resume
      split
      · rename_i hmem
        exact .of_mem_ancestryFrom hmem
      · exact .refl
  · exact .raise hending

theorem evolves_whileTurns (hsub : sub.Evolves) {condition body : Node}
    (hcondition : condition.IsExpression) (hbody : body.IsStatement) {bound : Nat}
    {outcome : Outcome} (hr : h.Ready fresh f) (hout : outcome.GoesOn fresh true f h) :
    (whileTurns sub condition body bound outcome).Evolves fresh h
      (Outcome.GoesOn fresh true f) := by
  induction bound generalizing h outcome with
  | zero => exact .exhausted
  | succ bound ih =>
      have hcurrent : h.Ready fresh outcome.frame := ⟨hr.sound, hr.le, hout.hasFrame⟩
      apply Run.Evolves.bind hr.sound (evolves_expression hsub hcurrent hcondition)
      intro c k hk hs _
      have hr' := hr.steps hs
      have hcurrent' := hcurrent.steps hs
      have hdescends := hout.descends.keeps hr.sound hs.keeps hout.hasFrame
      have hwritable := hs.keeps.writable (hout.writable rfl)
      have hlive := hs.keeps.lives hout.live
      split
      · apply Run.Evolves.bind hk (evolves_turn hsub hcurrent' hwritable hbody)
        intro done l hl hs' hdone
        have hnext : Outcome.GoesOn fresh true f ⟨done.result.getD outcome.result, done.frame⟩ l := by
          refine ⟨?_, hdone.writable.1, ?_, fun _ => hdone.writable, fun hst => ?_⟩
          · cases hresult : done.result with
            | none => exact hs'.keeps.lives hlive
            | some result => exact hdone.live result hresult
          · exact hdone.descends.trans (hdescends.keeps hk hs'.keeps hcurrent'.hasFrame)
          · exact absurd hst.symm Bool.false_ne_true
        split
        · exact ih (hr'.steps hs') hnext
        · exact .pure hnext
      · refine .pure ⟨hlive, hcurrent'.hasFrame, hdescends, fun _ => hwritable, fun hst => ?_⟩
        exact absurd hst.symm Bool.false_ne_true

/-- What a loop over a list in the frame `f` has come to. -/
structure Progress.GoesOn (fresh : Nat) (f : FrameId) (progress : Progress) (k : Heap) : Prop where
  collected : Value.AllLive k progress.collected
  live : progress.result.value.Lives k
  hasFrame : k.HasFrame progress.frame
  descends : k.Descends f progress.frame
  writable : k.Writable fresh f → k.Writable fresh progress.frame

theorem evolves_admitted (hsub : sub.Evolves) (hr : h.Ready fresh f) {filter : Option Node}
    (hfilter : Node.OptionFits false filter) :
    (admitted sub filter f).Evolves fresh h fun _ _ => True := by
  cases filter with
  | none => exact .pure trivial
  | some filter =>
      apply Run.Evolves.bind hr.sound (evolves_expression hsub hr hfilter)
      exact fun _ _ _ _ _ => .pure trivial

theorem evolves_forTurns (hsub : sub.Evolves) {span : Span} {name : String} {body : Node}
    {filter : Option Node} (hbody : body.Fits statement) (hfilter : Node.OptionFits false filter)
    {elements : List Value} {progress : Progress} (hr : h.Ready fresh f)
    (hlive : Value.AllLive h elements) (hprogress : progress.GoesOn fresh f h) :
    (forTurns sub span name body filter elements progress).Evolves fresh h
      (Progress.GoesOn fresh f) := by
  induction elements generalizing h progress with
  | nil => exact .pure hprogress
  | cons element rest ih =>
      have henter : Step fresh h (h.enter "<for>" progress.frame span).2 :=
        hr.sound.step_enter "<for>" hprogress.hasFrame span
      refine .make_bind (.single henter) ?_
      have hw := writable_enter hr.le "<for>" progress.frame span
      have hd := descends_enter (h := h) "<for>" progress.frame span
      have hempty := bindings_enter (h := h) "<for>" progress.frame span
      generalize (h.enter "<for>" progress.frame span).2 = k at *
      generalize (h.enter "<for>" progress.frame span).1 = frame at *
      have hk := henter.sound hr.sound
      have hdefine : Step fresh k (k.define frame name element) := by
        refine hk.step_define hw (henter.keeps.lives hlive.1) ?_
        rw [hempty]
        rfl
      refine .change_bind (.single hdefine) ?_
      have hsteps : Steps fresh h (k.define frame name element) :=
        (Relation.ReflTransGen.single henter).tail hdefine
      have hdescends : (k.define frame name element).Descends f frame :=
        (hd.trans (hprogress.descends.keeps hr.sound henter.keeps hprogress.hasFrame)).keeps hk
          hdefine.keeps hw.1
      have hw' := hdefine.keeps.writable hw
      generalize k.define frame name element = l at *
      have hr' := hr.steps hsteps
      have hframe : l.Ready fresh frame := ⟨hr'.sound, hr'.le, hw'.1⟩
      apply Run.Evolves.bind hr'.sound (evolves_admitted hsub hframe hfilter)
      intro passed m hm hs _
      have hrm := hr'.steps hs
      have hsteps' : Steps fresh h m := hsteps.trans hs
      have hwm := hs.keeps.writable hw'
      have hdm := hdescends.keeps hr'.sound hs.keeps hw'.1
      split
      · apply Run.Evolves.bind hm (evolves_turn hsub (hframe.steps hs) hwm hbody)
        intro done n hn hs' hdone
        have hkeeps : Keeps fresh h n := hsteps'.keeps.trans hs'.keeps
        have hcollected := hprogress.collected.mono hkeeps.frames hkeeps.functions
        have hdn := hdone.descends.trans (hdm.keeps hm hs'.keeps hwm.1)
        have hgo : ∀ next : Progress, next.GoesOn fresh f n →
            (if done.goesOn then forTurns sub span name body filter rest next
              else pure next : Run Progress).Evolves fresh n (Progress.GoesOn fresh f) := by
          intro next hnext
          split
          · exact ih (hrm.steps hs') (hlive.2.mono hkeeps.frames hkeeps.functions) hnext
          · exact .pure hnext
        split
        · rename_i result hresult
          have hlive' := hdone.live result hresult
          exact hgo _ ⟨⟨hlive', hcollected⟩, hlive', hdone.writable.1, hdn, fun _ => hdone.writable⟩
        · exact hgo _ ⟨hcollected, hkeeps.lives hprogress.live, hdone.writable.1, hdn,
            fun _ => hdone.writable⟩
      · have hkeeps := hsteps'.keeps
        refine ih hrm (hlive.2.mono hkeeps.frames hkeeps.functions) ?_
        exact ⟨hprogress.collected.mono hkeeps.frames hkeeps.functions,
          hkeeps.lives hprogress.live, hwm.1, hdm, fun _ => hwm⟩

theorem evolves_forLoop (hsub : sub.Evolves) (hr : h.Ready fresh f) {span : Span} {name : String}
    {comprehension : Bool} {source body : Node} {filter : Option Node}
    (hn : (Node.forLoop span name comprehension source body filter).Fits statement)
    (hw : statement = true → h.Writable fresh f) :
    (forLoop sub span name comprehension source body filter f).Evolves fresh h
      (Outcome.GoesOn fresh statement f) := by
  obtain ⟨hplace, hsource, hbody, hfilter⟩ := hn
  apply Run.Evolves.bind hr.sound (evolves_expression hsub hr hsource)
  intro given k hk hs hlive
  have hr' := hr.steps hs
  split
  · rename_i elements hvalue
    rw [hvalue] at hlive
    have hstart : Progress.GoesOn fresh f ⟨[], .of .null span f, f⟩ k :=
      ⟨trivial, trivial, hr'.hasFrame, .refl, fun h => h⟩
    apply Run.Evolves.bind hk (evolves_forTurns hsub hbody hfilter hr' hlive hstart)
    intro progress l _ hs' hprogress
    have hw' : statement = true → l.Writable fresh f := fun hst =>
      hs'.keeps.writable (hs.keeps.writable (hw hst))
    split
    · refine .pure (.give (Value.allLive_iff.mpr fun v hv => ?_) (hr'.steps hs').hasFrame hw')
      exact Value.allLive_iff.mp hprogress.collected v (List.mem_reverse.mp hv)
    · rename_i hnot
      have hst := hplace (by simpa using hnot)
      refine .pure ⟨hprogress.live, hprogress.hasFrame, hprogress.descends, fun _ => ?_, ?_⟩
      · exact hprogress.writable (hw' hst)
      · exact fun hno => absurd (hno.symm.trans hst) Bool.false_ne_true
  · exact .read_bind .fail

/-! ### Statements -/

/-- The end of an assignment: the value is bound, an object in a new frame. -/
def bindKept (span : Span) (name : String) (f : FrameId) (kept : Value) : Run Outcome := do
  let target ←
    if kept.capsule?.isSome then .make (·.enter name f span) else bindingTarget name name span f
  let bound ← .make (Heap.rehome target kept)
  Run.change (·.define target name bound)
  return give bound span target

theorem assign_eq_bindKept (sub : Evaluator) (span : Span) (name : String) (topLevel : Bool)
    (node : Node) (f : FrameId) :
    assign sub span name topLevel node f = (do
      let given ← value sub node f
      match ← .read (·.placeholder? f name), given.value with
      | some placeholder, .function g => do
        Run.change (·.initializeFrom placeholder g)
        bindKept span name f (.function placeholder)
      | _, other => do
        if topLevel && (← .read fun heap => (heap.lookup f name).isSome) then
          .fail (.alreadyBound name) span f
        else bindKept span name f other) := rfl

/-- Whatever is kept, it is bound in a frame whose own table does not bind the name. -/
theorem evolves_bindKept (hr : h.Ready fresh f) (hw : h.Writable fresh f) {span : Span}
    {name : String} {kept : Value} (hkept : kept.Lives h) :
    (bindKept span name f kept).Evolves fresh h (Outcome.GoesOn fresh true f) := by
  unfold bindKept
  split
  · have henter : Step fresh h (h.enter name f span).2 :=
      hr.sound.step_enter name hr.hasFrame span
    refine .make_bind (.single henter) ?_
    refine evolves_keep (henter.sound hr.sound) (writable_enter hr.le name f span)
      (descends_enter name f span) ?_ (henter.keeps.lives hkept) (fun _ => rfl) fun _ => rfl
    rw [bindings_enter]
    rfl
  · apply Run.Evolves.bind hr.sound (evolves_bindingTarget hr hw name name span)
    rintro target k hk hs ⟨hwt, hd, hnone⟩
    exact evolves_keep hk hwt hd hnone (hs.keeps.lives hkept) (fun _ => rfl) fun _ => rfl

theorem evolves_assign (hsub : sub.Evolves) (hr : h.Ready fresh f) (hw : h.Writable fresh f)
    {span : Span} {name : String} {topLevel : Bool} {node : Node} (hn : node.IsStatement) :
    (assign sub span name topLevel node f).Evolves fresh h (Outcome.GoesOn fresh true f) := by
  rw [assign_eq_bindKept]
  apply Run.Evolves.bind hr.sound (evolves_value hsub hr hn fun _ => hw)
  intro given k hk hs hlive
  have hr' := hr.steps hs
  have hw' := hs.keeps.writable hw
  refine .read_bind ?_
  split
  · rename_i placeholder g hplaceholder hvalue
    rw [hvalue] at hlive
    obtain ⟨hlook, hnot⟩ := placeholder?_eq_some.mp hplaceholder
    have hp : k.HasFunction placeholder := hk.lives_of_lookup hlook
    have hdefined : Step fresh k (k.initializeFrom placeholder g) := .defined hp hlive hnot
    refine .change_bind (.single hdefined) ?_
    exact evolves_bindKept (hr'.steps (.single hdefined)) (hdefined.keeps.writable hw')
      (hdefined.keeps.hasFunction hp)
  · refine .read_bind ?_
    split
    · exact .fail
    · exact evolves_bindKept hr' hw' hlive

theorem evolves_statements (hsub : sub.Evolves) {body : List Node} (hbody : Node.AllFit true body)
    {outcome : Outcome} (hr : h.Ready fresh f) (hout : outcome.GoesOn fresh true f h) :
    (statements sub body outcome).Evolves fresh h (Outcome.GoesOn fresh true f) := by
  induction body generalizing h outcome with
  | nil => exact .pure hout
  | cons statement rest ih =>
      have hcurrent : h.Ready fresh outcome.frame := ⟨hr.sound, hr.le, hout.hasFrame⟩
      have hw := hout.writable rfl
      apply Run.Evolves.bind hr.sound (hsub hcurrent hbody.1 fun _ => .inr hw)
      intro next k hk hs hnext
      have hdescends := hout.descends.keeps hr.sound hs.keeps hout.hasFrame
      have hkeep : ∀ frame, k.Writable fresh frame → k.Descends f frame →
          Outcome.GoesOn fresh true f ⟨next.result, frame⟩ k := fun frame hwf hd =>
        ⟨hnext.live, hwf.1, hd, fun _ => hwf, fun hst => absurd hst.symm Bool.false_ne_true⟩
      split
      · exact ih hbody.2 (hr.steps hs) (hkeep _ (hs.keeps.writable hw) hdescends)
      · exact ih hbody.2 (hr.steps hs)
          (hkeep _ (hnext.writable rfl) (hnext.descends.trans hdescends))

theorem evolves_block (hsub : sub.Evolves) (hr : h.Ready fresh f) {span : Span} {body : List Node}
    (hbody : Node.AllFit true body) :
    (block sub span body f).Evolves fresh h (Outcome.GoesOn fresh true f) := by
  have henter : Step fresh h (h.enter "<block>" f span).2 :=
    hr.sound.step_enter "<block>" hr.hasFrame span
  refine .make_bind (.single henter) ?_
  have hw := writable_enter hr.le "<block>" f span
  refine evolves_statements hsub hbody (hr.steps (.single henter)) ?_
  exact ⟨trivial, hw.1, descends_enter "<block>" f span, fun _ => hw,
    fun hst => absurd hst.symm Bool.false_ne_true⟩

theorem evolves_result (hsub : sub.Evolves) (hr : h.Ready fresh f) {span : Span}
    {node : Option Node} (hn : Node.OptionFits false node) :
    (result sub span node f).Evolves fresh h (Outcome.GoesOn fresh true f) := by
  cases node with
  | none => exact .raise trivial
  | some node =>
      apply Run.Evolves.bind hr.sound (evolves_expression hsub hr hn)
      exact fun v k _ _ hlive => .raise hlive

end CapsuleScript.Evaluation
