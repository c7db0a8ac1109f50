import CapsuleScript.Proofs.Evaluation.Statements
import CapsuleScript.Proofs.Matching.Expressions

/-! Functions, loops and statements end in the same way on matched heaps, if the evaluator of their
parts does. -/

namespace CapsuleScript.Evaluation

variable {W X : Matching} {h h' : Heap} {f f' : FrameId} {sub : Evaluator}

/-! ### Functions -/

/-- Matching values are kept under the same name in matched frames. -/
theorem matches_keep (hW : W.Heaps h h') {target target' : FrameId} (ht : W.frames target target')
    (name : String) {v v' : Value} (hv : v.Match W v') {out out' : Value → Outcome}
    (hout : ∀ {X b b'}, W.Extends X → b.Match X b' → (out b).Match X (out' b')) :
    Run.Matches W
      (do
        let bound ← Run.make (Heap.rehome target v)
        Run.change (·.define target name bound)
        return out bound)
      (do
        let bound ← Run.make (Heap.rehome target' v')
        Run.change (·.define target' name bound)
        return out' bound) h h' Outcome.Match := by
  refine .make_bind (hW.rehome v ht hv) ?_
  intro X k k' b b' hX hheaps hb
  have hdefined := hheaps.define (hX.frames ht) name hb
  refine .change_bind ⟨X, .refl X, hdefined⟩ ?_
  intro Y l l' hY hheaps'
  exact .pure hheaps' (hout (hX.trans hY) (hb.mono hY))

theorem matches_function (hW : W.Heaps h h') (hf : W.frames f f') (span : Span)
    (name : Option String) (params : List String) (autoReturn : Bool) (body : Node) :
    Run.Matches W (function span name params autoReturn body f)
      (function span name params autoReturn body f') h h' Outcome.Match := by
  have hdata : Function.Match W ⟨name.getD "anonymous", params, body, f, autoReturn, true⟩
      ⟨name.getD "anonymous", params, body, f', autoReturn, true⟩ := ⟨rfl, rfl, rfl, hf, rfl, rfl⟩
  have hnew : W.Made (fun X => X.functions)
      (h.newFunction ⟨name.getD "anonymous", params, body, f, autoReturn, true⟩)
      (h'.newFunction ⟨name.getD "anonymous", params, body, f', autoReturn, true⟩) :=
    ⟨_, W.extends_addFunction _ _, hW.addFunction hdata, .inr ⟨rfl, rfl⟩⟩
  refine .make_bind hnew ?_
  intro X k k' g g' hX hheaps hg
  have hfX := hX.frames hf
  cases name with
  | none => exact .pure hheaps (.give (.function hg) hfX)
  | some name =>
      refine .read_bind ?_
      have hplaceholder := hheaps.placeholder? hfX name
      generalize k.placeholder? f name = o at hplaceholder
      generalize k'.placeholder? f' name = o' at hplaceholder
      cases hplaceholder with
      | none =>
          apply Run.Matches.bind (matches_bindingTarget hheaps hfX name _ span)
          intro Y l l' target target' hY hheaps' ht
          refine matches_keep hheaps' ht name (.function (hY.functions hg)) ?_
          intro Z b b' hZ hb
          exact ⟨⟨hb, rfl, .some (hZ.frames (hY.frames hfX))⟩, hZ.frames ht⟩
      | some hp =>
          refine .change_bind ⟨X, .refl X, hheaps.initializeFrom hp hg⟩ ?_
          intro Y l l' hY hheaps'
          have htarget : Run.Matches Y (pure f) (pure f') l l' fun Z => Z.frames :=
            .pure hheaps' (hY.frames hfX)
          refine htarget.bind ?_
          intro Z m m' target target' hZ hheaps'' ht
          have hold := hY.trans hZ
          refine matches_keep hheaps'' ht name (.function (hold.functions hg)) ?_
          intro U b b' hU hb
          exact ⟨⟨hb, rfl, .some (hU.frames (hold.frames hfX))⟩, hU.frames ht⟩

theorem matches_declaration (hW : W.Heaps h h') (hf : W.frames f f') (span : Span) (name : String)
    (placeholder : Node) :
    Run.Matches W (declaration span name placeholder f) (declaration span name placeholder f') h h'
      Outcome.Match := by
  apply Run.Matches.bind (matches_bindingTarget hW hf name _ span)
  intro X k k' target target' hX hheaps ht
  have hdata : Function.Match X ⟨name, [], placeholder, target, true, false⟩
      ⟨name, [], placeholder, target', true, false⟩ := ⟨rfl, rfl, rfl, ht, rfl, rfl⟩
  have hnew : X.Made (fun X => X.functions) (k.newPlaceholder name placeholder target)
      (k'.newPlaceholder name placeholder target') :=
    ⟨_, X.extends_addFunction _ _, hheaps.addFunction hdata, .inr ⟨rfl, rfl⟩⟩
  refine .make_bind hnew ?_
  intro Y l l' g g' hY hheaps' hg
  have hdefined := hheaps'.define (hY.frames ht) name (.function hg)
  refine .change_bind ⟨Y, .refl Y, hdefined⟩ ?_
  intro Z m m' hZ hheaps''
  exact .pure hheaps'' (.give (.function (hZ.functions hg)) (hZ.frames (hY.frames ht)))

theorem matches_apply (hsub : sub.Matches) (hW : W.Heaps h h') (hf : W.frames f f') (span : Span)
    {callee callee' : Function} (hcallee : callee.Match W callee') {arguments arguments' : List Value}
    (harguments : Value.AllMatch W arguments arguments') :
    Run.Matches W (apply sub span callee arguments f) (apply sub span callee' arguments' f') h h'
      Outcome.Match := by
  unfold apply
  rw [hcallee.params, hcallee.name, harguments.length_eq]
  split
  · exact .fail hW hf
  split
  · exact .fail hW hf
  refine .make_bind (hW.callFrame hcallee harguments span) ?_
  intro X k k' frame frame' hX hheaps hframe
  rw [hcallee.body]
  apply Run.Matches.bind (hsub callee'.body hheaps hframe).attempt
  intro Y l l' ending ending' hY hheaps' hending
  have hfY := hY.frames (hX.frames hf)
  cases hending with
  | ok hout =>
      simp only [hcallee.autoReturn]
      refine .pure hheaps' (.give ?_ hfY)
      split
      · exact hout.result.value
      · exact .null
  | error hsignal =>
      cases hsignal with
      | returned hs => exact .pure hheaps' (.give hs.value hfY)
      | exited he => exact .raise hheaps' (.exited he)
      | failed hfault => exact .raise hheaps' (.failed hfault)

theorem matches_call (hsub : sub.Matches) (hW : W.Heaps h h') (hf : W.frames f f') (span : Span)
    (callee : Node) (arguments : List Node) :
    Run.Matches W (call sub span callee arguments f) (call sub span callee arguments f') h h'
      Outcome.Match := by
  apply Run.Matches.bind (matches_value hsub hW hf callee)
  intro X k k' c c' hX hheaps hc
  apply Run.Matches.bind (matches_values hsub hheaps (hX.frames hf) arguments)
  intro Y l l' vs vs' hY hheaps' hvs
  have hfY := hY.frames (hX.frames hf)
  have hvalue := hc.value.mono hY
  obtain ⟨v, cspan, owner⟩ := c
  obtain ⟨v', cspan', owner'⟩ := c'
  cases hvalue with
  | function hg => exact .read_bind (matches_apply hsub hheaps' hfY span (hheaps'.function hg).2.2 hvs)
  | _ => exact .fail hheaps' hfY

/-! ### Loops -/

/-- The turns end in the same way. -/
structure Turn.Match (W : Matching) (done done' : Turn) : Prop where
  goesOn : done.goesOn = done'.goesOn
  result : Option.Rel (Stamped.Match W) done.result done'.result
  frame : W.frames done.frame done'.frame

theorem matches_turn (hsub : sub.Matches) (hW : W.Heaps h h') (hf : W.frames f f') (body : Node) :
    Run.Matches W (turn sub body f) (turn sub body f') h h' Turn.Match := by
  apply Run.Matches.bind (hsub body hW hf).attempt
  intro X k k' ending ending' hX hheaps hending
  cases hending with
  | ok hout => exact .pure hheaps ⟨rfl, .some hout.result, hout.frame⟩
  | error hsignal =>
      cases hsignal with
      | returned hs => exact .raise hheaps (.returned hs)
      | exited he => exact .read_bind (.pure hheaps ⟨rfl, .none, hheaps.resume (hX.frames hf) he⟩)
      | failed hfault => exact .raise hheaps (.failed hfault)

theorem matches_whileTurns (hsub : sub.Matches) (condition body : Node) (bound : Nat)
    {outcome outcome' : Outcome} (hW : W.Heaps h h') (hout : outcome.Match W outcome') :
    Run.Matches W (whileTurns sub condition body bound outcome)
      (whileTurns sub condition body bound outcome') h h' Outcome.Match := by
  induction bound generalizing W h h' outcome outcome' with
  | zero => exact .exhausted
  | succ bound ih =>
      apply Run.Matches.bind (matches_value hsub hW hout.frame condition)
      intro X k k' c c' hX hheaps hc
      simp only [hc.value.isTrue_eq]
      split
      · apply Run.Matches.bind (matches_turn hsub hheaps (hX.frames hout.frame) body)
        intro Y l l' done done' hY hheaps' hdone
        have hnext : Outcome.Match Y ⟨done.result.getD outcome.result, done.frame⟩
            ⟨done'.result.getD outcome'.result, done'.frame⟩ := by
          refine ⟨?_, hdone.frame⟩
          have hresult := hdone.result
          generalize done.result = o at hresult
          generalize done'.result = o' at hresult
          cases hresult with
          | none => exact hout.result.mono (hX.trans hY)
          | some hs => exact hs
        simp only [hdone.goesOn]
        split
        · exact ih hheaps' hnext
        · exact .pure hheaps' hnext
      · exact .pure hheaps ⟨hout.result.mono hX, hX.frames hout.frame⟩

/-- The loops over lists have come to the same. -/
structure Progress.Match (W : Matching) (progress progress' : Progress) : Prop where
  collected : Value.AllMatch W progress.collected progress'.collected
  result : progress.result.Match W progress'.result
  frame : W.frames progress.frame progress'.frame

theorem matches_admitted (hsub : sub.Matches) (hW : W.Heaps h h') (hf : W.frames f f')
    (filter : Option Node) :
    Run.Matches W (admitted sub filter f) (admitted sub filter f') h h' fun _ b b' => b = b' := by
  cases filter with
  | none => exact .pure hW rfl
  | some filter =>
      apply Run.Matches.bind (matches_value hsub hW hf filter)
      intro X k k' v v' _ hheaps hv
      exact .pure hheaps hv.value.isTrue_eq

theorem matches_forTurns (hsub : sub.Matches) (span : Span) (name : String) (body : Node)
    (filter : Option Node) {elements elements' : List Value} {progress progress' : Progress}
    (hW : W.Heaps h h') (helements : Value.AllMatch W elements elements')
    (hprogress : progress.Match W progress') :
    Run.Matches W (forTurns sub span name body filter elements progress)
      (forTurns sub span name body filter elements' progress') h h' Progress.Match := by
  induction elements generalizing W h h' elements' progress progress' with
  | nil =>
      cases helements
      exact .pure hW hprogress
  | cons element rest ih =>
      cases helements with
      | @cons _ _ _ rest' helement hrest =>
          refine .make_bind (hW.enter "<for>" hprogress.frame span) ?_
          intro X k k' frame frame' hX hheaps hframe
          refine .change_bind ⟨X, .refl X, hheaps.define hframe name (helement.mono hX)⟩ ?_
          intro Y l l' hY hheaps'
          have hframeY := hY.frames hframe
          apply Run.Matches.bind (matches_admitted hsub hheaps' hframeY filter)
          rintro Z m m' passed _ hZ hheaps'' rfl
          have hold := hX.trans (hY.trans hZ)
          split
          · apply Run.Matches.bind (matches_turn hsub hheaps'' (hZ.frames hframeY) body)
            intro U n n' done done' hU hheapsU hdone
            have hall := hold.trans hU
            have hgo : ∀ {next next' : Progress}, next.Match U next' →
                Run.Matches U
                  (if done.goesOn then forTurns sub span name body filter rest next else pure next)
                  (if done'.goesOn then forTurns sub span name body filter rest' next' else pure next')
                  n n' Progress.Match := by
              intro next next' hnext
              rw [hdone.goesOn]
              split
              · exact ih hheapsU (hrest.mono hall) hnext
              · exact .pure hheapsU hnext
            have hcollected := hprogress.collected.mono hall
            have hresult := hdone.result
            obtain ⟨goesOn, result, frame⟩ := done
            obtain ⟨goesOn', result', frame'⟩ := done'
            cases hresult with
            | none => exact hgo ⟨hcollected, hprogress.result.mono hall, hdone.frame⟩
            | some hs => exact hgo ⟨.cons hs.value hcollected, hs, hdone.frame⟩
          · refine ih hheaps'' (hrest.mono hold) ?_
            exact ⟨hprogress.collected.mono hold, hprogress.result.mono hold, hZ.frames hframeY⟩

theorem matches_forLoop (hsub : sub.Matches) (hW : W.Heaps h h') (hf : W.frames f f') (span : Span)
    (name : String) (comprehension : Bool) (source body : Node) (filter : Option Node) :
    Run.Matches W (forLoop sub span name comprehension source body filter f)
      (forLoop sub span name comprehension source body filter f') h h' Outcome.Match := by
  apply Run.Matches.bind (matches_value hsub hW hf source)
  intro X k k' given given' hX hheaps hgiven
  have hfX := hX.frames hf
  have hvalue := hgiven.value
  obtain ⟨v, gspan, owner⟩ := given
  obtain ⟨v', gspan', owner'⟩ := given'
  have hfail : ∀ {w w' : Value}, w.Match X w' → Run.Matches X
      (do .fail (.notAList (← .read (·.render w))) span f : Run Outcome)
      (do .fail (.notAList (← .read (·.render w'))) span f') k k' Outcome.Match := by
    intro w w' hw
    refine .read_bind ?_
    rw [hheaps.render_eq hw]
    exact .fail hheaps hfX
  cases hvalue with
  | list helements =>
      have hstart : Progress.Match X ⟨[], .of .null span f, f⟩ ⟨[], .of .null span f', f'⟩ :=
        ⟨.nil, ⟨.null, rfl, .some hfX⟩, hfX⟩
      refine Run.Matches.bind
        (matches_forTurns hsub span name body filter hheaps helements hstart) ?_
      intro Y l l' progress progress' hY hheaps' hprogress
      split
      · exact .pure hheaps' (.give (.list hprogress.collected.reverse) (hY.frames hfX))
      · exact .pure hheaps' ⟨hprogress.result, hprogress.frame⟩
  | number x => exact hfail (.number x)
  | bool b => exact hfail (.bool b)
  | null => exact hfail .null
  | text s => exact hfail (.text s)
  | function hg => exact hfail (.function hg)
  | encap hfields hinherited hscope => exact hfail (.encap hfields hinherited hscope)
  | empty => exact hfail .empty

/-! ### Statements -/

theorem matches_bindKept (hW : W.Heaps h h') (hf : W.frames f f') (span : Span) (name : String)
    {kept kept' : Value} (hkept : kept.Match W kept') :
    Run.Matches W (bindKept span name f kept) (bindKept span name f' kept') h h' Outcome.Match := by
  have hsome : kept.capsule?.isSome = kept'.capsule?.isSome := by
    cases hkept <;> rfl
  have hbound : ∀ {X : Matching} {k k' : Heap} {target target' : FrameId}, W.Extends X →
      X.Heaps k k' → X.frames target target' → Run.Matches X
        (do
          let bound ← .make (Heap.rehome target kept)
          Run.change (·.define target name bound)
          return give bound span target : Run Outcome)
        (do
          let bound ← .make (Heap.rehome target' kept')
          Run.change (·.define target' name bound)
          return give bound span target') k k' Outcome.Match := by
    intro X k k' target target' hX hheaps ht
    refine matches_keep hheaps ht name (hkept.mono hX) ?_
    intro Y b b' hY hb
    exact .give hb (hY.frames ht)
  unfold bindKept
  rw [hsome]
  split
  · exact .make_bind (hW.enter name hf span) hbound
  · exact Run.Matches.bind (matches_bindingTarget hW hf name name span) hbound

theorem matches_assign (hsub : sub.Matches) (hW : W.Heaps h h') (hf : W.frames f f') (span : Span)
    (name : String) (topLevel : Bool) (node : Node) :
    Run.Matches W (assign sub span name topLevel node f) (assign sub span name topLevel node f') h h'
      Outcome.Match := by
  rw [assign_eq_bindKept, assign_eq_bindKept]
  apply Run.Matches.bind (matches_value hsub hW hf node)
  intro X k k' given given' hX hheaps hgiven
  have hfX := hX.frames hf
  -- A value that defines no placeholder.
  have hother : ∀ {w w' : Value}, w.Match X w' → Run.Matches X
      (do
        if topLevel && (← .read fun heap => (heap.lookup f name).isSome) then
          .fail (.alreadyBound name) span f
        else bindKept span name f w : Run Outcome)
      (do
        if topLevel && (← .read fun heap => (heap.lookup f' name).isSome) then
          .fail (.alreadyBound name) span f'
        else bindKept span name f' w') k k' Outcome.Match := by
    intro w w' hw
    have hsome : (k.lookup f name).isSome = (k'.lookup f' name).isSome := by
      have hlook := hheaps.lookup hfX name
      generalize k.lookup f name = o at hlook
      generalize k'.lookup f' name = o' at hlook
      cases hlook <;> rfl
    refine .read_bind ?_
    rw [hsome]
    split
    · exact .fail hheaps hfX
    · exact matches_bindKept hheaps hfX span name hw
  refine .read_bind ?_
  have hplaceholder := hheaps.placeholder? hfX name
  generalize k.placeholder? f name = o at hplaceholder
  generalize k'.placeholder? f' name = o' at hplaceholder
  have hvalue := hgiven.value
  obtain ⟨v, gspan, owner⟩ := given
  obtain ⟨v', gspan', owner'⟩ := given'
  cases hplaceholder with
  | none => exact hother hvalue
  | some hp =>
      cases hvalue with
      | function hg =>
          refine .change_bind ⟨X, .refl X, hheaps.initializeFrom hp hg⟩ ?_
          intro Y l l' hY hheaps'
          exact matches_bindKept hheaps' (hY.frames hfX) span name (.function (hY.functions hp))
      | number x => exact hother (.number x)
      | bool b => exact hother (.bool b)
      | null => exact hother .null
      | text s => exact hother (.text s)
      | list helements => exact hother (.list helements)
      | encap hfields hinherited hscope => exact hother (.encap hfields hinherited hscope)
      | empty => exact hother .empty

theorem matches_statements (hsub : sub.Matches) (body : List Node) {outcome outcome' : Outcome}
    (hW : W.Heaps h h') (hout : outcome.Match W outcome') :
    Run.Matches W (statements sub body outcome) (statements sub body outcome') h h'
      Outcome.Match := by
  induction body generalizing W h h' outcome outcome' with
  | nil => exact .pure hW hout
  | cons statement rest ih =>
      apply Run.Matches.bind (hsub statement hW hout.frame)
      intro X k k' next next' hX hheaps hnext
      cases statement
      case block => exact ih hheaps ⟨hnext.result, hX.frames hout.frame⟩
      all_goals exact ih hheaps ⟨hnext.result, hnext.frame⟩

theorem matches_block (hsub : sub.Matches) (hW : W.Heaps h h') (hf : W.frames f f') (span : Span)
    (body : List Node) :
    Run.Matches W (block sub span body f) (block sub span body f') h h' Outcome.Match := by
  refine .make_bind (hW.enter "<block>" hf span) ?_
  intro X k k' scope scope' _ hheaps hscope
  exact matches_statements hsub body hheaps (.give .empty hscope)

theorem matches_result (hsub : sub.Matches) (hW : W.Heaps h h') (hf : W.frames f f') (span : Span)
    (node : Option Node) :
    Run.Matches W (result sub span node f) (result sub span node f') h h' Outcome.Match := by
  cases node with
  | none => exact .raise hW (.returned ⟨.null, rfl, .some hf⟩)
  | some node =>
      apply Run.Matches.bind (matches_value hsub hW hf node)
      intro X k k' v v' _ hheaps hv
      exact .raise hheaps (.returned hv)

end CapsuleScript.Evaluation
