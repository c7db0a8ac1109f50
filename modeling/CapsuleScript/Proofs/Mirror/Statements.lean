import CapsuleScript.Proofs.Evaluation.Statements
import CapsuleScript.Proofs.Mirror.Expressions

/-! Functions, loops and statements end in the same way on heaps that look alike, if the evaluator of
their parts does. So every node does that sees the heap only through names. -/

namespace CapsuleScript.Evaluation

open Heap

variable {W X : Matching} {z z' : Horizon} {h h' : Heap} {f f' : FrameId} {statement : Bool}
  {sub : Evaluator}

/-! ### Functions -/

/-- Matching values are kept under the same name in open frames. -/
theorem mirrors_keep (hW : W.Mirrors z z' h h') {target target' : FrameId}
    (ht : W.Open z target target') (name : String) {v v' : Value} (hv : v.Match W v')
    {out out' : Value → Outcome}
    (hout : ∀ {X b b'}, W.Extends X → b.Match X b' → (out b).Mirrors z statement X (out' b')) :
    Run.Mirrors z z' W
      (do
        let bound ← Run.make (Heap.rehome target v)
        Run.change (·.define target name bound)
        return out bound)
      (do
        let bound ← Run.make (Heap.rehome target' v')
        Run.change (·.define target' name bound)
        return out' bound) h h' (Outcome.Mirrors z statement) := by
  refine .make_bind (hW.rehome v ht.1 hv) ?_
  intro X k k' b b' hX hheaps hb
  have hdefined := hheaps.define (ht.mono hX) name hb
  exact .change_bind (.pure hdefined (hout hX hb))

theorem mirrors_function (hW : W.Mirrors z z' h h') (hf : W.frames f f') {span : Span}
    {name : Option String} {params : List String} {autoReturn : Bool} {body : Node}
    (hlexical : body.Lexical)
    (hn : (Node.function span name params autoReturn body).Fits statement)
    (hopen : statement = true → z.frames ≤ f.index) :
    Run.Mirrors z z' W (function span name params autoReturn body f)
      (function span name params autoReturn body f') h h' (Outcome.Mirrors z statement) := by
  obtain ⟨hplace, hbody⟩ := hn
  have hdata : Function.Match W ⟨name.getD "anonymous", params, body, f, autoReturn, true⟩
      ⟨name.getD "anonymous", params, body, f', autoReturn, true⟩ := ⟨rfl, rfl, rfl, hf, rfl, rfl⟩
  have hnew : W.Brings z z' (fun X => X.functions)
      (h.newFunction ⟨name.getD "anonymous", params, body, f, autoReturn, true⟩)
      (h'.newFunction ⟨name.getD "anonymous", params, body, f', autoReturn, true⟩) :=
    ⟨_, W.extends_addFunction _ _, hW.addFunction hdata ⟨hlexical, hbody⟩, .inr ⟨rfl, rfl⟩⟩
  refine .make_bind hnew ?_
  intro X k k' g g' hX hheaps hg
  have hfX := hX.frames hf
  cases name with
  | none => exact .pure hheaps (.give (.function hg) hfX hopen)
  | some name =>
      have htarget : X.Open z f f' := ⟨hfX, hopen (hplace rfl)⟩
      refine .read_bind ?_
      have hplaceholder := hheaps.placeholder? hfX name
      generalize hp : k.placeholder? f name = o at hplaceholder
      generalize k'.placeholder? f' name = o' at hplaceholder
      cases hplaceholder with
      | none =>
          apply Run.Mirrors.bind (mirrors_bindingTarget hheaps htarget name _ span)
          intro Y l l' target target' hY hheaps' ht
          refine mirrors_keep hheaps' ht name (.function (hY.functions hg)) ?_
          intro Z b b' hZ hb
          exact ⟨⟨⟨hb, rfl, .some (hZ.frames (hY.frames hfX))⟩, hZ.frames ht.1⟩, fun _ => ht.2⟩
      | some hpp =>
          have hnot := (placeholder?_eq_some.mp hp).2
          have hdefined := hheaps.initializeFrom hpp hnot hg
          refine .change_bind ?_
          have hstay : Run.Mirrors z z' X (pure f) (pure f') _ _ (Matching.Open z) :=
            .pure hdefined htarget
          refine hstay.bind ?_
          intro Y l l' target target' hY hheaps' ht
          refine mirrors_keep hheaps' ht name (.function (hY.functions hg)) ?_
          intro Z b b' hZ hb
          exact ⟨⟨⟨hb, rfl, .some (hZ.frames (hY.frames hfX))⟩, hZ.frames ht.1⟩, fun _ => ht.2⟩

theorem mirrors_declaration (hW : W.Mirrors z z' h h') (hf : W.Open z f f') {span : Span}
    {name : String} {placeholder : Node} (hlexical : placeholder.Lexical)
    (hn : placeholder.IsStatement) :
    Run.Mirrors z z' W (declaration span name placeholder f)
      (declaration span name placeholder f') h h' (Outcome.Mirrors z statement) := by
  apply Run.Mirrors.bind (mirrors_bindingTarget hW hf name _ span)
  intro X k k' target target' hX hheaps ht
  have hdata : Function.Match X ⟨name, [], placeholder, target, true, false⟩
      ⟨name, [], placeholder, target', true, false⟩ := ⟨rfl, rfl, rfl, ht.1, rfl, rfl⟩
  have hnew : X.Brings z z' (fun X => X.functions) (k.newPlaceholder name placeholder target)
      (k'.newPlaceholder name placeholder target') :=
    ⟨_, X.extends_addFunction _ _, hheaps.addFunction hdata ⟨hlexical, hn⟩, .inr ⟨rfl, rfl⟩⟩
  refine .make_bind hnew ?_
  intro Y l l' g g' hY hheaps' hg
  have hdefined := hheaps'.define (ht.mono hY) name (.function hg)
  exact .change_bind
    (.pure hdefined (.give (.function hg) (hY.frames ht.1) fun _ => ht.2))

theorem mirrors_apply (hsub : sub.Mirrors z z') (hW : W.Mirrors z z' h h') (hf : W.frames f f')
    {span : Span} {callee callee' : Function} (hcallee : callee.Match W callee')
    (hbody : callee.body.Lexical ∧ callee.body.IsStatement) {arguments arguments' : List Value}
    (harguments : Value.AllMatch W arguments arguments')
    (hopen : statement = true → z.frames ≤ f.index) :
    Run.Mirrors z z' W (apply sub span callee arguments f) (apply sub span callee' arguments' f')
      h h' (Outcome.Mirrors z statement) := by
  unfold apply
  rw [← hcallee.params, ← hcallee.name, ← harguments.length_eq]
  split
  · exact .fail hW hf
  split
  · exact .fail hW hf
  refine .make_bind (hW.callFrame hcallee harguments span) ?_
  intro X k k' frame frame' hX hheaps hframe
  rw [← hcallee.body]
  apply Run.Mirrors.bind (hsub hheaps hframe.1 hbody.1 hbody.2 fun _ => .inr hframe.2).attempt
  intro Y l l' ending ending' hY hheaps' hending
  have hfY := hY.frames (hX.frames hf)
  cases hending with
  | ok hout =>
      simp only [← hcallee.autoReturn]
      refine .pure hheaps' (.give ?_ hfY hopen)
      split
      · exact hout.result.value
      · exact .null
  | error hsignal =>
      cases hsignal with
      | returned hs => exact .pure hheaps' (.give hs.value hfY hopen)
      | exited he => exact .raise hheaps' (.exited he)
      | failed hfault => exact .raise hheaps' (.failed hfault)

theorem mirrors_call (hsub : sub.Mirrors z z') (hW : W.Mirrors z z' h h') (hf : W.frames f f')
    {span : Span} {callee : Node} {arguments : List Node} (hcallee : callee.Lexical)
    (harguments : Node.AllLexical arguments) (hfits : callee.IsExpression)
    (hfits' : Node.AllFit false arguments) (hopen : statement = true → z.frames ≤ f.index) :
    Run.Mirrors z z' W (call sub span callee arguments f) (call sub span callee arguments f') h h'
      (Outcome.Mirrors z statement) := by
  apply Run.Mirrors.bind (mirrors_expression hsub hW hf hcallee hfits)
  intro X k k' c c' hX hheaps hc
  apply Run.Mirrors.bind (mirrors_values hsub hheaps (hX.frames hf) harguments hfits')
  intro Y l l' vs vs' hY hheaps' hvs
  have hfY := hY.frames (hX.frames hf)
  have hvalue := hc.value.mono hY
  obtain ⟨v, cspan, owner⟩ := c
  obtain ⟨v', cspan', owner'⟩ := c'
  cases hvalue with
  | function hg =>
      exact .read_bind (mirrors_apply hsub hheaps' hfY (hheaps'.function hg).2.2 (hheaps'.body hg)
        hvs hopen)
  | _ => exact .fail hheaps' hfY

/-! ### Loops -/

/-- The turns end in the same way, in open frames. -/
structure Turn.Mirrors (z : Horizon) (W : Matching) (done done' : Turn) : Prop where
  goesOn : done.goesOn = done'.goesOn
  result : Option.Rel (Stamped.Match W) done.result done'.result
  frame : W.Open z done.frame done'.frame

theorem mirrors_turn (hsub : sub.Mirrors z z') (hW : W.Mirrors z z' h h') (hf : W.Open z f f')
    {body : Node} (hlexical : body.Lexical) (hn : body.IsStatement) :
    Run.Mirrors z z' W (turn sub body f) (turn sub body f') h h' (Turn.Mirrors z) := by
  apply Run.Mirrors.bind (hsub hW hf.1 hlexical hn fun _ => .inr hf.2).attempt
  intro X k k' ending ending' hX hheaps hending
  cases hending with
  | ok hout => exact .pure hheaps ⟨rfl, .some hout.result, hout.frame, hout.opened rfl⟩
  | error hsignal =>
      cases hsignal with
      | returned hs => exact .raise hheaps (.returned hs)
      | exited he =>
          exact .read_bind (.pure hheaps ⟨rfl, .none, hheaps.resume (hX.frames hf.1) hf.2 he⟩)
      | failed hfault => exact .raise hheaps (.failed hfault)

theorem mirrors_whileTurns (hsub : sub.Mirrors z z') {condition body : Node}
    (hcondition : condition.Lexical) (hbody : body.Lexical) (hfits : condition.IsExpression)
    (hfits' : body.IsStatement) (bound : Nat) {outcome outcome' : Outcome}
    (hW : W.Mirrors z z' h h') (hout : outcome.Mirrors z true W outcome') :
    Run.Mirrors z z' W (whileTurns sub condition body bound outcome)
      (whileTurns sub condition body bound outcome') h h' (Outcome.Mirrors z true) := by
  induction bound generalizing W h h' outcome outcome' with
  | zero => exact .exhausted
  | succ bound ih =>
      apply Run.Mirrors.bind (mirrors_expression hsub hW hout.frame hcondition hfits)
      intro X k k' c c' hX hheaps hc
      have hframe : X.Open z outcome.frame outcome'.frame :=
        ⟨hX.frames hout.frame, hout.opened rfl⟩
      simp only [hc.value.isTrue_eq]
      split
      · apply Run.Mirrors.bind (mirrors_turn hsub hheaps hframe hbody hfits')
        intro Y l l' done done' hY hheaps' hdone
        have hnext : Outcome.Mirrors z true Y ⟨done.result.getD outcome.result, done.frame⟩
            ⟨done'.result.getD outcome'.result, done'.frame⟩ := by
          refine ⟨⟨?_, hdone.frame.1⟩, fun _ => hdone.frame.2⟩
          have hresult := hdone.result
          generalize done.result = o at hresult
          generalize done'.result = o' at hresult
          cases hresult with
          | none => exact hout.result.mono (hX.trans hY)
          | some hs => exact hs
        simp only [hdone.goesOn]
        split
        · exact ih hheaps' hnext
        · exact .pure hheaps' hnext
      · exact .pure hheaps ⟨⟨hout.result.mono hX, hframe.1⟩, hout.opened⟩

/-- The loops over lists have come to the same. -/
structure Progress.Mirrors (z : Horizon) (statement : Bool) (W : Matching)
    (progress progress' : Progress) : Prop where
  collected : Value.AllMatch W progress.collected progress'.collected
  result : progress.result.Match W progress'.result
  frame : W.frames progress.frame progress'.frame
  opened : statement = true → z.frames ≤ progress.frame.index

theorem mirrors_admitted (hsub : sub.Mirrors z z') (hW : W.Mirrors z z' h h') (hf : W.frames f f')
    {filter : Option Node} (hlexical : Node.OptionLexical filter)
    (hn : Node.OptionFits false filter) :
    Run.Mirrors z z' W (admitted sub filter f) (admitted sub filter f') h h'
      fun _ b b' => b = b' := by
  cases filter with
  | none => exact .pure hW rfl
  | some filter =>
      apply Run.Mirrors.bind (mirrors_expression hsub hW hf hlexical hn)
      intro X k k' v v' _ hheaps hv
      exact .pure hheaps hv.value.isTrue_eq

theorem mirrors_forTurns (hsub : sub.Mirrors z z') {span : Span} {name : String} {body : Node}
    {filter : Option Node} (hbody : body.Lexical) (hfilter : Node.OptionLexical filter)
    (hfits : body.IsStatement) (hfits' : Node.OptionFits false filter)
    {elements elements' : List Value} {progress progress' : Progress} (hW : W.Mirrors z z' h h')
    (helements : Value.AllMatch W elements elements')
    (hprogress : progress.Mirrors z statement W progress') :
    Run.Mirrors z z' W (forTurns sub span name body filter elements progress)
      (forTurns sub span name body filter elements' progress') h h'
      (Progress.Mirrors z statement) := by
  induction elements generalizing W h h' elements' progress progress' with
  | nil =>
      cases helements
      exact .pure hW hprogress
  | cons element rest ih =>
      cases helements with
      | @cons _ _ _ rest' helement hrest =>
          refine .make_bind (hW.enter "<for>" hprogress.frame span) ?_
          intro X k k' frame frame' hX hheaps hframe
          have hdefined := hheaps.define hframe name (helement.mono hX)
          refine .change_bind ?_
          apply Run.Mirrors.bind (mirrors_admitted hsub hdefined hframe.1 hfilter hfits')
          rintro Y l l' passed _ hY hheaps' rfl
          have hold := hX.trans hY
          split
          · apply Run.Mirrors.bind (mirrors_turn hsub hheaps' (hframe.mono hY) hbody hfits)
            intro Z m m' done done' hZ hheaps'' hdone
            have hall := hold.trans hZ
            have hgo : ∀ {next next' : Progress}, next.Mirrors z statement Z next' →
                Run.Mirrors z z' Z
                  (if done.goesOn then forTurns sub span name body filter rest next else pure next)
                  (if done'.goesOn then forTurns sub span name body filter rest' next' else pure next')
                  m m' (Progress.Mirrors z statement) := by
              intro next next' hnext
              rw [hdone.goesOn]
              split
              · exact ih hheaps'' (hrest.mono hall) hnext
              · exact .pure hheaps'' hnext
            have hcollected := hprogress.collected.mono hall
            have hresult := hdone.result
            have hleft := hdone.frame
            obtain ⟨goesOn, result, frame⟩ := done
            obtain ⟨goesOn', result', frame'⟩ := done'
            cases hresult with
            | none =>
                exact hgo ⟨hcollected, hprogress.result.mono hall, hleft.1, fun _ => hleft.2⟩
            | some hs => exact hgo ⟨.cons hs.value hcollected, hs, hleft.1, fun _ => hleft.2⟩
          · refine ih hheaps' (hrest.mono hold) ?_
            exact ⟨hprogress.collected.mono hold, hprogress.result.mono hold, hY.frames hframe.1,
              fun _ => hframe.2⟩

theorem mirrors_forLoop (hsub : sub.Mirrors z z') (hW : W.Mirrors z z' h h') (hf : W.frames f f')
    {span : Span} {name : String} {comprehension : Bool} {source body : Node}
    {filter : Option Node}
    (hlexical : (Node.forLoop span name comprehension source body filter).Lexical)
    (hn : (Node.forLoop span name comprehension source body filter).Fits statement)
    (hopen : statement = true → z.frames ≤ f.index) :
    Run.Mirrors z z' W (forLoop sub span name comprehension source body filter f)
      (forLoop sub span name comprehension source body filter f') h h'
      (Outcome.Mirrors z statement) := by
  obtain ⟨hsource, hbody, hfilter⟩ := hlexical
  obtain ⟨hplace, hfits, hbodyFits, hfilterFits⟩ := hn
  have hbodyFits' : body.IsStatement := by
    cases comprehension with
    | true => exact hbodyFits.of_false
    | false => exact hbodyFits
  apply Run.Mirrors.bind (mirrors_expression hsub hW hf hsource hfits)
  intro X k k' given given' hX hheaps hgiven
  have hfX := hX.frames hf
  have hvalue := hgiven.value
  obtain ⟨v, gspan, owner⟩ := given
  obtain ⟨v', gspan', owner'⟩ := given'
  have hfail : ∀ {w w' : Value}, w.Match X w' → Run.Mirrors z z' X
      (do .fail (.notAList (← .read (·.render w))) span f : Run Outcome)
      (do .fail (.notAList (← .read (·.render w'))) span f') k k'
      (Outcome.Mirrors z statement) := by
    intro w w' hw
    refine .read_bind ?_
    rw [hheaps.render_eq hw]
    exact .fail hheaps hfX
  cases hvalue with
  | list helements =>
      have hstart : Progress.Mirrors z statement X ⟨[], .of .null span f, f⟩
          ⟨[], .of .null span f', f'⟩ := ⟨.nil, ⟨.null, rfl, .some hfX⟩, hfX, hopen⟩
      refine Run.Mirrors.bind
        (mirrors_forTurns hsub hbody hfilter hbodyFits' hfilterFits hheaps helements hstart) ?_
      intro Y l l' progress progress' hY hheaps' hprogress
      split
      · exact .pure hheaps' (.give (.list hprogress.collected.reverse) (hY.frames hfX) hopen)
      · exact .pure hheaps' ⟨⟨hprogress.result, hprogress.frame⟩, hprogress.opened⟩
  | number x => exact hfail (.number x)
  | bool b => exact hfail (.bool b)
  | null => exact hfail .null
  | text s => exact hfail (.text s)
  | function hg => exact hfail (.function hg)
  | encap hfields hinherited hscope => exact hfail (.encap hfields hinherited hscope)
  | empty => exact hfail .empty

/-! ### Statements -/

theorem mirrors_bindKept (hW : W.Mirrors z z' h h') (hf : W.Open z f f') (span : Span)
    (name : String) {kept kept' : Value} (hkept : kept.Match W kept') :
    Run.Mirrors z z' W (bindKept span name f kept) (bindKept span name f' kept') h h'
      (Outcome.Mirrors z statement) := by
  have hsome : kept.capsule?.isSome = kept'.capsule?.isSome := by
    cases hkept <;> rfl
  have hbound : ∀ {X : Matching} {k k' : Heap} {target target' : FrameId}, W.Extends X →
      X.Mirrors z z' k k' → X.Open z target target' → Run.Mirrors z z' X
        (do
          let bound ← .make (Heap.rehome target kept)
          Run.change (·.define target name bound)
          return give bound span target : Run Outcome)
        (do
          let bound ← .make (Heap.rehome target' kept')
          Run.change (·.define target' name bound)
          return give bound span target') k k' (Outcome.Mirrors z statement) := by
    intro X k k' target target' hX hheaps ht
    refine mirrors_keep hheaps ht name (hkept.mono hX) ?_
    intro Y b b' hY hb
    exact .give hb (hY.frames ht.1) fun _ => ht.2
  unfold bindKept
  rw [hsome]
  split
  · exact .make_bind (hW.enter name hf.1 span) hbound
  · exact Run.Mirrors.bind (mirrors_bindingTarget hW hf name name span) hbound

theorem mirrors_assign (hsub : sub.Mirrors z z') (hW : W.Mirrors z z' h h') (hf : W.Open z f f')
    {span : Span} {name : String} {topLevel : Bool} {node : Node} (hlexical : node.Lexical)
    (hn : node.IsStatement) :
    Run.Mirrors z z' W (assign sub span name topLevel node f)
      (assign sub span name topLevel node f') h h' (Outcome.Mirrors z statement) := by
  rw [assign_eq_bindKept, assign_eq_bindKept]
  apply Run.Mirrors.bind (mirrors_value hsub hW hf.1 hlexical hn fun _ => hf.2)
  intro X k k' given given' hX hheaps hgiven
  have hfX := hf.mono hX
  -- A value that defines no placeholder.
  have hother : ∀ {w w' : Value}, w.Match X w' → Run.Mirrors z z' X
      (do
        if topLevel && (← .read fun heap => (heap.lookup f name).isSome) then
          .fail (.alreadyBound name) span f
        else bindKept span name f w : Run Outcome)
      (do
        if topLevel && (← .read fun heap => (heap.lookup f' name).isSome) then
          .fail (.alreadyBound name) span f'
        else bindKept span name f' w') k k' (Outcome.Mirrors z statement) := by
    intro w w' hw
    have hsome : (k.lookup f name).isSome = (k'.lookup f' name).isSome := by
      have hlook := hheaps.lookup hfX.1 name
      generalize k.lookup f name = o at hlook
      generalize k'.lookup f' name = o' at hlook
      cases hlook <;> rfl
    refine .read_bind ?_
    rw [hsome]
    split
    · exact .fail hheaps hfX.1
    · exact mirrors_bindKept hheaps hfX span name hw
  refine .read_bind ?_
  have hplaceholder := hheaps.placeholder? hfX.1 name
  generalize hp : k.placeholder? f name = o at hplaceholder
  generalize k'.placeholder? f' name = o' at hplaceholder
  have hvalue := hgiven.value
  obtain ⟨v, gspan, owner⟩ := given
  obtain ⟨v', gspan', owner'⟩ := given'
  cases hplaceholder with
  | none => exact hother hvalue
  | some hpp =>
      cases hvalue with
      | function hg =>
          have hdefined := hheaps.initializeFrom hpp (placeholder?_eq_some.mp hp).2 hg
          exact .change_bind (mirrors_bindKept hdefined hfX span name (.function hpp))
      | number x => exact hother (.number x)
      | bool b => exact hother (.bool b)
      | null => exact hother .null
      | text s => exact hother (.text s)
      | list helements => exact hother (.list helements)
      | encap hfields hinherited hscope => exact hother (.encap hfields hinherited hscope)
      | empty => exact hother .empty

theorem mirrors_statements (hsub : sub.Mirrors z z') {body : List Node}
    (hlexical : Node.AllLexical body) (hn : Node.AllFit true body) {outcome outcome' : Outcome}
    (hW : W.Mirrors z z' h h') (hout : outcome.Mirrors z true W outcome') :
    Run.Mirrors z z' W (statements sub body outcome) (statements sub body outcome') h h'
      (Outcome.Mirrors z true) := by
  induction body generalizing W h h' outcome outcome' with
  | nil => exact .pure hW hout
  | cons statement rest ih =>
      apply Run.Mirrors.bind (hsub hW hout.frame hlexical.1 hn.1 fun _ => .inr (hout.opened rfl))
      intro X k k' next next' hX hheaps hnext
      cases statement
      case block =>
        exact ih hlexical.2 hn.2 hheaps ⟨⟨hnext.result, hX.frames hout.frame⟩, hout.opened⟩
      all_goals exact ih hlexical.2 hn.2 hheaps ⟨⟨hnext.result, hnext.frame⟩, hnext.opened⟩

theorem mirrors_block (hsub : sub.Mirrors z z') (hW : W.Mirrors z z' h h') (hf : W.frames f f')
    {span : Span} {body : List Node} (hlexical : Node.AllLexical body)
    (hn : Node.AllFit true body) :
    Run.Mirrors z z' W (block sub span body f) (block sub span body f') h h'
      (Outcome.Mirrors z true) := by
  refine .make_bind (hW.enter "<block>" hf span) ?_
  intro X k k' scope scope' _ hheaps hscope
  exact mirrors_statements hsub hlexical hn hheaps (.give .empty hscope.1 fun _ => hscope.2)

theorem mirrors_result (hsub : sub.Mirrors z z') (hW : W.Mirrors z z' h h') (hf : W.frames f f')
    {span : Span} {node : Option Node} (hlexical : Node.OptionLexical node)
    (hn : Node.OptionFits false node) :
    Run.Mirrors z z' W (result sub span node f) (result sub span node f') h h'
      (Outcome.Mirrors z statement) := by
  cases node with
  | none => exact .raise hW (.returned ⟨.null, rfl, .some hf⟩)
  | some node =>
      apply Run.Mirrors.bind (mirrors_expression hsub hW hf hlexical hn)
      intro X k k' v v' _ hheaps hv
      exact .raise hheaps (.returned hv)

/-! ### Nodes -/

theorem mirrors_node (limits : Limits) (bound : Nat) (hsub : sub.Mirrors z z') :
    Evaluator.Mirrors z z' (node limits bound sub) := by
  intro W h h' f f' n statement hW hf hlexical hn hplace
  cases n with
  | block span mayDeclare body =>
      obtain ⟨rfl, hbody⟩ := hn
      exact mirrors_block hsub hW hf hlexical hbody
  | number span x =>
      exact .pure hW (.give (.number x) hf fun hst => (hplace hst).resolve_left id)
  | text span s => exact .pure hW (.give (.text s) hf fun hst => (hplace hst).resolve_left id)
  | list span elements =>
      exact mirrors_list hsub hW hf hlexical hn fun hst => (hplace hst).resolve_left id
  | binary span op left right =>
      exact mirrors_binary hsub hW hf hlexical.1 hlexical.2 hn.1 hn.2
        fun hst => (hplace hst).resolve_left id
  | unary span op operand =>
      exact mirrors_unary hsub hW hf hlexical hn fun hst => (hplace hst).resolve_left id
  | assign span name topLevel value =>
      obtain ⟨rfl, hvalue⟩ := hn
      exact mirrors_assign hsub hW ⟨hf, (hplace rfl).resolve_left id⟩ hlexical hvalue
  | ident span name => exact mirrors_ident hW hf fun hst => (hplace hst).resolve_left id
  | conditional span producesValue condition thenBranch elseBranch =>
      exact mirrors_conditional hsub hW hf hlexical hn fun hst => (hplace hst).resolve_left id
  | function span name params autoReturn body =>
      exact mirrors_function hW hf hlexical hn fun hst => (hplace hst).resolve_left id
  | declaration span name placeholder =>
      obtain ⟨rfl, hplaceholder⟩ := hn
      exact mirrors_declaration hW ⟨hf, (hplace rfl).resolve_left id⟩ hlexical hplaceholder
  | call span callee arguments =>
      exact mirrors_call hsub hW hf hlexical.1 hlexical.2 hn.1 hn.2
        fun hst => (hplace hst).resolve_left id
  | result span value => exact mirrors_result hsub hW hf hlexical hn.2
  | stopLoop span => exact .raise hW (.exited hf)
  | nextTurn span => exact .raise hW (.exited hf)
  | whileLoop span condition body =>
      obtain ⟨rfl, hcondition, hbody⟩ := hn
      exact mirrors_whileTurns hsub hlexical.1 hlexical.2 hcondition hbody bound hW
        (.give .null hf fun _ => (hplace rfl).resolve_left id)
  | forLoop span name comprehension source body filter =>
      exact mirrors_forLoop hsub hW hf hlexical hn fun hst => (hplace hst).resolve_left id
  | encap span typeName strict body parent => exact hlexical.elim
  | prev span expression => exact hlexical.elim

/-- A node that sees the heap only through names is evaluated in the same way on heaps that look
alike. -/
theorem mirrors_eval (z z' : Horizon) (limits : Limits) (fuel : Nat) :
    Evaluator.Mirrors z z' (eval limits fuel) := by
  induction fuel with
  | zero => exact fun _ _ _ _ _ => .exhausted
  | succ fuel ih => exact mirrors_node limits fuel ih

end CapsuleScript.Evaluation
