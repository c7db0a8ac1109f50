import CapsuleScript.Proofs.Evaluation.Objects
import CapsuleScript.Proofs.Matching.Statements

/-! Object literals, and with them all nodes and programs, end in the same way on matched heaps. -/

namespace CapsuleScript.Evaluation

variable {W X : Matching} {h h' : Heap} {f f' : FrameId} {sub : Evaluator}

/-! ### Object literals -/

theorem matches_parents (hsub : sub.Matches) (hW : W.Heaps h h') (hf : W.frames f f') (span : Span)
    (node : Option Node) :
    Run.Matches W (node.mapM fun node => parent sub span node f)
      (node.mapM fun node => parent sub span node f') h h'
      fun X => Option.Rel (Capsule.Match X) := by
  cases node with
  | none => exact .pure hW .none
  | some node =>
      have hparent : Run.Matches W (parent sub span node f) (parent sub span node f') h h'
          Capsule.Match := by
        apply Run.Matches.bind (matches_value hsub hW hf node)
        intro X k k' v v' hX hheaps hv
        have hcapsule := hv.value.capsule?
        generalize v.value.capsule? = o at hcapsule
        generalize v'.value.capsule? = o' at hcapsule
        cases hcapsule with
        | none => exact .fail hheaps (hX.frames hf)
        | some hc => exact .pure hheaps hc
      apply Run.Matches.bind hparent
      intro X k k' c c' _ hheaps hc
      exact .pure hheaps (.some hc)

theorem matches_base (hW : W.Heaps h h') (hf : W.frames f f') (span : Span)
    {parent parent' : Option Capsule} (hparent : Option.Rel (Capsule.Match W) parent parent') :
    Run.Matches W (base span parent f) (base span parent' f') h h' fun X made made' =>
      X.frames made.1 made'.1 ∧ Option.Rel X.tables made.2 made'.2 := by
  cases hparent with
  | none => exact .pure hW ⟨hf, .none⟩
  | some hc =>
      have hscope := (hW.frame hc.scope).2.2.table
      refine .read_bind ?_
      refine .make_bind (hW.splice hscope (hW.frame hf).2.2.table) ?_
      intro X k k' point point' hX hheaps hpoint
      cases hpoint with
      | none => exact .fail hheaps (hX.frames hf)
      | some ht =>
          refine .make_bind (hheaps.enterTable _ (hX.tables hscope) (hX.frames hf) span) ?_
          intro Y l l' frame frame' hY hheaps' hframe
          exact .pure hheaps' ⟨hframe, .some (hY.tables ht)⟩

/-- The literals have come to the same when their bodies have run. -/
structure Built.Match (W : Matching) (b b' : Built) : Prop where
  parent : Option.Rel (Capsule.Match W) b.parent b'.parent
  base : W.frames b.base b'.base
  point : Option.Rel W.tables b.point b'.point
  around : W.tables b.around b'.around
  last : W.frames b.last b'.last

theorem matches_built (hsub : sub.Matches) (hW : W.Heaps h h') (hf : W.frames f f') (span : Span)
    (body : Node) (parentNode : Option Node) :
    Run.Matches W (built sub span body parentNode f) (built sub span body parentNode f') h h'
      Built.Match := by
  apply Run.Matches.bind (matches_parents hsub hW hf span parentNode)
  intro X k k' parent parent' hX hheaps hparent
  apply Run.Matches.bind (matches_base hheaps (hX.frames hf) span hparent)
  rintro Y l l' ⟨base, point⟩ ⟨base', point'⟩ hY hheaps' ⟨hbase, hpoint⟩
  refine .read_bind ?_
  have haround := (hheaps'.frame (hY.frames (hX.frames hf))).2.2.table
  apply Run.Matches.bind (hsub body hheaps' hbase)
  intro Z m m' out out' hZ hheaps'' hout
  have hparent' := rel_mono (fun hc => hc.mono (hY.trans hZ)) hparent
  exact .pure hheaps'' ⟨hparent', hZ.frames hbase, rel_mono hZ.tables hpoint, hZ.tables haround,
    hout.frame⟩

/-- Ways back are followed equally far up to matched frames. -/
theorem forall₂_takeWhile (hW : W.Heaps h h') {frames frames' : List FrameId}
    (hframes : List.Forall₂ W.frames frames frames') (hf : W.frames f f') :
    List.Forall₂ W.frames (frames.takeWhile (· ≠ f)) (frames'.takeWhile (· ≠ f')) := by
  induction hframes with
  | nil => exact .nil
  | @cons e e' _ _ he _ ih =>
      have hiff := hW.frames_eq he hf
      by_cases heq : e = f
      · simp [heq, hiff.mp heq]
      · have hne' : e' ≠ f' := fun heq' => heq (hiff.mpr heq')
        simpa [List.takeWhile_cons, heq, hne'] using ⟨he, by simpa using ih⟩

theorem matches_cutFrames (span : Span) (limit : Nat) {around around' : TableId}
    {frames frames' : List FrameId} (hW : W.Heaps h h') (haround : W.tables around around')
    (hframes : List.Forall₂ W.frames frames frames') :
    Run.Matches W (cutFrames span around limit frames) (cutFrames span around' limit frames') h h'
      fun _ _ _ => True := by
  induction frames generalizing W h h' limit frames' with
  | nil =>
      cases hframes
      cases limit <;> exact .pure hW trivial
  | cons e rest ih =>
      cases hframes with
      | cons he hrest =>
          cases limit with
          | zero => exact .fail hW he
          | succ limit =>
              refine .change_bind (hW.cut haround (hW.frame he).2.2.table) ?_
              intro X k k' hX hheaps
              exact ih limit hheaps (hX.tables haround) (hrest.imp fun _ _ hr => hX.frames hr)

theorem matches_sealed (hW : W.Heaps h h') (hf : W.frames f f') (limit : Nat) (span : Span)
    (typeName : Option String) (strict : Bool) {b b' : Built} (hb : b.Match W b') :
    Run.Matches W (sealed limit span typeName strict f b) (sealed limit span typeName strict f' b')
      h h' Outcome.Match := by
  have hframes : List.Forall₂ W.frames (b.frames f h) (b'.frames f' h') :=
    forall₂_takeWhile hW (hW.ancestry hb.last) hf
  refine .read_bind ?_
  -- The objects are made on heaps that are matched by more.
  have hmake : ∀ {X : Matching} {k k' : Heap} {fields fields' : Bindings Value}, W.Extends X →
      X.Heaps k k' → Value.EntriesMatch X fields fields' → Run.Matches X
        (do
          let scope ← Run.make (objectScope span typeName strict b.last fields)
          return give (.encap fields (b.parent.elim [] Capsule.members)
            (b.parent.elim [] Capsule.types ++ typeName.toList) scope) span f)
        (do
          let scope ← Run.make (objectScope span typeName strict b'.last fields')
          return give (.encap fields' (b'.parent.elim [] Capsule.members)
            (b'.parent.elim [] Capsule.types ++ typeName.toList) scope) span f') k k'
        Outcome.Match := by
    intro X k k' fields fields' hX hheaps hfields
    refine .make_bind (hheaps.objectScope span typeName strict (hX.frames hb.last) hfields) ?_
    intro Y l l' scope scope' hY hheaps' hscope
    have hparent := hb.parent
    generalize b.parent = o at hparent
    generalize b'.parent = o' at hparent
    refine .pure hheaps' (.give ?_ (hY.frames (hX.frames hf)))
    cases hparent with
    | none => exact .encap (hfields.mono hY) .nil hscope
    | some hc =>
        have hmembers := hc.members.mono (hX.trans hY)
        simp only [Option.elim, hc.types]
        exact .encap (hfields.mono hY) hmembers hscope
  cases strict with
  | false => exact .read_bind (hmake (.refl W) hW (hW.fields (forall₂_takeWhile hW hframes hb.base)))
  | true =>
      apply Run.Matches.bind (matches_cutFrames span limit hW hb.around hframes)
      intro X k k' _ _ hX hheaps _
      refine .read_bind ?_
      have hframes' := hframes.imp fun _ _ hr => hX.frames hr
      have hfields := hheaps.fields (forall₂_takeWhile hheaps hframes' (hX.frames hb.base))
      have hpoint := hb.point
      obtain ⟨parent, base, point, around, last⟩ := b
      obtain ⟨parent', base', point', around', last'⟩ := b'
      cases hpoint with
      | none => exact hmake hX hheaps hfields
      | some ht =>
          refine .change_bind (hheaps.cut (hX.tables hb.around) (hX.tables ht)) ?_
          intro Y l l' hY hheaps'
          exact hmake (hX.trans hY) hheaps' (hfields.mono hY)

theorem matches_encap (hsub : sub.Matches) (hW : W.Heaps h h') (hf : W.frames f f') (limit : Nat)
    (span : Span) (typeName : Option String) (strict : Bool) (body : Node)
    (parentNode : Option Node) :
    Run.Matches W (encap sub limit span typeName strict body parentNode f)
      (encap sub limit span typeName strict body parentNode f') h h' Outcome.Match := by
  rw [encap_eq_built_sealed, encap_eq_built_sealed]
  apply Run.Matches.bind (matches_built hsub hW hf span body parentNode)
  intro X k k' b b' hX hheaps hb
  exact matches_sealed hheaps (hX.frames hf) limit span typeName strict hb

/-! ### Nodes and programs -/

theorem matches_node (limits : Limits) (bound : Nat) (hsub : sub.Matches) :
    Evaluator.Matches (node limits bound sub) := by
  intro W h h' f f' n hW hf
  cases n with
  | number span x => exact .pure hW (.give (.number x) hf)
  | text span s => exact .pure hW (.give (.text s) hf)
  | list span elements => exact matches_list hsub hW hf span elements
  | binary span op left right => exact matches_binary hsub hW hf span op left right
  | unary span op operand => exact matches_unary hsub hW hf span op operand
  | assign span name topLevel value => exact matches_assign hsub hW hf span name topLevel value
  | ident span name => exact matches_ident hW hf span name
  | block span mayDeclare body => exact matches_block hsub hW hf span body
  | conditional span producesValue condition thenBranch elseBranch =>
      exact matches_conditional hsub hW hf span producesValue condition thenBranch elseBranch
  | function span name params autoReturn body =>
      exact matches_function hW hf span name params autoReturn body
  | declaration span name placeholder => exact matches_declaration hW hf span name placeholder
  | call span callee arguments => exact matches_call hsub hW hf span callee arguments
  | result span value => exact matches_result hsub hW hf span value
  | stopLoop span => exact .raise hW (.exited hf)
  | nextTurn span => exact .raise hW (.exited hf)
  | whileLoop span condition body =>
      exact matches_whileTurns hsub condition body bound hW (.give .null hf)
  | forLoop span name comprehension source body filter =>
      exact matches_forLoop hsub hW hf span name comprehension source body filter
  | encap span typeName strict body parent =>
      exact matches_encap hsub hW hf limits.nesting span typeName strict body parent
  | prev span expression => exact matches_prev hsub hW hf span expression

/-- Every evaluation ends in the same way on matched heaps, in matched frames. -/
theorem matches_eval (limits : Limits) (fuel : Nat) : Evaluator.Matches (eval limits fuel) := by
  induction fuel with
  | zero => exact fun _ _ _ => .exhausted
  | succ fuel ih => exact matches_node limits fuel ih

theorem matches_programFrom (hsub : sub.Matches) (body : List Node) {outcome outcome' : Outcome}
    (hW : W.Heaps h h') (hout : outcome.Match W outcome') :
    Run.Matches W (programFrom sub body outcome) (programFrom sub body outcome') h h'
      Outcome.Match := by
  induction body generalizing W h h' outcome outcome' with
  | nil => exact .pure hW hout
  | cons statement rest ih =>
      apply Run.Matches.bind (hsub statement hW hout.frame).attempt
      intro X k k' ending ending' hX hheaps hending
      cases hending with
      | ok hnext => exact ih hheaps hnext
      | error hsignal =>
          cases hsignal with
          | returned hs => exact .pure hheaps ⟨hs, hX.frames hout.frame⟩
          | exited he => exact .raise hheaps (.exited he)
          | failed hfault => exact .raise hheaps (.failed hfault)

theorem matches_program (limits : Limits) (fuel : Nat) (n : Node) (hW : W.Heaps h h')
    (hf : W.frames f f') :
    Run.Matches W (program limits fuel n f) (program limits fuel n f') h h' Outcome.Match := by
  cases n
  case block span mayDeclare body =>
    exact matches_programFrom (matches_eval limits fuel) body hW (.give .empty hf)
  all_goals exact matches_eval limits fuel _ hW hf

end CapsuleScript.Evaluation
