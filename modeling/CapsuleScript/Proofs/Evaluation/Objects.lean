import CapsuleScript.Proofs.Evaluation.Statements

/-! Object literals in two parts: up to the end of the body, and the making of the object from what
the body has left. Both evolve the heap, and so does every node. -/

namespace CapsuleScript.Evaluation

open Heap

variable {fresh : Nat} {h k : Heap} {f : FrameId} {statement : Bool} {sub : Evaluator}

/-- What an object literal has when its body has run: the object it inherits from, the frame under
its body, the table at which the scope around it was spliced in, the table of that scope and the
frame that the body leaves. -/
structure Built where
  parent : Option Capsule
  base : FrameId
  point : Option TableId
  around : TableId
  last : FrameId

/-- An object literal up to the end of its body. -/
def built (sub : Evaluator) (span : Span) (body : Node) (parentNode : Option Node) (f : FrameId) :
    Run Built := do
  let parent ← parentNode.mapM fun node => parent sub span node f
  let (base, point) ← base span parent f
  let around ← .read fun heap => (heap.frame f).table
  let outcome ← sub body base
  return ⟨parent, base, point, around, outcome.frame⟩

/-- The frames from the end of the body back to the frame `f` around the literal. -/
def Built.frames (b : Built) (f : FrameId) (heap : Heap) : List FrameId :=
  (heap.ancestry b.last).takeWhile (· ≠ f)

/-- An object literal from the end of its body on. -/
def sealed (limit : Nat) (span : Span) (typeName : Option String) (strict : Bool) (f : FrameId)
    (b : Built) : Run Outcome := do
  let frames ← .read (b.frames f)
  if strict then cutFrames span b.around limit frames
  let fields ← .read fun heap => fields heap (frames.takeWhile (· ≠ b.base))
  if strict then b.point.forM fun t => Run.change (cut · b.around t)
  let scope ← .make (objectScope span typeName strict b.last fields)
  let inherited := b.parent.elim [] Capsule.members
  let types := b.parent.elim [] Capsule.types ++ typeName.toList
  return give (.encap fields inherited types scope) span f

theorem encap_eq_built_sealed (sub : Evaluator) (limit : Nat) (span : Span)
    (typeName : Option String) (strict : Bool) (body : Node) (parentNode : Option Node)
    (f : FrameId) :
    encap sub limit span typeName strict body parentNode f =
      built sub span body parentNode f >>= sealed limit span typeName strict f := by
  unfold encap built
  simp only [Run.bind_assoc]
  rfl

/-! ### Up to the end of the body -/

theorem evolves_parent (hsub : sub.Evolves) (hr : h.Ready fresh f) {span : Span} {node : Node}
    (hn : node.IsExpression) :
    (parent sub span node f).Evolves fresh h fun c k => c.Lives k := by
  apply Run.Evolves.bind hr.sound (evolves_expression hsub hr hn)
  intro v k _ _ hlive
  split
  · rename_i c hc
    exact .pure (.of_capsule? hlive hc)
  · exact .fail

theorem evolves_parents (hsub : sub.Evolves) (hr : h.Ready fresh f) {span : Span}
    {node : Option Node} (hn : Node.OptionFits false node) :
    (node.mapM fun node => parent sub span node f).Evolves fresh h fun parent k =>
      ∀ c, parent = some c → c.Lives k := by
  cases node with
  | none => exact .pure (by simp)
  | some node =>
      apply Run.Evolves.bind hr.sound (evolves_parent hsub hr hn)
      intro c k _ _ hc
      refine .pure fun d hd => ?_
      cases hd
      exact hc

theorem evolves_base (hr : h.Ready fresh f) {span : Span} {parent : Option Capsule}
    (hparent : ∀ c, parent = some c → c.Lives h) :
    (base span parent f).Evolves fresh h fun made k => k.HasFrame made.1 := by
  cases parent with
  | none => exact .pure hr.hasFrame
  | some c =>
      refine .read_bind ?_
      have hscope := (hparent c rfl).2.2
      have ht := hr.sound.hasTable hscope
      have hf := hr.sound.hasTable hr.hasFrame
      have hsplice : Steps fresh h (h.splice (h.frame c.scope).table (h.frame f).table).2 :=
        hr.sound.steps_splice ht hf
      refine .make_bind hsplice ?_
      cases hpoint : (h.splice (h.frame c.scope).table (h.frame f).table).1 with
      | none => exact .fail
      | some point =>
          have hmem := hr.sound.mem_chain_splice ht hf hpoint
          have hr' := hr.steps hsplice
          have hframe := hsplice.keeps.frame hr.hasFrame
          have hscope' := hsplice.keeps.frame hscope
          have hhas := hsplice.keeps.hasFrame hscope
          generalize (h.splice (h.frame c.scope).table (h.frame f).table).2 = k at *
          have hshared : Step fresh k
              (k.enterTable "<inherits>" (h.frame c.scope).table f span).2 := by
            refine .shared ⟨c.scope, hhas, by rw [hscope']⟩ rfl hr'.hasFrame ?_
            rw [hframe]
            exact hmem
          refine .make_bind (.single hshared) (.pure ?_)
          simp [enterTable_eq, HasFrame]

/-- What a literal has when its body has run is alive, and the scope around it is that of the frame
`f`. -/
structure Built.Lives (f : FrameId) (b : Built) (k : Heap) : Prop where
  parent : ∀ c, b.parent = some c → c.Lives k
  last : k.HasFrame b.last
  around : b.around = (k.frame f).table

theorem evolves_built (hsub : sub.Evolves) (hr : h.Ready fresh f) {span : Span} {body : Node}
    {parentNode : Option Node} (hblock : body.IsBlock) (hbody : body.IsStatement)
    (hparent : Node.OptionFits false parentNode) :
    (built sub span body parentNode f).Evolves fresh h (Built.Lives f) := by
  apply Run.Evolves.bind hr.sound (evolves_parents hsub hr hparent)
  intro parent k hk hs hlives
  apply Run.Evolves.bind hk (evolves_base (hr.steps hs) hlives)
  rintro ⟨base, point⟩ l hl hs' hbase
  have hrl := (hr.steps hs).steps hs'
  refine .read_bind ?_
  apply Run.Evolves.bind hl (hsub ⟨hl, hrl.le, hbase⟩ hbody fun _ => .inl hblock)
  intro out m _ hs'' hout
  have hkeeps := hs''.keeps
  refine .pure ⟨fun c hc => ?_, hout.hasFrame, ?_⟩
  · exact ((hlives c hc).keeps hs'.keeps).keeps hkeeps
  · exact congrArg Frame.table (hkeeps.frame hrl.hasFrame).symm

/-! ### From the end of the body on -/

theorem evolves_cutFrames {span : Span} {around : TableId} {limit : Nat} {frames : List FrameId} :
    (cutFrames span around limit frames).Evolves fresh h fun _ _ => True := by
  induction frames generalizing h limit with
  | nil => cases limit <;> exact .pure trivial
  | cons frame rest ih =>
      cases limit with
      | zero => exact .fail
      | succ limit => exact .change_bind (steps_cut _ _) ih

theorem evolves_sealed (hr : h.Ready fresh f) {limit : Nat} {span : Span}
    {typeName : Option String} {strict : Bool} {b : Built} (hb : b.Lives f h)
    (hw : statement = true → h.Writable fresh f) :
    (sealed limit span typeName strict f b).Evolves fresh h (Outcome.GoesOn fresh statement f) := by
  refine .read_bind ?_
  -- The object is made on any heap that is a few cuts away.
  have hmake : ∀ {k l : Heap} {fields : Bindings Value}, Steps fresh h k →
      Value.EntriesLive k fields → Steps fresh k l →
      (do
        let scope ← Run.make (objectScope span typeName strict b.last fields)
        return give (.encap fields (b.parent.elim [] Capsule.members)
          (b.parent.elim [] Capsule.types ++ typeName.toList) scope) span f).Evolves fresh l
            (Outcome.GoesOn fresh statement f) := by
    intro k l fields hs hfields hs'
    have hl : Steps fresh h l := hs.trans hs'
    have hkeeps := hl.keeps
    have hfields' := hfields.mono hs'.keeps.frames hs'.keeps.functions
    have hscope : Step fresh l (objectScope span typeName strict b.last fields l).2 :=
      (hl.sound hr.sound).step_objectScope span typeName strict (hkeeps.hasFrame hb.last) hfields'
    have hkeeps' := hkeeps.trans hscope.keeps
    refine .make_bind (.single hscope) (.pure (.give ⟨?_, ?_, ?_⟩ ?_ fun hst => ?_))
    · exact hfields'.mono hscope.keeps.frames hscope.keeps.functions
    · cases hparent : b.parent with
      | none => trivial
      | some c => exact ((hb.parent c hparent).keeps hkeeps').members
    · exact hasFrame_objectScope _ _ _ _ _
    · exact hkeeps'.hasFrame hr.hasFrame
    · exact hkeeps'.writable (hw hst)
  split
  · apply Run.Evolves.bind hr.sound evolves_cutFrames
    intro _ k hk hs _
    refine .read_bind ?_
    have hfields := entriesLive_fields hk ((b.frames f h).takeWhile (· ≠ b.base))
    cases hpoint : b.point with
    | none => exact hmake hs hfields .refl
    | some t => exact .change_bind (steps_cut _ _) (hmake hs hfields (steps_cut _ _))
  · exact .read_bind (hmake .refl (entriesLive_fields hr.sound _) .refl)

theorem evolves_encap (hsub : sub.Evolves) (hr : h.Ready fresh f) {limit : Nat} {span : Span}
    {typeName : Option String} {strict : Bool} {body : Node} {parentNode : Option Node}
    (hblock : body.IsBlock) (hbody : body.IsStatement) (hparent : Node.OptionFits false parentNode)
    (hw : statement = true → h.Writable fresh f) :
    (encap sub limit span typeName strict body parentNode f).Evolves fresh h
      (Outcome.GoesOn fresh statement f) := by
  rw [encap_eq_built_sealed]
  apply Run.Evolves.bind hr.sound (evolves_built hsub hr hblock hbody hparent)
  intro b k _ hs hb
  exact evolves_sealed (hr.steps hs) hb fun hst => hs.keeps.writable (hw hst)

end CapsuleScript.Evaluation
