import CapsuleScript.Proofs.Sealing.Statements

/-! Object literals seal the heap: the table of the new scope is sealed, and from it the scope of the
object that is inherited from is seen, unless that was cut off. So every node seals the heap, and so
do programs. -/

namespace CapsuleScript.Evaluation

open Heap

variable {S T : TableId → Prop} {h k : Heap} {f : FrameId} {statement : Bool} {sub : Evaluator}

/-! ### Up to the end of the body -/

theorem seals_parents (hsub : sub.Seals) (hS : h.Sealing S) (hf : h.HasFrame f) {span : Span}
    {node : Option Node} (hn : Node.OptionFits false node) :
    (node.mapM fun node => parent sub span node f).Seals S h fun T parent k =>
      ∀ c, parent = some c → c.toValue.Settled T k := by
  cases node with
  | none => exact .pure hS (by simp)
  | some node =>
      have hparent : (parent sub span node f).Seals S h fun T c k => c.toValue.Settled T k := by
        refine .bind (seals_expression hsub hS hf hn) fun v T k _ hk hv => ?_
        split
        · rename_i c hc
          exact .pure hk.sealing (hv.of_capsule? hc)
        · exact .fail hk.sealing
      refine .bind hparent fun c T k _ hk hc => .pure hk.sealing fun d hd => ?_
      cases hd
      exact hc

theorem seals_base (hS : h.Sealing S) (hf : h.HasFrame f) {span : Span} {parent : Option Capsule}
    (hparent : ∀ c, parent = some c → c.toValue.Settled S h) :
    (base span parent f).Seals S h fun _ made k => k.HasFrame made.1 ∧
      ∀ c, parent = some c → h.frames.size ≤ made.1.index ∧
        (k.frame made.1).table = (h.frame c.scope).table := by
  cases parent with
  | none => exact .pure hS ⟨hf, by simp⟩
  | some c =>
      have hscope := (hparent c rfl).live.2.2
      have ht := hS.sound.hasTable hscope
      have hq := hS.sound.hasTable hf
      have hk := Later.splice hS ht hq
      refine .read_bind (.make_bind hk ?_)
      cases hpoint : (h.splice (h.frame c.scope).table (h.frame f).table).1 with
      | none => exact .fail hk.sealing
      | some point =>
          have hmem := hS.sound.mem_chain_splice ht hq hpoint
          have hkeeps := hk.steps.keeps
          have hframe := hkeeps.frame hf
          have hscope' := hkeeps.frame hscope
          generalize (h.splice (h.frame c.scope).table (h.frame f).table).2 = k at *
          have hshared : Step 0 k (k.enterTable "<inherits>" (h.frame c.scope).table f span).2 := by
            refine .shared ⟨c.scope, hkeeps.hasFrame hscope, by rw [hscope']⟩ rfl
              (hkeeps.hasFrame hf) ?_
            rw [hframe]
            exact hmem
          have hl : Later S k S (k.enterTable "<inherits>" (h.frame c.scope).table f span).2 :=
            .of_steps hk.sealing (.single hshared)
              (Later.root_addFrame hk.sealing (hk.sealing.root f)) fun _ => .inl rfl
          refine .make_bind hl (.pure hl.sealing ⟨by simp [enterTable_eq, HasFrame], ?_⟩)
          intro d hd
          cases hd
          exact ⟨hkeeps.frames, by simp only [enterTable_eq, frame_addFrame_self]⟩

/-- What a literal has when its body has run: from the end of the body the scope of the object that
it inherits from is seen. -/
structure Built.Settled (S : TableId → Prop) (b : Built) (h : Heap) : Prop where
  parent : ∀ c, b.parent = some c → c.toValue.Settled S h
  last : h.HasFrame b.last
  sees : ∀ c, b.parent = some c → h.Sees (h.frame b.last).table (h.frame c.scope).table

theorem seals_built (hevolves : sub.Evolves) (hsub : sub.Seals) (hS : h.Sealing S)
    (hf : h.HasFrame f) {span : Span} {body : Node} {parentNode : Option Node}
    (hblock : body.IsBlock) (hbody : body.IsStatement)
    (hparent : Node.OptionFits false parentNode) :
    (built sub span body parentNode f).Seals S h Built.Settled := by
  refine .bind (seals_parents hsub hS hf hparent) fun parent T k _ hk hsettled => ?_
  refine .bind (seals_base hk.sealing (hk.hasFrame hf) hsettled) fun made U l _ hl hmade => ?_
  obtain ⟨hbase, hinherits⟩ := hmade
  refine .read_bind ?_
  refine .bind (hsub hl.sealing hbase hbody fun _ => .inl hblock) fun out V m hend hm hout => ?_
  have hready : l.Ready 0 made.1 := ⟨hl.sealing.sound, Nat.zero_le _, hbase⟩
  have hgoes := ((hevolves hready hbody fun _ => .inl hblock).done_of hend).2
  have hlater := hl.trans hm
  refine .pure hm.sealing ⟨fun c hc => ?_, hgoes.hasFrame, fun c hc => ?_⟩
  · exact (hsettled c hc).spares hk.sealing.sound hlater.toSpares
  · obtain ⟨hnew, htable⟩ := hinherits c hc
    have hscope := (hsettled c hc).live.2.2
    have hlinked := Steps.linked hk.sealing.sound hlater.steps
    have hseen := (hlinked.mem_chain_of_descends hm.sealing.sound hnew hgoes.hasFrame
      hgoes.descends).2
    rw [hm.steps.keeps.frame hbase, htable, ← hlater.steps.keeps.frame hscope] at hseen
    exact hseen.imp_right fun ⟨x, hx, _, howned⟩ => ⟨x, hx, howned⟩

/-! ### From the end of the body on -/

theorem seals_cutFrames {span : Span} {around : TableId} {limit : Nat} {frames : List FrameId}
    (hS : h.Sealing S) :
    (cutFrames span around limit frames).Seals S h fun _ _ _ => True := by
  induction frames generalizing h limit with
  | nil => cases limit <;> exact .pure hS trivial
  | cons frame rest ih =>
      cases limit with
      | zero => exact .fail hS
      | succ limit =>
          have hk := Later.cut hS around (h.frame frame).table
          exact .change_bind hk (ih hk.sealing)

/-- The fields of an object come from tables, and none is named twice. -/
theorem mem_fields {frames : List FrameId} : (fields h frames).Distinct ∧
    ∀ e ∈ fields h frames, ∃ t, e ∈ (h.table t).bindings := by
  have hfold : ∀ (frames : List FrameId) (bs : Bindings Value), bs.Distinct →
      (∀ e ∈ bs, ∃ t, e ∈ (h.table t).bindings) →
      Bindings.Distinct (frames.foldl
        (fun bound f => Bindings.override bound (h.table (h.frame f).table).bindings) bs) ∧
      ∀ e ∈ frames.foldl
        (fun bound f => Bindings.override bound (h.table (h.frame f).table).bindings) bs,
        ∃ t, e ∈ (h.table t).bindings := by
    intro frames
    induction frames with
    | nil => exact fun bs hdistinct hbs => ⟨hdistinct, hbs⟩
    | cons f rest ih =>
        intro bs hdistinct hbs
        refine ih _ (hdistinct.override _) fun e he => ?_
        rcases Bindings.mem_of_mem_override he with hmem | hmem
        · exact hbs e hmem
        · exact ⟨_, hmem⟩
  exact hfold _ _ List.nodup_nil (by simp)

theorem objectScope_eq (span : Span) (typeName : Option String) (strict : Bool) (body : FrameId)
    (fields : Bindings Value) : ∃ frame : Frame,
      objectScope span typeName strict body fields h = (⟨h.frames.size⟩,
        (h.newTable (some (h.frame body).table) fields).2.addFrame frame) ∧
      frame.table = ⟨h.tables.size⟩ ∧ frame.root = (h.frame body).root := by
  cases strict with
  | true => exact ⟨_, rfl, rfl, rfl⟩
  | false => exact ⟨_, rfl, rfl, rfl⟩

/-- The object is made on any heap in which its fields and the object that it inherits from are
settled. -/
theorem seals_make (hS : h.Sealing S) {b : Built} (hb : b.Settled S h) {span : Span}
    {typeName : Option String} {strict : Bool} {fields : Bindings Value}
    (hfields : ∀ e ∈ fields, e.2.Settled S h) (hdistinct : fields.Distinct)
    (hfree : statement = true → h.Free S f) :
    (do
      let scope ← Run.make (objectScope span typeName strict b.last fields)
      return give (.encap fields (b.parent.elim [] Capsule.members)
        (b.parent.elim [] Capsule.types ++ typeName.toList) scope) span f).Seals S h
          (Outcome.Settled statement f) := by
  have hbelow := hS.sound.hasTable hb.last
  have hstep : Step 0 h (objectScope span typeName strict b.last fields h).2 :=
    hS.sound.step_objectScope span typeName strict hb.last
      (Value.entriesLive_iff.mpr fun e he => (hfields e he).live)
  obtain ⟨frame, heq, htable, hroot⟩ := objectScope_eq (h := h) span typeName strict b.last fields
  rw [heq] at hstep
  have hinherited : ∀ e ∈ b.parent.elim [] Capsule.members, e.2.Settled S h := by
    cases hparent : b.parent with
    | none => simp
    | some c => exact (hb.parent c hparent).members
  have hdistinct' : Bindings.Distinct (b.parent.elim [] Capsule.members) := by
    cases hparent : b.parent with
    | none => exact List.nodup_nil
    | some c => exact (Value.settled_toValue_iff.mp (hb.parent c hparent)).1.distinct_members
  have hsupplies : ∀ {name v}, Bindings.get? name (b.parent.elim [] Capsule.members) = some v →
      h.Supplies S (h.frame b.last).table name v := by
    intro name v hget
    cases hparent : b.parent with
    | none =>
        rw [hparent] at hget
        cases hget
    | some c =>
        rw [hparent] at hget
        have hsealed := (Value.settled_toValue_iff.mp (hb.parent c hparent)).1
        exact (hsealed.supplies hS.sound hget).of_sees hS.sound hbelow (hb.sees c hparent)
  obtain ⟨T, hk, hobject⟩ := Later.object hS (b.parent.elim [] Capsule.types ++ typeName.toList)
    hstep hbelow htable (hroot.trans (hS.root b.last)) hfields hinherited hdistinct hdistinct' hsupplies
  have hresult : (objectScope span typeName strict b.last fields h).1 = ⟨h.frames.size⟩ := by
    rw [heq]
  refine .make_bind (T := T) (by rw [heq]; exact hk) ?_
  rw [hresult, heq]
  exact .pure hk.sealing (.give hobject fun hst => hk.free hS.sound (hfree hst))

theorem Built.Settled.later {b : Built} (hb : b.Settled S h) (hh : h.Sound)
    (hk : Later S h T k) : b.Settled T k := by
  have hkeeps := hk.steps.keeps
  refine ⟨fun c hc => (hb.parent c hc).spares hh hk.toSpares, hkeeps.hasFrame hb.last,
    fun c hc => ?_⟩
  rw [hkeeps.frame hb.last, hkeeps.frame (hb.parent c hc).live.2.2]
  exact (hb.sees c hc).steps hh hk.steps (hh.hasTable hb.last)

theorem seals_sealed (hS : h.Sealing S) {limit : Nat} {span : Span} {typeName : Option String}
    {strict : Bool} {b : Built} (hb : b.Settled S h) (hfree : statement = true → h.Free S f) :
    (sealed limit span typeName strict f b).Seals S h (Outcome.Settled statement f) := by
  refine .read_bind ?_
  have hfields : ∀ {S : TableId → Prop} {h : Heap} {frames : List FrameId}, h.Sealing S →
      ∀ e ∈ fields h frames, e.2.Settled S h := by
    intro S h frames hS e he
    obtain ⟨t, ht⟩ := mem_fields.2 e he
    exact hS.settled t e ht
  split
  · refine .bind (seals_cutFrames hS) fun _ T k _ hk _ => .read_bind ?_
    have hb' := hb.later hS.sound hk
    have hfree' : statement = true → k.Free T f := fun hst => hk.free hS.sound (hfree hst)
    cases hpoint : b.point with
    | none => exact seals_make hk.sealing hb' (hfields hk.sealing) mem_fields.1 hfree'
    | some t =>
        have hl := Later.cut hk.sealing b.around t
        refine .change_bind hl ?_
        refine seals_make hl.sealing (hb'.later hk.sealing.sound hl) (fun e he => ?_) mem_fields.1
          fun hst => hl.free hk.sealing.sound (hfree' hst)
        exact (hfields hk.sealing e he).spares hk.sealing.sound hl.toSpares
  · exact .read_bind (seals_make hS hb (hfields hS) mem_fields.1 hfree)

theorem seals_encap (hevolves : sub.Evolves) (hsub : sub.Seals) (hS : h.Sealing S)
    (hf : h.HasFrame f) {limit : Nat} {span : Span} {typeName : Option String} {strict : Bool}
    {body : Node} {parentNode : Option Node} (hblock : body.IsBlock) (hbody : body.IsStatement)
    (hparent : Node.OptionFits false parentNode) (hfree : statement = true → h.Free S f) :
    (encap sub limit span typeName strict body parentNode f).Seals S h
      (Outcome.Settled statement f) := by
  rw [encap_eq_built_sealed]
  refine .bind (seals_built hevolves hsub hS hf hblock hbody hparent) fun b T k _ hk hb => ?_
  exact seals_sealed hk.sealing hb fun hst => hk.free hS.sound (hfree hst)

/-! ### Nodes and programs -/

theorem seals_node (limits : Limits) (bound : Nat) (hevolves : sub.Evolves) (hsub : sub.Seals) :
    Evaluator.Seals (node limits bound sub) := by
  intro S h n f statement hS hf hn hfree
  cases n with
  | block span mayDeclare body =>
      obtain ⟨rfl, hbody⟩ := hn
      exact seals_block hsub hS hf hbody
  | number span x =>
      exact .pure hS (.give ⟨trivial, trivial⟩ fun hst => (hfree hst).resolve_left id)
  | text span s =>
      exact .pure hS (.give ⟨trivial, trivial⟩ fun hst => (hfree hst).resolve_left id)
  | list span elements => exact seals_list hsub hS hf hn fun hst => (hfree hst).resolve_left id
  | binary span op left right =>
      exact seals_binary hsub hS hf hn.1 hn.2 fun hst => (hfree hst).resolve_left id
  | unary span op operand =>
      exact seals_unary hsub hS hf hn fun hst => (hfree hst).resolve_left id
  | assign span name topLevel value =>
      obtain ⟨rfl, hvalue⟩ := hn
      exact seals_assign hsub hS ((hfree rfl).resolve_left id) hvalue
  | ident span name => exact seals_ident hS fun hst => (hfree hst).resolve_left id
  | conditional span producesValue condition thenBranch elseBranch =>
      exact seals_conditional hsub hS hf hn fun hst => (hfree hst).resolve_left id
  | function span name params autoReturn body =>
      exact seals_function hS hf hn fun hst => (hfree hst).resolve_left id
  | declaration span name placeholder =>
      obtain ⟨rfl, hplaceholder⟩ := hn
      exact seals_declaration hS hplaceholder ((hfree rfl).resolve_left id)
  | call span callee arguments =>
      exact seals_call hsub hS hf hn.1 hn.2 fun hst => (hfree hst).resolve_left id
  | result span value =>
      obtain ⟨rfl, hvalue⟩ := hn
      exact seals_result hsub hS hf hvalue
  | stopLoop span => exact .raise hS ((hfree hn).resolve_left id)
  | nextTurn span => exact .raise hS ((hfree hn).resolve_left id)
  | whileLoop span condition body =>
      obtain ⟨rfl, hcondition, hbody⟩ := hn
      have hfree' := (hfree rfl).resolve_left id
      exact seals_whileTurns hsub hcondition hbody hS (.give ⟨trivial, trivial⟩ fun _ => hfree')
  | forLoop span name comprehension source body filter =>
      exact seals_forLoop hsub hS hf hn fun hst => (hfree hst).resolve_left id
  | encap span typeName strict body parent =>
      exact seals_encap hevolves hsub hS hf hn.1 hn.2.1 hn.2.2
        fun hst => (hfree hst).resolve_left id
  | prev span expression => exact seals_prev hsub hS hf hn fun hst => (hfree hst).resolve_left id

theorem seals_programFrom (hsub : sub.Seals) {body : List Node} (hbody : Node.AllFit true body)
    {outcome : Outcome} (hS : h.Sealing S) (hout : outcome.Settled true f S h) :
    (programFrom sub body outcome).Seals S h (Outcome.Settled true f) := by
  induction body generalizing S h outcome with
  | nil => exact .pure hS hout
  | cons statement rest ih =>
      have hfree := hout.free rfl
      refine .bind (hsub hS hfree.1 hbody.1 fun _ => .inr hfree).attempt
        fun ending T k _ hk hending => ?_
      split
      · exact ih hbody.2 hk.sealing ⟨hending.value, hending.free,
          fun hst => absurd hst.symm Bool.false_ne_true⟩
      · exact .pure hk.sealing ⟨hending, fun _ => hk.free hS.sound hfree,
          fun hst => absurd hst.symm Bool.false_ne_true⟩
      · exact .raise hk.sealing hending

end CapsuleScript.Evaluation
