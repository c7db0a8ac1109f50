import CapsuleScript.Proofs.Evaluation.Evolution

/-! The heap operations of the evaluator as steps. Each operation of a construct, however many
tables, frames and functions it makes, is one step or a few. -/

namespace CapsuleScript

open Heap

variable {fresh : Nat} {h k : Heap}

/-- Names may be bound in the frame `f`. -/
def Heap.Writable (fresh : Nat) (h : Heap) (f : FrameId) : Prop :=
  h.HasFrame f ∧ fresh ≤ (h.frame f).table.index

theorem Heap.Keeps.writable (hk : Keeps fresh h k) {f : FrameId} (hf : h.Writable fresh f) :
    k.Writable fresh f := by
  refine ⟨hk.hasFrame hf.1, ?_⟩
  rw [hk.frame hf.1]
  exact hf.2

namespace Heap

/-! ### Frames -/

theorem frame_newTable {p : Option TableId} {bs : Bindings Value} (f : FrameId) :
    (h.newTable p bs).2.frame f = h.frame f :=
  frame_congr rfl f

theorem enter_eq (label : String) (f : FrameId) (span : Span) :
    h.enter label f span = (⟨h.frames.size⟩,
      (h.newTable (some (h.frame f).table) []).2.addFrame
        ⟨label, ⟨h.tables.size⟩, some f, some span, (h.frame f).root⟩) := rfl

theorem Sound.step_enter (hh : h.Sound) (label : String) {f : FrameId} (hf : h.HasFrame f)
    (span : Span) : Step fresh h (h.enter label f span).2 := by
  rw [enter_eq]
  refine .opened (hh.hasTable hf) trivial rfl fun p hp => ?_
  cases hp
  exact ⟨hf, rfl⟩

theorem frame_enter (label : String) (f : FrameId) (span : Span) :
    (h.enter label f span).2.frame ⟨h.frames.size⟩ =
      ⟨label, ⟨h.tables.size⟩, some f, some span, (h.frame f).root⟩ := by
  rw [enter_eq]
  exact frame_addFrame_self (h := (h.newTable _ _).2) _

theorem table_enter (label : String) (f : FrameId) (span : Span) (t : TableId) :
    (h.enter label f span).2.table t =
      if t.index = h.tables.size then ⟨[], some (h.frame f).table⟩ else h.table t :=
  table_newTable _ _ t

theorem hasFrame_enter (label : String) (f : FrameId) (span : Span) :
    (h.enter label f span).2.HasFrame ⟨h.frames.size⟩ := by
  simp [enter_eq, HasFrame]

theorem writable_enter (hle : fresh ≤ h.tables.size) (label : String) (f : FrameId) (span : Span) :
    (h.enter label f span).2.Writable fresh (h.enter label f span).1 := by
  refine ⟨hasFrame_enter label f span, ?_⟩
  rw [show (h.enter label f span).1 = ⟨h.frames.size⟩ from rfl, frame_enter]
  exact hle

theorem descends_enter (label : String) (f : FrameId) (span : Span) :
    (h.enter label f span).2.Descends f (h.enter label f span).1 := by
  refine .entered ?_ .refl
  rw [show (h.enter label f span).1 = ⟨h.frames.size⟩ from rfl, frame_enter]

/-- The frame that was entered binds nothing yet. -/
theorem bindings_enter (label : String) (f : FrameId) (span : Span) :
    ((h.enter label f span).2.table
      ((h.enter label f span).2.frame (h.enter label f span).1).table).bindings = [] := by
  rw [show (h.enter label f span).1 = ⟨h.frames.size⟩ from rfl, frame_enter, table_enter, if_pos rfl]

/-! ### Bindings -/

theorem define_eq (f : FrameId) (name : String) (v : Value) :
    h.define f name v = h.bind (h.frame f).table name v := rfl

theorem Sound.step_define (hh : h.Sound) {f : FrameId} (hf : h.Writable fresh f) {name : String}
    {v : Value} (hv : v.Lives h) (hnone : (h.table (h.frame f).table).bindings.get? name = none) :
    Step fresh h (h.define f name v) :=
  .bound (hh.hasTable hf.1) hf.2 hv hnone

theorem push_modify_size {α : Type} (xs : Array α) (x : α) (f : α → α) :
    (xs.push x).modify xs.size f = xs.push (f x) := by
  apply Array.ext
  · simp
  · intro i hi hi'
    rw [Array.getElem_modify, Array.getElem_push, Array.getElem_push]
    by_cases hlt : i < xs.size
    · simp [hlt, Nat.ne_of_gt hlt]
    · have heq : xs.size = i := by
        simp at hi'
        omega
      simp [heq]

theorem bind_opened (p : Option TableId) (bs : Bindings Value) (frame : Frame) (name : String)
    (v : Value) :
    ((h.newTable p bs).2.addFrame frame).bind ⟨h.tables.size⟩ name v =
      (h.newTable p (bs.insert name v)).2.addFrame frame := by
  simp only [newTable, addFrame, Heap.bind, push_modify_size]

/-- A frame with the arguments of a call is opened with the parameters bound in it. -/
theorem callFrame_eq (callee : Function) (arguments : List Value) (span : Span) :
    Evaluation.callFrame callee arguments span h = (⟨h.frames.size⟩,
      (h.newTable (some (h.frame callee.home).table)
        (Bindings.override [] (callee.params.zip arguments))).2.addFrame
          ⟨callee.name, ⟨h.tables.size⟩, some callee.home, some span,
            (h.frame callee.home).root⟩) := by
  have hfold : ∀ (entries : List (String × Value)) (bs : Bindings Value),
      entries.foldl (fun heap entry => heap.define ⟨h.frames.size⟩ entry.1 entry.2)
        ((h.newTable (some (h.frame callee.home).table) bs).2.addFrame
          ⟨callee.name, ⟨h.tables.size⟩, some callee.home, some span,
            (h.frame callee.home).root⟩) =
      (h.newTable (some (h.frame callee.home).table) (bs.override entries)).2.addFrame
          ⟨callee.name, ⟨h.tables.size⟩, some callee.home, some span,
            (h.frame callee.home).root⟩ := by
    intro entries
    induction entries with
    | nil =>
        intro bs
        rfl
    | cons entry rest ih =>
        intro bs
        have hself := frame_addFrame_self (h := (h.newTable (some (h.frame callee.home).table) bs).2)
          ⟨callee.name, ⟨h.tables.size⟩, some callee.home, some span, (h.frame callee.home).root⟩
        rw [frames_newTable] at hself
        rw [List.foldl_cons, define_eq, hself, bind_opened, ih]
        rfl
  exact congrArg _ (hfold _ _)

theorem frame_callFrame (callee : Function) (arguments : List Value) (span : Span) :
    (Evaluation.callFrame callee arguments span h).2.frame
        (Evaluation.callFrame callee arguments span h).1 =
      ⟨callee.name, ⟨h.tables.size⟩, some callee.home, some span,
        (h.frame callee.home).root⟩ := by
  rw [callFrame_eq]
  exact frame_addFrame_self (h := (h.newTable _ _).2) _

theorem hasFrame_callFrame (callee : Function) (arguments : List Value) (span : Span) :
    (Evaluation.callFrame callee arguments span h).2.HasFrame
      (Evaluation.callFrame callee arguments span h).1 := by
  rw [callFrame_eq]
  simp [HasFrame]

/-- Names may be bound in the frame of a call. -/
theorem writable_callFrame (hle : fresh ≤ h.tables.size) (callee : Function)
    (arguments : List Value) (span : Span) :
    (Evaluation.callFrame callee arguments span h).2.Writable fresh
      (Evaluation.callFrame callee arguments span h).1 := by
  refine ⟨hasFrame_callFrame callee arguments span, ?_⟩
  rw [frame_callFrame]
  exact hle

theorem entriesLive_zip {params : List String} {arguments : List Value}
    (hlive : Value.AllLive h arguments) : Value.EntriesLive h (params.zip arguments) := by
  rw [Value.entriesLive_iff]
  intro entry hmem
  obtain ⟨name, v⟩ := entry
  exact Value.allLive_iff.mp hlive v (List.of_mem_zip hmem).2

theorem Sound.step_callFrame (hh : h.Sound) {callee : Function} (hhome : h.HasFrame callee.home)
    {arguments : List Value} (hlive : Value.AllLive h arguments) (span : Span) :
    Step fresh h (Evaluation.callFrame callee arguments span h).2 := by
  rw [callFrame_eq]
  refine .opened (hh.hasTable hhome) ?_ rfl fun p hp => ?_
  · have hnil : Value.EntriesLive h ([] : Bindings Value) := trivial
    exact hnil.override (entriesLive_zip hlive)
  · cases hp
    exact ⟨hhome, rfl⟩

/-! ### Functions -/

theorem lookup_eq_of_get? {f : FrameId} {name : String} {v : Value} (hh : h.Sound)
    (hf : h.HasFrame f) (hv : (h.table (h.frame f).table).bindings.get? name = some v) :
    h.lookup f name = some v := by
  have ht := hh.hasTable hf
  obtain ⟨rest, hchain, -⟩ := (hh.rooted.path_chain ht).eq_cons
  rw [lookup, get?_eq_findSome?, hchain, List.findSome?_cons, hv]

theorem placeholder?_eq_some {f : FrameId} {name : String} {g : FunctionId} :
    h.placeholder? f name = some g ↔
      h.lookup f name = some (.function g) ∧ (h.function g).initialized = false := by
  unfold placeholder?
  cases hlook : h.lookup f name with
  | none => simp
  | some v => cases v <;> grind [Value.function?]

mutual

/-- Keeping a value in a frame touches neither tables nor frames. -/
theorem rehome_parts (f : FrameId) : (v : Value) → (h : Heap) →
    (rehome f v h).2.tables = h.tables ∧ (rehome f v h).2.frames = h.frames
  | .function g, h => by
      rw [rehome]
      split <;> exact ⟨rfl, rfl⟩
  | .list elements, h => rehomeAll_parts f elements h
  | .number _, _ | .bool _, _ | .null, _ | .text _, _ | .encap .., _ | .empty, _ => ⟨rfl, rfl⟩

theorem rehomeAll_parts (f : FrameId) : (values : List Value) → (h : Heap) →
    (rehomeAll f values h).2.tables = h.tables ∧ (rehomeAll f values h).2.frames = h.frames
  | [], _ => ⟨rfl, rfl⟩
  | v :: rest, h => by
      have hfirst := rehome_parts f v h
      have hrest := rehomeAll_parts f rest (rehome f v h).2
      exact ⟨hrest.1.trans hfirst.1, hrest.2.trans hfirst.2⟩

end

theorem Sound.step_withHome (hh : h.Sound) {g : FunctionId} (hg : h.HasFunction g) {f : FrameId}
    (hf : h.HasFrame f) : Step fresh h (h.withHome g f).2 := by
  have hstep : Step fresh h (h.addFunction { h.function g with home := f }) := .added hf (hh.body hg)
  exact hstep

mutual

theorem steps_rehome {f : FrameId} : {v : Value} → {h : Heap} → h.Sound → h.HasFrame f →
    v.Lives h → Steps fresh h (rehome f v h).2 ∧ (rehome f v h).1.Lives (rehome f v h).2
  | .function g, h, hh, hf, hv => by
      rw [rehome]
      split
      · refine ⟨.single (hh.step_withHome hv hf), ?_⟩
        show (h.functions.size : Nat) < (h.functions.push _).size
        simp
      · exact ⟨.refl, hv⟩
  | .list _, _, hh, hf, hv => steps_rehomeAll hh hf hv
  | .number _, _, _, _, hv | .bool _, _, _, _, hv | .null, _, _, _, hv | .text _, _, _, _, hv
  | .encap .., _, _, _, hv | .empty, _, _, _, hv => ⟨.refl, hv⟩

theorem steps_rehomeAll {f : FrameId} : {values : List Value} → {h : Heap} → h.Sound →
    h.HasFrame f → Value.AllLive h values → Steps fresh h (rehomeAll f values h).2 ∧
      Value.AllLive (rehomeAll f values h).2 (rehomeAll f values h).1
  | [], _, _, _, _ => ⟨.refl, trivial⟩
  | v :: rest, h, hh, hf, hv => by
      obtain ⟨hfirst, hlive⟩ := steps_rehome hh hf hv.1
      have hkeeps := hfirst.keeps
      obtain ⟨hrest, hlives⟩ := steps_rehomeAll (hfirst.sound hh) (hkeeps.hasFrame hf)
        (hv.2.mono hkeeps.frames hkeeps.functions)
      exact ⟨hfirst.trans hrest, hrest.keeps.lives hlive, hlives⟩

end

theorem push_modify_of_lt {α : Type} {xs : Array α} {i : Nat} (hi : i < xs.size) (x : α)
    (f : α → α) : (xs.push x).modify i f = (xs.modify i f).push x := by
  apply Array.ext
  · simp
  · intro j hj hj'
    rw [Array.getElem_modify, Array.getElem_push, Array.getElem_push]
    by_cases hlt : j < xs.size
    · simp [hlt, Array.getElem_modify]
    · have hne : i ≠ j := by omega
      simp [hlt, hne]

theorem addFunction_initializeFrom {g source : FunctionId} (hg : h.HasFunction g)
    (hsource : h.HasFunction source) (data : Function) :
    (h.initializeFrom g source).addFunction data = (h.addFunction data).initializeFrom g source := by
  by_cases heq : g = source
  · simp [initializeFrom, heq]
  · have hkept : (h.addFunction data).function source = h.function source :=
      function_addFunction_of_hasFunction hsource
    simp only [initializeFrom, if_neg heq, hkept]
    simp only [addFunction, push_modify_of_lt hg]

theorem bind_initializeFrom (g source : FunctionId) (t : TableId) (name : String) (v : Value) :
    (h.initializeFrom g source).bind t name v = (h.bind t name v).initializeFrom g source := by
  unfold initializeFrom
  split <;> rfl

/-- A name that the table of a frame binds means that; so where it means a placeholder, the table
binds the placeholder or does not bind the name. -/
theorem Sound.get?_of_placeholder (hh : h.Sound) {f : FrameId} (hf : h.HasFrame f) {name : String}
    {g : FunctionId} (hlook : h.lookup f name = some (.function g)) :
    (h.table (h.frame f).table).bindings.get? name = none ∨
      (h.table (h.frame f).table).bindings.get? name = some (.function g) := by
  cases hget : (h.table (h.frame f).table).bindings.get? name with
  | none => exact .inl rfl
  | some v =>
      rw [lookup_eq_of_get? hh hf hget] at hlook
      exact .inr hlook

/-- The definition of a declared function: the placeholder becomes the function, and a copy of it is
bound. -/
theorem Sound.steps_fulfil (hh : h.Sound) {f : FrameId} (hf : h.Writable fresh f) {name : String}
    {g source : FunctionId} (hlook : h.lookup f name = some (.function g))
    (hinit : (h.function g).initialized = false) (hsource : h.HasFunction source) :
    Steps fresh h (((h.initializeFrom g source).addFunction
      { h.function source with home := f }).bind (h.frame f).table name
        (.function ⟨h.functions.size⟩)) := by
  have hg : h.HasFunction g := hh.lives_of_lookup hlook
  rw [addFunction_initializeFrom hg hsource, bind_initializeFrom]
  -- The copy is made and bound before the placeholder is defined: in this order the placeholder is
  -- still one when it is replaced.
  have hadd : Step fresh h (h.addFunction { h.function source with home := f }) :=
    .added hf.1 (hh.body hsource)
  have hfunction : (h.addFunction { h.function source with home := f }).function g =
      h.function g := function_addFunction_of_hasFunction hg
  have hnew : (h.addFunction { h.function source with home := f }).HasFunction
      ⟨h.functions.size⟩ := by simp [HasFunction]
  have hbind : Step fresh (h.addFunction { h.function source with home := f })
      ((h.addFunction { h.function source with home := f }).bind (h.frame f).table name
        (.function ⟨h.functions.size⟩)) := by
    rcases hh.get?_of_placeholder hf.1 hlook with hnone | hsome
    · exact .bound (hh.hasTable hf.1) hf.2 hnew hnone
    · exact .rebound (hh.hasTable hf.1) hf.2 hnew hsome (by rw [hfunction]; exact hinit)
  refine ((Relation.ReflTransGen.single hadd).tail hbind).tail (.defined ?_ ?_ ?_)
  · exact hadd.keeps.hasFunction hg
  · exact hadd.keeps.hasFunction hsource
  · rw [function_congr (functions_bind _ _ _), hfunction]
    exact hinit

/-! ### Objects -/

theorem Sound.steps_splice (hh : h.Sound) {t q : TableId} (ht : h.HasTable t) (hq : h.HasTable q) :
    Steps fresh h (h.splice t q).2 := by
  by_cases hmem : t ∈ h.chain q
  · rw [splice_of_mem hmem]
  · rw [splice_of_not_mem hmem]
    exact .single (.spliced (hh.rooted.splices_splicePoint ht hq hmem))

/-- After a splice what was linked to is seen from where the splice started. -/
theorem Sound.mem_chain_splice (hh : h.Sound) {t q x : TableId} (ht : h.HasTable t)
    (hq : h.HasTable q) (hx : (h.splice t q).1 = some x) : q ∈ (h.splice t q).2.chain t := by
  by_cases hmem : t ∈ h.chain q
  · rw [splice_of_mem hmem] at hx
    cases hx
  · rw [splice_of_not_mem hmem]
    have hsplices := hh.rooted.splices_splicePoint ht hq hmem
    obtain ⟨before, after, -, -, hchain⟩ :=
      hh.rooted.chain_setParent_of_mem hsplices.hasTable hq hsplices.not_mem ht
        (hh.rooted.splicePoint_mem_chain ht hmem)
    simp only [hchain]
    have hself := hh.rooted.mem_chain_self hq
    simp [hself]

theorem steps_cut (around t : TableId) :
    Steps fresh h (Evaluation.cut h around t) := by
  unfold Evaluation.cut
  split
  · rename_i hparent
    exact .single (.cut (hasTable_of_parent hparent) hparent)
  · exact .refl

theorem Sound.step_objectScope (hh : h.Sound) (span : Span) (typeName : Option String)
    (strict : Bool) {body : FrameId} (hbody : h.HasFrame body) {fields : Bindings Value}
    (hfields : Value.EntriesLive h fields) :
    Step fresh h (Evaluation.objectScope span typeName strict body fields h).2 := by
  unfold Evaluation.objectScope
  cases strict with
  | true =>
      refine .opened (hh.hasTable hbody) hfields rfl fun p hp => ?_
      cases hp
  | false =>
      refine .opened (hh.hasTable hbody) hfields rfl fun p hp => ?_
      cases hp
      exact ⟨hbody, rfl⟩

theorem hasFrame_objectScope (span : Span) (typeName : Option String) (strict : Bool)
    (body : FrameId) (fields : Bindings Value) :
    (Evaluation.objectScope span typeName strict body fields h).2.HasFrame
      (Evaluation.objectScope span typeName strict body fields h).1 := by
  unfold Evaluation.objectScope
  cases strict <;> simp [HasFrame, detach_eq, enterTable_eq]

theorem entriesLive_fields (hh : h.Sound) (frames : List FrameId) :
    Value.EntriesLive h (Evaluation.fields h frames) := by
  unfold Evaluation.fields
  have hfold : ∀ (frames : List FrameId) (bs : Bindings Value), Value.EntriesLive h bs →
      Value.EntriesLive h (frames.foldl
        (fun bound f => Bindings.override bound (h.table (h.frame f).table).bindings) bs) := by
    intro frames
    induction frames with
    | nil => exact fun bs hbs => hbs
    | cons f rest ih => exact fun bs hbs => ih _ (hbs.override (hh.live _))
  exact hfold _ _ trivial

end Heap

/-- What the object holds has been made. -/
def Capsule.Lives (h : Heap) (c : Capsule) : Prop :=
  Value.EntriesLive h c.fields ∧ Value.EntriesLive h c.inherited ∧ h.HasFrame c.scope

namespace Capsule.Lives

variable {c d : Capsule}

theorem keeps (hc : c.Lives h) (hk : Keeps fresh h k) : c.Lives k :=
  ⟨hc.1.mono hk.frames hk.functions, hc.2.1.mono hk.frames hk.functions, hk.hasFrame hc.2.2⟩

theorem members (hc : c.Lives h) : Value.EntriesLive h c.members := hc.2.1.override hc.1

theorem of_capsule? {v : Value} (hv : v.Lives h) (hc : v.capsule? = some c) : c.Lives h := by
  cases v <;> cases hc
  exact hv

theorem field? (hc : c.Lives h) {name : String} {v : Value} (hv : c.field? name = some v) :
    v.Lives h := by
  unfold Capsule.field? at hv
  rcases Option.or_eq_some_iff.mp hv with hown | ⟨-, hinherited⟩
  · exact hc.1.get? hown
  · exact hc.2.1.get? hinherited

theorem step_merge (hh : h.Sound) (hc : c.Lives h) (hd : d.Lives h) (entry : Span) :
    Step fresh h (c.merge d entry h).2 := by
  refine .opened (hh.hasTable hc.2.2) (hc.members.override hd.members) rfl fun p hp => ?_
  cases hp
  exact ⟨hc.2.2, rfl⟩

theorem merge (hh : h.Sound) (hc : c.Lives h) (hd : d.Lives h) (entry : Span) :
    (c.merge d entry h).1.Lives (c.merge d entry h).2 := by
  have hstep : Step 0 h (c.merge d entry h).2 := step_merge hh hc hd entry
  have hkeeps := hstep.keeps
  refine ⟨?_, trivial, ?_⟩
  · exact (hc.members.override hd.members).mono hkeeps.frames hkeeps.functions
  · simp [Capsule.merge, HasFrame, enterTable_eq]

end Capsule.Lives

end CapsuleScript
