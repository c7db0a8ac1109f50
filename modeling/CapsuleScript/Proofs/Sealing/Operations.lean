import CapsuleScript.Proofs.Sealing.Basic

/-! The heap operations of the evaluator on a sealed heap. Each leaves a heap that is sealed again;
those that make an object seal the table of its scope. -/

namespace CapsuleScript

open Heap

variable {S T : TableId → Prop} {h k : Heap} {f : FrameId} {name : String} {v : Value}
  {c d : Capsule}

/-! ### Settled values -/

namespace Value

theorem settled_list_iff {vs : List Value} :
    (Value.list vs).Settled S h ↔ ∀ v ∈ vs, v.Settled S h := by
  constructor
  · intro hvs v hv
    exact ⟨allLive_iff.mp hvs.live v hv, allObjects_iff.mp hvs.objects v hv⟩
  · intro hvs
    exact ⟨allLive_iff.mpr fun v hv => (hvs v hv).live,
      allObjects_iff.mpr fun v hv => (hvs v hv).objects⟩

/-- An object is settled if it is sealed and its members are settled. -/
theorem settled_toValue_iff : c.toValue.Settled S h ↔ c.Sealed S h ∧
    (∀ e ∈ c.fields, e.2.Settled S h) ∧ ∀ e ∈ c.inherited, e.2.Settled S h := by
  constructor
  · rintro ⟨⟨hfields, hinherited, -⟩, hsealed, hfields', hinherited'⟩
    exact ⟨hsealed,
      fun e he => ⟨entriesLive_iff.mp hfields e he, entriesObjects_iff.mp hfields' e he⟩,
      fun e he => ⟨entriesLive_iff.mp hinherited e he, entriesObjects_iff.mp hinherited' e he⟩⟩
  · rintro ⟨hsealed, hfields, hinherited⟩
    exact ⟨⟨entriesLive_iff.mpr fun e he => (hfields e he).live,
        entriesLive_iff.mpr fun e he => (hinherited e he).live, hsealed.hasFrame⟩,
      hsealed, entriesObjects_iff.mpr fun e he => (hfields e he).objects,
      entriesObjects_iff.mpr fun e he => (hinherited e he).objects⟩

theorem Settled.of_capsule? (hv : v.Settled S h) (hc : v.capsule? = some c) :
    c.toValue.Settled S h := by
  cases v <;> cases hc
  exact hv

theorem Settled.members (hc : c.toValue.Settled S h) : ∀ e ∈ c.members, e.2.Settled S h := by
  obtain ⟨-, hfields, hinherited⟩ := settled_toValue_iff.mp hc
  intro e he
  rcases Bindings.mem_of_mem_override he with hmem | hmem
  · exact hinherited e hmem
  · exact hfields e hmem

theorem Settled.field? (hc : c.toValue.Settled S h) (hv : c.field? name = some v) :
    v.Settled S h := by
  obtain ⟨-, hfields, hinherited⟩ := settled_toValue_iff.mp hc
  rcases Option.or_eq_some_iff.mp hv with hown | ⟨-, hget⟩
  · exact hfields _ (Bindings.mem_of_get? hown)
  · exact hinherited _ (Bindings.mem_of_get? hget)

theorem IsPlain.settled (hv : v.IsPlain) : v.Settled S h := by
  cases v <;> first | exact ⟨trivial, trivial⟩ | exact hv.elim

end Value

theorem Heap.Sealing.settled_lookup (hS : h.Sealing S) (hv : h.lookup f name = some v) :
    v.Settled S h := by
  rw [lookup, get?_eq_findSome?] at hv
  obtain ⟨t, -, ht⟩ := List.exists_of_findSome?_eq_some hv
  exact hS.settled t _ (Bindings.mem_of_get? ht)

/-- Every member of a sealed object is supplied to its scope. -/
theorem Capsule.Sealed.supplies (hc : c.Sealed S h) (hh : h.Sound)
    (hv : c.members.get? name = some v) : h.Supplies S (h.frame c.scope).table name v := by
  rw [Capsule.members, Bindings.get?_override hc.distinct] at hv
  rcases Option.or_eq_some_iff.mp hv with hown | ⟨-, hget⟩
  · refine .inl ⟨_, hh.rooted.mem_chain_self (hh.hasTable hc.hasFrame), hc.table, ?_⟩
    rw [hc.fields]
    exact hown
  · exact hc.inherited hget

theorem Capsule.Sealed.distinct_members (hc : c.Sealed S h) : c.members.Distinct :=
  hc.distinct_inherited.override _

namespace Heap.Later

/-! ### Frames, bindings and functions -/

theorem enter (hS : h.Sealing S) (label : String) (hf : h.HasFrame f) (span : Span) :
    Later S h S (h.enter label f span).2 ∧
      (h.enter label f span).2.Free S (h.enter label f span).1 := by
  have hlater : Later S h S (h.enter label f span).2 :=
    opened hS (hS.sound.step_enter label hf span) rfl (hS.root f) (by simp)
  refine ⟨hlater, hasFrame_enter label f span, fun hsealed => ?_⟩
  rw [show (h.enter label f span).1 = ⟨h.frames.size⟩ from rfl, frame_enter] at hsealed
  exact absurd (hS.hasTable hsealed) (Nat.lt_irrefl _)

theorem callFrame (hS : h.Sealing S) {callee : Function} (hhome : h.HasFrame callee.home)
    {arguments : List Value} (hsettled : ∀ v ∈ arguments, v.Settled S h) (span : Span) :
    Later S h S (Evaluation.callFrame callee arguments span h).2 ∧
      (Evaluation.callFrame callee arguments span h).2.Free S
        (Evaluation.callFrame callee arguments span h).1 := by
  have hstep : Step 0 h (Evaluation.callFrame callee arguments span h).2 :=
    hS.sound.step_callFrame hhome (Value.allLive_iff.mpr fun v hv => (hsettled v hv).live) span
  refine ⟨?_, hasFrame_callFrame callee arguments span, fun hsealed => ?_⟩
  · rw [callFrame_eq] at hstep ⊢
    refine opened hS hstep rfl (hS.root callee.home) fun e he => ?_
    rcases Bindings.mem_of_mem_override he with hmem | hmem
    · cases hmem
    · exact hsettled _ (List.of_mem_zip hmem).2
  · rw [frame_callFrame] at hsealed
    exact absurd (hS.hasTable hsealed) (Nat.lt_irrefl _)

/-- A name is bound in a free frame, perhaps after functions have been made. -/
theorem bind (hS : h.Sealing S) (hf : h.Free S f) (htables : k.tables = h.tables)
    (hframes : k.frames = h.frames) (hs : Steps 0 h (k.bind (h.frame f).table name v))
    (hv : v.Objects (Capsule.Sealed S h)) : Later S h S (k.bind (h.frame f).table name v) := by
  have hframes' : (k.bind (h.frame f).table name v).frames = h.frames := hframes
  refine of_steps hS hs (fun e => by rw [frame_congr hframes']; exact hS.root e) fun t => ?_
  rw [table_bind, table_congr htables]
  split
  · rename_i hsame
    refine .inr ⟨fun hsealed => hf.2 (hsame.1 ▸ hsealed), fun e he => ?_, fun howned => ?_⟩
    · rcases Bindings.mem_of_mem_insert he with hmem | rfl
      · exact hS.objects t e hmem
      · exact hv
    · exact absurd (hs.keeps.of_owned ⟨f, hf.1, hsame.1.symm⟩) howned
  · exact .inl rfl

theorem define (hS : h.Sealing S) (hf : h.Free S f) (hv : v.Settled S h)
    (hnone : (h.table (h.frame f).table).bindings.get? name = none) :
    Later S h S (h.define f name v) :=
  bind hS hf rfl rfl (.single (hS.sound.step_define ⟨hf.1, Nat.zero_le _⟩ hv.live hnone)) hv.objects

/-- Functions are made and defined without a change of tables and frames. -/
theorem of_functions (hS : h.Sealing S) (hs : Steps 0 h k)
    (hparts : k.tables = h.tables ∧ k.frames = h.frames) : Later S h S k :=
  of_bindings hS hs hparts.2 fun t => by rw [table_congr hparts.1]

mutual

/-- A value is kept with its objects. -/
theorem objects_rehome {P : Capsule → Prop} : {v : Value} → {h : Heap} → v.Objects P →
    (Heap.rehome f v h).1.Objects P
  | .function g, h, hv => by
      rw [Heap.rehome]
      split
      · trivial
      · exact hv
  | .list _, _, hv => objects_rehomeAll hv
  | .number _, _, hv | .bool _, _, hv | .null, _, hv | .text _, _, hv | .encap .., _, hv
  | .empty, _, hv => hv

theorem objects_rehomeAll {P : Capsule → Prop} : {vs : List Value} → {h : Heap} →
    Value.AllObjects P vs → Value.AllObjects P (Heap.rehomeAll f vs h).1
  | [], _, _ => trivial
  | _ :: _, _, hvs => ⟨objects_rehome hvs.1, objects_rehomeAll hvs.2⟩

end

theorem rehome (hS : h.Sealing S) (hf : h.HasFrame f) (hv : v.Settled S h) :
    Later S h S (Heap.rehome f v h).2 ∧ (Heap.rehome f v h).1.Settled S (Heap.rehome f v h).2 := by
  obtain ⟨hsteps, hlive⟩ := steps_rehome hS.sound hf hv.live
  have hlater := of_functions hS hsteps (rehome_parts f v h)
  exact ⟨hlater, hlive, objects_rehome (hv.spares hS.sound hlater.toSpares).objects⟩

/-! ### Objects -/

theorem splice (hS : h.Sealing S) {t q : TableId} (ht : h.HasTable t) (hq : h.HasTable q) :
    Later S h S (h.splice t q).2 := by
  have hs : Steps 0 h (h.splice t q).2 := hS.sound.steps_splice ht hq
  by_cases hmem : t ∈ h.chain q
  · rw [splice_of_mem hmem]
    exact refl hS
  · rw [splice_of_not_mem hmem] at hs ⊢
    refine of_bindings hS hs rfl fun u => ?_
    rw [table_setParent]
    split <;> rfl

theorem cut (hS : h.Sealing S) (around t : TableId) :
    Later S h S (Evaluation.cut h around t) := by
  have hs : Steps 0 h (Evaluation.cut h around t) := steps_cut around t
  unfold Evaluation.cut at *
  split
  · rename_i hparent
    rw [if_pos hparent] at hs
    refine of_steps hS hs hS.root fun u => ?_
    rw [table_setParent, table_newTable]
    by_cases hnew : u.index = h.tables.size
    · have hnone : ∀ e ∈ builtins, e.2.Objects fun _ => False := by
        simp only [builtins, List.mem_cons, List.not_mem_nil, or_false]
        rintro e (rfl | rfl | rfl) <;> trivial
      rw [if_pos hnew]
      refine .inr ⟨fun hsealed => ?_, fun e he => ?_, fun _ e he => ?_⟩
      · exact absurd (hS.hasTable hsealed) (Nat.not_lt.mpr (Nat.le_of_eq hnew.symm))
      · exact (hnone e (by split at he <;> exact he)).imp fun _ hc => hc.elim
      · exact hnone e (by split at he <;> exact he)
    · rw [if_neg hnew]
      exact .inl (by split <;> rfl)
  · exact refl hS

/-- An object whose scope is a new frame with a new table, which is sealed. -/
theorem object (hS : h.Sealing S) {below : TableId} {bs inherited : Bindings Value} {frame : Frame}
    (types : List String) (hs : Step 0 h ((h.newTable (some below) bs).2.addFrame frame))
    (hbelow : h.HasTable below) (htable : frame.table = ⟨h.tables.size⟩)
    (hroot : frame.root = ⟨0⟩) (hbs : ∀ e ∈ bs, e.2.Settled S h) (hinherited : ∀ e ∈ inherited, e.2.Settled S h)
    (hdistinct : bs.Distinct) (hdistinct' : inherited.Distinct)
    (hsupplies : ∀ {name v}, inherited.get? name = some v → h.Supplies S below name v) :
    ∃ T, Later S h T ((h.newTable (some below) bs).2.addFrame frame) ∧
      (Capsule.toValue ⟨bs, inherited, types, ⟨h.frames.size⟩⟩).Settled T
        ((h.newTable (some below) bs).2.addFrame frame) := by
  have hlater := openedSealed hS hs htable hroot hbs
  have hspares := hlater.toSpares
  have hk := hlater.sealing.sound
  have hframe : ((h.newTable (some below) bs).2.addFrame frame).frame ⟨h.frames.size⟩ = frame :=
    frame_addFrame_self (h := (h.newTable (some below) bs).2) frame
  have hnew : ((h.newTable (some below) bs).2.addFrame frame).table ⟨h.tables.size⟩ =
      ⟨bs, some below⟩ := by
    show (h.newTable (some below) bs).2.table ⟨h.tables.size⟩ = _
    rw [table_newTable, if_pos rfl]
  have hhas : ((h.newTable (some below) bs).2.addFrame frame).HasTable ⟨h.tables.size⟩ :=
    Rooted.hasTable_newTable_self
  have hscope : ((h.newTable (some below) bs).2.addFrame frame).HasFrame ⟨h.frames.size⟩ := by
    simp [HasFrame]
  generalize (h.newTable (some below) bs).2.addFrame frame = k at *
  have hmem : below ∈ k.chain ⟨h.tables.size⟩ := by
    rw [hk.rooted.chain_of_parent_some hhas (by rw [hnew])]
    exact List.mem_cons_of_mem _
      (hk.rooted.mem_chain_self (hspares.steps.keeps.hasTable hbelow))
  refine ⟨_, hlater, Value.settled_toValue_iff.mpr ⟨?_, fun e he => ?_, fun e he => ?_⟩⟩
  · have hscopeTable := (congrArg Frame.table hframe).trans htable
    refine ⟨hscope, .inr hscopeTable, ?_, fun hget => ?_, hdistinct, hdistinct'⟩
    · rw [hscopeTable, hnew]
    · rw [hscopeTable]
      exact ((hsupplies hget).spares hS.sound hspares hbelow).of_sees hk hhas (.inl hmem)
  · exact (hbs e he).spares hS.sound hspares
  · exact (hinherited e he).spares hS.sound hspares

end Heap.Later

end CapsuleScript
