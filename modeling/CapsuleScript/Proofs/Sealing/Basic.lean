import CapsuleScript.Proofs.Evaluation.Objects

/-! Tables that are sealed. The table in which the members of an object are read is filled when the
object is made and never written to again. A heap is sealed by a set of such tables if the scope of
every object in it has a table of the set that binds just the fields of the object, and every member
that the object inherits is bound by some table of the set further along the chain, as long as
nothing on the chain was cut off. -/

namespace CapsuleScript

open Heap

/-! ### Entries of bindings -/

namespace Bindings

variable {α : Type} {bs cs : Bindings α} {name : String} {a : α} {e : String × α}

theorem mem_of_get? (h : bs.get? name = some a) : (name, a) ∈ bs := by
  induction bs with
  | nil => cases h
  | cons entry rest ih =>
      obtain ⟨key, b⟩ := entry
      rw [get?] at h
      split at h
      · rename_i hkey
        cases h
        rw [hkey]
        exact List.mem_cons_self
      · exact List.mem_cons_of_mem _ (ih h)

theorem get?_eq_none_iff : bs.get? name = none ↔ name ∉ bs.names := by
  induction bs with
  | nil => simp [names]
  | cons entry rest ih =>
      obtain ⟨key, b⟩ := entry
      by_cases hkey : key = name
      · simp [get?, names, hkey]
      · have hrest : name ∉ Bindings.names ((key, b) :: rest) ↔ name ∉ Bindings.names rest := by
          simp [names, Ne.symm hkey]
        rw [get?, if_neg hkey, hrest]
        exact ih

theorem mem_of_mem_insert (h : e ∈ bs.insert name a) : e ∈ bs ∨ e = (name, a) := by
  induction bs with
  | nil => exact .inr (List.mem_singleton.mp h)
  | cons entry rest ih =>
      obtain ⟨key, b⟩ := entry
      rw [insert] at h
      split at h
      · rename_i hkey
        rcases List.mem_cons.mp h with rfl | hmem
        · exact .inr (by rw [hkey])
        · exact .inl (List.mem_cons_of_mem _ hmem)
      · rcases List.mem_cons.mp h with rfl | hmem
        · exact .inl List.mem_cons_self
        · exact (ih hmem).imp_left (List.mem_cons_of_mem _)

theorem mem_of_mem_override (h : e ∈ bs.override cs) : e ∈ bs ∨ e ∈ cs := by
  induction cs generalizing bs with
  | nil => exact .inl h
  | cons entry rest ih =>
      rcases ih h with hmem | hmem
      · rcases mem_of_mem_insert hmem with hold | rfl
        · exact .inl hold
        · exact .inr List.mem_cons_self
      · exact .inr (List.mem_cons_of_mem _ hmem)

/-- No name is bound twice. -/
def Distinct (bs : Bindings α) : Prop := bs.names.Nodup

theorem Distinct.insert (h : bs.Distinct) (name : String) (a : α) :
    (bs.insert name a).Distinct := by
  induction bs with
  | nil => exact List.nodup_singleton _
  | cons entry rest ih =>
      obtain ⟨key, b⟩ := entry
      obtain ⟨hkey, hrest⟩ := List.nodup_cons.mp h
      rw [Bindings.insert]
      split
      · exact h
      · rename_i hne
        refine List.nodup_cons.mpr ⟨fun hmem => ?_, ih hrest⟩
        obtain ⟨e, he, heq⟩ := List.mem_map.mp hmem
        rcases mem_of_mem_insert he with hold | rfl
        · exact hkey (List.mem_map.mpr ⟨e, hold, heq⟩)
        · exact hne heq.symm

theorem Distinct.override (h : bs.Distinct) (cs : Bindings α) : (bs.override cs).Distinct := by
  induction cs generalizing bs with
  | nil => exact h
  | cons entry rest ih => exact ih (h.insert entry.1 entry.2)

/-- Where both bind a name, the second ones count. -/
theorem get?_override (hcs : cs.Distinct) (bs : Bindings α) (name : String) :
    (bs.override cs).get? name = (cs.get? name).or (bs.get? name) := by
  induction cs generalizing bs with
  | nil => rfl
  | cons entry rest ih =>
      obtain ⟨key, a⟩ := entry
      obtain ⟨hkey, hrest⟩ := List.nodup_cons.mp hcs
      have hstep : (bs.override ((key, a) :: rest)).get? name =
          (Bindings.get? name rest).or ((bs.insert key a).get? name) :=
        ih hrest (bs.insert key a)
      rw [hstep]
      by_cases heq : key = name
      · subst heq
        rw [get?_eq_none_iff.mpr hkey, get?_insert_self, get?, if_pos rfl]
        rfl
      · rw [get?_insert_of_ne bs a heq, get?, if_neg heq]

end Bindings

/-! ### Objects in values -/

mutual

/-- Every object in the value passes the test. -/
def Value.Objects (P : Capsule → Prop) : Value → Prop
  | .list elements => Value.AllObjects P elements
  | .encap fields inherited types scope =>
    P ⟨fields, inherited, types, scope⟩ ∧ Value.EntriesObjects P fields ∧
      Value.EntriesObjects P inherited
  | _ => True

/-- Every object in the values passes the test. -/
def Value.AllObjects (P : Capsule → Prop) : List Value → Prop
  | [] => True
  | value :: rest => value.Objects P ∧ Value.AllObjects P rest

/-- Every object in the bound values passes the test. -/
def Value.EntriesObjects (P : Capsule → Prop) : List (String × Value) → Prop
  | [] => True
  | (_, value) :: rest => value.Objects P ∧ Value.EntriesObjects P rest

end

namespace Value

variable {P Q : Capsule → Prop}

theorem allObjects_iff {vs : List Value} : AllObjects P vs ↔ ∀ v ∈ vs, v.Objects P := by
  induction vs with
  | nil => simp [AllObjects]
  | cons v rest ih => simp [AllObjects, ih]

theorem entriesObjects_iff {bs : Bindings Value} :
    EntriesObjects P bs ↔ ∀ e ∈ bs, e.2.Objects P := by
  induction bs with
  | nil => simp [EntriesObjects]
  | cons e rest ih =>
      obtain ⟨name, v⟩ := e
      simp [EntriesObjects, ih]

mutual

theorem Objects.imp (himp : ∀ c, P c → Q c) : {v : Value} → v.Objects P → v.Objects Q
  | .list _, hv => AllObjects.imp himp hv
  | .encap .., hv =>
      ⟨himp _ hv.1, EntriesObjects.imp himp hv.2.1, EntriesObjects.imp himp hv.2.2⟩
  | .number _, _ | .bool _, _ | .null, _ | .text _, _ | .function _, _ | .empty, _ => trivial

theorem AllObjects.imp (himp : ∀ c, P c → Q c) :
    {vs : List Value} → AllObjects P vs → AllObjects Q vs
  | [], _ => trivial
  | _ :: _, hv => ⟨hv.1.imp himp, AllObjects.imp himp hv.2⟩

theorem EntriesObjects.imp (himp : ∀ c, P c → Q c) :
    {bs : List (String × Value)} → EntriesObjects P bs → EntriesObjects Q bs
  | [], _ => trivial
  | (_, _) :: _, hv => ⟨hv.1.imp himp, EntriesObjects.imp himp hv.2⟩

end

end Value

/-! ### Sealed objects -/

namespace Heap

variable {fresh : Nat} {S T : TableId → Prop} {h k : Heap} {t : TableId} {name : String} {v : Value}

/-- A strict object was cut off on the chain of the table `t`. -/
def CutOff (h : Heap) (t : TableId) : Prop := ∃ x ∈ h.chain t, ¬ h.Owned x

/-- A chain that was cut stays so. -/
theorem CutOff.steps (hcut : h.CutOff t) (hh : h.Sound) (hs : Steps fresh h k) (ht : h.HasTable t) :
    k.CutOff t := by
  rcases hs.grows hh t ht with hsub | ⟨x, hx, -, howned⟩
  · obtain ⟨x, hx, howned⟩ := hcut
    have hhas := hh.rooted.hasTable_of_mem_chain ht hx
    exact ⟨x, hsub.subset hx, fun ho => howned (hs.keeps.owned hhas ho)⟩
  · exact ⟨x, hx, howned⟩

/-- The table `u` stands on the chain of the table `t`, unless that was cut. -/
def Sees (h : Heap) (t u : TableId) : Prop := u ∈ h.chain t ∨ h.CutOff t

theorem Sees.steps {u : TableId} (hsees : h.Sees t u) (hh : h.Sound) (hs : Steps fresh h k)
    (ht : h.HasTable t) : k.Sees t u := by
  rcases hsees with hmem | hcut
  · rcases hs.grows hh t ht with hsub | ⟨x, hx, -, howned⟩
    · exact .inl (hsub.subset hmem)
    · exact .inr ⟨x, hx, howned⟩
  · exact .inr (hcut.steps hh hs ht)

/-- A sealed table on the chain of the table `t` binds `name` to `v`, unless the chain was cut. -/
def Supplies (S : TableId → Prop) (h : Heap) (t : TableId) (name : String) (v : Value) : Prop :=
  (∃ u ∈ h.chain t, S u ∧ (h.table u).bindings.get? name = some v) ∨ h.CutOff t

/-- What is supplied to a table is supplied to those that see it. -/
theorem Supplies.of_sees {u : TableId} (hv : h.Supplies S u name v) (hh : h.Sound)
    (ht : h.HasTable t) (hu : h.Sees t u) : h.Supplies S t name v := by
  rcases hu with hmem | hcut
  · rcases hv with ⟨x, hx, hsealed, hget⟩ | ⟨x, hx, howned⟩
    · exact .inl ⟨x, hh.rooted.mem_chain_trans ht hmem hx, hsealed, hget⟩
    · exact .inr ⟨x, hh.rooted.mem_chain_trans ht hmem hx, howned⟩
  · exact .inr hcut

end Heap

/-- The table of the object's scope is sealed and binds just its fields, and what it inherits is
supplied to it. -/
structure Capsule.Sealed (S : TableId → Prop) (h : Heap) (c : Capsule) : Prop where
  hasFrame : h.HasFrame c.scope
  table : S (h.frame c.scope).table
  fields : (h.table (h.frame c.scope).table).bindings = c.fields
  inherited : ∀ {name v}, c.inherited.get? name = some v →
    h.Supplies S (h.frame c.scope).table name v
  distinct : c.fields.Distinct
  distinct_inherited : c.inherited.Distinct

/-- What the value holds has been made, and the objects in it are sealed. -/
structure Value.Settled (S : TableId → Prop) (h : Heap) (v : Value) : Prop where
  live : v.Lives h
  objects : v.Objects (Capsule.Sealed S h)

/-- A sound heap of a single world in which every object that is bound is sealed, and bound in the
table of some frame. -/
structure Heap.Sealing (S : TableId → Prop) (h : Heap) : Prop where
  sound : h.Sound
  hasTable : ∀ {t}, S t → h.HasTable t
  objects : ∀ t, ∀ e ∈ (h.table t).bindings, e.2.Objects (Capsule.Sealed S h)
  unowned : ∀ t, ¬ h.Owned t → ∀ e ∈ (h.table t).bindings, e.2.Objects fun _ => False
  root : ∀ f, (h.frame f).root = ⟨0⟩

theorem Heap.Sealing.settled {S : TableId → Prop} {h : Heap} (hS : h.Sealing S) (t : TableId)
    (e : String × Value) (he : e ∈ (h.table t).bindings) : e.2.Settled S h :=
  ⟨Value.entriesLive_iff.mp (hS.sound.live t) e he, hS.objects t e he⟩

/-- The heap `k` comes from `h` by steps that bind nothing in sealed tables. -/
structure Heap.Spares (S : TableId → Prop) (h : Heap) (T : TableId → Prop) (k : Heap) : Prop where
  steps : Steps 0 h k
  kept : ∀ {t}, S t → T t
  bindings : ∀ {t}, S t → (k.table t).bindings = (h.table t).bindings

/-- The heap `k`, which `T` seals, comes from `h` by steps that bind nothing in sealed tables. Only
new tables may have been sealed. -/
structure Heap.Later (S : TableId → Prop) (h : Heap) (T : TableId → Prop) (k : Heap) : Prop
    extends Spares S h T k where
  new : ∀ {t}, T t → h.HasTable t → S t
  sealing : k.Sealing T

/-- The frame is not the scope of an object: names may be bound in it. -/
def Heap.Free (S : TableId → Prop) (h : Heap) (f : FrameId) : Prop :=
  h.HasFrame f ∧ ¬ S (h.frame f).table

variable {S T U : TableId → Prop} {h k l : Heap} {f : FrameId} {name : String} {v : Value}

/-! ### What is kept -/

theorem Heap.Keeps.of_owned {fresh : Nat} (hk : Keeps fresh h k) {t : TableId} (ht : h.Owned t) :
    k.Owned t := by
  obtain ⟨f, hf, hft⟩ := ht
  refine ⟨f, hk.hasFrame hf, ?_⟩
  rw [hk.frame hf]
  exact hft

theorem Heap.Supplies.spares {t : TableId} (hv : h.Supplies S t name v) (hh : h.Sound)
    (hk : Spares S h T k) (ht : h.HasTable t) : k.Supplies T t name v := by
  rcases hv with ⟨u, hu, hsealed, hget⟩ | hcut
  · have hsees : h.Sees t u := .inl hu
    refine (hsees.steps hh hk.steps ht).imp_left fun hu' => ⟨u, hu', hk.kept hsealed, ?_⟩
    rw [hk.bindings hsealed]
    exact hget
  · exact .inr (hcut.steps hh hk.steps ht)

theorem Capsule.Sealed.spares {c : Capsule} (hc : c.Sealed S h) (hh : h.Sound)
    (hk : Spares S h T k) : c.Sealed T k := by
  have hframe := hk.steps.keeps.frame hc.hasFrame
  refine ⟨hk.steps.keeps.hasFrame hc.hasFrame, ?_, ?_, fun hget => ?_, hc.distinct,
    hc.distinct_inherited⟩
  · rw [hframe]
    exact hk.kept hc.table
  · rw [hframe, hk.bindings hc.table]
    exact hc.fields
  · rw [hframe]
    exact (hc.inherited hget).spares hh hk (hh.hasTable hc.hasFrame)

theorem Value.Settled.spares (hv : v.Settled S h) (hh : h.Sound) (hk : Spares S h T k) :
    v.Settled T k :=
  ⟨hk.steps.keeps.lives hv.live, hv.objects.imp fun _ hc => hc.spares hh hk⟩

namespace Heap.Later

theorem refl (hS : h.Sealing S) : Later S h S h :=
  ⟨⟨.refl, fun ht => ht, fun _ => rfl⟩, fun ht _ => ht, hS⟩

theorem trans (hk : Later S h T k) (hl : Later T k U l) : Later S h U l where
  steps := hk.steps.trans hl.steps
  kept ht := hl.kept (hk.kept ht)
  bindings ht := (hl.bindings (hk.kept ht)).trans (hk.bindings ht)
  new ht hhas := hk.new (hl.new ht (hk.steps.keeps.hasTable hhas)) hhas
  sealing := hl.sealing

theorem hasFrame (hk : Later S h T k) (hf : h.HasFrame f) : k.HasFrame f :=
  hk.steps.keeps.hasFrame hf

theorem free (hk : Later S h T k) (hh : h.Sound) (hf : h.Free S f) : k.Free T f := by
  refine ⟨hk.hasFrame hf.1, fun hsealed => hf.2 ?_⟩
  rw [hk.steps.keeps.frame hf.1] at hsealed
  exact hk.new hsealed (hh.hasTable hf.1)

/-- A change that seals no further table: each table binds what it bound, or it is not sealed and
the objects it binds are; a table that no frame has binds no objects. -/
theorem of_steps (hS : h.Sealing S) (hs : Steps 0 h k) (hroot : ∀ f, (k.frame f).root = ⟨0⟩)
    (hchange : ∀ t, (k.table t).bindings = (h.table t).bindings ∨
      ¬ S t ∧ (∀ e ∈ (k.table t).bindings, e.2.Objects (Capsule.Sealed S h)) ∧
        (¬ k.Owned t → ∀ e ∈ (k.table t).bindings, e.2.Objects fun _ => False)) :
    Later S h S k := by
  have hspares : Spares S h S k :=
    ⟨hs, fun ht => ht, fun ht => (hchange _).resolve_right fun hnot => hnot.1 ht⟩
  refine ⟨hspares, fun ht _ => ht, hs.sound hS.sound, fun ht => hs.keeps.hasTable (hS.hasTable ht),
    fun t e he => ?_, fun t howned e he => ?_, hroot⟩
  · rcases hchange t with hsame | ⟨-, hobjects, -⟩
    · rw [hsame] at he
      exact (hS.objects t e he).imp fun _ hc => hc.spares hS.sound hspares
    · exact (hobjects e he).imp fun _ hc => hc.spares hS.sound hspares
  · rcases hchange t with hsame | ⟨-, -, hnone⟩
    · rw [hsame] at he
      exact hS.unowned t (fun ho => howned (hs.keeps.of_owned ho)) e he
    · exact hnone howned e he

/-- A change of functions and links alone. -/
theorem of_bindings (hS : h.Sealing S) (hs : Steps 0 h k) (hframes : k.frames = h.frames)
    (hbindings : ∀ t, (k.table t).bindings = (h.table t).bindings) : Later S h S k :=
  of_steps hS hs (fun f => by rw [frame_congr hframes]; exact hS.root f)
    fun t => .inl (hbindings t)

theorem root_addFrame (hS : h.Sealing S) {frame : Frame} (hroot : frame.root = ⟨0⟩) (f : FrameId) :
    ((h.addFrame frame).frame f).root = ⟨0⟩ := by
  rw [frame_addFrame]
  split
  · exact hroot
  · exact hS.root f

/-- A new table is opened with its frame. -/
theorem opened (hS : h.Sealing S) {p : Option TableId} {bs : Bindings Value} {frame : Frame}
    (hs : Step 0 h ((h.newTable p bs).2.addFrame frame)) (htable : frame.table = ⟨h.tables.size⟩)
    (hroot : frame.root = ⟨0⟩) (hbs : ∀ e ∈ bs, e.2.Settled S h) :
    Later S h S ((h.newTable p bs).2.addFrame frame) := by
  refine of_steps hS (.single hs) (root_addFrame hS hroot) fun t => ?_
  have hget : ((h.newTable p bs).2.addFrame frame).table t = (h.newTable p bs).2.table t := rfl
  rw [hget, table_newTable]
  split
  · rename_i hnew
    refine .inr ⟨fun hsealed => ?_, fun e he => (hbs e he).objects, fun howned => ?_⟩
    · exact absurd (hS.hasTable hsealed) (Nat.not_lt.mpr (Nat.le_of_eq hnew.symm))
    · refine absurd ⟨⟨h.frames.size⟩, by simp [HasFrame], ?_⟩ howned
      have hself : ((h.newTable p bs).2.addFrame frame).frame ⟨h.frames.size⟩ = frame :=
        frame_addFrame_self (h := (h.newTable p bs).2) frame
      rw [hself, htable]
      exact TableId.eq_of_index_eq hnew.symm
  · exact .inl rfl

/-- A new table that is opened with its frame is sealed. -/
theorem openedSealed (hS : h.Sealing S) {p : Option TableId} {bs : Bindings Value} {frame : Frame}
    (hs : Step 0 h ((h.newTable p bs).2.addFrame frame)) (htable : frame.table = ⟨h.tables.size⟩)
    (hroot : frame.root = ⟨0⟩) (hbs : ∀ e ∈ bs, e.2.Settled S h) :
    Later S h (fun t => S t ∨ t = ⟨h.tables.size⟩) ((h.newTable p bs).2.addFrame frame) := by
  obtain ⟨hspares, -, hsealing⟩ := opened hS hs htable hroot hbs
  have hgrown : Spares S ((h.newTable p bs).2.addFrame frame)
      (fun t => S t ∨ t = ⟨h.tables.size⟩) ((h.newTable p bs).2.addFrame frame) :=
    ⟨.refl, .inl, fun _ => rfl⟩
  refine ⟨⟨hspares.steps, .inl, hspares.bindings⟩, ?_, hsealing.sound, ?_, fun t e he => ?_,
    hsealing.unowned, hsealing.root⟩
  · rintro t (ht | rfl) hhas
    · exact ht
    · exact absurd hhas (Nat.lt_irrefl _)
  · rintro t (ht | rfl)
    · exact hsealing.hasTable ht
    · exact Rooted.hasTable_newTable_self
  · exact (hsealing.objects t e he).imp fun _ hc => hc.spares hsealing.sound hgrown

end Heap.Later

end CapsuleScript
