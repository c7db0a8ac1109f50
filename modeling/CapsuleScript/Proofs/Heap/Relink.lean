import CapsuleScript.Proofs.Heap.Path

/-! New tables and new links. A rooted heap stays rooted when a table is added on top of another and
when a table is linked to a chain that does not pass it. Splicing keeps to that rule, and leaves
every chain with the tables it had, in their order. -/

namespace CapsuleScript.Heap

variable {h k : Heap} {t u x q : TableId}

namespace Rooted

/-! ### The same links -/

theorem of_parent_eq (hh : h.Rooted) (hsize : h.tables.size ≤ k.tables.size)
    (hparent : ∀ t, (k.table t).parent = (h.table t).parent) : k.Rooted where
  hasTable_parent := by
    intro t p hp
    rw [hparent] at hp
    exact Nat.lt_of_lt_of_le (hh.hasTable_parent hp) hsize
  exists_path t := by
    obtain ⟨l, hl⟩ := hh.exists_path t
    exact ⟨l, hl.congr fun u _ => hparent u⟩

theorem chain_of_parent_eq (hh : h.Rooted) (ht : h.HasTable t)
    (hsize : h.tables.size ≤ k.tables.size)
    (hparent : ∀ t, (k.table t).parent = (h.table t).parent) : k.chain t = h.chain t :=
  (hh.of_parent_eq hsize hparent).chain_eq_of_path (Nat.lt_of_lt_of_le ht hsize)
    ((hh.path_chain ht).congr fun u _ => hparent u)

/-! ### A new table -/

section

variable {p : Option TableId} {bs : Bindings Value}

theorem path_newTable (hh : h.Rooted) (ht : h.HasTable t) :
    (h.newTable p bs).2.Path (some t) (h.chain t) := by
  refine (hh.path_chain ht).congr fun u hu => ?_
  rw [table_newTable_of_hasTable (hh.hasTable_of_mem_chain ht hu)]

theorem newTable (hh : h.Rooted) (hp : ∀ q, p = some q → h.HasTable q) :
    (h.newTable p bs).2.Rooted where
  hasTable_parent := by
    intro t q hq
    rw [table_newTable] at hq
    have hhas : h.HasTable q := by
      split at hq
      · exact hp q hq
      · exact hh.hasTable_parent hq
    exact hhas.newTable
  exists_path t := by
    by_cases ht : t.index = h.tables.size
    · cases p with
      | none =>
          refine ⟨[t], .cons ?_⟩
          rw [table_newTable, if_pos ht]
          exact .nil
      | some q =>
          refine ⟨t :: h.chain q, .cons ?_⟩
          rw [table_newTable, if_pos ht]
          exact hh.path_newTable (hp q rfl)
    · by_cases hlt : h.HasTable t
      · exact ⟨_, hh.path_newTable hlt⟩
      · refine ⟨[t], .cons ?_⟩
        rw [table_newTable, if_neg ht, table_of_not_hasTable hlt]
        exact .nil

theorem chain_newTable (hh : h.Rooted) (hp : ∀ q, p = some q → h.HasTable q) (ht : h.HasTable t) :
    (h.newTable p bs).2.chain t = h.chain t := by
  exact (hh.newTable hp).chain_eq_of_path ht.newTable (hh.path_newTable ht)

theorem hasTable_newTable_self : (h.newTable p bs).2.HasTable ⟨h.tables.size⟩ := by
  simp [HasTable]

theorem chain_newTable_self (hh : h.Rooted) (hp : ∀ q, p = some q → h.HasTable q) :
    (h.newTable p bs).2.chain ⟨h.tables.size⟩ = ⟨h.tables.size⟩ :: p.elim [] h.chain := by
  refine (hh.newTable hp).chain_eq_of_path hasTable_newTable_self (.cons ?_)
  rw [table_newTable, if_pos rfl]
  cases p with
  | none => exact .nil
  | some q => exact hh.path_newTable (hp q rfl)

/-- A new table without a parent sees no older table. -/
theorem not_mem_chain_newTable_none (hh : h.Rooted) (ht : h.HasTable t) :
    t ∉ (h.newTable none bs).2.chain ⟨h.tables.size⟩ := by
  rw [hh.chain_newTable_self (by simp)]
  intro hmem
  have heq : t = ⟨h.tables.size⟩ := by simpa using hmem
  rw [heq] at ht
  exact Nat.lt_irrefl _ ht

end

/-! ### Another parent -/

theorem path_setParent_of_not_mem {o : Option TableId} {l : List TableId} {p : Option TableId}
    (hl : h.Path o l) (hx : x ∉ l) : (h.setParent x p).Path o l := by
  refine hl.congr fun u hu => ?_
  have hne : u ≠ x := fun heq => hx (heq ▸ hu)
  rw [table_setParent, if_neg fun hc => hne hc.1]

theorem path_setParent (hh : h.Rooted) (hx : h.HasTable x) (hq : h.HasTable q)
    (hnot : x ∉ h.chain q) {o : Option TableId} {l : List TableId} (hl : h.Path o l) (hmem : x ∈ l) :
    ∃ before after, l = before ++ x :: after ∧ h.Path (h.table x).parent after ∧
      (h.setParent x (some q)).Path o (before ++ x :: h.chain q) := by
  have hnew : ((h.setParent x (some q)).table x).parent = some q := by
    rw [table_setParent, if_pos ⟨rfl, hx⟩]
  refine hl.relink (fun u hu => ?_) ?_ hmem
  · rw [table_setParent, if_neg fun hc => hu hc.1]
  · rw [hnew]
    exact path_setParent_of_not_mem (hh.path_chain hq) hnot

theorem setParent (hh : h.Rooted) (hx : h.HasTable x) (hq : h.HasTable q)
    (hnot : x ∉ h.chain q) : (h.setParent x (some q)).Rooted where
  hasTable_parent := by
    intro t p hp
    rw [table_setParent] at hp
    have hhas : h.HasTable p := by
      split at hp
      · exact Option.some.inj hp ▸ hq
      · exact hh.hasTable_parent hp
    simpa [HasTable] using hhas
  exists_path t := by
    obtain ⟨l, hl⟩ := hh.exists_path t
    by_cases hmem : x ∈ l
    · obtain ⟨_, _, _, _, hpath⟩ := hh.path_setParent hx hq hnot hl hmem
      exact ⟨_, hpath⟩
    · exact ⟨l, path_setParent_of_not_mem hl hmem⟩

theorem chain_setParent_of_not_mem (hh : h.Rooted) (hx : h.HasTable x) (hq : h.HasTable q)
    (hnot : x ∉ h.chain q) (ht : h.HasTable t) (hmem : x ∉ h.chain t) :
    (h.setParent x (some q)).chain t = h.chain t :=
  (hh.setParent hx hq hnot).chain_eq_of_path (by simpa [HasTable] using ht)
    (path_setParent_of_not_mem (hh.path_chain ht) hmem)

/-- A chain through the table with the new link comes to that table as before, and goes on with the
chain of the new parent. -/
theorem chain_setParent_of_mem (hh : h.Rooted) (hx : h.HasTable x) (hq : h.HasTable q)
    (hnot : x ∉ h.chain q) (ht : h.HasTable t) (hmem : x ∈ h.chain t) :
    ∃ before after, h.chain t = before ++ x :: after ∧ h.Path (h.table x).parent after ∧
      (h.setParent x (some q)).chain t = before ++ x :: h.chain q := by
  obtain ⟨before, after, hchain, hafter, hpath⟩ :=
    hh.path_setParent hx hq hnot (hh.path_chain ht) hmem
  refine ⟨before, after, hchain, hafter, ?_⟩
  exact (hh.setParent hx hq hnot).chain_eq_of_path (by simpa [HasTable] using ht) hpath

end Rooted

/-! ### Splicing -/

/-- The splice point is the first table of the chain whose parent is visible, or the last one. -/
theorem splicePoint_spec {visible l : List TableId} {steps : Nat} (hl : h.Path (some t) l)
    (hsteps : l.length ≤ steps) (ht : t ∉ visible) :
    h.splicePoint visible steps t ∈ l ∧ h.splicePoint visible steps t ∉ visible ∧
      ∀ p, (h.table (h.splicePoint visible steps t)).parent = some p → p ∈ visible := by
  induction steps generalizing t l with
  | zero =>
      obtain ⟨rest, rfl, -⟩ := hl.eq_cons
      simp at hsteps
  | succ steps ih =>
      obtain ⟨rest, rfl, hrest⟩ := hl.eq_cons
      cases hp : (h.table t).parent with
      | none =>
          have hpoint : h.splicePoint visible (steps + 1) t = t := by simp only [splicePoint, hp]
          rw [hpoint]
          exact ⟨List.mem_cons_self, ht, fun p hparent => by rw [hp] at hparent; cases hparent⟩
      | some p =>
          by_cases hvisible : p ∈ visible
          · have hpoint : h.splicePoint visible (steps + 1) t = t := by
              simp only [splicePoint, hp, if_pos hvisible]
            rw [hpoint]
            refine ⟨List.mem_cons_self, ht, fun p' hparent => ?_⟩
            rw [hp] at hparent
            exact Option.some.inj hparent ▸ hvisible
          · have hpoint : h.splicePoint visible (steps + 1) t = h.splicePoint visible steps p := by
              simp only [splicePoint, hp, if_neg hvisible]
            rw [hpoint]
            rw [hp] at hrest
            obtain ⟨hmem, hrest⟩ := ih hrest (by simpa using hsteps) hvisible
            exact ⟨List.mem_cons_of_mem _ hmem, hrest⟩

/-- The table `x` may be linked to the table `q`: it is not on the chain of `q`, and if it has a
parent then that one is. -/
structure Splices (h : Heap) (x q : TableId) : Prop where
  hasTable : h.HasTable x
  hasTable_link : h.HasTable q
  not_mem : x ∉ h.chain q
  mem_of_parent : ∀ p, (h.table x).parent = some p → p ∈ h.chain q

theorem Rooted.splices_splicePoint (hh : h.Rooted) (ht : h.HasTable t) (hq : h.HasTable q)
    (hnot : t ∉ h.chain q) : h.Splices (h.splicePoint (h.chain q) h.tables.size t) q := by
  have hpath := hh.path_chain ht
  obtain ⟨hmem, hpoint, hparent⟩ :=
    splicePoint_spec hpath (hh.length_le_of_path hpath ht) hnot
  exact ⟨hh.hasTable_of_mem_chain ht hmem, hq, hpoint, hparent⟩

theorem Rooted.splicePoint_mem_chain (hh : h.Rooted) (ht : h.HasTable t)
    (hnot : t ∉ h.chain q) : h.splicePoint (h.chain q) h.tables.size t ∈ h.chain t := by
  have hpath := hh.path_chain ht
  exact (splicePoint_spec hpath (hh.length_le_of_path hpath ht) hnot).1

/-- No chain loses a table by a splice, and the tables it had stay in their order. -/
theorem Splices.chain_sublist (hs : h.Splices x q) (hh : h.Rooted) (ht : h.HasTable t) :
    (h.chain t).Sublist ((h.setParent x (some q)).chain t) := by
  by_cases hmem : x ∈ h.chain t
  · obtain ⟨before, after, hchain, hafter, hnew⟩ :=
      hh.chain_setParent_of_mem hs.hasTable hs.hasTable_link hs.not_mem ht hmem
    have hkept : after <:+ h.chain q := by
      cases hp : (h.table x).parent with
      | none =>
          rw [hp] at hafter
          cases hafter
          exact List.nil_suffix
      | some p =>
          rw [hp] at hafter
          rw [← hh.chain_eq_of_path (hh.hasTable_parent hp) hafter]
          exact hh.chain_suffix_of_mem hs.hasTable_link (hs.mem_of_parent p hp)
    rw [hchain, hnew]
    exact (List.Sublist.refl before).append (hkept.sublist.cons_cons x)
  · rw [hh.chain_setParent_of_not_mem hs.hasTable hs.hasTable_link hs.not_mem ht hmem]

end CapsuleScript.Heap
