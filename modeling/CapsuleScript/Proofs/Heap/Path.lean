import CapsuleScript.Proofs.Heap.Access
import Mathlib.Data.List.Nodup

/-! Chains of tables that end. A path lists the tables met by following parent links until a table
without a parent. In a rooted heap every table has a path; the chain of a table is then its path, no
matter how many steps the walk is allowed, and giving one table another parent changes only the
paths that pass it. -/

namespace CapsuleScript.Heap

/-- Following parent links from `start` one meets the tables of the list and then the end. -/
inductive Path (h : Heap) : Option TableId → List TableId → Prop where
  | nil : Path h none []
  | cons {t : TableId} {rest : List TableId} :
      Path h (h.table t).parent rest → Path h (some t) (t :: rest)

/-- Every chain of tables ends, and parents are tables of the heap. -/
structure Rooted (h : Heap) : Prop where
  hasTable_parent : ∀ {t p}, (h.table t).parent = some p → h.HasTable p
  exists_path : ∀ t, ∃ l, h.Path (some t) l

variable {h k : Heap} {t u x : TableId} {l m : List TableId}

/-! ### Paths -/

namespace Path

theorem unique {o : Option TableId} (hl : h.Path o l) (hm : h.Path o m) : l = m := by
  induction hl generalizing m with
  | nil =>
      cases hm
      rfl
  | cons _ ih =>
      cases hm with
      | cons hrest => rw [ih hrest]

theorem eq_cons (hl : h.Path (some t) l) : ∃ rest, l = t :: rest ∧ h.Path (h.table t).parent rest := by
  cases hl with
  | cons hrest => exact ⟨_, rfl, hrest⟩

/-- From a table on a path the rest of the path goes on. -/
theorem suffix_of_mem {o : Option TableId} (hl : h.Path o l) (hu : u ∈ l) :
    ∃ m, h.Path (some u) m ∧ m <:+ l := by
  induction hl with
  | nil => simp at hu
  | @cons t rest hrest ih =>
      rcases List.mem_cons.mp hu with rfl | hmem
      · exact ⟨u :: rest, .cons hrest, List.suffix_refl _⟩
      · obtain ⟨m, hm, hsuffix⟩ := ih hmem
        exact ⟨m, hm, hsuffix.trans (List.suffix_cons _ _)⟩

theorem nodup {o : Option TableId} (hl : h.Path o l) : l.Nodup := by
  induction hl with
  | nil => exact List.nodup_nil
  | @cons t rest hrest ih =>
      refine List.nodup_cons.mpr ⟨fun hmem => ?_, ih⟩
      obtain ⟨m, hm, hsuffix⟩ := hrest.suffix_of_mem hmem
      have heq : m = t :: rest := hm.unique (.cons hrest)
      have hlength := hsuffix.length_le
      rw [heq, List.length_cons] at hlength
      omega

theorem congr {o : Option TableId} (hl : h.Path o l)
    (hparent : ∀ u ∈ l, (k.table u).parent = (h.table u).parent) : k.Path o l := by
  induction hl with
  | nil => exact .nil
  | @cons t rest _ ih =>
      refine .cons ?_
      rw [hparent t List.mem_cons_self]
      exact ih fun u hu => hparent u (List.mem_cons_of_mem _ hu)

/-- A path that meets a table whose only changed link leads to a path without that table goes to
that table as before and then along the new path. -/
theorem relink {o : Option TableId} (hl : h.Path o l)
    (hother : ∀ u, u ≠ x → (k.table u).parent = (h.table u).parent)
    (hnew : k.Path (k.table x).parent m) (hx : x ∈ l) :
    ∃ before after, l = before ++ x :: after ∧ h.Path (h.table x).parent after ∧
      k.Path o (before ++ x :: m) := by
  induction hl with
  | nil => simp at hx
  | @cons t rest hold ih =>
      by_cases htx : t = x
      · subst htx
        exact ⟨[], rest, rfl, hold, .cons hnew⟩
      · have hmem : x ∈ rest := by
          rcases List.mem_cons.mp hx with heq | hmem
          · exact absurd heq.symm htx
          · exact hmem
        obtain ⟨before, after, hrest, hafter, hpath⟩ := ih hmem
        refine ⟨t :: before, after, by rw [hrest]; rfl, hafter, .cons ?_⟩
        rw [hother t htx]
        exact hpath

end Path

/-! ### Chains of rooted heaps -/

theorem chainFrom_congr (htables : k.tables = h.tables) (steps : Nat) (o : Option TableId) :
    k.chainFrom steps o = h.chainFrom steps o := by
  induction steps generalizing o with
  | zero => rfl
  | succ steps ih =>
      cases o with
      | none => rfl
      | some t => simp only [chainFrom, ih, table_congr htables]

theorem chain_congr (htables : k.tables = h.tables) (t : TableId) : k.chain t = h.chain t := by
  unfold chain
  rw [chainFrom_congr htables, htables]

@[simp] theorem chain_addFrame (frame : Frame) (t : TableId) :
    (h.addFrame frame).chain t = h.chain t :=
  chain_congr (tables_addFrame frame) t

theorem chainFrom_eq_of_path {o : Option TableId} {steps : Nat} (hl : h.Path o l)
    (hsteps : l.length ≤ steps) : h.chainFrom steps o = l := by
  induction hl generalizing steps with
  | nil => cases steps <;> rfl
  | @cons t rest _ ih =>
      cases steps with
      | zero => simp at hsteps
      | succ steps =>
          have hrest : rest.length ≤ steps := by simpa using hsteps
          simp only [chainFrom, ih hrest]

/-- What a name means is told by the tables of the chain alone. -/
theorem get?_eq_findSome?_map (h : Heap) (t : TableId) (name : String) :
    h.get? t name = ((h.chain t).map h.table).findSome? fun table => table.bindings.get? name := by
  rw [get?_eq_findSome?, List.findSome?_map]
  rfl

namespace Rooted

theorem empty : Rooted {} where
  hasTable_parent {t p} hp := by simp [table, default] at hp
  exists_path t := ⟨[t], .cons (by simpa [table, default] using .nil)⟩

theorem hasTable_of_path {o : Option TableId} (hh : h.Rooted) (hl : h.Path o l)
    (ho : ∀ t, o = some t → h.HasTable t) : ∀ u ∈ l, h.HasTable u := by
  induction hl with
  | nil => simp
  | @cons t rest _ ih =>
      intro u hu
      rcases List.mem_cons.mp hu with rfl | hmem
      · exact ho u rfl
      · exact ih (fun p hp => hh.hasTable_parent hp) u hmem

/-- There are no more tables on a path than in the heap. -/
theorem length_le_of_path (hh : h.Rooted) (hl : h.Path (some t) l) (ht : h.HasTable t) :
    l.length ≤ h.tables.size := by
  have hrange : l.map TableId.index ⊆ List.range h.tables.size := by
    intro i hi
    obtain ⟨u, hu, rfl⟩ := List.mem_map.mp hi
    exact List.mem_range.mpr
      (hh.hasTable_of_path hl (fun _ heq => Option.some.inj heq ▸ ht) u hu)
  have hnodup : (l.map TableId.index).Nodup :=
    hl.nodup.map fun _ _ heq => TableId.eq_of_index_eq heq
  have hle := hnodup.length_le_of_subset hrange
  rwa [List.length_map, List.length_range] at hle

theorem chain_eq_of_path (hh : h.Rooted) (ht : h.HasTable t) (hl : h.Path (some t) l) :
    h.chain t = l :=
  chainFrom_eq_of_path hl (hh.length_le_of_path hl ht)

theorem path_chain (hh : h.Rooted) (ht : h.HasTable t) : h.Path (some t) (h.chain t) := by
  obtain ⟨l, hl⟩ := hh.exists_path t
  rwa [hh.chain_eq_of_path ht hl]

theorem mem_chain_self (hh : h.Rooted) (ht : h.HasTable t) : t ∈ h.chain t := by
  obtain ⟨rest, heq, -⟩ := (hh.path_chain ht).eq_cons
  rw [heq]
  exact List.mem_cons_self

theorem hasTable_of_mem_chain (hh : h.Rooted) (ht : h.HasTable t) (hu : u ∈ h.chain t) :
    h.HasTable u :=
  hh.hasTable_of_path (hh.path_chain ht) (fun _ heq => Option.some.inj heq ▸ ht) u hu

theorem nodup_chain (hh : h.Rooted) (ht : h.HasTable t) : (h.chain t).Nodup :=
  (hh.path_chain ht).nodup

theorem chain_of_parent_none (hh : h.Rooted) (ht : h.HasTable t) (hp : (h.table t).parent = none) :
    h.chain t = [t] := by
  refine hh.chain_eq_of_path ht (.cons ?_)
  rw [hp]
  exact .nil

theorem chain_of_parent_some {p : TableId} (hh : h.Rooted) (ht : h.HasTable t)
    (hp : (h.table t).parent = some p) : h.chain t = t :: h.chain p := by
  refine hh.chain_eq_of_path ht (.cons ?_)
  rw [hp]
  exact hh.path_chain (hh.hasTable_parent hp)

theorem chain_suffix_of_mem (hh : h.Rooted) (ht : h.HasTable t) (hu : u ∈ h.chain t) :
    h.chain u <:+ h.chain t := by
  obtain ⟨m, hm, hsuffix⟩ := (hh.path_chain ht).suffix_of_mem hu
  rwa [hh.chain_eq_of_path (hh.hasTable_of_mem_chain ht hu) hm]

theorem mem_chain_trans {s : TableId} (hh : h.Rooted) (hs : h.HasTable s) (ht : t ∈ h.chain s)
    (hu : u ∈ h.chain t) : u ∈ h.chain s :=
  (hh.chain_suffix_of_mem hs ht).subset hu

theorem not_mem_chain_parent {p : TableId} (hh : h.Rooted) (ht : h.HasTable t)
    (hp : (h.table t).parent = some p) : t ∉ h.chain p := by
  have hnodup := hh.nodup_chain ht
  rw [hh.chain_of_parent_some ht hp] at hnodup
  exact (List.nodup_cons.mp hnodup).1

end Rooted

end CapsuleScript.Heap
