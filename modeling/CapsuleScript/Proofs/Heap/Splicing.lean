import CapsuleScript.Proofs.Heap.Relink
import Mathlib.Logic.Relation

/-! Splicing one chain of tables into another. Main statement: a splice is refused exactly if the
table is visible from the link, and otherwise gives one table of the chain the link as its parent, so
that every table keeps its ancestors, the names of the spliced chain mean what the part before the
link or else the link says, and splicing again changes nothing. -/

namespace CapsuleScript.Heap

variable {h k : Heap} {s t u x l : TableId} {visible : List TableId}

/-- The table `u` is an ancestor of `t`: parent links lead from `t` to it. -/
abbrev Ancestor (h : Heap) : TableId → TableId → Prop :=
  Relation.TransGen fun t u => (h.table t).parent = some u

/-- The table `u` is `t` or an ancestor of `t`. -/
abbrev Visible (h : Heap) : TableId → TableId → Prop :=
  Relation.ReflTransGen fun t u => (h.table t).parent = some u

/-! ### Chains and ancestors -/

/-- The chain of a table lists what is visible from it. -/
theorem Rooted.mem_chain_iff_visible (hh : h.Rooted) (ht : h.HasTable t) :
    u ∈ h.chain t ↔ h.Visible t u := by
  constructor
  · intro hu
    generalize hl : h.chain t = tables at hu
    have hpath : h.Path (some t) tables := hl ▸ hh.path_chain ht
    clear hl
    induction tables generalizing t with
    | nil => simp at hu
    | cons first rest ih =>
        obtain ⟨_, heq, hrest⟩ := hpath.eq_cons
        cases heq
        rcases List.mem_cons.mp hu with rfl | hmem
        · exact .refl
        · cases hp : (h.table first).parent with
          | none =>
              rw [hp] at hrest
              cases hrest
              simp at hmem
          | some p =>
              rw [hp] at hrest
              exact .head hp (ih (hh.hasTable_parent hp) hmem hrest)
  · intro hvisible
    induction hvisible with
    | refl => exact hh.mem_chain_self ht
    | @tail v w _ hp ih =>
        refine hh.mem_chain_trans ht ih ?_
        rw [hh.chain_of_parent_some (hh.hasTable_of_mem_chain ht ih) hp]
        exact List.mem_cons_of_mem _ (hh.mem_chain_self (hh.hasTable_parent hp))

/-- The ancestors of a table are what is visible from its parent. -/
theorem ancestor_iff : h.Ancestor t u ↔ ∃ p, (h.table t).parent = some p ∧ h.Visible p u :=
  Relation.TransGen.head'_iff

/-! ### The splice point -/

/-- The part of the chain from `s` to `x`. -/
def chainTo (h : Heap) (s x : TableId) : List TableId := (h.chain s).takeWhile (· ≠ x) ++ [x]

theorem Rooted.chainTo_eq {before after : List TableId} (hh : h.Rooted) (hs : h.HasTable s)
    (hchain : h.chain s = before ++ x :: after) : h.chainTo s x = before ++ [x] := by
  have hnot : x ∉ before := by
    have hnodup := hh.nodup_chain hs
    rw [hchain] at hnodup
    exact fun hx => (List.nodup_append.mp hnodup).2.2 x hx x List.mem_cons_self rfl
  have hpositive : ∀ u ∈ before, decide (u ≠ x) = true := fun u hu => by
    simpa using fun heq : u = x => hnot (heq ▸ hu)
  rw [chainTo, hchain, List.takeWhile_append_of_pos hpositive]
  simp

/-- On the way to the splice point no table is visible from the link. -/
theorem splicePoint_split {tables : List TableId} {steps : Nat} (hpath : h.Path (some t) tables)
    (hsteps : tables.length ≤ steps) (ht : t ∉ visible) :
    ∃ before after, tables = before ++ h.splicePoint visible steps t :: after ∧
      ∀ u ∈ before, u ∉ visible := by
  induction steps generalizing t tables with
  | zero =>
      obtain ⟨rest, rfl, -⟩ := hpath.eq_cons
      simp at hsteps
  | succ steps ih =>
      obtain ⟨rest, rfl, hrest⟩ := hpath.eq_cons
      rw [splicePoint]
      cases hp : (h.table t).parent with
      | none => exact ⟨[], rest, rfl, by simp⟩
      | some p =>
          by_cases hmem : p ∈ visible
          · exact ⟨[], rest, by simp [hmem], by simp⟩
          · rw [hp] at hrest
            obtain ⟨before, after, heq, hbefore⟩ := ih hrest (by simpa using hsteps) hmem
            refine ⟨t :: before, after, by simp [hmem, heq], ?_⟩
            exact List.forall_mem_cons.mpr ⟨ht, hbefore⟩

/-- The walk to a splice point goes on as long as the next table is not visible. -/
theorem splicePoint_eq {before after : List TableId} {steps : Nat}
    (hpath : h.Path (some t) (before ++ x :: after)) (hsteps : before.length < steps)
    (hbefore : ∀ u ∈ before, u ∉ visible) (hx : x ∉ visible)
    (hparent : ∀ p, (h.table x).parent = some p → p ∈ visible) :
    h.splicePoint visible steps t = x := by
  induction before generalizing t steps with
  | nil =>
      obtain ⟨_, heq, -⟩ := hpath.eq_cons
      cases heq
      cases steps with
      | zero => rfl
      | succ steps =>
          rw [splicePoint]
          split
          · rfl
          · rename_i p hp
            exact if_pos (hparent p hp)
  | cons first rest ih =>
      obtain ⟨_, heq, hrest⟩ := hpath.eq_cons
      cases heq
      cases steps with
      | zero => omega
      | succ steps =>
          rw [splicePoint]
          cases hp : (h.table first).parent with
          | none =>
              rw [hp] at hrest
              exact absurd (hrest.unique .nil) (by simp)
          | some p =>
              rw [hp] at hrest
              -- The next table is one of those before the splice point, or the point itself.
              have hnext : p ∉ visible := by
                obtain ⟨tail, htail, -⟩ := hrest.eq_cons
                cases rest with
                | nil =>
                    cases htail
                    exact hx
                | cons second rest =>
                    cases htail
                    exact hbefore p (by simp)
              have hlength : rest.length < steps := by simpa using hsteps
              simp only [if_neg hnext]
              exact ih hrest hlength fun u hu => hbefore u (List.mem_cons_of_mem _ hu)

/-! ### The spliced heap -/

/-- What a splice of the chain of `s` into that of `l` at the table `x` makes of the heap `h`. -/
structure Spliced (h : Heap) (s l x : TableId) (k : Heap) : Prop where
  visible : h.Visible s x
  not_visible : ¬ h.Visible l x
  /-- Only the link of `x` changes. -/
  parent_self : (k.table x).parent = some l
  parent_other : ∀ t, t ≠ x → (k.table t).parent = (h.table t).parent
  bindings : ∀ t, (k.table t).bindings = (h.table t).bindings
  tables : k.tables.size = h.tables.size
  frames : k.frames = h.frames
  functions : k.functions = h.functions
  /-- All chains still end. -/
  rooted : k.Rooted
  /-- No table loses an ancestor. -/
  ancestor : ∀ {t u}, h.Ancestor t u → k.Ancestor t u
  /-- From `s` a name means what the chain up to `x` says, or else what it meant from the link. -/
  get?_self : ∀ name, k.get? s name =
    ((h.chainTo s x).findSome? fun t => (h.table t).bindings.get? name).or (h.get? l name)
  /-- Chains that do not pass `x` are read as before. -/
  get?_other : ∀ {t} (name : String), h.HasTable t → ¬ h.Visible t x →
    k.get? t name = h.get? t name
  /-- The same splice again finds everything in place. -/
  splice_again : k.splice s l = (some x, k)

theorem setParent_setParent (x : TableId) (p : Option TableId) :
    (h.setParent x p).setParent x p = h.setParent x p := by
  simp only [setParent, Heap.mk.injEq, and_self, and_true]
  ext i hi hi'
  · simp
  all_goals
    simp only [Array.getElem_modify]
    split <;> rfl

theorem findSome?_setParent (tables : List TableId) (x : TableId) (p : Option TableId)
    (name : String) :
    tables.findSome? (fun t => ((h.setParent x p).table t).bindings.get? name) =
      tables.findSome? fun t => (h.table t).bindings.get? name := by
  congr 1
  funext t
  rw [table_setParent]
  split <;> rfl

section

variable (hh : h.Rooted) (hs : h.HasTable s) (hsplices : h.Splices x l)
include hh hsplices

theorem Splices.chain_link : (h.setParent x (some l)).chain l = h.chain l :=
  hh.chain_setParent_of_not_mem hsplices.hasTable hsplices.hasTable_link hsplices.not_mem
    hsplices.hasTable_link hsplices.not_mem

/-- No table loses an ancestor by a splice. -/
theorem Splices.ancestor (hancestor : h.Ancestor t u) : (h.setParent x (some l)).Ancestor t u := by
  have hrooted := hh.setParent hsplices.hasTable hsplices.hasTable_link hsplices.not_mem
  obtain ⟨p, hp, hpu⟩ := ancestor_iff.mp hancestor
  have hasp := hh.hasTable_parent hp
  by_cases htx : t = x
  · -- The old parent is on the chain of the link, and so are all its ancestors.
    subst htx
    have hlink : u ∈ h.chain l := hh.mem_chain_trans hsplices.hasTable_link
      (hsplices.mem_of_parent p hp) ((hh.mem_chain_iff_visible hasp).mpr hpu)
    refine ancestor_iff.mpr ⟨l, by rw [table_setParent, if_pos ⟨rfl, hsplices.hasTable⟩], ?_⟩
    rw [← hrooted.mem_chain_iff_visible (by simpa [HasTable] using hsplices.hasTable_link),
      hsplices.chain_link hh]
    exact hlink
  · refine ancestor_iff.mpr ⟨p, by rwa [table_setParent, if_neg fun hc => htx hc.1], ?_⟩
    rw [← hrooted.mem_chain_iff_visible (by simpa [HasTable] using hasp)]
    exact (hsplices.chain_sublist hh hasp).subset ((hh.mem_chain_iff_visible hasp).mpr hpu)

theorem Splices.get?_of_not_visible (ht : h.HasTable t) (hvisible : ¬ h.Visible t x)
    (name : String) : (h.setParent x (some l)).get? t name = h.get? t name := by
  have hmem : x ∉ h.chain t := fun hmem => hvisible ((hh.mem_chain_iff_visible ht).mp hmem)
  rw [get?_eq_findSome?, findSome?_setParent, get?_eq_findSome?,
    hh.chain_setParent_of_not_mem hsplices.hasTable hsplices.hasTable_link hsplices.not_mem ht hmem]

include hs

/-- The chain of a table from which the splice point is visible goes on with that of the link. -/
theorem Splices.chain_of_mem (hmem : x ∈ h.chain s) :
    (h.setParent x (some l)).chain s = h.chainTo s x ++ h.chain l := by
  obtain ⟨before, after, hchain, -, hnew⟩ := hh.chain_setParent_of_mem hsplices.hasTable
    hsplices.hasTable_link hsplices.not_mem hs hmem
  rw [hnew, hh.chainTo_eq hs hchain, List.append_assoc]
  rfl

theorem Splices.get?_self (hmem : x ∈ h.chain s) (name : String) :
    (h.setParent x (some l)).get? s name =
      ((h.chainTo s x).findSome? fun t => (h.table t).bindings.get? name).or (h.get? l name) := by
  rw [get?_eq_findSome?, findSome?_setParent, hsplices.chain_of_mem hh hs hmem,
    List.findSome?_append, get?_eq_findSome?]

/-- In the spliced heap the same splice comes to the same table, which has the link as its parent
already. -/
theorem Splices.splice_again (hnot : s ∉ h.chain l)
    (hx : h.splicePoint (h.chain l) h.tables.size s = x) :
    (h.setParent x (some l)).splice s l = (some x, h.setParent x (some l)) := by
  have hpath := hh.path_chain hs
  have hrooted := hh.setParent hsplices.hasTable hsplices.hasTable_link hsplices.not_mem
  obtain ⟨before, after, hchain, hbefore⟩ :=
    splicePoint_split hpath (hh.length_le_of_path hpath hs) hnot
  rw [hx] at hchain
  have hlength := hh.length_le_of_path hpath hs
  rw [hchain, List.length_append, List.length_cons] at hlength
  have hnew : (h.setParent x (some l)).Path (some s) (before ++ x :: h.chain l) := by
    have hmem : x ∈ h.chain s := hchain ▸ List.mem_append_right _ List.mem_cons_self
    have hwhole := hrooted.path_chain (t := s) (by simpa [HasTable] using hs)
    rwa [hsplices.chain_of_mem hh hs hmem, hh.chainTo_eq hs hchain, List.append_assoc] at hwhole
  have hpoint : (h.setParent x (some l)).splicePoint (h.chain l)
      (h.setParent x (some l)).tables.size s = x := by
    refine splicePoint_eq hnew ?_ hbefore hsplices.not_mem fun p hp => ?_
    · rw [tables_size_setParent]
      omega
    · rw [table_setParent, if_pos ⟨rfl, hsplices.hasTable⟩] at hp
      cases hp
      exact hh.mem_chain_self hsplices.hasTable_link
  have hvisible := hsplices.chain_link hh
  rw [splice_of_not_mem (by rwa [hvisible]), hvisible, hpoint, setParent_setParent]

end

/-- Splicing the chain of `s` into that of `l` is refused, and changes nothing, exactly if `s` is
visible from `l`. Otherwise one table that is visible from `s` and not from `l` gets `l` as its
parent, and nothing else changes but what is seen through that link. -/
theorem splice_eq_none_iff_and_spliced (hh : h.Rooted) (hs : h.HasTable s) (hl : h.HasTable l) :
    ((h.splice s l).1 = none ↔ h.Visible l s) ∧
    ((h.splice s l).1 = none → (h.splice s l).2 = h) ∧
    ∀ x, (h.splice s l).1 = some x → Spliced h s l x (h.splice s l).2 := by
  by_cases hmem : s ∈ h.chain l
  · rw [splice_of_mem hmem]
    simpa using (hh.mem_chain_iff_visible hl).mp hmem
  · have hsplices := hh.splices_splicePoint hs hl hmem
    have hpoint := hh.splicePoint_mem_chain hs hmem
    rw [splice_of_not_mem hmem]
    refine ⟨by simpa using fun hv => hmem ((hh.mem_chain_iff_visible hl).mpr hv), by simp, ?_⟩
    rintro x ⟨⟩
    generalize hx : h.splicePoint (h.chain l) h.tables.size s = x at hsplices hpoint
    exact {
      visible := (hh.mem_chain_iff_visible hs).mp hpoint
      not_visible := fun hv => hsplices.not_mem ((hh.mem_chain_iff_visible hl).mpr hv)
      parent_self := by rw [table_setParent, if_pos ⟨rfl, hsplices.hasTable⟩]
      parent_other := fun t ht => by rw [table_setParent, if_neg fun hc => ht hc.1]
      bindings := fun t => by rw [table_setParent]; split <;> rfl
      tables := tables_size_setParent _ _
      frames := rfl
      functions := rfl
      rooted := hh.setParent hsplices.hasTable hl hsplices.not_mem
      ancestor := hsplices.ancestor hh
      get?_self := hsplices.get?_self hh hs hpoint
      get?_other := fun name ht hv => hsplices.get?_of_not_visible hh ht hv name
      splice_again := hsplices.splice_again hh hs hmem hx }

/-- Two chains that meet: the tables 1 and 2 have the parent 0, and the table 3 has the parent 1. -/
def meetingChains : Heap :=
  let root := (newTable {} none [("a", .text "root")]).2
  let both := ((root.newTable (some ⟨0⟩) [("b", .text "chain")]).2.newTable (some ⟨0⟩)
    [("a", .text "link")]).2
  (both.newTable (some ⟨1⟩) []).2

/-- The last table before the meeting point is linked. From the table 3 the name `a` then means what
the table 2 binds it to. -/
theorem spliced_meetingChains : (meetingChains.splice ⟨3⟩ ⟨2⟩).1 = some ⟨1⟩ ∧
    Spliced meetingChains ⟨3⟩ ⟨2⟩ ⟨1⟩ (meetingChains.splice ⟨3⟩ ⟨2⟩).2 := by
  have hroot : ∀ bs, ((newTable {} none bs).2).Rooted := fun bs => Rooted.empty.newTable (by simp)
  have hrooted : meetingChains.Rooted := by
    refine (((hroot _).newTable ?_).newTable ?_).newTable ?_ <;>
      · rintro q ⟨⟩
        simp [HasTable]
  have hpoint : (meetingChains.splice ⟨3⟩ ⟨2⟩).1 = some ⟨1⟩ := by decide
  exact ⟨hpoint, (splice_eq_none_iff_and_spliced hrooted (by decide) (by decide)).2.2 ⟨1⟩ hpoint⟩

end CapsuleScript.Heap
