import CapsuleScript.Proofs.Heap.Step

/-! How chains of tables change. A chain keeps its tables, in their order, as long as no strict
object is cut off on it; a cut leaves a table that no frame has. The same holds for the chain from
the table of a frame to the table of the frame it was entered from. -/

namespace CapsuleScript.Heap

variable {fresh : Nat} {h k : Heap} {t u : TableId}

/-- The chain of the table `t` was cut after the heap was `h`. -/
def CutSince (h k : Heap) (t : TableId) : Prop :=
  ∃ x ∈ k.chain t, h.tables.size ≤ x.index ∧ ¬ k.Owned x

/-- Chains keep their tables, in their order, unless they were cut. -/
def Grows (h k : Heap) : Prop :=
  ∀ t, h.HasTable t → (h.chain t).Sublist (k.chain t) ∨ CutSince h k t

theorem Grows.refl (h : Heap) : Grows h h := fun _ _ => .inl (List.Sublist.refl _)

theorem CutSince.of_le {l : Heap} (hsize : h.tables.size ≤ k.tables.size) (hcut : CutSince k l t) :
    CutSince h l t := by
  obtain ⟨x, hx, hindex, howned⟩ := hcut
  exact ⟨x, hx, Nat.le_trans hsize hindex, howned⟩

/-- A chain that was cut stays so. -/
theorem CutSince.grows {l : Heap} (hk : k.Sound) (hkeeps : Keeps fresh k l) (hgrows : Grows k l)
    (hsize : h.tables.size ≤ k.tables.size) (ht : k.HasTable t) (hcut : CutSince h k t) :
    CutSince h l t := by
  rcases hgrows t ht with hsub | hcut'
  · obtain ⟨x, hx, hindex, howned⟩ := hcut
    have hxk := hk.rooted.hasTable_of_mem_chain ht hx
    exact ⟨x, hsub.subset hx, hindex, fun ho => howned (hkeeps.owned hxk ho)⟩
  · exact hcut'.of_le hsize

theorem Grows.trans {l : Heap} (hk : k.Sound) (hkeeps : Keeps fresh h k) (hkeeps' : Keeps fresh k l)
    (hgrows : Grows h k) (hgrows' : Grows k l) : Grows h l := by
  intro t ht
  have htk := hkeeps.hasTable ht
  rcases hgrows t ht with hsub | hcut
  · rcases hgrows' t htk with hsub' | hcut'
    · exact .inl (hsub.trans hsub')
    · exact .inr (hcut'.of_le hkeeps.tables)
  · exact .inr (hcut.grows hk hkeeps' hgrows' hkeeps.tables htk)

theorem grows_of_parent_eq (hh : h.Sound) (hsize : h.tables.size ≤ k.tables.size)
    (hparent : ∀ t, (k.table t).parent = (h.table t).parent) : Grows h k := by
  intro t ht
  rw [hh.rooted.chain_of_parent_eq ht hsize hparent]
  exact .inl (List.Sublist.refl _)

/-- What takes the place of the parent of a table is the table of no frame. -/
theorem Sound.not_owned_cut (hh : h.Sound) (bs : Bindings Value) (x : TableId) :
    ¬ ((h.newTable none bs).2.setParent x (some ⟨h.tables.size⟩)).Owned ⟨h.tables.size⟩ := by
  rintro ⟨f, hf, hft⟩
  have hhas : h.HasTable (h.frame f).table := hh.hasTable hf
  have heq : h.frame f = ((h.newTable none bs).2.setParent x (some ⟨h.tables.size⟩)).frame f :=
    (frame_congr rfl f).symm
  rw [heq, hft] at hhas
  exact Nat.lt_irrefl _ hhas

theorem Sound.grows_cut (hh : h.Sound) {x : TableId} (hx : h.HasTable x) (bs : Bindings Value) :
    Grows h ((h.newTable none bs).2.setParent x (some ⟨h.tables.size⟩)) := by
  intro t ht
  have hp : ∀ q, (none : Option TableId) = some q → h.HasTable q := by simp
  have hnew : (h.newTable none bs).2.Rooted := hh.rooted.newTable hp
  have hnot : x ∉ (h.newTable none bs).2.chain ⟨h.tables.size⟩ :=
    hh.rooted.not_mem_chain_newTable_none hx
  by_cases hmem : x ∈ (h.newTable none bs).2.chain t
  · obtain ⟨before, after, -, -, hchain⟩ := hnew.chain_setParent_of_mem hx.newTable
      Rooted.hasTable_newTable_self hnot ht.newTable hmem
    refine .inr ⟨⟨h.tables.size⟩, ?_, Nat.le_refl _, hh.not_owned_cut bs x⟩
    rw [hchain, hh.rooted.chain_newTable_self hp]
    simp
  · rw [hnew.chain_setParent_of_not_mem hx.newTable Rooted.hasTable_newTable_self hnot ht.newTable
      hmem, hh.rooted.chain_newTable hp ht]
    exact .inl (List.Sublist.refl _)

theorem Step.grows (hh : h.Sound) (hs : Step fresh h k) : Grows h k := by
  cases hs with
  | @opened below bs frame hbelow _ _ _ =>
      intro t ht
      have hp : ∀ q, some below = some q → h.HasTable q := fun q hq => Option.some.inj hq ▸ hbelow
      rw [chain_addFrame, hh.rooted.chain_newTable hp ht]
      exact .inl (List.Sublist.refl _)
  | shared _ _ _ _ => exact grows_of_parent_eq hh (Nat.le_refl _) fun _ => rfl
  | bound _ _ _ _ =>
      refine grows_of_parent_eq hh (by simp) fun u => ?_
      rw [table_bind]
      split <;> rfl
  | rebound _ _ _ _ _ =>
      refine grows_of_parent_eq hh (by simp) fun u => ?_
      rw [table_bind]
      split <;> rfl
  | added _ _ => exact grows_of_parent_eq hh (Nat.le_refl _) fun _ => rfl
  | defined _ _ _ =>
      refine grows_of_parent_eq hh (by simp) fun u => ?_
      rw [table_congr (tables_initializeFrom _ _)]
  | spliced hsplices => exact fun t ht => .inl (hsplices.chain_sublist hh.rooted ht)
  | cut hx _ => exact hh.grows_cut hx _

theorem Steps.grows (hh : h.Sound) (hs : Steps fresh h k) : Grows h k := by
  induction hs with
  | refl => exact .refl h
  | tail hsteps hstep ih =>
      have hsound := Steps.sound hh hsteps
      exact ih.trans hsound (Steps.keeps hsteps) hstep.keeps (hstep.grows hsound)

/-! ### Frames and the frames they were entered from -/

/-- From the table of a frame made after the heap was `h` the table of the frame it was entered from
is seen, unless the chain was cut. -/
def Linked (h k : Heap) : Prop :=
  ∀ f p, k.HasFrame f → h.frames.size ≤ f.index → (k.frame f).parent = some p →
    (k.frame p).table ∈ k.chain (k.frame f).table ∨ CutSince h k (k.frame f).table

/-- The frames of a heap stay linked, and those that a change adds are linked. -/
theorem Linked.step {l : Heap} (hk : k.Sound) (hsize : h.tables.size ≤ k.tables.size)
    (hlinked : Linked h k) (hs : Step fresh k l) : Linked h l := by
  intro f p hf hnew hp
  have hkeeps := hs.keeps
  have hl := hs.sound hk
  by_cases hold : k.HasFrame f
  · rw [hkeeps.frame hold] at hp ⊢
    have hpk := hk.hasFrame_parent hold hp
    rw [hkeeps.frame hpk]
    have ht := hk.hasTable hold
    rcases hlinked f p hold hnew hp with hmem | hcut
    · rcases hs.grows hk _ ht with hsub | hcut
      · exact .inl (hsub.subset hmem)
      · exact .inr (hcut.of_le hsize)
    · exact .inr (hcut.grows hk hkeeps (hs.grows hk) hsize ht)
  · have hpk : k.HasFrame p → l.frame p = k.frame p := fun h => hkeeps.frame h
    cases hs with
    | @opened below bs frame hbelow _ htable hparent =>
        have hf' : f.index = k.frames.size := by
          simp only [HasFrame, frames_size_addFrame, frames_newTable] at hf hold
          omega
        rw [frame_addFrame, if_pos (by simpa using hf')] at hp ⊢
        obtain ⟨hpframe, hbelow'⟩ := hparent p hp
        have hq : ∀ q, some below = some q → k.HasTable q := fun q hq =>
          Option.some.inj hq ▸ hbelow
        rw [hpk hpframe, hbelow', htable]
        refine .inl ?_
        rw [chain_addFrame, hk.rooted.chain_newTable_self hq]
        exact List.mem_cons_of_mem _ (hk.rooted.mem_chain_self hbelow)
    | shared _ hparent hpframe hmem =>
        have hf' : f.index = k.frames.size := by
          simp only [HasFrame, frames_size_addFrame] at hf hold
          omega
        rw [frame_addFrame, if_pos hf'] at hp ⊢
        rw [hparent] at hp
        cases hp
        rw [hpk hpframe, chain_addFrame]
        exact .inl hmem
    | bound => exact absurd hf hold
    | rebound => exact absurd hf hold
    | added => exact absurd hf hold
    | defined => exact absurd (by simpa [HasFrame] using hf) hold
    | spliced => exact absurd hf hold
    | cut => exact absurd hf hold

theorem Steps.linked (hh : h.Sound) (hs : Steps fresh h k) : Linked h k := by
  induction hs with
  | refl => exact fun f _ hf hnew => absurd hf (Nat.not_lt.mpr hnew)
  | tail hsteps hstep ih =>
      exact ih.step (Steps.sound hh hsteps) (Steps.keeps hsteps).tables hstep

end CapsuleScript.Heap
