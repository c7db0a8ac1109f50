import CapsuleScript.Proofs.Evaluation.Operations
import CapsuleScript.Proofs.Matching.Heaps

/-! The heap operations of the evaluator on two matched heaps. Each leaves heaps that are matched
again, by a matching that has what was made besides what it had. -/

namespace CapsuleScript

variable {W X : Matching}

namespace Matching

/-- The matching with one more pair of tables. -/
def addTable (W : Matching) (t t' : TableId) : Matching :=
  { W with tables := fun u u' => W.tables u u' ∨ u = t ∧ u' = t' }

/-- The matching with one more pair of frames. -/
def addFrame (W : Matching) (f f' : FrameId) : Matching :=
  { W with frames := fun e e' => W.frames e e' ∨ e = f ∧ e' = f' }

/-- The matching with one more pair of functions. -/
def addFunction (W : Matching) (g g' : FunctionId) : Matching :=
  { W with functions := fun u u' => W.functions u u' ∨ u = g ∧ u' = g' }

theorem extends_addTable (W : Matching) (t t' : TableId) : W.Extends (W.addTable t t') :=
  ⟨.inl, fun h => h, fun h => h⟩

theorem extends_addFrame (W : Matching) (f f' : FrameId) : W.Extends (W.addFrame f f') :=
  ⟨fun h => h, .inl, fun h => h⟩

theorem extends_addFunction (W : Matching) (g g' : FunctionId) : W.Extends (W.addFunction g g') :=
  ⟨fun h => h, fun h => h, .inl⟩

/-- A new pair keeps a matching one to one. -/
theorem eq_iff_of_new {α : Type} {R : α → α → Prop} {a a' : α}
    (heq : ∀ {b b' c c'}, R b b' → R c c' → (b = c ↔ b' = c'))
    (hnew : ∀ {b b'}, R b b' → b ≠ a ∧ b' ≠ a') {b b' c c' : α}
    (hb : R b b' ∨ b = a ∧ b' = a') (hc : R c c' ∨ c = a ∧ c' = a') : b = c ↔ b' = c' := by
  rcases hb with hb | ⟨rfl, rfl⟩
  · rcases hc with hc | ⟨rfl, rfl⟩
    · exact heq hb hc
    · exact iff_of_false (hnew hb).1 (hnew hb).2
  · rcases hc with hc | ⟨rfl, rfl⟩
    · exact iff_of_false (fun h => (hnew hc).1 h.symm) fun h => (hnew hc).2 h.symm
    · exact iff_of_true rfl rfl

end Matching

namespace Matching.Heaps

open Heap

variable {h h' : Heap} {t t' q q' : TableId} {f f' : FrameId} {g g' u u' : FunctionId}
  {v v' : Value} {bs bs' : Bindings Value}

/-! ### Tables -/

/-- Another state of the tables, in which the matched ones match. -/
theorem of_tables (hW : W.Heaps h h') {k k' : Heap} (hrooted : k.Rooted) (hrooted' : k'.Rooted)
    (hframes : k.frames = h.frames) (hframes' : k'.frames = h'.frames)
    (hfunctions : k.functions = h.functions) (hfunctions' : k'.functions = h'.functions)
    (hsize : k.tables.size = h.tables.size) (hsize' : k'.tables.size = h'.tables.size)
    (htable : ∀ {t t'}, W.tables t t' → (k.table t).Match W (k'.table t')) : W.Heaps k k' where
  toOneToOne := hW.toOneToOne
  rooted := hrooted
  rooted' := hrooted'
  table ht := by
    obtain ⟨hhas, hhas', -⟩ := hW.table ht
    refine ⟨?_, ?_, htable ht⟩
    · rwa [HasTable, hsize]
    · rwa [HasTable, hsize']
  frame hf := by
    rw [HasFrame, HasFrame, hframes, hframes', frame_congr hframes, frame_congr hframes']
    exact hW.frame hf
  older hf := by
    rw [frame_congr hframes, frame_congr hframes']
    exact hW.older hf
  function hg := by
    rw [HasFunction, HasFunction, hfunctions, hfunctions', function_congr hfunctions,
      function_congr hfunctions']
    exact hW.function hg

theorem newTable (hW : W.Heaps h h') {p p' : Option TableId} (hp : Option.Rel W.tables p p')
    (hbs : Value.EntriesMatch W bs bs') :
    (W.addTable ⟨h.tables.size⟩ ⟨h'.tables.size⟩).Heaps (h.newTable p bs).2
      (h'.newTable p' bs').2 := by
  have hX := W.extends_addTable ⟨h.tables.size⟩ ⟨h'.tables.size⟩
  have hhas : ∀ q, p = some q → h.HasTable q := by
    intro q hq
    subst hq
    cases hp with
    | some hq => exact (hW.table hq).1
  have hhas' : ∀ q, p' = some q → h'.HasTable q := by
    intro q hq
    subst hq
    cases hp with
    | some hq => exact (hW.table hq).2.1
  refine ⟨⟨?_, hW.frames_eq, hW.functions_eq⟩, hW.rooted.newTable hhas, hW.rooted'.newTable hhas',
    ?_, ?_, hW.older, ?_⟩
  · refine eq_iff_of_new hW.tables_eq fun hb => ⟨?_, ?_⟩
    · rintro rfl
      exact Nat.lt_irrefl _ (hW.table hb).1
    · rintro rfl
      exact Nat.lt_irrefl _ (hW.table hb).2.1
  · rintro t t' (ht | ⟨rfl, rfl⟩)
    · obtain ⟨hold, hold', htable⟩ := hW.table ht
      rw [table_newTable_of_hasTable hold, table_newTable_of_hasTable hold']
      exact ⟨hold.newTable, hold'.newTable, htable.mono hX⟩
    · rw [table_newTable, table_newTable, if_pos rfl, if_pos rfl]
      exact ⟨Rooted.hasTable_newTable_self, Rooted.hasTable_newTable_self, hbs.mono hX,
        rel_mono hX.tables hp⟩
  · intro f f' hf
    obtain ⟨hold, hold', hframe⟩ := hW.frame hf
    exact ⟨hold, hold', hframe.mono hX⟩
  · intro g g' hg
    obtain ⟨hold, hold', hfunction⟩ := hW.function hg
    exact ⟨hold, hold', hfunction.mono hX⟩

theorem bind (hW : W.Heaps h h') (ht : W.tables t t') (name : String) (hv : v.Match W v') :
    W.Heaps (h.bind t name v) (h'.bind t' name v') := by
  have hparent : ∀ (k : Heap) (x y : TableId) (w : Value),
      ((k.bind x name w).table y).parent = (k.table y).parent := by
    intro k x y w
    rw [table_bind]
    split <;> rfl
  refine hW.of_tables (hW.rooted.of_parent_eq (by simp) fun y => hparent _ _ y _)
    (hW.rooted'.of_parent_eq (by simp) fun y => hparent _ _ y _) rfl rfl rfl rfl (by simp) (by simp)
    fun {x x'} hx => ?_
  obtain ⟨-, -, htable⟩ := hW.table hx
  have hiff := hW.tables_eq hx ht
  rw [table_bind, table_bind]
  by_cases hxt : x = t
  · rw [if_pos ⟨hxt, (hW.table ht).1⟩, if_pos ⟨hiff.mp hxt, (hW.table ht).2.1⟩]
    exact ⟨htable.bindings.insert name hv, htable.parent⟩
  · rw [if_neg fun hc => hxt hc.1, if_neg fun hc => hxt (hiff.mpr hc.1)]
    exact htable

theorem setParent (hW : W.Heaps h h') (ht : W.tables t t') (hq : W.tables q q')
    (hnot : t ∉ h.chain q) : W.Heaps (h.setParent t (some q)) (h'.setParent t' (some q')) := by
  have hnot' : t' ∉ h'.chain q' := fun hmem => hnot ((hW.mem_chain_iff ht hq).mpr hmem)
  refine hW.of_tables (hW.rooted.setParent (hW.table ht).1 (hW.table hq).1 hnot)
    (hW.rooted'.setParent (hW.table ht).2.1 (hW.table hq).2.1 hnot') rfl rfl rfl rfl (by simp)
    (by simp) fun {x x'} hx => ?_
  obtain ⟨-, -, htable⟩ := hW.table hx
  have hiff := hW.tables_eq hx ht
  rw [table_setParent, table_setParent]
  by_cases hxt : x = t
  · rw [if_pos ⟨hxt, (hW.table ht).1⟩, if_pos ⟨hiff.mp hxt, (hW.table ht).2.1⟩]
    exact ⟨htable.bindings, .some hq⟩
  · rw [if_neg fun hc => hxt hc.1, if_neg fun hc => hxt (hiff.mpr hc.1)]
    exact htable

/-! ### Frames and functions -/

theorem addFrame (hW : W.Heaps h h') {frame frame' : Frame} (hframe : frame.Match W frame') :
    (W.addFrame ⟨h.frames.size⟩ ⟨h'.frames.size⟩).Heaps (h.addFrame frame) (h'.addFrame frame') := by
  have hX := W.extends_addFrame ⟨h.frames.size⟩ ⟨h'.frames.size⟩
  refine ⟨⟨hW.tables_eq, ?_, hW.functions_eq⟩,
    hW.rooted.of_parent_eq (Nat.le_refl _) fun _ => rfl,
    hW.rooted'.of_parent_eq (Nat.le_refl _) fun _ => rfl, ?_, ?_, ?_, ?_⟩
  · refine eq_iff_of_new hW.frames_eq fun hb => ⟨?_, ?_⟩
    · rintro rfl
      exact Nat.lt_irrefl _ (hW.frame hb).1
    · rintro rfl
      exact Nat.lt_irrefl _ (hW.frame hb).2.1
  · intro t t' ht
    obtain ⟨hold, hold', htable⟩ := hW.table ht
    exact ⟨hold, hold', htable.mono hX⟩
  · rintro f f' (hf | ⟨rfl, rfl⟩)
    · obtain ⟨hold, hold', hmatch⟩ := hW.frame hf
      rw [frame_addFrame_of_hasFrame hold, frame_addFrame_of_hasFrame hold']
      exact ⟨hold.addFrame, hold'.addFrame, hmatch.mono hX⟩
    · rw [frame_addFrame_self, frame_addFrame_self]
      exact ⟨by simp [HasFrame], by simp [HasFrame], hframe.mono hX⟩
  · rintro f f' (hf | ⟨rfl, rfl⟩)
    · rw [frame_addFrame_of_hasFrame (hW.frame hf).1, frame_addFrame_of_hasFrame (hW.frame hf).2.1]
      exact hW.older hf
    · rw [frame_addFrame_self, frame_addFrame_self]
      have hparent := hframe.parent
      refine ⟨fun p hp => ?_, fun p hp => ?_⟩
      · rw [hp] at hparent
        generalize frame'.parent = o at hparent
        cases hparent with
        | some hpp => exact (hW.frame hpp).1
      · rw [hp] at hparent
        generalize frame.parent = o at hparent
        cases hparent with
        | some hpp => exact (hW.frame hpp).2.1
  · intro g g' hg
    obtain ⟨hold, hold', hfunction⟩ := hW.function hg
    exact ⟨hold, hold', hfunction.mono hX⟩

theorem addFunction (hW : W.Heaps h h') {data data' : Function} (hdata : data.Match W data') :
    (W.addFunction ⟨h.functions.size⟩ ⟨h'.functions.size⟩).Heaps (h.addFunction data)
      (h'.addFunction data') := by
  have hX := W.extends_addFunction ⟨h.functions.size⟩ ⟨h'.functions.size⟩
  refine ⟨⟨hW.tables_eq, hW.frames_eq, ?_⟩,
    hW.rooted.of_parent_eq (Nat.le_refl _) fun _ => rfl,
    hW.rooted'.of_parent_eq (Nat.le_refl _) fun _ => rfl, ?_, ?_, hW.older, ?_⟩
  · refine eq_iff_of_new hW.functions_eq fun hb => ⟨?_, ?_⟩
    · rintro rfl
      exact Nat.lt_irrefl _ (hW.function hb).1
    · rintro rfl
      exact Nat.lt_irrefl _ (hW.function hb).2.1
  · intro t t' ht
    obtain ⟨hold, hold', htable⟩ := hW.table ht
    exact ⟨hold, hold', htable.mono hX⟩
  · intro f f' hf
    obtain ⟨hold, hold', hmatch⟩ := hW.frame hf
    exact ⟨hold, hold', hmatch.mono hX⟩
  · rintro g g' (hg | ⟨rfl, rfl⟩)
    · obtain ⟨hold, hold', hfunction⟩ := hW.function hg
      rw [function_addFunction_of_hasFunction hold, function_addFunction_of_hasFunction hold']
      exact ⟨hold.addFunction, hold'.addFunction, hfunction.mono hX⟩
    · rw [function_addFunction, function_addFunction, if_pos rfl, if_pos rfl]
      exact ⟨by simp [HasFunction], by simp [HasFunction], hdata.mono hX⟩

theorem initializeFrom (hW : W.Heaps h h') (hg : W.functions g g') (hu : W.functions u u') :
    W.Heaps (h.initializeFrom g u) (h'.initializeFrom g' u') := by
  have hsource := (hW.function hu).2.2
  refine ⟨hW.toOneToOne, ?_, ?_, ?_, ?_, ?_, ?_⟩
  · exact hW.rooted.of_parent_eq (by simp) fun t => by rw [table_congr (tables_initializeFrom _ _)]
  · exact hW.rooted'.of_parent_eq (by simp) fun t => by rw [table_congr (tables_initializeFrom _ _)]
  · intro t t' ht
    rw [HasTable, HasTable, tables_initializeFrom, tables_initializeFrom,
      table_congr (tables_initializeFrom _ _), table_congr (tables_initializeFrom _ _)]
    exact hW.table ht
  · intro f f' hf
    rw [HasFrame, HasFrame, frames_initializeFrom, frames_initializeFrom,
      frame_congr (frames_initializeFrom _ _), frame_congr (frames_initializeFrom _ _)]
    exact hW.frame hf
  · intro f f' hf
    rw [frame_congr (frames_initializeFrom _ _), frame_congr (frames_initializeFrom _ _)]
    exact hW.older hf
  · intro x x' hx
    obtain ⟨hhas, hhas', hfunction⟩ := hW.function hx
    have hxg := hW.functions_eq hx hg
    have hgu := hW.functions_eq hg hu
    rw [HasFunction, HasFunction, functions_size_initializeFrom, functions_size_initializeFrom,
      function_initializeFrom, function_initializeFrom]
    refine ⟨hhas, hhas', ?_⟩
    by_cases hcase : x = g ∧ g ≠ u
    · rw [if_pos ⟨hcase.1, hcase.2, (hW.function hg).1⟩, if_pos ⟨hxg.mp hcase.1,
        fun heq => hcase.2 (hgu.mpr heq), (hW.function hg).2.1⟩]
      exact ⟨hfunction.name, hsource.params, hsource.body, hsource.home, hsource.autoReturn, rfl⟩
    · rw [if_neg fun hc => hcase ⟨hc.1, hc.2.1⟩, if_neg fun hc => hcase ⟨hxg.mpr hc.1,
        fun heq => hc.2.1 (hgu.mp heq)⟩]
      exact hfunction

end Matching.Heaps

end CapsuleScript
