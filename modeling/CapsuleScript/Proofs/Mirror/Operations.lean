import CapsuleScript.Proofs.Matching.Operations
import CapsuleScript.Proofs.Mirror.Basic

/-! The operations of the constructs on two heaps that look alike. What they make is open, and they
bind names only in open tables, so that closed tables keep what names mean in them. -/

namespace CapsuleScript

variable {W X : Matching} {z z' : Horizon} {α : Type}

namespace Matching.Mirrors

open Heap

variable {h h' k k' : Heap} {t t' q q' : TableId} {f f' : FrameId} {g g' u u' : FunctionId}
  {v v' : Value} {bs bs' : Bindings Value}

/-- Where closed tables are left alone, names mean the same in those that are matched. -/
theorem closed_of_same (hW : W.Mirrors z z' h h') (hX : W.Extends X) (hk : k.After z)
    (hk' : k'.After z') (hsize : h.tables.size ≤ k.tables.size)
    (hsize' : h'.tables.size ≤ k'.tables.size)
    (hsame : ∀ u : TableId, u.index < z.tables → k.table u = h.table u)
    (hsame' : ∀ u : TableId, u.index < z'.tables → k'.table u = h'.table u) (ht : W.tables t t')
    (hclosed : t.index < z.tables) (name : String) :
    Option.Rel (Value.Match X) (k.get? t name) (k'.get? t' name) := by
  have hclosed' : t'.index < z'.tables :=
    Nat.lt_of_not_le fun hle => Nat.not_lt.mpr ((hW.table ht).2.2.mpr hle) hclosed
  rw [hW.left.get?_eq hk.rooted hsize hsame hclosed,
    hW.right.get?_eq hk'.rooted hsize' hsame' hclosed']
  exact rel_mono (fun hv => hv.mono hX) (hW.closed ht hclosed name)

/-! ### Tables -/

theorem newTable (hW : W.Mirrors z z' h h') {p p' : Option TableId}
    (hp : Option.Rel W.tables p p') (hbs : Value.EntriesMatch W bs bs') :
    (W.addTable ⟨h.tables.size⟩ ⟨h'.tables.size⟩).Mirrors z z' (h.newTable p bs).2
      (h'.newTable p' bs').2 := by
  have hX := W.extends_addTable ⟨h.tables.size⟩ ⟨h'.tables.size⟩
  have hhas : ∀ q, p = some q → h.HasTable q := by
    intro q hq
    subst hq
    cases hp with
    | some hq => exact (hW.table hq).1
  have hhas' : ∀ q, p' = some q → h'.HasTable q := by
    intro q hq
    subst hq
    cases hp with
    | some hq => exact (hW.table hq).2.1
  have hnew : ∀ {t t'}, W.tables t t' → t ≠ ⟨h.tables.size⟩ ∧ t' ≠ ⟨h'.tables.size⟩ := by
    refine fun ht => ⟨?_, ?_⟩ <;> rintro rfl
    · exact Nat.lt_irrefl _ (hW.table ht).1
    · exact Nat.lt_irrefl _ (hW.table ht).2.1
  have hleft : (h.newTable p bs).2.After z := hW.left.newTable hhas
  have hright : (h'.newTable p' bs').2.After z' := hW.right.newTable hhas'
  refine ⟨hleft, hright, ?_, ?_, ?_, ?_, ?_, ?_, hW.frames_eq, ?_, hW.body, hW.functions_eq⟩
  · rintro t t' (ht | ⟨rfl, rfl⟩)
    · obtain ⟨hold, hold', hiff⟩ := hW.table ht
      exact ⟨hold.newTable, hold'.newTable, hiff⟩
    · exact ⟨Rooted.hasTable_newTable_self, Rooted.hasTable_newTable_self,
        iff_of_true hW.left.tables hW.right.tables⟩
  · rintro t t' (ht | ⟨rfl, rfl⟩) hclosed
    · exact hW.closed_of_same hX hleft hright (by simp) (by simp)
        (fun u hu => table_newTable_of_hasTable (Nat.lt_of_lt_of_le hu hW.left.tables))
        (fun u hu => table_newTable_of_hasTable (Nat.lt_of_lt_of_le hu hW.right.tables)) ht hclosed
    · exact absurd hW.left.tables (Nat.not_le.mpr hclosed)
  · rintro t t' (ht | ⟨rfl, rfl⟩) hopen
    · obtain ⟨hold, hold', -⟩ := hW.table ht
      rw [table_newTable_of_hasTable hold, table_newTable_of_hasTable hold']
      exact (hW.opened ht hopen).mono hX
    · rw [table_newTable, table_newTable, if_pos rfl, if_pos rfl]
      exact ⟨hbs.mono hX, rel_mono hX.tables hp⟩
  · rintro t t' u u' (ht | ⟨rfl, rfl⟩) (hu | ⟨rfl, rfl⟩) hopen
    · exact hW.tables_eq ht hu hopen
    · exact iff_of_false (hnew ht).1 (hnew ht).2
    · exact iff_of_false (hnew hu).1.symm (hnew hu).2.symm
    · exact iff_of_true rfl rfl
  · intro f f' hf
    obtain ⟨hold, hold', hiff, htable⟩ := hW.frame hf
    exact ⟨hold, hold', hiff, .inl htable⟩
  · exact hW.entered
  · intro g g' hg
    obtain ⟨hold, hold', hfunction⟩ := hW.function hg
    exact ⟨hold, hold', hfunction.mono hX⟩

theorem bind (hW : W.Mirrors z z' h h') (ht : W.tables t t') (hopen : z.tables ≤ t.index)
    (name : String) (hv : v.Match W v') : W.Mirrors z z' (h.bind t name v) (h'.bind t' name v') := by
  have hopen' : z'.tables ≤ t'.index := (hW.table ht).2.2.mp hopen
  have hparent : ∀ (k : Heap) (x y : TableId) (w : Value),
      ((k.bind x name w).table y).parent = (k.table y).parent := by
    intro k x y w
    rw [table_bind]
    split <;> rfl
  have hsame : ∀ (k : Heap) (n : Nat) (x : TableId) (w : Value), n ≤ x.index →
      ∀ u : TableId, u.index < n → (k.bind x name w).table u = k.table u := by
    intro k n x w hx u hu
    rw [table_bind, if_neg]
    rintro ⟨rfl, -⟩
    omega
  have hleft : (h.bind t name v).After z :=
    hW.left.of_parent_eq (by simp) (fun y => hparent _ _ y _) rfl
  have hright : (h'.bind t' name v').After z' :=
    hW.right.of_parent_eq (by simp) (fun y => hparent _ _ y _) rfl
  refine ⟨hleft, hright, ?_, ?_, ?_, hW.tables_eq, hW.frame, hW.entered, hW.frames_eq, hW.function,
    hW.body, hW.functions_eq⟩
  · intro x x' hx
    obtain ⟨hhas, hhas', hiff⟩ := hW.table hx
    refine ⟨?_, ?_, hiff⟩
    · rwa [HasTable, tables_size_bind]
    · rwa [HasTable, tables_size_bind]
  · intro x x' hx hclosed
    exact hW.closed_of_same (.refl W) hleft hright (by simp) (by simp) (hsame _ _ _ _ hopen)
      (hsame _ _ _ _ hopen') hx hclosed
  · intro x x' hx hxopen
    have htable := hW.opened hx hxopen
    have hiff := hW.tables_eq hx ht hxopen
    rw [table_bind, table_bind]
    by_cases hxt : x = t
    · rw [if_pos ⟨hxt, (hW.table ht).1⟩, if_pos ⟨hiff.mp hxt, (hW.table ht).2.1⟩]
      exact ⟨htable.bindings.insert name hv, htable.parent⟩
    · rw [if_neg fun hc => hxt hc.1, if_neg fun hc => hxt (hiff.mpr hc.1)]
      exact htable

/-! ### Frames and functions -/

theorem addFrame (hW : W.Mirrors z z' h h') {frame frame' : Frame}
    (htable : W.tables frame.table frame'.table) (hopen : z.tables ≤ frame.table.index)
    (hparent : Option.Rel W.frames frame.parent frame'.parent) :
    (W.addFrame ⟨h.frames.size⟩ ⟨h'.frames.size⟩).Mirrors z z' (h.addFrame frame)
      (h'.addFrame frame') := by
  have hX := W.extends_addFrame ⟨h.frames.size⟩ ⟨h'.frames.size⟩
  have hhas : ∀ p, frame.parent = some p → h.HasFrame p := by
    intro p hp
    rw [hp] at hparent
    generalize frame'.parent = o at hparent
    cases hparent with
    | some hpp => exact (hW.frame hpp).1
  have hhas' : ∀ p, frame'.parent = some p → h'.HasFrame p := by
    intro p hp
    rw [hp] at hparent
    generalize frame.parent = o at hparent
    cases hparent with
    | some hpp => exact (hW.frame hpp).2.1
  have hnew : ∀ {f f'}, W.frames f f' → f ≠ ⟨h.frames.size⟩ ∧ f' ≠ ⟨h'.frames.size⟩ := by
    refine fun hf => ⟨?_, ?_⟩ <;> rintro rfl
    · exact Nat.lt_irrefl _ (hW.frame hf).1
    · exact Nat.lt_irrefl _ (hW.frame hf).2.1
  have hleft := hW.left.addFrame hhas
  have hright := hW.right.addFrame hhas'
  refine ⟨hleft, hright, hW.table, ?_, ?_, hW.tables_eq, ?_, ?_, ?_, ?_, hW.body, hW.functions_eq⟩
  · intro t t' ht hclosed
    exact hW.closed_of_same hX hleft hright (Nat.le_refl _) (Nat.le_refl _) (fun _ _ => rfl)
      (fun _ _ => rfl) ht hclosed
  · intro t t' ht hopen
    exact (hW.opened ht hopen).mono hX
  · rintro f f' (hf | ⟨rfl, rfl⟩)
    · obtain ⟨hold, hold', hiff, hft⟩ := hW.frame hf
      rw [frame_addFrame_of_hasFrame hold, frame_addFrame_of_hasFrame hold']
      exact ⟨hold.addFrame, hold'.addFrame, hiff, hft⟩
    · rw [frame_addFrame_self, frame_addFrame_self]
      exact ⟨by simp [HasFrame], by simp [HasFrame], iff_of_true hW.left.frames hW.right.frames,
        htable⟩
  · rintro f f' (hf | ⟨rfl, rfl⟩) hfopen
    · obtain ⟨hold, hold', -, -⟩ := hW.frame hf
      rw [frame_addFrame_of_hasFrame hold, frame_addFrame_of_hasFrame hold']
      exact ⟨(hW.entered hf hfopen).1, rel_mono hX.frames (hW.entered hf hfopen).2⟩
    · rw [frame_addFrame_self, frame_addFrame_self]
      exact ⟨hopen, rel_mono hX.frames hparent⟩
  · rintro f f' e e' (hf | ⟨rfl, rfl⟩) (he | ⟨rfl, rfl⟩) hfopen
    · exact hW.frames_eq hf he hfopen
    · exact iff_of_false (hnew hf).1 (hnew hf).2
    · exact iff_of_false (hnew he).1.symm (hnew he).2.symm
    · exact iff_of_true rfl rfl
  · intro g g' hg
    obtain ⟨hold, hold', hfunction⟩ := hW.function hg
    exact ⟨hold, hold', hfunction.mono hX⟩

/-- A change of functions alone. -/
theorem of_functions (hW : W.Mirrors z z' h h') (hX : W.Extends X) (htables : X.tables = W.tables)
    (hframes : X.frames = W.frames) (hk : k.tables = h.tables ∧ k.frames = h.frames)
    (hk' : k'.tables = h'.tables ∧ k'.frames = h'.frames)
    (hfunction : ∀ {g g'}, X.functions g g' →
      k.HasFunction g ∧ k'.HasFunction g' ∧ (k.function g).Match X (k'.function g'))
    (hbody : ∀ {g g'}, X.functions g g' →
      (k.function g).body.Lexical ∧ (k.function g).body.IsStatement)
    (hfunctions_eq : ∀ {g g' u u'}, X.functions g g' → X.functions u u' →
      (k.function g).initialized = false → (g = u ↔ g' = u')) : X.Mirrors z z' k k' := by
  have hleft : k.After z :=
    hW.left.of_parent_eq (by rw [hk.1]) (fun t => by rw [table_congr hk.1]) hk.2
  have hright : k'.After z' :=
    hW.right.of_parent_eq (by rw [hk'.1]) (fun t => by rw [table_congr hk'.1]) hk'.2
  refine ⟨hleft, hright, ?_, ?_, ?_, ?_, ?_, ?_, ?_, hfunction, hbody, hfunctions_eq⟩
  · intro t t' ht
    rw [htables] at ht
    rw [HasTable, HasTable, hk.1, hk'.1]
    exact hW.table ht
  · intro t t' ht hclosed
    rw [htables] at ht
    exact hW.closed_of_same hX hleft hright (Nat.le_of_eq (by rw [hk.1]))
      (Nat.le_of_eq (by rw [hk'.1]))
      (fun _ _ => table_congr hk.1 _) (fun _ _ => table_congr hk'.1 _) ht hclosed
  · intro t t' ht hopen
    rw [htables] at ht
    rw [table_congr hk.1, table_congr hk'.1]
    exact (hW.opened ht hopen).mono hX
  · intro t t' u u' ht hu hopen
    rw [htables] at ht hu
    exact hW.tables_eq ht hu hopen
  · intro f f' hf
    rw [hframes] at hf
    rw [HasFrame, HasFrame, hk.2, hk'.2, frame_congr hk.2, frame_congr hk'.2, htables]
    exact hW.frame hf
  · intro f f' hf hopen
    rw [hframes] at hf
    rw [frame_congr hk.2, frame_congr hk'.2, hframes]
    exact hW.entered hf hopen
  · intro f f' e e' hf he hopen
    rw [hframes] at hf he
    exact hW.frames_eq hf he hopen

theorem addFunction (hW : W.Mirrors z z' h h') {data data' : Function} (hdata : data.Match W data')
    (hbody : data.body.Lexical ∧ data.body.IsStatement) :
    (W.addFunction ⟨h.functions.size⟩ ⟨h'.functions.size⟩).Mirrors z z' (h.addFunction data)
      (h'.addFunction data') := by
  have hX := W.extends_addFunction ⟨h.functions.size⟩ ⟨h'.functions.size⟩
  have hnew : ∀ {g g'}, W.functions g g' → g ≠ ⟨h.functions.size⟩ ∧ g' ≠ ⟨h'.functions.size⟩ := by
    refine fun hg => ⟨?_, ?_⟩ <;> rintro rfl
    · exact Nat.lt_irrefl _ (hW.function hg).1
    · exact Nat.lt_irrefl _ (hW.function hg).2.1
  refine hW.of_functions hX rfl rfl ⟨rfl, rfl⟩ ⟨rfl, rfl⟩ ?_ ?_ ?_
  · rintro g g' (hg | ⟨rfl, rfl⟩)
    · obtain ⟨hold, hold', hfunction⟩ := hW.function hg
      rw [function_addFunction_of_hasFunction hold, function_addFunction_of_hasFunction hold']
      exact ⟨hold.addFunction, hold'.addFunction, hfunction.mono hX⟩
    · rw [function_addFunction, function_addFunction, if_pos rfl, if_pos rfl]
      exact ⟨by simp [HasFunction], by simp [HasFunction], hdata.mono hX⟩
  · rintro g g' (hg | ⟨rfl, rfl⟩)
    · rw [function_addFunction_of_hasFunction (hW.function hg).1]
      exact hW.body hg
    · rw [function_addFunction, if_pos rfl]
      exact hbody
  · rintro g g' u u' (hg | ⟨rfl, rfl⟩) (hu | ⟨rfl, rfl⟩) hinit
    · rw [function_addFunction_of_hasFunction (hW.function hg).1] at hinit
      exact hW.functions_eq hg hu hinit
    · exact iff_of_false (hnew hg).1 (hnew hg).2
    · exact iff_of_false (hnew hu).1.symm (hnew hu).2.symm
    · exact iff_of_true rfl rfl

/-- A placeholder is defined. -/
theorem initializeFrom (hW : W.Mirrors z z' h h') (hg : W.functions g g')
    (hinit : (h.function g).initialized = false) (hu : W.functions u u') :
    W.Mirrors z z' (h.initializeFrom g u) (h'.initializeFrom g' u') := by
  have hsource := (hW.function hu).2.2
  have hgu := hW.functions_eq hg hu hinit
  refine hW.of_functions (.refl W) rfl rfl ⟨by simp, by simp⟩ ⟨by simp, by simp⟩ ?_ ?_ ?_
  · intro x x' hx
    obtain ⟨hhas, hhas', hfunction⟩ := hW.function hx
    have hgx := hW.functions_eq hg hx hinit
    rw [HasFunction, HasFunction, functions_size_initializeFrom, functions_size_initializeFrom,
      function_initializeFrom, function_initializeFrom]
    refine ⟨hhas, hhas', ?_⟩
    by_cases hcase : x = g ∧ g ≠ u
    · rw [if_pos ⟨hcase.1, hcase.2, (hW.function hg).1⟩, if_pos ⟨(hgx.mp hcase.1.symm).symm,
        fun heq => hcase.2 (hgu.mpr heq), (hW.function hg).2.1⟩]
      exact ⟨hfunction.name, hsource.params, hsource.body, hsource.home, hsource.autoReturn, rfl⟩
    · rw [if_neg fun hc => hcase ⟨hc.1, hc.2.1⟩, if_neg fun hc => hcase
        ⟨(hgx.mpr hc.1.symm).symm, fun heq => hc.2.1 (hgu.mp heq)⟩]
      exact hfunction
  · intro x x' hx
    rw [function_initializeFrom]
    split
    · exact hW.body hu
    · exact hW.body hx
  · intro x x' y y' hx hy hnot
    rw [function_initializeFrom] at hnot
    split at hnot
    · cases hnot
    · exact hW.functions_eq hx hy hnot

end Matching.Mirrors

/-! ### What the constructs make -/

/-- What was made on two heaps is related, by a matching of the heaps that extends `W`. -/
def Matching.Brings (z z' : Horizon) (W : Matching) (Q : Matching → α → α → Prop)
    (made made' : α × Heap) : Prop :=
  ∃ X, W.Extends X ∧ X.Mirrors z z' made.2 made'.2 ∧ Q X made.1 made'.1

/-- The frames are matched, and open. -/
def Matching.Open (z : Horizon) (W : Matching) (f f' : FrameId) : Prop :=
  W.frames f f' ∧ z.frames ≤ f.index

theorem Matching.Open.mono {f f' : FrameId} (hX : W.Extends X) (hf : W.Open z f f') :
    X.Open z f f' :=
  ⟨hX.frames hf.1, hf.2⟩

namespace Matching.Mirrors

open Heap

variable {h h' : Heap} {q q' : TableId} {f f' : FrameId} {v v' : Value} {bs bs' : Bindings Value}

/-- A new table with a new frame. -/
theorem openFrame (hW : W.Mirrors z z' h h') (hq : W.tables q q')
    (hbs : Value.EntriesMatch W bs bs') {frame frame' : Frame}
    (htable : frame.table = ⟨h.tables.size⟩) (htable' : frame'.table = ⟨h'.tables.size⟩)
    (hparent : Option.Rel W.frames frame.parent frame'.parent) :
    W.Brings z z' (Matching.Open z) (⟨h.frames.size⟩, (h.newTable (some q) bs).2.addFrame frame)
      (⟨h'.frames.size⟩, (h'.newTable (some q') bs').2.addFrame frame') := by
  have hnew := hW.newTable (.some hq) hbs
  have hX := W.extends_addTable ⟨h.tables.size⟩ ⟨h'.tables.size⟩
  refine ⟨_, hX.trans (extends_addFrame _ _ _), hnew.addFrame ?_ ?_ hparent, .inr ⟨rfl, rfl⟩,
    hW.left.frames⟩
  · rw [htable, htable']
    exact .inr ⟨rfl, rfl⟩
  · rw [htable]
    exact hW.left.tables

theorem enter (hW : W.Mirrors z z' h h') (label : String) (hf : W.frames f f') (span : Span) :
    W.Brings z z' (Matching.Open z) (h.enter label f span) (h'.enter label f' span) := by
  rw [enter_eq, enter_eq]
  exact hW.openFrame (hW.frame hf).2.2.2 .nil rfl rfl (.some hf)

theorem define (hW : W.Mirrors z z' h h') (hf : W.Open z f f') (name : String)
    (hv : v.Match W v') : W.Mirrors z z' (h.define f name v) (h'.define f' name v') :=
  hW.bind (hW.frame hf.1).2.2.2 (hW.entered hf.1 hf.2).1 name hv

theorem callFrame (hW : W.Mirrors z z' h h') {callee callee' : Function}
    (hcallee : callee.Match W callee') {arguments arguments' : List Value}
    (harguments : Value.AllMatch W arguments arguments') (span : Span) :
    W.Brings z z' (Matching.Open z) (Evaluation.callFrame callee arguments span h)
      (Evaluation.callFrame callee' arguments' span h') := by
  rw [callFrame_eq, callFrame_eq, hcallee.name, hcallee.params]
  refine hW.openFrame (hW.frame hcallee.home).2.2.2 ?_ rfl rfl (.some hcallee.home)
  exact Value.EntriesMatch.nil.override (.zip _ harguments)

mutual

theorem rehome : (v : Value) → {W : Matching} → {v' : Value} → {h h' : Heap} →
    W.Mirrors z z' h h' → W.frames f f' → v.Match W v' →
      W.Brings z z' (fun X v v' => v.Match X v') (Heap.rehome f v h) (Heap.rehome f' v' h')
  | .function g, W, _, h, h', hW, hf, .function hg => by
      have hfunction := (hW.function hg).2.2
      rw [Heap.rehome, Heap.rehome, hfunction.initialized]
      split
      · have hdata : Function.Match W { h.function g with home := f }
            { h'.function _ with home := f' } :=
          ⟨hfunction.name, hfunction.params, hfunction.body, hf, hfunction.autoReturn,
            hfunction.initialized⟩
        exact ⟨_, W.extends_addFunction _ _, hW.addFunction hdata (hW.body hg),
          .function (.inr ⟨rfl, rfl⟩)⟩
      · exact ⟨W, .refl W, hW, .function hg⟩
  | .list elements, _, _, _, _, hW, hf, .list helements => by
      obtain ⟨X, hX, hheaps, hmatch⟩ := rehomeAll elements hW hf helements
      exact ⟨X, hX, hheaps, .list hmatch⟩
  | .number x, W, _, _, _, hW, _, .number _ => ⟨W, .refl W, hW, .number x⟩
  | .bool b, W, _, _, _, hW, _, .bool _ => ⟨W, .refl W, hW, .bool b⟩
  | .null, W, _, _, _, hW, _, .null => ⟨W, .refl W, hW, .null⟩
  | .text s, W, _, _, _, hW, _, .text _ => ⟨W, .refl W, hW, .text s⟩
  | .encap .., W, _, _, _, hW, _, .encap hfields hinherited hscope =>
      ⟨W, .refl W, hW, .encap hfields hinherited hscope⟩
  | .empty, W, _, _, _, hW, _, .empty => ⟨W, .refl W, hW, .empty⟩

theorem rehomeAll : (vs : List Value) → {W : Matching} → {vs' : List Value} → {h h' : Heap} →
    W.Mirrors z z' h h' → W.frames f f' → Value.AllMatch W vs vs' →
      W.Brings z z' (fun X vs vs' => Value.AllMatch X vs vs') (Heap.rehomeAll f vs h)
        (Heap.rehomeAll f' vs' h')
  | [], W, _, _, _, hW, _, .nil => ⟨W, .refl W, hW, .nil⟩
  | v :: rest, _, _, _, _, hW, hf, .cons hv hrest => by
      obtain ⟨X, hX, hheaps, hfirst⟩ := rehome v hW hf hv
      obtain ⟨Y, hY, hheaps', hothers⟩ := rehomeAll rest hheaps (hX.frames hf) (hrest.mono hX)
      exact ⟨Y, hX.trans hY, hheaps', .cons (hfirst.mono hY) hothers⟩

end

theorem merge (hW : W.Mirrors z z' h h') {c c' d d' : Capsule} (hc : c.Match W c')
    (hd : d.Match W d') (entry : Span) :
    W.Brings z z' (fun X c c' => c.Match X c') (c.merge d entry h) (c'.merge d' entry h') := by
  have hmembers : Value.EntriesMatch W (c.mergedMembers d) (c'.mergedMembers d') :=
    hc.members.override hd.members
  have hopened : W.Brings z z' (Matching.Open z)
      (⟨h.frames.size⟩, (h.newTable (some (h.frame c.scope).table) (c.mergedMembers d)).2.addFrame
        ⟨(h.frame c.scope).label, ⟨h.tables.size⟩, some c.scope, some entry,
          (h.frame c.scope).root⟩)
      (⟨h'.frames.size⟩, (h'.newTable (some (h'.frame c'.scope).table)
        (c'.mergedMembers d')).2.addFrame ⟨(h'.frame c'.scope).label, ⟨h'.tables.size⟩,
          some c'.scope, some entry, (h'.frame c'.scope).root⟩) :=
    hW.openFrame (hW.frame hc.scope).2.2.2 hmembers rfl rfl (.some hc.scope)
  obtain ⟨X, hX, hheaps, hframe⟩ := hopened
  refine ⟨X, hX, hheaps, hmembers.mono hX, .nil, ?_, hframe.1⟩
  exact congrArg₂ _ hc.types hd.types

end Matching.Mirrors

end CapsuleScript
