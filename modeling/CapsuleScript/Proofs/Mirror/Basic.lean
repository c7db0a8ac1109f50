import CapsuleScript.Proofs.Matching.Heaps
import CapsuleScript.Proofs.Node.Lexical

/-! Heaps that look alike from some moment on. What was made before that moment is closed: of closed
tables that are matched it is only known that names mean the same in them, whichever tables of their
chains bind the names. What was made since is the same but for numbers. This is enough for the
evaluation of nodes that see a heap only through the meaning of names. -/

namespace CapsuleScript

/-- A moment, told by how many tables and frames there were. -/
structure Horizon where
  tables : Nat
  frames : Nat

open Heap

variable {W X : Matching} {z z' : Horizon} {h h' k k' : Heap}

/-! ### One heap -/

/-- A heap after the moment `z`. What was closed then leads only to what was closed. -/
structure Heap.After (z : Horizon) (h : Heap) : Prop where
  rooted : h.Rooted
  tables : z.tables ≤ h.tables.size
  frames : z.frames ≤ h.frames.size
  closed : ∀ {t p}, t.index < z.tables → (h.table t).parent = some p → p.index < z.tables
  older : ∀ {f p}, h.HasFrame f → (h.frame f).parent = some p → p.index < f.index

/-- A name means what the first table binds it to, or what it means in the parent. -/
theorem Heap.Rooted.get?_eq_or {t : TableId} (hh : h.Rooted) (ht : h.HasTable t) (name : String) :
    h.get? t name = ((h.table t).bindings.get? name).or
      ((h.table t).parent.bind fun p => h.get? p name) := by
  rw [get?_eq_findSome?]
  cases hp : (h.table t).parent with
  | none =>
      rw [hh.chain_of_parent_none ht hp, List.findSome?_cons]
      cases (h.table t).bindings.get? name <;> rfl
  | some p =>
      rw [hh.chain_of_parent_some ht hp, List.findSome?_cons, Option.bind_some, get?_eq_findSome?]
      cases (h.table t).bindings.get? name <;> rfl

namespace Heap.After

variable {t : TableId} {f : FrameId}

/-- Names mean in closed tables what they meant, as long as those are left alone. -/
theorem get?_eq (hh : h.After z) (hk : k.Rooted) (hsize : h.tables.size ≤ k.tables.size)
    (hsame : ∀ u : TableId, u.index < z.tables → k.table u = h.table u) (ht : t.index < z.tables)
    (name : String) : k.get? t name = h.get? t name := by
  obtain ⟨l, hl⟩ := hh.rooted.exists_path t
  induction l generalizing t with
  | nil => cases hl
  | cons _ rest ih =>
      have hhas : h.HasTable t := Nat.lt_of_lt_of_le ht hh.tables
      obtain ⟨_, heq, hrest⟩ := hl.eq_cons
      obtain ⟨-, rfl⟩ := List.cons.inj heq
      rw [hk.get?_eq_or (Nat.lt_of_lt_of_le hhas hsize), hh.rooted.get?_eq_or hhas, hsame t ht]
      cases hp : (h.table t).parent with
      | none => rfl
      | some p =>
          rw [hp] at hrest
          rw [Option.bind_some, Option.bind_some, ih (hh.closed ht hp) hrest]

theorem closed_of_mem_ancestryFrom (hh : h.After z) {steps : Nat} {e : FrameId}
    (he : e.index < z.frames) (hf : f ∈ h.ancestryFrom steps (some e)) : f.index < z.frames := by
  induction steps generalizing e with
  | zero => cases hf
  | succ steps ih =>
      rcases List.mem_cons.mp hf with rfl | hmem
      · exact he
      · cases hp : (h.frame e).parent with
        | none =>
            rw [hp] at hmem
            cases steps <;> cases hmem
        | some p =>
            rw [hp] at hmem
            have hlt := hh.older (Nat.lt_of_lt_of_le he hh.frames) hp
            exact ih (Nat.lt_trans hlt he) hmem

theorem newTable (hh : h.After z) {p : Option TableId} {bs : Bindings Value}
    (hp : ∀ q, p = some q → h.HasTable q) : (h.newTable p bs).2.After z where
  rooted := hh.rooted.newTable hp
  tables := by
    rw [tables_size_newTable]
    exact Nat.le_succ_of_le hh.tables
  frames := hh.frames
  closed ht hparent := by
    rw [table_newTable_of_hasTable (Nat.lt_of_lt_of_le ht hh.tables)] at hparent
    exact hh.closed ht hparent
  older := hh.older

theorem addFrame (hh : h.After z) {frame : Frame}
    (hparent : ∀ p, frame.parent = some p → h.HasFrame p) : (h.addFrame frame).After z where
  rooted := hh.rooted.of_parent_eq (Nat.le_refl _) fun _ => rfl
  tables := hh.tables
  frames := by
    rw [frames_size_addFrame]
    exact Nat.le_succ_of_le hh.frames
  closed := hh.closed
  older := by
    intro f p hf hp
    rw [frame_addFrame] at hp
    split at hp
    · rename_i hnew
      rw [hnew]
      exact hparent p hp
    · rename_i hold
      refine hh.older ?_ hp
      have hlt : f.index < h.frames.size + 1 := by simpa [HasFrame] using hf
      exact Nat.lt_of_le_of_ne (Nat.le_of_lt_succ hlt) hold

/-- A change that leaves the links of tables and the frames alone. -/
theorem of_parent_eq (hh : h.After z) (hsize : k.tables.size = h.tables.size)
    (hparent : ∀ t, (k.table t).parent = (h.table t).parent) (hframes : k.frames = h.frames) :
    k.After z where
  rooted := hh.rooted.of_parent_eq (Nat.le_of_eq hsize.symm) hparent
  tables := by
    rw [hsize]
    exact hh.tables
  frames := by
    rw [hframes]
    exact hh.frames
  closed ht hp := by
    rw [hparent] at hp
    exact hh.closed ht hp
  older hf hp := by
    rw [HasFrame, hframes] at hf
    rw [frame_congr hframes] at hp
    exact hh.older hf hp

end Heap.After

/-! ### Two heaps -/

/-- What is matched looks alike: names mean the same in closed tables, what is open is the same but
for numbers and matched with one at most, and functions are the same but for numbers, with bodies that
see the heap only through names. -/
structure Matching.Mirrors (z z' : Horizon) (W : Matching) (h h' : Heap) : Prop where
  left : h.After z
  right : h'.After z'
  table : ∀ {t t'}, W.tables t t' →
    h.HasTable t ∧ h'.HasTable t' ∧ (z.tables ≤ t.index ↔ z'.tables ≤ t'.index)
  closed : ∀ {t t'}, W.tables t t' → t.index < z.tables →
    ∀ name, Option.Rel (Value.Match W) (h.get? t name) (h'.get? t' name)
  opened : ∀ {t t'}, W.tables t t' → z.tables ≤ t.index → (h.table t).Match W (h'.table t')
  tables_eq : ∀ {t t' u u'}, W.tables t t' → W.tables u u' → z.tables ≤ t.index →
    (t = u ↔ t' = u')
  frame : ∀ {f f'}, W.frames f f' →
    h.HasFrame f ∧ h'.HasFrame f' ∧ (z.frames ≤ f.index ↔ z'.frames ≤ f'.index) ∧
      W.tables (h.frame f).table (h'.frame f').table
  entered : ∀ {f f'}, W.frames f f' → z.frames ≤ f.index → z.tables ≤ (h.frame f).table.index ∧
    Option.Rel W.frames (h.frame f).parent (h'.frame f').parent
  frames_eq : ∀ {f f' e e'}, W.frames f f' → W.frames e e' → z.frames ≤ f.index →
    (f = e ↔ f' = e')
  function : ∀ {g g'}, W.functions g g' →
    h.HasFunction g ∧ h'.HasFunction g' ∧ (h.function g).Match W (h'.function g')
  body : ∀ {g g'}, W.functions g g' →
    (h.function g).body.Lexical ∧ (h.function g).body.IsStatement
  /-- Placeholders are matched with one function at most. -/
  functions_eq : ∀ {g g' u u'}, W.functions g g' → W.functions u u' →
    (h.function g).initialized = false → (g = u ↔ g' = u')

namespace Matching.Mirrors

variable {t t' : TableId} {f f' e e' : FrameId}

/-! ### Names -/

theorem get? (hW : W.Mirrors z z' h h') (ht : W.tables t t') (name : String) :
    Option.Rel (Value.Match W) (h.get? t name) (h'.get? t' name) := by
  obtain ⟨l, hl⟩ := hW.left.rooted.exists_path t
  induction l generalizing t t' with
  | nil => cases hl
  | cons _ rest ih =>
      obtain ⟨_, heq, hrest⟩ := hl.eq_cons
      obtain ⟨-, rfl⟩ := List.cons.inj heq
      by_cases hopen : z.tables ≤ t.index
      · obtain ⟨hhas, hhas', -⟩ := hW.table ht
        have htable := hW.opened ht hopen
        rw [hW.left.rooted.get?_eq_or hhas, hW.right.rooted.get?_eq_or hhas']
        have hown := htable.bindings.get? name
        have hparent := htable.parent
        generalize (h.table t).bindings.get? name = o at hown
        generalize (h'.table t').bindings.get? name = o' at hown
        generalize (h.table t).parent = p at hparent hrest
        generalize (h'.table t').parent = p' at hparent
        cases hown with
        | some hv => exact .some hv
        | none =>
            cases hparent with
            | none => exact .none
            | some hp => exact ih hp hrest
      · exact hW.closed ht (Nat.lt_of_not_le hopen) name

theorem lookup (hW : W.Mirrors z z' h h') (hf : W.frames f f') (name : String) :
    Option.Rel (Value.Match W) (h.lookup f name) (h'.lookup f' name) :=
  hW.get? (hW.frame hf).2.2.2 name

theorem bindsDirectly (hW : W.Mirrors z z' h h') (hf : W.frames f f') (hopen : z.frames ≤ f.index)
    (name : String) : h.bindsDirectly f name = h'.bindsDirectly f' name :=
  (hW.opened (hW.frame hf).2.2.2 (hW.entered hf hopen).1).bindings.has name

theorem placeholder? (hW : W.Mirrors z z' h h') (hf : W.frames f f') (name : String) :
    Option.Rel W.functions (h.placeholder? f name) (h'.placeholder? f' name) := by
  have hlook := hW.lookup hf name
  unfold Heap.placeholder?
  generalize h.lookup f name = o at hlook
  generalize h'.lookup f' name = o' at hlook
  cases hlook with
  | none => exact .none
  | some hv =>
      cases hv with
      | function hg =>
          have hinit := (hW.function hg).2.2.initialized
          simp only [Option.bind_some, Value.function?, Option.filter_some, hinit]
          split
          · exact .some hg
          · exact .none
      | _ => exact .none

theorem render_eq (hW : W.Mirrors z z' h h') {v v' : Value} (hv : v.Match W v') :
    h.render v = h'.render v' :=
  hv.render_eq fun hg => (hW.function hg).2.2.name

/-! ### Ways back -/

/-- On the way back from matched frames an open frame is met on both sides or on neither: as long as
the way is open it is matched step by step, and what is closed leads to closed frames alone. -/
theorem mem_ancestryFrom_iff (hW : W.Mirrors z z' h h') (hf : W.frames f f')
    (hopen : z.frames ≤ f.index) {steps steps' : Nat} (he : W.frames e e')
    (hsteps : e.index < steps) (hsteps' : e'.index < steps') :
    f ∈ h.ancestryFrom steps (some e) ↔ f' ∈ h'.ancestryFrom steps' (some e') := by
  have hopen' : z'.frames ≤ f'.index := (hW.frame hf).2.2.1.mp hopen
  induction steps generalizing e e' steps' with
  | zero => exact absurd hsteps (Nat.not_lt_zero _)
  | succ steps ih =>
      cases steps' with
      | zero => exact absurd hsteps' (Nat.not_lt_zero _)
      | succ steps' =>
          obtain ⟨hhas, hhas', hiff, -⟩ := hW.frame he
          by_cases hclosed : z.frames ≤ e.index
          · have hparent := (hW.entered he hclosed).2
            show f ∈ e :: h.ancestryFrom steps (h.frame e).parent ↔
              f' ∈ e' :: h'.ancestryFrom steps' (h'.frame e').parent
            rw [List.mem_cons, List.mem_cons, hW.frames_eq hf he hopen]
            refine or_congr_right ?_
            generalize hp : (h.frame e).parent = o at hparent
            generalize hp' : (h'.frame e').parent = o' at hparent
            cases hparent with
            | none => cases steps <;> cases steps' <;> simp [Heap.ancestryFrom]
            | some hpp =>
                have hlt := hW.left.older hhas hp
                have hlt' := hW.right.older hhas' hp'
                exact ih hpp (by omega) (by omega)
          · have hclosed' : e'.index < z'.frames :=
              Nat.lt_of_not_le fun hle => hclosed (hiff.mpr hle)
            refine iff_of_false (fun hmem => ?_) fun hmem => ?_
            · have hlt := hW.left.closed_of_mem_ancestryFrom (Nat.lt_of_not_le hclosed) hmem
              exact Nat.not_lt.mpr hopen hlt
            · have hlt := hW.right.closed_of_mem_ancestryFrom hclosed' hmem
              exact Nat.not_lt.mpr hopen' hlt

/-- A loop in an open frame goes on in matched frames, which are open. -/
theorem resume (hW : W.Mirrors z z' h h') (hf : W.frames f f') (hopen : z.frames ≤ f.index)
    (he : W.frames e e') :
    W.frames (h.resume f e) (h'.resume f' e') ∧ z.frames ≤ (h.resume f e).index := by
  obtain ⟨hhas, hhas', -, -⟩ := hW.frame he
  have hmem := hW.mem_ancestryFrom_iff hf hopen he hhas hhas'
  unfold Heap.resume Heap.ancestry
  by_cases hin : f ∈ h.ancestryFrom h.frames.size (some e)
  · rw [if_pos hin, if_pos (hmem.mp hin)]
    refine ⟨he, Nat.le_of_not_lt fun hclosed => ?_⟩
    exact Nat.not_lt.mpr hopen (hW.left.closed_of_mem_ancestryFrom hclosed hin)
  · rw [if_neg hin, if_neg fun hin' => hin (hmem.mpr hin')]
    exact ⟨hf, hopen⟩

end Matching.Mirrors

end CapsuleScript
