import CapsuleScript.Proofs.Heap.Relink
import CapsuleScript.Proofs.Matching.Values

/-! Heaps that differ only in numbers and in what is not matched. Tables, frames and functions that
are matched hold the same but for numbers, so names mean the same in matched frames, and the ways
back from matched frames and tables are matched step by step. -/

namespace CapsuleScript

variable {W X : Matching}

/-- The tables bind matching values to the same names, and their parents are matched. -/
structure Table.Match (W : Matching) (t t' : Table) : Prop where
  bindings : Value.EntriesMatch W t.bindings t'.bindings
  parent : Option.Rel W.tables t.parent t'.parent

/-- The frames are the same but for numbers, the worlds to which they belong apart. -/
structure Frame.Match (W : Matching) (f f' : Frame) : Prop where
  label : f.label = f'.label
  table : W.tables f.table f'.table
  parent : Option.Rel W.frames f.parent f'.parent
  entry : f.entry = f'.entry

/-- The functions are the same but for their homes, which are matched. -/
structure Function.Match (W : Matching) (g g' : Function) : Prop where
  name : g.name = g'.name
  params : g.params = g'.params
  body : g.body = g'.body
  home : W.frames g.home g'.home
  autoReturn : g.autoReturn = g'.autoReturn
  initialized : g.initialized = g'.initialized

theorem rel_mono {α β : Type} {R S : α → β → Prop} (himp : ∀ {a b}, R a b → S a b) {o : Option α}
    {o' : Option β} (h : Option.Rel R o o') : Option.Rel S o o' := by
  cases h with
  | none => exact .none
  | some hr => exact .some (himp hr)

theorem Table.Match.mono (hX : W.Extends X) {t t' : Table} (h : t.Match W t') : t.Match X t' :=
  ⟨h.bindings.mono hX, rel_mono hX.tables h.parent⟩

theorem Frame.Match.mono (hX : W.Extends X) {f f' : Frame} (h : f.Match W f') : f.Match X f' :=
  ⟨h.label, hX.tables h.table, rel_mono hX.frames h.parent, h.entry⟩

theorem Function.Match.mono (hX : W.Extends X) {g g' : Function} (h : g.Match W g') :
    g.Match X g' :=
  ⟨h.name, h.params, h.body, hX.frames h.home, h.autoReturn, h.initialized⟩

/-- Each number is matched with at most one. -/
structure Matching.OneToOne (W : Matching) : Prop where
  tables_eq : ∀ {t t' u u'}, W.tables t t' → W.tables u u' → (t = u ↔ t' = u')
  frames_eq : ∀ {f f' e e'}, W.frames f f' → W.frames e e' → (f = e ↔ f' = e')
  functions_eq : ∀ {g g' u u'}, W.functions g g' → W.functions u u' → (g = u ↔ g' = u')

/-- What is matched has been made in both heaps and holds the same but for numbers; each number is
matched with at most one. -/
structure Matching.Heaps (W : Matching) (h h' : Heap) : Prop extends W.OneToOne where
  rooted : h.Rooted
  rooted' : h'.Rooted
  table : ∀ {t t'}, W.tables t t' →
    h.HasTable t ∧ h'.HasTable t' ∧ (h.table t).Match W (h'.table t')
  frame : ∀ {f f'}, W.frames f f' →
    h.HasFrame f ∧ h'.HasFrame f' ∧ (h.frame f).Match W (h'.frame f')
  /-- Frames are entered from older ones. -/
  older : ∀ {f f'}, W.frames f f' → (∀ p, (h.frame f).parent = some p → p.index < f.index) ∧
    ∀ p, (h'.frame f').parent = some p → p.index < f'.index
  function : ∀ {g g'}, W.functions g g' →
    h.HasFunction g ∧ h'.HasFunction g' ∧ (h.function g).Match W (h'.function g')

theorem mem_iff_of_forall₂ {α : Type} {R : α → α → Prop}
    (heq : ∀ {a a' b b'}, R a a' → R b b' → (a = b ↔ a' = b')) {l l' : List α}
    (hl : List.Forall₂ R l l') {a a' : α} (ha : R a a') : a ∈ l ↔ a' ∈ l' := by
  induction hl with
  | nil => simp
  | cons hb _ ih => rw [List.mem_cons, List.mem_cons, heq ha hb, ih]

theorem rel_findSome? {α β : Type} {R : α → α → Prop} {S : β → β → Prop} {f g : α → Option β}
    (hfg : ∀ {a a'}, R a a' → Option.Rel S (f a) (g a')) {l l' : List α}
    (hl : List.Forall₂ R l l') : Option.Rel S (l.findSome? f) (l'.findSome? g) := by
  induction hl with
  | nil => exact .none
  | @cons a a' rest rest' ha _ ih =>
      have hfirst := hfg ha
      rw [List.findSome?_cons, List.findSome?_cons]
      generalize f a = o at hfirst ⊢
      generalize g a' = o' at hfirst ⊢
      cases hfirst with
      | none => exact ih
      | some hs => exact .some hs

namespace Matching.Heaps

open Heap

variable {h h' : Heap} {t t' u u' : TableId} {f f' e e' : FrameId} {g g' : FunctionId}

/-! ### Chains and names -/

theorem exists_path (hW : W.Heaps h h') {o o' : Option TableId} {l : List TableId}
    (hl : h.Path o l) (ho : Option.Rel W.tables o o') :
    ∃ l', h'.Path o' l' ∧ List.Forall₂ W.tables l l' := by
  induction hl generalizing o' with
  | nil =>
      cases ho
      exact ⟨[], .nil, .nil⟩
  | cons _ ih =>
      cases ho with
      | some ht =>
          obtain ⟨l', hl', hmatch⟩ := ih (hW.table ht).2.2.parent
          exact ⟨_, .cons hl', .cons ht hmatch⟩

theorem chain (hW : W.Heaps h h') (ht : W.tables t t') :
    List.Forall₂ W.tables (h.chain t) (h'.chain t') := by
  obtain ⟨hhas, hhas', -⟩ := hW.table ht
  obtain ⟨l', hl', hmatch⟩ := hW.exists_path (hW.rooted.path_chain hhas) (.some ht)
  rwa [hW.rooted'.chain_eq_of_path hhas' hl']

theorem mem_chain_iff (hW : W.Heaps h h') (ht : W.tables t t') (hu : W.tables u u') :
    t ∈ h.chain u ↔ t' ∈ h'.chain u' :=
  mem_iff_of_forall₂ hW.tables_eq (hW.chain hu) ht

theorem get? (hW : W.Heaps h h') (ht : W.tables t t') (name : String) :
    Option.Rel (Value.Match W) (h.get? t name) (h'.get? t' name) := by
  rw [get?_eq_findSome?, get?_eq_findSome?]
  refine rel_findSome? (fun {u u'} hu => ?_) (hW.chain ht)
  exact (hW.table hu).2.2.bindings.get? name

theorem lookup (hW : W.Heaps h h') (hf : W.frames f f') (name : String) :
    Option.Rel (Value.Match W) (h.lookup f name) (h'.lookup f' name) :=
  hW.get? (hW.frame hf).2.2.table name

theorem bindsDirectly (hW : W.Heaps h h') (hf : W.frames f f') (name : String) :
    h.bindsDirectly f name = h'.bindsDirectly f' name :=
  (hW.table (hW.frame hf).2.2.table).2.2.bindings.has name

theorem placeholder? (hW : W.Heaps h h') (hf : W.frames f f') (name : String) :
    Option.Rel W.functions (h.placeholder? f name) (h'.placeholder? f' name) := by
  have hlook := hW.lookup hf name
  unfold Heap.placeholder?
  generalize h.lookup f name = o at hlook
  generalize h'.lookup f' name = o' at hlook
  cases hlook with
  | none => exact .none
  | some hv =>
      cases hv with
      | function hg =>
          have hinit := (hW.function hg).2.2.initialized
          simp only [Option.bind_some, Value.function?, Option.filter_some, hinit]
          split
          · exact .some hg
          · exact .none
      | _ => exact .none

theorem render_eq (hW : W.Heaps h h') {v v' : Value} (hv : v.Match W v') :
    h.render v = h'.render v' :=
  hv.render_eq fun hg => (hW.function hg).2.2.name

/-! ### Ways back -/

theorem ancestryFrom (hW : W.Heaps h h') {steps steps' : Nat} (hf : W.frames f f')
    (hsteps : f.index < steps) (hsteps' : f'.index < steps') :
    List.Forall₂ W.frames (h.ancestryFrom steps (some f)) (h'.ancestryFrom steps' (some f')) := by
  induction steps generalizing f f' steps' with
  | zero => exact absurd hsteps (Nat.not_lt_zero _)
  | succ steps ih =>
      cases steps' with
      | zero => exact absurd hsteps' (Nat.not_lt_zero _)
      | succ steps' =>
          obtain ⟨holder, holder'⟩ := hW.older hf
          have hparent := (hW.frame hf).2.2.parent
          refine .cons hf ?_
          generalize hp : (h.frame f).parent = o at hparent
          generalize hp' : (h'.frame f').parent = o' at hparent
          cases hparent with
          | none => cases steps <;> cases steps' <;> exact .nil
          | some hpp =>
              have hlt := holder _ hp
              have hlt' := holder' _ hp'
              exact ih hpp (by omega) (by omega)

theorem ancestry (hW : W.Heaps h h') (hf : W.frames f f') :
    List.Forall₂ W.frames (h.ancestry f) (h'.ancestry f') :=
  hW.ancestryFrom hf (hW.frame hf).1 (hW.frame hf).2.1

theorem resume (hW : W.Heaps h h') (hf : W.frames f f') (he : W.frames e e') :
    W.frames (h.resume f e) (h'.resume f' e') := by
  have hmem := mem_iff_of_forall₂ hW.frames_eq (hW.ancestry he) hf
  unfold Heap.resume
  by_cases hin : f ∈ h.ancestry e
  · rw [if_pos hin, if_pos (hmem.mp hin)]
    exact he
  · rw [if_neg hin, if_neg fun hin' => hin (hmem.mpr hin')]
    exact hf

theorem traceLines_eq (hW : W.Heaps h h') (source : String) (position : Option Span)
    {frames frames' : List FrameId} (hframes : List.Forall₂ W.frames frames frames') :
    Fault.traceLines h source position frames = Fault.traceLines h' source position frames' := by
  induction hframes generalizing position with
  | nil => rfl
  | cons hf _ ih =>
      have hframe := (hW.frame hf).2.2
      simp only [Fault.traceLines, hframe.label, hframe.entry, ih]

end Matching.Heaps

/-- The failures have the same reason and code, and their frames are matched. -/
structure Fault.Match (W : Matching) (fault fault' : Fault) : Prop where
  kind : fault.kind = fault'.kind
  span : fault.span = fault'.span
  frame : Option.Rel W.frames fault.frame fault'.frame

theorem Matching.Heaps.message_eq {h h' : Heap} (hW : W.Heaps h h') {fault fault' : Fault}
    (hfault : fault.Match W fault') : fault.message h = fault'.message h' := by
  have hframes : List.Forall₂ W.frames (fault.frame.elim [] h.ancestry)
      (fault'.frame.elim [] h'.ancestry) := by
    have hframe := hfault.frame
    generalize fault.frame = o at hframe
    generalize fault'.frame = o' at hframe
    cases hframe with
    | none => exact .nil
    | some hf => exact hW.ancestry hf
  unfold Fault.message Fault.traceback
  rw [hfault.kind, hfault.span, hW.traceLines_eq _ _ hframes]

end CapsuleScript
