import CapsuleScript.Proofs.Matching.Writes

/-! The operations of the constructs on two matched heaps: opening frames, keeping values, splicing
chains, cutting them and making objects. -/

namespace CapsuleScript

variable {W X : Matching} {α : Type}

/-- What was made on two heaps is related, by a matching of the heaps that extends `W`. -/
def Matching.Made (W : Matching) (Q : Matching → α → α → Prop) (made made' : α × Heap) : Prop :=
  ∃ X, W.Extends X ∧ X.Heaps made.2 made'.2 ∧ Q X made.1 made'.1

namespace Matching.Heaps

open Heap

variable {h h' : Heap} {t t' q q' around around' : TableId} {f f' : FrameId} {v v' : Value}
  {bs bs' : Bindings Value}

/-! ### Frames -/

/-- A new table with a new frame. -/
theorem opened (hW : W.Heaps h h') (hq : W.tables q q') (hbs : Value.EntriesMatch W bs bs')
    {frame frame' : Frame} (hlabel : frame.label = frame'.label)
    (htable : frame.table = ⟨h.tables.size⟩) (htable' : frame'.table = ⟨h'.tables.size⟩)
    (hparent : Option.Rel W.frames frame.parent frame'.parent) (hentry : frame.entry = frame'.entry) :
    W.Made (fun X => X.frames) (⟨h.frames.size⟩, (h.newTable (some q) bs).2.addFrame frame)
      (⟨h'.frames.size⟩, (h'.newTable (some q') bs').2.addFrame frame') := by
  have hnew := hW.newTable (.some hq) hbs
  have hX := W.extends_addTable ⟨h.tables.size⟩ ⟨h'.tables.size⟩
  refine ⟨_, hX.trans (extends_addFrame _ _ _), hnew.addFrame ⟨hlabel, ?_, hparent, hentry⟩, ?_⟩
  · rw [htable, htable']
    exact .inr ⟨rfl, rfl⟩
  · exact .inr ⟨rfl, rfl⟩

theorem enter (hW : W.Heaps h h') (label : String) (hf : W.frames f f') (span : Span) :
    W.Made (fun X => X.frames) (h.enter label f span) (h'.enter label f' span) := by
  rw [enter_eq, enter_eq]
  exact hW.opened (hW.frame hf).2.2.table .nil rfl rfl rfl (.some hf) rfl

theorem enterTable (hW : W.Heaps h h') (label : String) (ht : W.tables t t') (hf : W.frames f f')
    (span : Span) :
    W.Made (fun X => X.frames) (h.enterTable label t f span) (h'.enterTable label t' f' span) := by
  rw [enterTable_eq, enterTable_eq]
  exact ⟨_, W.extends_addFrame _ _, hW.addFrame ⟨rfl, ht, .some hf, rfl⟩, .inr ⟨rfl, rfl⟩⟩

theorem define (hW : W.Heaps h h') (hf : W.frames f f') (name : String) (hv : v.Match W v') :
    W.Heaps (h.define f name v) (h'.define f' name v') :=
  hW.bind (hW.frame hf).2.2.table name hv

theorem callFrame (hW : W.Heaps h h') {callee callee' : Function} (hcallee : callee.Match W callee')
    {arguments arguments' : List Value} (harguments : Value.AllMatch W arguments arguments')
    (span : Span) :
    W.Made (fun X => X.frames) (Evaluation.callFrame callee arguments span h)
      (Evaluation.callFrame callee' arguments' span h') := by
  rw [callFrame_eq, callFrame_eq, hcallee.name, hcallee.params]
  refine hW.opened (hW.frame hcallee.home).2.2.table ?_ rfl rfl rfl (.some hcallee.home) rfl
  exact Value.EntriesMatch.nil.override (.zip _ harguments)

/-! ### Functions -/

mutual

theorem rehome : (v : Value) → {W : Matching} → {v' : Value} → {h h' : Heap} → W.Heaps h h' →
    W.frames f f' → v.Match W v' →
      W.Made (fun X v v' => v.Match X v') (Heap.rehome f v h) (Heap.rehome f' v' h')
  | .function g, W, _, h, h', hW, hf, .function hg => by
      have hfunction := (hW.function hg).2.2
      rw [Heap.rehome, Heap.rehome, hfunction.initialized]
      split
      · have hdata : Function.Match W { h.function g with home := f }
            { h'.function _ with home := f' } :=
          ⟨hfunction.name, hfunction.params, hfunction.body, hf, hfunction.autoReturn,
            hfunction.initialized⟩
        exact ⟨_, W.extends_addFunction _ _, hW.addFunction hdata, .function (.inr ⟨rfl, rfl⟩)⟩
      · exact ⟨W, .refl W, hW, .function hg⟩
  | .list elements, _, _, _, _, hW, hf, .list helements => by
      obtain ⟨X, hX, hheaps, hmatch⟩ := rehomeAll elements hW hf helements
      exact ⟨X, hX, hheaps, .list hmatch⟩
  | .number x, W, _, _, _, hW, _, .number _ => ⟨W, .refl W, hW, .number x⟩
  | .bool b, W, _, _, _, hW, _, .bool _ => ⟨W, .refl W, hW, .bool b⟩
  | .null, W, _, _, _, hW, _, .null => ⟨W, .refl W, hW, .null⟩
  | .text s, W, _, _, _, hW, _, .text _ => ⟨W, .refl W, hW, .text s⟩
  | .encap .., W, _, _, _, hW, _, .encap hfields hinherited hscope =>
      ⟨W, .refl W, hW, .encap hfields hinherited hscope⟩
  | .empty, W, _, _, _, hW, _, .empty => ⟨W, .refl W, hW, .empty⟩

theorem rehomeAll : (vs : List Value) → {W : Matching} → {vs' : List Value} → {h h' : Heap} →
    W.Heaps h h' → W.frames f f' → Value.AllMatch W vs vs' →
      W.Made (fun X vs vs' => Value.AllMatch X vs vs') (Heap.rehomeAll f vs h)
        (Heap.rehomeAll f' vs' h')
  | [], W, _, _, _, hW, _, .nil => ⟨W, .refl W, hW, .nil⟩
  | v :: rest, _, _, _, _, hW, hf, .cons hv hrest => by
      obtain ⟨X, hX, hheaps, hfirst⟩ := rehome v hW hf hv
      obtain ⟨Y, hY, hheaps', hothers⟩ := rehomeAll rest hheaps (hX.frames hf) (hrest.mono hX)
      exact ⟨Y, hX.trans hY, hheaps', .cons (hfirst.mono hY) hothers⟩

end

/-! ### Splicing and cutting -/

theorem splicePoint (hW : W.Heaps h h') {visible visible' : List TableId}
    (hvisible : List.Forall₂ W.tables visible visible') {steps steps' : Nat} {l l' : List TableId}
    (hl : h.Path (some t) l) (hl' : h'.Path (some t') l') (hsteps : l.length ≤ steps)
    (hsteps' : l'.length ≤ steps') (ht : W.tables t t') :
    W.tables (h.splicePoint visible steps t) (h'.splicePoint visible' steps' t') := by
  induction steps generalizing t t' l l' steps' with
  | zero =>
      obtain ⟨rest, rfl, -⟩ := hl.eq_cons
      simp at hsteps
  | succ steps ih =>
      obtain ⟨rest, rfl, hrest⟩ := hl.eq_cons
      obtain ⟨rest', rfl, hrest'⟩ := hl'.eq_cons
      cases steps' with
      | zero => simp at hsteps'
      | succ steps' =>
          have hparent := (hW.table ht).2.2.parent
          simp only [Heap.splicePoint]
          generalize (h.table t).parent = o at hparent hrest
          generalize (h'.table t').parent = o' at hparent hrest'
          cases hparent with
          | none => exact ht
          | some hp =>
              have hmem := mem_iff_of_forall₂ hW.tables_eq hvisible hp
              simp only [hmem]
              split
              · exact ht
              · exact ih hrest hrest' (by simpa using hsteps) (by simpa using hsteps') hp

theorem splice (hW : W.Heaps h h') (ht : W.tables t t') (hq : W.tables q q') :
    W.Made (fun X => Option.Rel X.tables) (h.splice t q) (h'.splice t' q') := by
  have hmem := hW.mem_chain_iff ht hq
  by_cases hin : t ∈ h.chain q
  · rw [splice_of_mem hin, splice_of_mem (hmem.mp hin)]
    exact ⟨W, .refl W, hW, .none⟩
  · have hin' : t' ∉ h'.chain q' := fun hc => hin (hmem.mpr hc)
    rw [splice_of_not_mem hin, splice_of_not_mem hin']
    have hpath := hW.rooted.path_chain (hW.table ht).1
    have hpath' := hW.rooted'.path_chain (hW.table ht).2.1
    have hpoint := hW.splicePoint (hW.chain hq) hpath hpath'
      (hW.rooted.length_le_of_path hpath (hW.table ht).1)
      (hW.rooted'.length_le_of_path hpath' (hW.table ht).2.1) ht
    have hsplices := hW.rooted.splices_splicePoint (hW.table ht).1 (hW.table hq).1 hin
    exact ⟨W, .refl W, hW.setParent hpoint hq hsplices.not_mem, .some hpoint⟩

theorem entriesMatch_builtins : Value.EntriesMatch W builtins builtins :=
  .cons (.bool true) (.cons (.bool false) (.cons .null .nil))

theorem cut (hW : W.Heaps h h') (haround : W.tables around around') (ht : W.tables t t') :
    ∃ X, W.Extends X ∧ X.Heaps (Evaluation.cut h around t) (Evaluation.cut h' around' t') := by
  have hiff : (h.table t).parent = some around ↔ (h'.table t').parent = some around' := by
    have hparent := (hW.table ht).2.2.parent
    generalize (h.table t).parent = o at hparent
    generalize (h'.table t').parent = o' at hparent
    cases hparent with
    | none => simp
    | some hp => simpa using hW.tables_eq hp haround
  unfold Evaluation.cut
  by_cases hcut : (h.table t).parent = some around
  · rw [if_pos hcut, if_pos (hiff.mp hcut)]
    have hnew := hW.newTable .none entriesMatch_builtins
    refine ⟨_, W.extends_addTable _ _, hnew.setParent (.inl ht) (.inr ⟨rfl, rfl⟩) ?_⟩
    exact hW.rooted.not_mem_chain_newTable_none (hW.table ht).1
  · rw [if_neg hcut, if_neg fun hc => hcut (hiff.mpr hc)]
    exact ⟨W, .refl W, hW⟩

/-! ### Objects -/

theorem fields (hW : W.Heaps h h') {frames frames' : List FrameId}
    (hframes : List.Forall₂ W.frames frames frames') :
    Value.EntriesMatch W (Evaluation.fields h frames) (Evaluation.fields h' frames') := by
  have hfold : ∀ {frames frames' : List FrameId} {bs bs' : Bindings Value},
      List.Forall₂ W.frames frames frames' → Value.EntriesMatch W bs bs' →
      Value.EntriesMatch W
        (frames.foldl (fun bound f => Bindings.override bound (h.table (h.frame f).table).bindings) bs)
        (frames'.foldl
          (fun bound f => Bindings.override bound (h'.table (h'.frame f).table).bindings) bs') := by
    intro frames frames' bs bs' hframes hbs
    induction hframes generalizing bs bs' with
    | nil => exact hbs
    | cons hf _ ih => exact ih (hbs.override (hW.table (hW.frame hf).2.2.table).2.2.bindings)
  exact hfold (List.rel_reverse hframes) .nil

theorem objectScope (hW : W.Heaps h h') (span : Span) (typeName : Option String) (strict : Bool)
    (hf : W.frames f f') (hbs : Value.EntriesMatch W bs bs') :
    W.Made (fun X => X.frames) (Evaluation.objectScope span typeName strict f bs h)
      (Evaluation.objectScope span typeName strict f' bs' h') := by
  have htable := (hW.frame hf).2.2.table
  unfold Evaluation.objectScope
  cases strict with
  | true => exact hW.opened htable hbs rfl rfl rfl .none rfl
  | false => exact hW.opened htable hbs rfl rfl rfl (.some hf) rfl

end Matching.Heaps

namespace Capsule.Match

variable {c c' d d' : Capsule}

theorem mono (hX : W.Extends X) (h : c.Match W c') : c.Match X c' :=
  ⟨h.fields.mono hX, h.inherited.mono hX, h.types, hX.frames h.scope⟩

theorem members (h : c.Match W c') : Value.EntriesMatch W c.members c'.members :=
  h.inherited.override h.fields

theorem toValue (h : c.Match W c') : c.toValue.Match W c'.toValue := by
  unfold Capsule.toValue
  rw [h.types]
  exact .encap h.fields h.inherited h.scope

theorem field? (h : c.Match W c') (name : String) :
    Option.Rel (Value.Match W) (c.field? name) (c'.field? name) := by
  have hown := h.fields.get? name
  have hinherited := h.inherited.get? name
  unfold Capsule.field?
  generalize c.fields.get? name = o at hown
  generalize c'.fields.get? name = o' at hown
  cases hown with
  | none => exact hinherited
  | some hv => exact .some hv

theorem merge {h h' : Heap} (hW : W.Heaps h h') (hc : c.Match W c') (hd : d.Match W d')
    (entry : Span) : W.Made (fun X c c' => c.Match X c') (c.merge d entry h) (c'.merge d' entry h') := by
  have hmembers : Value.EntriesMatch W (c.mergedMembers d) (c'.mergedMembers d') :=
    hc.members.override hd.members
  have hscope := (hW.frame hc.scope).2.2
  have hopened : W.Made (fun X => X.frames)
      (⟨h.frames.size⟩, (h.newTable (some (h.frame c.scope).table) (c.mergedMembers d)).2.addFrame
        ⟨(h.frame c.scope).label, ⟨h.tables.size⟩, some c.scope, some entry,
          (h.frame c.scope).root⟩)
      (⟨h'.frames.size⟩, (h'.newTable (some (h'.frame c'.scope).table)
        (c'.mergedMembers d')).2.addFrame ⟨(h'.frame c'.scope).label, ⟨h'.tables.size⟩,
          some c'.scope, some entry, (h'.frame c'.scope).root⟩) :=
    hW.opened hscope.table hmembers hscope.label rfl rfl (.some hc.scope) rfl
  obtain ⟨X, hX, hheaps, hframe⟩ := hopened
  refine ⟨X, hX, hheaps, hmembers.mono hX, .nil, ?_, hframe⟩
  exact congrArg₂ _ hc.types hd.types

end Capsule.Match

end CapsuleScript
