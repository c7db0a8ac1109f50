import CapsuleScript.Proofs.Heap.Reach
import CapsuleScript.Proofs.Matching.Heaps

/-! Matchings of what two frames reach. Nothing else is seen from the frames, so heaps that are
matched there are matched by what is left of the matching, and clearing what the frames do not reach
leaves them matched. -/

namespace CapsuleScript

open Heap

variable {W : Matching} {h h' : Heap} {c c' : FrameId}

/-- What is matched and reached from the frame `c` of `h` and the frame `c'` of `h'`. -/
def Matching.reached (W : Matching) (h : Heap) (c : FrameId) (h' : Heap) (c' : FrameId) :
    Matching where
  tables t t' := W.tables t t' ∧ h.Reaches c (.table t) ∧ h'.Reaches c' (.table t')
  frames f f' := W.frames f f' ∧ h.Reaches c (.frame f) ∧ h'.Reaches c' (.frame f')
  functions g g' := W.functions g g' ∧ h.Reaches c (.value (.function g)) ∧
    h'.Reaches c' (.value (.function g'))

namespace Value

mutual

theorem Match.reached : {v v' : Value} → Match W v v' → h.Reaches c (.value v) →
    h'.Reaches c' (.value v') → Match (W.reached h c h' c') v v'
  | _, _, .number x, _, _ => .number x
  | _, _, .bool b, _, _ => .bool b
  | _, _, .null, _, _ => .null
  | _, _, .text s, _, _ => .text s
  | _, _, .list helements, hv, hv' =>
      .list (AllMatch.reached helements (fun _ hw => .element hv hw) fun _ hw => .element hv' hw)
  | _, _, .function hg, hv, hv' => .function ⟨hg, hv, hv'⟩
  | _, _, .encap hfields hinherited hscope, hv, hv' =>
      .encap
        (EntriesMatch.reached hfields (fun _ he => .field hv he) fun _ he => .field hv' he)
        (EntriesMatch.reached hinherited (fun _ he => .inherited hv he) fun _ he =>
          .inherited hv' he)
        ⟨hscope, .scope hv, .scope hv'⟩
  | _, _, .empty, _, _ => .empty

theorem AllMatch.reached : {vs vs' : List Value} → AllMatch W vs vs' →
    (∀ v ∈ vs, h.Reaches c (.value v)) → (∀ v ∈ vs', h'.Reaches c' (.value v)) →
      AllMatch (W.reached h c h' c') vs vs'
  | _, _, .nil, _, _ => .nil
  | _, _, .cons hv hrest, hall, hall' =>
      .cons (Match.reached hv (hall _ List.mem_cons_self) (hall' _ List.mem_cons_self))
        (AllMatch.reached hrest (fun w hw => hall w (List.mem_cons_of_mem _ hw)) fun w hw =>
          hall' w (List.mem_cons_of_mem _ hw))

theorem EntriesMatch.reached : {bs bs' : List (String × Value)} → EntriesMatch W bs bs' →
    (∀ entry ∈ bs, h.Reaches c (.value entry.2)) →
    (∀ entry ∈ bs', h'.Reaches c' (.value entry.2)) → EntriesMatch (W.reached h c h' c') bs bs'
  | _, _, .nil, _, _ => .nil
  | _, _, .cons hv hrest, hall, hall' =>
      .cons (Match.reached hv (hall _ List.mem_cons_self) (hall' _ List.mem_cons_self))
        (EntriesMatch.reached hrest (fun e he => hall e (List.mem_cons_of_mem _ he)) fun e he =>
          hall' e (List.mem_cons_of_mem _ he))

end

end Value

namespace Matching

/-- Sound heaps are matched by a matching of what two frames reach, if what it matches holds the same
but for numbers. -/
theorem OneToOne.heaps_reached (hW : W.OneToOne) (hh : h.Sound) (hh' : h'.Sound)
    (hc : h.HasFrame c) (hc' : h'.HasFrame c')
    (htable : ∀ {t t'}, (W.reached h c h' c').tables t t' → (h.table t).Match W (h'.table t'))
    (hframe : ∀ {f f'}, (W.reached h c h' c').frames f f' → (h.frame f).Match W (h'.frame f'))
    (hfunction : ∀ {g g'}, (W.reached h c h' c').functions g g' →
      (h.function g).Match W (h'.function g')) : (W.reached h c h' c').Heaps h h' where
  rooted := hh.rooted
  rooted' := hh'.rooted
  table := by
    intro t t' ht
    have hmatch := htable ht
    obtain ⟨-, hr, hr'⟩ := ht
    refine ⟨(hh.marked_of_reaches hc hr).1, (hh'.marked_of_reaches hc' hr').1, ?_, ?_⟩
    · exact hmatch.bindings.reached (fun e he => .bound hr he) fun e he => .bound hr' he
    · have hparent := hmatch.parent
      generalize hp : (h.table t).parent = o at hparent
      generalize hp' : (h'.table t').parent = o' at hparent
      cases hparent with
      | none => exact .none
      | some hpp => exact .some ⟨hpp, .above hr hp, .above hr' hp'⟩
  frame := by
    intro f f' hf
    have hmatch := hframe hf
    obtain ⟨-, hr, hr'⟩ := hf
    refine ⟨(hh.marked_of_reaches hc hr).1, (hh'.marked_of_reaches hc' hr').1, hmatch.label,
      ⟨hmatch.table, .owned hr, .owned hr'⟩, ?_, hmatch.entry⟩
    have hparent := hmatch.parent
    generalize hp : (h.frame f).parent = o at hparent
    generalize hp' : (h'.frame f').parent = o' at hparent
    cases hparent with
    | none => exact .none
    | some hpp => exact .some ⟨hpp, .entered hr hp, .entered hr' hp'⟩
  older := by
    rintro f f' ⟨-, hr, hr'⟩
    exact ⟨fun p => hh.older (hh.marked_of_reaches hc hr).1,
      fun p => hh'.older (hh'.marked_of_reaches hc' hr').1⟩
  function := by
    intro g g' hg
    have hmatch := hfunction hg
    obtain ⟨-, hr, hr'⟩ := hg
    exact ⟨(hh.marked_of_reaches hc hr).1, (hh'.marked_of_reaches hc' hr').1, hmatch.name,
      hmatch.params, hmatch.body, ⟨hmatch.home, .home hr, .home hr'⟩, hmatch.autoReturn,
      hmatch.initialized⟩
  tables_eq ht hu := hW.tables_eq ht.1 hu.1
  frames_eq hf he := hW.frames_eq hf.1 he.1
  functions_eq hg hu := hW.functions_eq hg.1 hu.1

/-- Clearing what two frames do not reach leaves heaps matched. -/
theorem Heaps.collect (hW : W.Heaps h h') (hh : h.Sound) (hh' : h'.Sound) (hc : h.HasFrame c)
    (hc' : h'.HasFrame c') :
    (W.reached (h.collect c) c (h'.collect c') c').Heaps (h.collect c) (h'.collect c') := by
  refine hW.toOneToOne.heaps_reached hh.collect hh'.collect ?_ ?_ ?_ ?_ ?_
  · rwa [HasFrame, frames_collect]
  · rwa [HasFrame, frames_collect]
  · rintro t t' ⟨ht, hr, hr'⟩
    rw [hh.table_collect hc hr.of_collect, hh'.table_collect hc' hr'.of_collect]
    exact (hW.table ht).2.2
  · rintro f f' ⟨hf, -, -⟩
    rw [frame_congr frames_collect, frame_congr frames_collect]
    exact (hW.frame hf).2.2
  · rintro g g' ⟨hg, -, -⟩
    rw [function_congr functions_collect, function_congr functions_collect]
    exact (hW.function hg).2.2

/-- Clearing what a frame does not reach on one side leaves heaps matched too. -/
theorem Heaps.collect_left (hW : W.Heaps h h') (hh : h.Sound) (hh' : h'.Sound) (hc : h.HasFrame c)
    (hc' : h'.HasFrame c') : (W.reached (h.collect c) c h' c').Heaps (h.collect c) h' := by
  refine hW.toOneToOne.heaps_reached hh.collect hh' ?_ hc' ?_ ?_ ?_
  · rwa [HasFrame, frames_collect]
  · rintro t t' ⟨ht, hr, -⟩
    rw [hh.table_collect hc hr.of_collect]
    exact (hW.table ht).2.2
  · rintro f f' ⟨hf, -, -⟩
    rw [frame_congr frames_collect]
    exact (hW.frame hf).2.2
  · rintro g g' ⟨hg, -, -⟩
    rw [function_congr functions_collect]
    exact (hW.function hg).2.2

/-! ### The matching of every number with itself -/

/-- Every number is matched with itself. -/
def same : Matching where
  tables := Eq
  frames := Eq
  functions := Eq

theorem oneToOne_same : same.OneToOne := by
  refine ⟨?_, ?_, ?_⟩ <;> rintro _ _ _ _ rfl rfl <;> exact Iff.rfl

theorem rel_same {α : Type} {R : α → α → Prop} {o : Option α} (hR : ∀ a, o = some a → R a a) :
    Option.Rel R o o := by
  cases o with
  | none => exact .none
  | some a => exact .some (hR a rfl)

end Matching

open Matching

mutual

theorem Value.match_same : (v : Value) → v.Match same v
  | .number x => .number x
  | .bool b => .bool b
  | .null => .null
  | .text s => .text s
  | .list elements => .list (Value.allMatch_same elements)
  | .function _ => .function rfl
  | .encap fields inherited _ _ =>
      .encap (Value.entriesMatch_same fields) (Value.entriesMatch_same inherited) rfl
  | .empty => .empty

theorem Value.allMatch_same : (vs : List Value) → Value.AllMatch same vs vs
  | [] => .nil
  | v :: rest => .cons (Value.match_same v) (Value.allMatch_same rest)

theorem Value.entriesMatch_same : (bs : List (String × Value)) → Value.EntriesMatch same bs bs
  | [] => .nil
  | (_, v) :: rest => .cons (Value.match_same v) (Value.entriesMatch_same rest)

end

theorem Frame.match_same (f : Frame) : f.Match same f := ⟨rfl, rfl, rel_same fun _ _ => rfl, rfl⟩

theorem Function.match_same (g : Function) : g.Match same g := ⟨rfl, rfl, rfl, rfl, rfl, rfl⟩

theorem Table.match_same (t : Table) : t.Match same t :=
  ⟨Value.entriesMatch_same _, rel_same fun _ _ => rfl⟩

/-- What a frame reaches is matched with itself. -/
theorem Heap.Sound.heaps_same (hh : h.Sound) (hc : h.HasFrame c) :
    (same.reached h c h c).Heaps h h := by
  refine oneToOne_same.heaps_reached hh hh hc hc ?_ ?_ ?_
  · rintro t _ ⟨rfl, -, -⟩
    exact Table.match_same _
  · rintro f _ ⟨rfl, -, -⟩
    exact Frame.match_same _
  · rintro g _ ⟨rfl, -, -⟩
    exact Function.match_same _

/-! ### The matching of what has been made with itself -/

/-- Everything that has been made in the heap is matched with itself. -/
def Heap.own (k : Heap) : Matching where
  tables t t' := t = t' ∧ k.HasTable t
  frames f f' := f = f' ∧ k.HasFrame f
  functions g g' := g = g' ∧ k.HasFunction g

section

variable {k : Heap}

mutual

theorem Value.Lives.match_own : {v : Value} → v.Lives k → v.Match k.own v
  | .number x, _ => .number x
  | .bool b, _ => .bool b
  | .null, _ => .null
  | .text s, _ => .text s
  | .list _, hv => .list (Value.AllLive.match_own hv)
  | .function _, hg => .function ⟨rfl, hg⟩
  | .encap .., ⟨hfields, hinherited, hscope⟩ =>
      .encap (Value.EntriesLive.match_own hfields) (Value.EntriesLive.match_own hinherited)
        ⟨rfl, hscope⟩
  | .empty, _ => .empty

theorem Value.AllLive.match_own : {vs : List Value} → Value.AllLive k vs →
    Value.AllMatch k.own vs vs
  | [], _ => .nil
  | _ :: _, ⟨hv, hrest⟩ => .cons (Value.Lives.match_own hv) (Value.AllLive.match_own hrest)

theorem Value.EntriesLive.match_own : {bs : List (String × Value)} → Value.EntriesLive k bs →
    Value.EntriesMatch k.own bs bs
  | [], _ => .nil
  | (_, _) :: _, ⟨hv, hrest⟩ =>
      .cons (Value.Lives.match_own hv) (Value.EntriesLive.match_own hrest)

end

theorem Heap.Sound.heaps_own (hk : k.Sound) : k.own.Heaps k k where
  rooted := hk.rooted
  rooted' := hk.rooted
  tables_eq := by
    rintro t _ u _ ⟨rfl, -⟩ ⟨rfl, -⟩
    exact Iff.rfl
  frames_eq := by
    rintro f _ e _ ⟨rfl, -⟩ ⟨rfl, -⟩
    exact Iff.rfl
  functions_eq := by
    rintro g _ u _ ⟨rfl, -⟩ ⟨rfl, -⟩
    exact Iff.rfl
  table := by
    rintro t _ ⟨rfl, ht⟩
    exact ⟨ht, ht, (hk.live t).match_own, rel_same fun p hp => ⟨rfl, hk.rooted.hasTable_parent hp⟩⟩
  frame := by
    rintro f _ ⟨rfl, hf⟩
    exact ⟨hf, hf, rfl, ⟨rfl, hk.hasTable hf⟩, rel_same fun p hp => ⟨rfl, hk.hasFrame_parent hf hp⟩,
      rfl⟩
  older := by
    rintro f _ ⟨rfl, hf⟩
    exact ⟨fun p => hk.older hf, fun p => hk.older hf⟩
  function := by
    rintro g _ ⟨rfl, hg⟩
    exact ⟨hg, hg, rfl, rfl, rfl, ⟨rfl, hk.home hg⟩, rfl, rfl⟩

end

end CapsuleScript
