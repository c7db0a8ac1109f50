import CapsuleScript.Proofs.Heap.Reach
import CapsuleScript.Evaluation.Object

/-! Walks along the links of a heap. Whatever operation is done, on whatever tables and frames of a
heap, chains of tables that ended still end, and frames are still entered from older ones. So every
walk comes to its end by itself: the number of steps that it is allowed is never what ends it. -/

namespace CapsuleScript.Heap

variable {fresh : Nat} {h k : Heap}

/-! ### Operations -/

/-- One operation on a heap. The tables and frames that it is given are those of the heap; nothing is
asked of where they stand on chains. -/
inductive Operation : Heap → Heap → Prop where
  | newTable {h : Heap} {p : Option TableId} {bindings : Bindings Value} :
      (∀ q, p = some q → h.HasTable q) → Operation h (h.newTable p bindings).2
  | bind {h : Heap} {t : TableId} {name : String} {value : Value} :
      Operation h (h.bind t name value)
  | splice {h : Heap} {t link : TableId} :
      h.HasTable t → h.HasTable link → Operation h (h.splice t link).2
  | cut {h : Heap} {around t : TableId} : h.HasTable t → Operation h (Evaluation.cut h around t)
  | collect {h : Heap} {c : FrameId} : Operation h (h.collect c)
  | addFrame {h : Heap} {frame : Frame} :
      (∀ p, frame.parent = some p → h.HasFrame p) → Operation h (h.addFrame frame)
  /-- Functions are made and defined. -/
  | functions {h : Heap} {functions : Array Function} :
      Operation h { h with functions := functions }

/-- Any number of operations. -/
abbrev Operations : Heap → Heap → Prop := Relation.ReflTransGen Operation

/-- The table at which a chain may be linked to `q` is its own splice point. -/
theorem Splices.splice_eq {x q : TableId} (hs : h.Splices x q) :
    h.splice x q = (some x, h.setParent x (some q)) := by
  have hpoint : ∀ steps, h.splicePoint (h.chain q) steps x = x := by
    intro steps
    cases steps with
    | zero => rfl
    | succ steps =>
        rw [splicePoint]
        split
        · rfl
        · rename_i p hp
          exact if_pos (hs.mem_of_parent p hp)
  rw [splice_of_not_mem hs.not_mem, hpoint]

/-- What an evaluation does to a heap, it does by operations. -/
theorem Step.operations (hs : Step fresh h k) : Operations h k := by
  cases hs with
  | @opened below bindings frame hbelow _ _ hparent =>
      have hp : ∀ q, some below = some q → h.HasTable q := fun q hq => Option.some.inj hq ▸ hbelow
      exact .tail (.single (.newTable hp)) (.addFrame fun p hframe => (hparent p hframe).1)
  | shared _ hparent hp _ =>
      refine .single (.addFrame fun q hq => ?_)
      rw [hparent] at hq
      exact Option.some.inj hq ▸ hp
  | bound _ _ _ _ => exact .single .bind
  | rebound _ _ _ _ _ => exact .single .bind
  | added _ _ => exact .single .functions
  | @defined g source _ _ _ =>
      have heq : h.initializeFrom g source =
          { h with functions := (h.initializeFrom g source).functions } := by
        unfold initializeFrom
        split <;> rfl
      rw [heq]
      exact .single .functions
  | spliced hsplices =>
      have hop := Operation.splice hsplices.hasTable hsplices.hasTable_link
      rw [hsplices.splice_eq] at hop
      exact .single hop
  | @cut t around ht hparent =>
      have hop := @Operation.cut h around t ht
      rw [Evaluation.cut, if_pos hparent] at hop
      exact .single hop

theorem Steps.operations (hs : Steps fresh h k) : Operations h k := by
  induction hs with
  | refl => exact .refl
  | tail _ hstep ih => exact ih.trans hstep.operations

/-! ### What operations keep -/

/-- Chains of tables end, and frames are entered from older ones. -/
structure Walkable (h : Heap) : Prop where
  rooted : h.Rooted
  older : ∀ {f p}, h.HasFrame f → (h.frame f).parent = some p → p.index < f.index

theorem Sound.walkable (hh : h.Sound) : h.Walkable := ⟨hh.rooted, hh.older⟩

namespace Walkable

theorem of_frames (hh : h.Walkable) (hrooted : k.Rooted) (hframes : k.frames = h.frames) :
    k.Walkable where
  rooted := hrooted
  older := older_congr hframes hh.older

theorem addFrame (hh : h.Walkable) {frame : Frame}
    (hparent : ∀ p, frame.parent = some p → h.HasFrame p) : (h.addFrame frame).Walkable where
  rooted := hh.rooted.of_parent_eq (Nat.le_refl _) fun _ => rfl
  older := older_addFrame hh.older hparent

/-- A splice is refused where it would close a circle, and the table that is linked is one that the
new part of the chain does not pass. -/
theorem splice (hh : h.Walkable) {t link : TableId} (ht : h.HasTable t) (hlink : h.HasTable link) :
    (h.splice t link).2.Walkable := by
  by_cases hmem : t ∈ h.chain link
  · rw [splice_of_mem hmem]
    exact hh
  · have hsplices := hh.rooted.splices_splicePoint ht hlink hmem
    rw [splice_of_not_mem hmem]
    exact hh.of_frames (hh.rooted.setParent hsplices.hasTable hlink hsplices.not_mem) rfl

theorem cut (hh : h.Walkable) {around t : TableId} (ht : h.HasTable t) :
    (Evaluation.cut h around t).Walkable := by
  unfold Evaluation.cut
  split
  · exact hh.of_frames (hh.rooted.cut ht builtins) rfl
  · exact hh

theorem operation (hh : h.Walkable) (ho : Operation h k) : k.Walkable := by
  cases ho with
  | newTable hp => exact hh.of_frames (hh.rooted.newTable hp) rfl
  | bind =>
      refine hh.of_frames (hh.rooted.of_parent_eq (by simp) fun u => ?_) rfl
      rw [table_bind]
      split <;> rfl
  | splice ht hlink => exact hh.splice ht hlink
  | cut ht => exact hh.cut ht
  | collect => exact hh.of_frames hh.rooted.collect frames_collect
  | addFrame hparent => exact hh.addFrame hparent
  | functions => exact hh.of_frames (hh.rooted.of_parent_eq (Nat.le_refl _) fun _ => rfl) rfl

theorem operations (hh : h.Walkable) (ho : Operations h k) : k.Walkable := by
  induction ho with
  | refl => exact hh
  | tail _ hop ih => exact ih.operation hop

end Walkable

/-! ### Walks -/

/-- Every walk along the links of the heap ends by itself. -/
structure WalksEnd (h : Heap) : Prop where
  /-- Parent links lead from every table to a table without a parent. -/
  exists_path : ∀ t, ∃ l, h.Path (some t) l
  /-- The tables that are walked are all the tables up to the end. -/
  path_chain : ∀ {t}, h.HasTable t → h.Path (some t) (h.chain t)
  chainFrom_eq : ∀ {t steps}, h.HasTable t → h.tables.size ≤ steps →
    h.chainFrom steps (some t) = h.chain t
  lookupFrom_eq : ∀ {t steps} (name : String), h.HasTable t → h.tables.size ≤ steps →
    h.lookupFrom name steps (some t) = h.get? t name
  /-- The search for a splice point stops where the chain ends or becomes visible. -/
  parent_splicePoint : ∀ {t p visible steps}, h.HasTable t → t ∉ visible →
    h.tables.size ≤ steps → (h.table (h.splicePoint visible steps t)).parent = some p → p ∈ visible
  splicePoint_eq : ∀ {t steps} (visible : List TableId), h.HasTable t → h.tables.size ≤ steps →
    h.splicePoint visible steps t = h.splicePoint visible h.tables.size t
  ancestryFrom_eq : ∀ {f steps}, h.HasFrame f → h.frames.size ≤ steps →
    h.ancestryFrom steps (some f) = h.ancestry f

theorem splicePoint_stable {t : TableId} {visible l : List TableId} {steps more : Nat}
    (hl : h.Path (some t) l) (hsteps : l.length ≤ steps) (hmore : l.length ≤ more) :
    h.splicePoint visible steps t = h.splicePoint visible more t := by
  induction steps generalizing t l more with
  | zero =>
      obtain ⟨rest, rfl, -⟩ := hl.eq_cons
      simp at hsteps
  | succ steps ih =>
      obtain ⟨rest, rfl, hrest⟩ := hl.eq_cons
      cases more with
      | zero => simp at hmore
      | succ more =>
          simp only [splicePoint]
          cases hp : (h.table t).parent with
          | none => rfl
          | some p =>
              rw [hp] at hrest
              have hnext := ih hrest (by simpa using hsteps) (by simpa using hmore)
              simp only [hnext]

/-- Frames are entered from older ones, so the way back from the frame of the number `n` has no more
than `n + 1` frames. -/
theorem Walkable.ancestryFrom_stable (hh : h.Walkable) {f : FrameId} {steps more : Nat}
    (hf : h.HasFrame f) (hsteps : f.index < steps) (hmore : f.index < more) :
    h.ancestryFrom steps (some f) = h.ancestryFrom more (some f) := by
  induction steps generalizing f more with
  | zero => exact absurd hsteps (Nat.not_lt_zero _)
  | succ steps ih =>
      cases more with
      | zero => exact absurd hmore (Nat.not_lt_zero _)
      | succ more =>
          simp only [ancestryFrom]
          cases hp : (h.frame f).parent with
          | none => cases steps <;> cases more <;> rfl
          | some p =>
              have hlt := hh.older hf hp
              have hnext : h.ancestryFrom steps (some p) = h.ancestryFrom more (some p) :=
                ih (Nat.lt_trans hlt hf) (by omega) (by omega)
              rw [hnext]

theorem Walkable.walksEnd (hh : h.Walkable) : h.WalksEnd where
  exists_path := hh.rooted.exists_path
  path_chain := hh.rooted.path_chain
  chainFrom_eq {t steps} ht hsteps := by
    have hpath := hh.rooted.path_chain ht
    exact chainFrom_eq_of_path hpath
      (Nat.le_trans (hh.rooted.length_le_of_path hpath ht) hsteps)
  lookupFrom_eq {t steps} name ht hsteps := by
    have hpath := hh.rooted.path_chain ht
    rw [get?_eq_findSome?, lookupFrom_eq_findSome?, chainFrom_eq_of_path hpath
      (Nat.le_trans (hh.rooted.length_le_of_path hpath ht) hsteps)]
  parent_splicePoint {t p visible steps} ht hvisible hsteps hp := by
    have hpath := hh.rooted.path_chain ht
    have hlength := Nat.le_trans (hh.rooted.length_le_of_path hpath ht) hsteps
    exact (splicePoint_spec hpath hlength hvisible).2.2 p hp
  splicePoint_eq {t steps} visible ht hsteps := by
    have hpath := hh.rooted.path_chain ht
    have hlength := hh.rooted.length_le_of_path hpath ht
    exact splicePoint_stable hpath (Nat.le_trans hlength hsteps) hlength
  ancestryFrom_eq {f steps} hf hsteps :=
    hh.ancestryFrom_stable hf (Nat.lt_of_lt_of_le hf hsteps) hf

end CapsuleScript.Heap
