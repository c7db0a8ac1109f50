import CapsuleScript.Proofs.Heap.Relink

/-! Heaps that only grow. One heap lies within another that has all its tables, frames and functions
as they are, and more tables and frames besides. Chains of tables and the meanings of names are the
same in both. -/

namespace CapsuleScript.Heap

variable {h k l : Heap} {t : TableId} {f : FrameId}

/-- What there is in the heap `h` is the same in `k`, which may have more tables and frames. -/
structure Within (h k : Heap) : Prop where
  tables : h.tables.size ≤ k.tables.size
  frames : h.frames.size ≤ k.frames.size
  functions : k.functions = h.functions
  table : ∀ {t}, h.HasTable t → k.table t = h.table t
  frame : ∀ {f}, h.HasFrame f → k.frame f = h.frame f

namespace Within

theorem refl (h : Heap) : h.Within h :=
  ⟨Nat.le_refl _, Nat.le_refl _, rfl, fun _ => rfl, fun _ => rfl⟩

theorem hasTable (hk : h.Within k) (ht : h.HasTable t) : k.HasTable t :=
  Nat.lt_of_lt_of_le ht hk.tables

theorem hasFrame (hk : h.Within k) (hf : h.HasFrame f) : k.HasFrame f :=
  Nat.lt_of_lt_of_le hf hk.frames

theorem trans (hk : h.Within k) (hl : k.Within l) : h.Within l where
  tables := Nat.le_trans hk.tables hl.tables
  frames := Nat.le_trans hk.frames hl.frames
  functions := hl.functions.trans hk.functions
  table ht := (hl.table (hk.hasTable ht)).trans (hk.table ht)
  frame hf := (hl.frame (hk.hasFrame hf)).trans (hk.frame hf)

theorem newTable (p : Option TableId) (bs : Bindings Value) : h.Within (h.newTable p bs).2 where
  tables := by simp
  frames := Nat.le_refl _
  functions := rfl
  table ht := table_newTable_of_hasTable ht
  frame _ := frame_congr rfl _

theorem addFrame (frame : Frame) : h.Within (h.addFrame frame) where
  tables := Nat.le_refl _
  frames := by simp
  functions := rfl
  table _ := table_congr rfl _
  frame hf := frame_addFrame_of_hasFrame hf

/-- A new table with a new frame. -/
theorem opened (p : Option TableId) (bs : Bindings Value) (frame : Frame) :
    h.Within ((h.newTable p bs).2.addFrame frame) :=
  (newTable p bs).trans (addFrame frame)

theorem chain_eq (hk : h.Within k) (hh : h.Rooted) (hr : k.Rooted) (ht : h.HasTable t) :
    k.chain t = h.chain t := by
  refine hr.chain_eq_of_path (hk.hasTable ht) ((hh.path_chain ht).congr fun u hu => ?_)
  rw [hk.table (hh.hasTable_of_mem_chain ht hu)]

/-- Names mean the same. -/
theorem get?_eq (hk : h.Within k) (hh : h.Rooted) (hr : k.Rooted) (ht : h.HasTable t)
    (name : String) : k.get? t name = h.get? t name := by
  have htables : (h.chain t).map k.table = (h.chain t).map h.table :=
    List.map_congr_left fun u hu => hk.table (hh.hasTable_of_mem_chain ht hu)
  rw [get?_eq_findSome?_map, get?_eq_findSome?_map, hk.chain_eq hh hr ht, htables]

theorem lookup_eq (hk : h.Within k) (hh : h.Rooted) (hr : k.Rooted) (hf : h.HasFrame f)
    (ht : h.HasTable (h.frame f).table) (name : String) : k.lookup f name = h.lookup f name := by
  rw [lookup, lookup, hk.frame hf, hk.get?_eq hh hr ht]

end Within

end CapsuleScript.Heap
