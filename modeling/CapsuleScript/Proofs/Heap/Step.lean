import CapsuleScript.Proofs.Heap.Sound
import Mathlib.Logic.Relation

/-! The changes that an evaluation makes to a heap, one at a time. A table is opened with its frame,
a frame shares the table of another, a name is bound, a function is made or a placeholder defined, a
chain is spliced into another or cut. Names are bound only in tables from a given number on, which
tells the tables an evaluation may write to from those it found. All invariants of heaps are proved
for one change and hold for every evaluation. -/

namespace CapsuleScript.Heap

/-- The table is that of some frame. Only the tables that replace the scope around a strict object
are not. -/
def Owned (h : Heap) (t : TableId) : Prop := ∃ f, h.HasFrame f ∧ (h.frame f).table = t

/-- One change to a heap, which binds names only in tables from the number `fresh` on. -/
inductive Step (fresh : Nat) : Heap → Heap → Prop where
  /-- A new table on top of `below`, with a frame that was entered from nowhere or from a frame whose
  table `below` is. -/
  | opened {h : Heap} {below : TableId} {bindings : Bindings Value} {frame : Frame} :
      h.HasTable below → Value.EntriesLive h bindings → frame.table = ⟨h.tables.size⟩ →
      (∀ p, frame.parent = some p → h.HasFrame p ∧ (h.frame p).table = below) →
      Step fresh h ((h.newTable (some below) bindings).2.addFrame frame)
  /-- A frame with the table of another, from which the table of the frame it was entered from is
  seen. -/
  | shared {h : Heap} {frame : Frame} {p : FrameId} :
      h.Owned frame.table → frame.parent = some p → h.HasFrame p →
      (h.frame p).table ∈ h.chain frame.table → Step fresh h (h.addFrame frame)
  /-- A name that the table does not bind. -/
  | bound {h : Heap} {t : TableId} {name : String} {value : Value} :
      h.HasTable t → fresh ≤ t.index → value.Lives h → (h.table t).bindings.get? name = none →
      Step fresh h (h.bind t name value)
  /-- A function in the place of a placeholder. -/
  | rebound {h : Heap} {t : TableId} {name : String} {g copy : FunctionId} :
      h.HasTable t → fresh ≤ t.index → h.HasFunction copy →
      (h.table t).bindings.get? name = some (.function g) → (h.function g).initialized = false →
      Step fresh h (h.bind t name (.function copy))
  | added {h : Heap} {data : Function} :
      h.HasFrame data.home → data.body.IsStatement → Step fresh h (h.addFunction data)
  /-- A placeholder becomes the function `source`. -/
  | defined {h : Heap} {g source : FunctionId} :
      h.HasFunction g → h.HasFunction source → (h.function g).initialized = false →
      Step fresh h (h.initializeFrom g source)
  | spliced {h : Heap} {x q : TableId} :
      h.Splices x q → Step fresh h (h.setParent x (some q))
  /-- The names that every program starts with come in place of the parent of a table. -/
  | cut {h : Heap} {t around : TableId} :
      h.HasTable t → (h.table t).parent = some around →
      Step fresh h ((h.newTable none builtins).2.setParent t (some ⟨h.tables.size⟩))

/-- Any number of changes. -/
abbrev Steps (fresh : Nat) : Heap → Heap → Prop := Relation.ReflTransGen (Step fresh)

variable {fresh : Nat} {h k : Heap}

/-! ### What is kept -/

/-- What no change takes away: everything that has been made stays, frames as they are, functions
with their names, defined functions as they are, and the tables before `fresh` bind what they
bound. -/
structure Keeps (fresh : Nat) (h k : Heap) : Prop where
  tables : h.tables.size ≤ k.tables.size
  frames : h.frames.size ≤ k.frames.size
  functions : h.functions.size ≤ k.functions.size
  frame : ∀ {f}, h.HasFrame f → k.frame f = h.frame f
  name : ∀ {g}, h.HasFunction g → (k.function g).name = (h.function g).name
  function : ∀ {g}, h.HasFunction g → (h.function g).initialized → k.function g = h.function g
  bindings : ∀ {t}, h.HasTable t → t.index < fresh → (k.table t).bindings = (h.table t).bindings
  has : ∀ {t name}, h.HasTable t → (h.table t).bindings.has name → (k.table t).bindings.has name
  /-- A table that is found without a frame never gets one. -/
  owned : ∀ {t}, h.HasTable t → k.Owned t → h.Owned t

namespace Keeps

theorem refl (h : Heap) : Keeps fresh h h where
  tables := Nat.le_refl _
  frames := Nat.le_refl _
  functions := Nat.le_refl _
  frame _ := rfl
  name _ := rfl
  function _ _ := rfl
  bindings _ _ := rfl
  has _ hbinds := hbinds
  owned _ ho := ho

theorem hasTable (hk : Keeps fresh h k) {t : TableId} (ht : h.HasTable t) : k.HasTable t :=
  Nat.lt_of_lt_of_le ht hk.tables

theorem hasFrame (hk : Keeps fresh h k) {f : FrameId} (hf : h.HasFrame f) : k.HasFrame f :=
  Nat.lt_of_lt_of_le hf hk.frames

theorem hasFunction (hk : Keeps fresh h k) {g : FunctionId} (hg : h.HasFunction g) :
    k.HasFunction g :=
  Nat.lt_of_lt_of_le hg hk.functions

theorem lives (hk : Keeps fresh h k) {v : Value} (hv : v.Lives h) : v.Lives k :=
  hv.mono hk.frames hk.functions

theorem trans {l : Heap} (hk : Keeps fresh h k) (hl : Keeps fresh k l) : Keeps fresh h l where
  tables := Nat.le_trans hk.tables hl.tables
  frames := Nat.le_trans hk.frames hl.frames
  functions := Nat.le_trans hk.functions hl.functions
  frame hf := (hl.frame (hk.hasFrame hf)).trans (hk.frame hf)
  name hg := (hl.name (hk.hasFunction hg)).trans (hk.name hg)
  function hg hinit := by
    have hkept := hk.function hg hinit
    rw [hl.function (hk.hasFunction hg) (by rw [hkept]; exact hinit), hkept]
  bindings ht hlt := (hl.bindings (hk.hasTable ht) hlt).trans (hk.bindings ht hlt)
  has ht hbinds := hl.has (hk.hasTable ht) (hk.has ht hbinds)
  owned ht ho := hk.owned ht (hl.owned (hk.hasTable ht) ho)

/-- A change that touches neither tables nor frames. -/
theorem of_functions (htables : k.tables = h.tables) (hframes : k.frames = h.frames)
    (hsize : h.functions.size ≤ k.functions.size)
    (hname : ∀ {g}, h.HasFunction g → (k.function g).name = (h.function g).name)
    (hfunction : ∀ {g}, h.HasFunction g → (h.function g).initialized →
      k.function g = h.function g) : Keeps fresh h k where
  tables := Nat.le_of_eq (by rw [htables])
  frames := Nat.le_of_eq (by rw [hframes])
  functions := hsize
  frame _ := frame_congr hframes _
  name := hname
  function := hfunction
  bindings _ _ := by rw [table_congr htables]
  has _ hbinds := by rwa [table_congr htables]
  owned := by
    rintro t - ⟨f, hf, hft⟩
    refine ⟨f, ?_, ?_⟩
    · rwa [HasFrame, ← hframes]
    · rwa [← frame_congr hframes]

/-- A change that touches only tables. -/
theorem of_tables (hsize : h.tables.size ≤ k.tables.size) (hframes : k.frames = h.frames)
    (hfunctions : k.functions = h.functions)
    (hbindings : ∀ {t}, h.HasTable t → t.index < fresh →
      (k.table t).bindings = (h.table t).bindings)
    (hhas : ∀ {t name}, h.HasTable t → (h.table t).bindings.has name →
      (k.table t).bindings.has name) : Keeps fresh h k where
  tables := hsize
  frames := Nat.le_of_eq (by rw [hframes])
  functions := Nat.le_of_eq (by rw [hfunctions])
  frame _ := frame_congr hframes _
  name _ := by rw [function_congr hfunctions]
  function _ _ := function_congr hfunctions _
  bindings := hbindings
  has := hhas
  owned := by
    rintro t - ⟨f, hf, hft⟩
    refine ⟨f, ?_, ?_⟩
    · rwa [HasFrame, ← hframes]
    · rwa [← frame_congr hframes]

/-- A change that adds a frame on an owned table. -/
theorem addFrame {frame : Frame} (howned : h.HasTable frame.table → h.Owned frame.table) :
    Keeps fresh h (h.addFrame frame) where
  tables := Nat.le_refl _
  frames := by simp
  functions := Nat.le_refl _
  frame hf := frame_addFrame_of_hasFrame hf
  name _ := rfl
  function _ _ := rfl
  bindings _ _ := rfl
  has _ hbinds := hbinds
  owned := by
    rintro t ht ⟨f, hf, hft⟩
    by_cases hnew : f.index = h.frames.size
    · rw [frame_addFrame, if_pos hnew] at hft
      subst hft
      exact howned ht
    · have hold : h.HasFrame f := by
        simp only [HasFrame, frames_size_addFrame] at hf ⊢
        omega
      exact ⟨f, hold, by rwa [frame_addFrame_of_hasFrame hold] at hft⟩

theorem newTable (p : Option TableId) (bs : Bindings Value) :
    Keeps fresh h (h.newTable p bs).2 := by
  refine of_tables (by simp) rfl rfl (fun ht _ => ?_) (fun ht hbinds => ?_)
  · rw [table_newTable_of_hasTable ht]
  · rwa [table_newTable_of_hasTable ht]

theorem setParent (x : TableId) (p : Option TableId) : Keeps fresh h (h.setParent x p) := by
  refine of_tables (by simp) rfl rfl (fun _ _ => ?_) (fun _ hbinds => ?_)
  · rw [table_setParent]
    split <;> rfl
  · rw [table_setParent]
    split <;> exact hbinds

theorem bind {t : TableId} (hfresh : fresh ≤ t.index) (name : String) (v : Value) :
    Keeps fresh h (h.bind t name v) := by
  refine of_tables (by simp) rfl rfl (fun _ hlt => ?_) (fun _ hbinds => ?_)
  · rw [table_bind, if_neg]
    rintro ⟨rfl, -⟩
    omega
  · rw [table_bind]
    split
    · exact Bindings.has_insert_of_has hbinds
    · exact hbinds

/-- A change that opens a new table with its frame. -/
theorem opened {p : Option TableId} {bs : Bindings Value} {frame : Frame}
    (htable : frame.table = ⟨h.tables.size⟩) :
    Keeps fresh h ((h.newTable p bs).2.addFrame frame) where
  tables := by simp
  frames := by simp
  functions := Nat.le_refl _
  frame hf := frame_addFrame_of_hasFrame (h := (h.newTable p bs).2) hf
  name _ := rfl
  function _ _ := rfl
  bindings ht _ := congrArg Table.bindings (table_newTable_of_hasTable ht)
  has ht hbinds := by
    show Bindings.has ((h.newTable p bs).2.table _).bindings _
    rwa [table_newTable_of_hasTable ht]
  owned := by
    rintro t ht ⟨f, hf, hft⟩
    by_cases hnew : f.index = h.frames.size
    · rw [frame_addFrame, if_pos (by simpa using hnew), htable] at hft
      subst hft
      exact absurd ht (Nat.lt_irrefl _)
    · have hold : h.HasFrame f := by
        simp only [HasFrame, frames_size_addFrame, frames_newTable] at hf ⊢
        omega
      refine ⟨f, hold, ?_⟩
      rwa [frame_addFrame_of_hasFrame (h := (h.newTable p bs).2) hold] at hft

end Keeps

theorem Step.keeps (hs : Step fresh h k) : Keeps fresh h k := by
  cases hs with
  | opened _ _ htable _ => exact .opened htable
  | shared howned _ _ _ => exact .addFrame fun _ => howned
  | bound _ hfresh _ _ => exact .bind hfresh _ _
  | rebound _ hfresh _ _ _ => exact .bind hfresh _ _
  | added _ _ =>
      refine .of_functions rfl rfl (by simp) (fun hg => ?_) (fun hg _ => ?_)
      · rw [function_addFunction_of_hasFunction hg]
      · exact function_addFunction_of_hasFunction hg
  | @defined g source _ _ hinit =>
      refine .of_functions (by simp) (by simp) (by simp) (fun hu => ?_) (fun hu hdone => ?_)
      · rw [function_initializeFrom]
        split <;> rfl
      · rw [function_initializeFrom, if_neg]
        rintro ⟨rfl, -⟩
        rw [hinit] at hdone
        cases hdone
  | spliced _ => exact .setParent _ _
  | cut _ _ => exact (Keeps.newTable _ _).trans (.setParent _ _)

theorem Steps.keeps (hs : Steps fresh h k) : Keeps fresh h k := by
  induction hs with
  | refl => exact .refl h
  | tail _ hstep ih => exact ih.trans hstep.keeps

/-! ### Soundness -/

section

variable {f p : FrameId}

/-- With the same frames, each is still entered from an older one. -/
theorem older_congr (hframes : k.frames = h.frames)
    (hold : ∀ {f p}, h.HasFrame f → (h.frame f).parent = some p → p.index < f.index)
    (hf : k.HasFrame f) (hp : (k.frame f).parent = some p) : p.index < f.index := by
  rw [HasFrame, hframes] at hf
  rw [frame_congr hframes] at hp
  exact hold hf hp

/-- A new frame is entered from an older one, if it is from one of the heap. -/
theorem older_addFrame {frame : Frame}
    (hold : ∀ {f p}, h.HasFrame f → (h.frame f).parent = some p → p.index < f.index)
    (hparent : ∀ q, frame.parent = some q → h.HasFrame q) (hf : (h.addFrame frame).HasFrame f)
    (hp : ((h.addFrame frame).frame f).parent = some p) : p.index < f.index := by
  rw [frame_addFrame] at hp
  split at hp
  · rename_i hnew
    rw [hnew]
    exact hparent p hp
  · refine hold ?_ hp
    simp only [HasFrame, frames_size_addFrame] at hf ⊢
    omega

end

namespace Sound

/-- A change of tables only, after which what is bound was made before. -/
theorem of_tables (hh : h.Sound) (hrooted : k.Rooted) (hsize : h.tables.size ≤ k.tables.size)
    (hframes : k.frames = h.frames) (hfunctions : k.functions = h.functions)
    (hlive : ∀ t, Value.EntriesLive h (k.table t).bindings) : k.Sound where
  rooted := hrooted
  live t := (hlive t).mono (Nat.le_of_eq (by rw [hframes])) (Nat.le_of_eq (by rw [hfunctions]))
  hasTable := by
    intro f hf
    rw [HasFrame, hframes] at hf
    rw [frame_congr hframes]
    exact Nat.lt_of_lt_of_le (hh.hasTable hf) hsize
  older := older_congr hframes hh.older
  home := by
    intro g hg
    rw [HasFunction, hfunctions] at hg
    rw [function_congr hfunctions, HasFrame, hframes]
    exact hh.home hg
  body := by
    intro g hg
    rw [HasFunction, hfunctions] at hg
    rw [function_congr hfunctions]
    exact hh.body hg

/-- A new frame with a table of the heap, entered from nowhere or from a frame of the heap. -/
theorem addFrame (hh : h.Sound) {frame : Frame} (htable : h.HasTable frame.table)
    (hparent : ∀ p, frame.parent = some p → h.HasFrame p) : (h.addFrame frame).Sound where
  rooted := hh.rooted.of_parent_eq (Nat.le_refl _) fun _ => rfl
  live t := by
    show Value.EntriesLive (h.addFrame frame) (h.table t).bindings
    refine (hh.live t).mono ?_ ?_
    · simp
    · exact Nat.le_refl _
  hasTable := by
    intro f hf
    rw [frame_addFrame]
    split
    · exact htable
    · refine hh.hasTable ?_
      simp only [HasFrame, frames_size_addFrame] at hf ⊢
      omega
  older := older_addFrame hh.older hparent
  home hg := Nat.lt_of_lt_of_le (hh.home hg) (by simp)
  body hg := hh.body hg

/-- Another set of functions, all of which have a home in the heap and a statement as body. -/
theorem of_functions (hh : h.Sound) (htables : k.tables = h.tables) (hframes : k.frames = h.frames)
    (hsize : h.functions.size ≤ k.functions.size)
    (hfunction : ∀ g, k.HasFunction g →
      h.HasFrame (k.function g).home ∧ (k.function g).body.IsStatement) : k.Sound where
  rooted := hh.rooted.of_parent_eq (Nat.le_of_eq (by rw [htables])) fun t => by
    rw [table_congr htables]
  live t := by
    rw [table_congr htables]
    exact (hh.live t).mono (Nat.le_of_eq (by rw [hframes])) hsize
  hasTable := by
    intro f hf
    rw [HasFrame, hframes] at hf
    rw [frame_congr hframes, HasTable, htables]
    exact hh.hasTable hf
  older := older_congr hframes hh.older
  home := by
    intro g hg
    rw [HasFrame, hframes]
    exact (hfunction g hg).1
  body hg := (hfunction _ hg).2

theorem newTable (hh : h.Sound) {p : Option TableId} {bs : Bindings Value}
    (hp : ∀ q, p = some q → h.HasTable q) (hbs : Value.EntriesLive h bs) :
    (h.newTable p bs).2.Sound := by
  refine hh.of_tables (hh.rooted.newTable hp) (by simp) rfl rfl fun t => ?_
  rw [table_newTable]
  split
  · exact hbs
  · exact hh.live t

theorem setParent (hh : h.Sound) {x : TableId} {p : Option TableId}
    (hrooted : (h.setParent x p).Rooted) : (h.setParent x p).Sound := by
  refine hh.of_tables hrooted (by simp) rfl rfl fun t => ?_
  rw [table_setParent]
  split <;> exact hh.live t

theorem bind (hh : h.Sound) (t : TableId) (name : String) {v : Value} (hv : v.Lives h) :
    (h.bind t name v).Sound := by
  refine hh.of_tables (hh.rooted.of_parent_eq (by simp) fun u => ?_) (by simp) rfl rfl fun u => ?_
  · rw [table_bind]
    split <;> rfl
  · rw [table_bind]
    split
    · exact (hh.live u).insert name hv
    · exact hh.live u

end Sound

/-- The builtin values hold nothing. -/
theorem entriesLive_builtins : Value.EntriesLive h builtins := by
  simp [builtins, Value.EntriesLive, Value.Lives]

/-- Chains still end when a new table takes the place of a parent. -/
theorem Rooted.cut (hh : h.Rooted) {t : TableId} (ht : h.HasTable t) (bs : Bindings Value) :
    ((h.newTable none bs).2.setParent t (some ⟨h.tables.size⟩)).Rooted := by
  have hp : ∀ q, (none : Option TableId) = some q → h.HasTable q := by simp
  exact (hh.newTable hp).setParent ht.newTable hasTable_newTable_self
    (hh.not_mem_chain_newTable_none ht)

theorem Step.sound (hh : h.Sound) (hs : Step fresh h k) : k.Sound := by
  cases hs with
  | @opened below bs frame hbelow hbs htable hparent =>
      have hp : ∀ q, some below = some q → h.HasTable q := fun q hq => Option.some.inj hq ▸ hbelow
      refine (hh.newTable hp hbs).addFrame ?_ fun p hpar => (hparent p hpar).1
      rw [htable]
      exact Rooted.hasTable_newTable_self
  | shared howned hparent hp _ =>
      obtain ⟨f, hf, hft⟩ := howned
      refine hh.addFrame (hft ▸ hh.hasTable hf) fun q hq => ?_
      rw [hparent] at hq
      exact Option.some.inj hq ▸ hp
  | bound _ _ hv _ => exact hh.bind _ _ hv
  | rebound _ _ hcopy _ _ => exact hh.bind _ _ hcopy
  | @added data hhome hbody =>
      refine hh.of_functions rfl rfl (by simp) fun g hg => ?_
      rw [function_addFunction]
      split
      · exact ⟨hhome, hbody⟩
      · have hold : h.HasFunction g := by
          simp only [HasFunction, functions_size_addFunction] at hg ⊢
          omega
        exact ⟨hh.home hold, hh.body hold⟩
  | defined _ hsource _ =>
      refine hh.of_functions (by simp) (by simp) (by simp) fun u hu => ?_
      rw [HasFunction, functions_size_initializeFrom] at hu
      rw [function_initializeFrom]
      split
      · exact ⟨hh.home hsource, hh.body hsource⟩
      · exact ⟨hh.home hu, hh.body hu⟩
  | spliced hsplices =>
      exact hh.setParent
        (hh.rooted.setParent hsplices.hasTable hsplices.hasTable_link hsplices.not_mem)
  | cut ht _ =>
      have hp : ∀ q, (none : Option TableId) = some q → h.HasTable q := by simp
      exact (hh.newTable hp entriesLive_builtins).setParent (hh.rooted.cut ht _)

theorem Steps.sound (hh : h.Sound) (hs : Steps fresh h k) : k.Sound := by
  induction hs with
  | refl => exact hh
  | tail _ hstep ih => exact hstep.sound ih

end CapsuleScript.Heap
