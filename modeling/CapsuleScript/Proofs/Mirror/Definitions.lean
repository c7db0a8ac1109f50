import CapsuleScript.Proofs.Evaluation.Statements
import CapsuleScript.Proofs.Mirror.Basic
import Mathlib.Logic.Function.Basic

/-! Definitions of functions at the start of a block. The block declares them, so their names mean
placeholders first. Each definition fills its placeholder and binds a copy, perhaps in a new frame.
However that goes, all frames made since the block was entered see the same: a function with the
parameters and the body of the definition, at home in one of those frames. -/

namespace CapsuleScript

open Heap

/-- How the definition of a function is written: with its name in it, as `fun` and `define` do, or as
an assignment of a function without a name. -/
inductive Definition.Form where
  | named
  | assigned (topLevel : Bool) (span : Span)

/-- The definition of a function. -/
structure Definition where
  form : Definition.Form
  span : Span
  name : String
  params : List String
  autoReturn : Bool
  body : Node

/-- The statement that the definition is. -/
def Definition.node (d : Definition) : Node :=
  match d.form with
  | .named => .function d.span (some d.name) d.params d.autoReturn d.body
  | .assigned topLevel span =>
    .assign d.span d.name topLevel (.function span none d.params d.autoReturn d.body)

/-- The fuel that the definition takes: an assignment has the function inside. -/
def Definition.Form.depth : Definition.Form → Nat
  | named => 1
  | assigned _ _ => 2

/-- The moment at which the heap is as it is. -/
def Heap.horizon (h : Heap) : Horizon := ⟨h.tables.size, h.frames.size⟩

/-- The frame has been made since the heap was `h`. -/
def Heap.Since (h k : Heap) (f : FrameId) : Prop := h.frames.size ≤ f.index ∧ k.HasFrame f

/-- The function `g`, made since the heap was `h`, is the one that is defined. -/
structure Heap.Carries (h k : Heap) (d : Definition) (g : FunctionId) : Prop where
  new : h.functions.size ≤ g.index
  hasFunction : k.HasFunction g
  data : ∃ home, h.Since k home ∧
    k.function g = ⟨d.name, d.params, d.body, home, d.autoReturn, true⟩

/-- The function `p`, made since the heap was `h`, is the placeholder that `name` means. -/
structure Heap.Awaits (h k : Heap) (name : String) (p : FunctionId) : Prop where
  new : h.functions.size ≤ p.index
  hasFunction : k.HasFunction p
  initialized : (k.function p).initialized = false
  name_eq : (k.function p).name = name
  lookup : ∀ {f}, h.Since k f → k.lookup f name = some (.function p)

/-- What a name has come to mean. -/
inductive Meaning where
  /-- What it means around the block. -/
  | outer
  /-- The placeholder of a function. -/
  | pending
  /-- A function that is defined. -/
  | defined (d : Definition)

/-- What names mean if those of the definitions come to mean `meaning`, one after the other. -/
def Definition.settled (meaning : Definition → Meaning) (m : String → Meaning)
    (defs : List Definition) : String → Meaning :=
  defs.foldl (fun m d => Function.update m d.name (meaning d)) m

namespace Definition

variable {meaning : Definition → Meaning} {m : String → Meaning} {defs defs' : List Definition}
  {name : String} {d : Definition}

theorem settled_of_not_mem (hname : name ∉ defs.map Definition.name) :
    settled meaning m defs name = m name := by
  induction defs generalizing m with
  | nil => rfl
  | cons e rest ih =>
      obtain ⟨hne, hrest⟩ := not_or.mp (mt List.mem_cons.mpr hname)
      have hlater : settled meaning (Function.update m e.name (meaning e)) rest name =
          Function.update m e.name (meaning e) name := ih hrest
      exact hlater.trans (Function.update_of_ne hne _ _)

theorem settled_of_mem (hnames : (defs.map Definition.name).Nodup) (hd : d ∈ defs) :
    settled meaning m defs d.name = meaning d := by
  induction defs generalizing m with
  | nil => cases hd
  | cons e rest ih =>
      obtain ⟨hnot, hrest⟩ := List.nodup_cons.mp hnames
      rcases List.mem_cons.mp hd with rfl | hmem
      · have hlater : settled meaning (Function.update m d.name (meaning d)) rest d.name =
            Function.update m d.name (meaning d) d.name := settled_of_not_mem hnot
        exact hlater.trans (Function.update_self _ _ _)
      · exact ih hrest hmem

/-- Names that differ may come to mean something in any order. -/
theorem settled_perm (hperm : defs.Perm defs') (hnames : (defs.map Definition.name).Nodup) :
    settled meaning m defs = settled meaning m defs' := by
  have hmap : (defs.map Definition.name).Perm (defs'.map Definition.name) := hperm.map _
  funext name
  by_cases hname : name ∈ defs.map Definition.name
  · obtain ⟨d, hd, rfl⟩ := List.mem_map.mp hname
    rw [settled_of_mem hnames hd, settled_of_mem (hmap.nodup_iff.mp hnames) (hperm.mem_iff.mp hd)]
  · rw [settled_of_not_mem hname, settled_of_not_mem fun hmem => hname (hmap.mem_iff.mpr hmem)]

/-- What names mean after the definitions of a block, which declares them first. -/
def meanings (defs : List Definition) : String → Meaning :=
  settled .defined (settled (fun _ => .pending) (fun _ => .outer) defs) defs

theorem meanings_cases (hnames : (defs.map Definition.name).Nodup) (name : String) :
    meanings defs name = .outer ∨ ∃ d ∈ defs, meanings defs name = .defined d := by
  by_cases hname : name ∈ defs.map Definition.name
  · obtain ⟨d, hd, rfl⟩ := List.mem_map.mp hname
    exact .inr ⟨d, hd, settled_of_mem hnames hd⟩
  · exact .inl ((settled_of_not_mem hname).trans (settled_of_not_mem hname))

theorem meanings_perm (hperm : defs.Perm defs') (hnames : (defs.map Definition.name).Nodup) :
    meanings defs = meanings defs' := by
  rw [meanings, meanings, settled_perm hperm hnames, settled_perm hperm hnames]

end Definition

/-- The name means so in all frames made since the heap was `h`, in a block around which it means
what it does in the frame `c`. -/
def Meaning.Holds (h : Heap) (c : FrameId) (k : Heap) (name : String) : Meaning → Prop
  | outer => ∀ {f}, h.Since k f → k.lookup f name = h.lookup c name
  | pending => ∃ p, h.Awaits k name p
  | defined d => ∀ {f}, h.Since k f → ∃ g, k.lookup f name = some (.function g) ∧ h.Carries k d g

/-- The heap `k` comes from `h` by definitions in a block that was entered from the frame `c`: what
there was is left alone, and the frames made since see names as `m` says. -/
structure Heap.Introduces (h : Heap) (c : FrameId) (m : String → Meaning) (k : Heap) : Prop where
  after : k.After h.horizon
  functions : h.functions.size ≤ k.functions.size
  table : ∀ {t}, h.HasTable t → k.table t = h.table t
  frame : ∀ {f}, h.HasFrame f → k.frame f = h.frame f
  function : ∀ {g}, h.HasFunction g → k.function g = h.function g
  since : ∀ {f}, h.Since k f → k.HasTable (k.frame f).table ∧ h.tables.size ≤ (k.frame f).table.index
  means : ∀ name, (m name).Holds h c k name

/-! ### Names and operations -/

namespace Heap

variable {h k l : Heap} {t u : TableId} {f : FrameId} {name other : String} {v : Value} {z : Horizon}

theorem After.self (hh : h.After z) : h.After h.horizon :=
  ⟨hh.rooted, Nat.le_refl _, Nat.le_refl _, fun _ hp => hh.rooted.hasTable_parent hp, hh.older⟩

theorem lookup_congr (hparts : l.tables = k.tables ∧ l.frames = k.frames) (f : FrameId)
    (name : String) : l.lookup f name = k.lookup f name := by
  rw [lookup, lookup, get?_eq_findSome?, get?_eq_findSome?, frame_congr hparts.2,
    chain_congr hparts.1]
  simp only [table_congr hparts.1]

theorem lookupFrom_bind_of_ne (hne : name ≠ other) (steps : Nat) (o : Option TableId) :
    (h.bind t name v).lookupFrom other steps o = h.lookupFrom other steps o := by
  induction steps generalizing o with
  | zero => rfl
  | succ steps ih =>
      cases o with
      | none => rfl
      | some u =>
          have hget : ((h.bind t name v).table u).bindings.get? other =
              (h.table u).bindings.get? other := by
            rw [table_bind]
            split
            · exact Bindings.get?_insert_of_ne _ _ hne
            · rfl
          have hparent : ((h.bind t name v).table u).parent = (h.table u).parent := by
            rw [table_bind]
            split <;> rfl
          rw [lookupFrom, lookupFrom, hget, hparent, ih]

/-- Binding a name leaves the meaning of others alone. -/
theorem get?_bind_of_ne (hne : name ≠ other) (u : TableId) :
    (h.bind t name v).get? u other = h.get? u other := by
  rw [get?, get?, tables_size_bind]
  exact lookupFrom_bind_of_ne hne _ _

/-- A name that is bound means the new value or what it meant. -/
theorem lookupFrom_bind_self (steps : Nat) (o : Option TableId) :
    (h.bind t name v).lookupFrom name steps o = some v ∨
      (h.bind t name v).lookupFrom name steps o = h.lookupFrom name steps o := by
  induction steps generalizing o with
  | zero => exact .inr rfl
  | succ steps ih =>
      cases o with
      | none => exact .inr rfl
      | some u =>
          rw [lookupFrom, lookupFrom]
          by_cases hu : u = t ∧ h.HasTable t
          · rw [table_bind, if_pos hu, Bindings.get?_insert_self]
            exact .inl rfl
          · rw [table_bind, if_neg hu]
            cases (h.table u).bindings.get? name with
            | some w => exact .inr rfl
            | none => exact ih _

theorem get?_bind_self (u : TableId) : (h.bind t name v).get? u name = some v ∨
    (h.bind t name v).get? u name = h.get? u name := by
  rw [get?, get?, tables_size_bind]
  exact lookupFrom_bind_self _ _

/-- A frame that has been entered sees what the frame saw that it was entered from, and the others see
what they saw. -/
theorem After.lookup_enter (hh : h.After z) (label : String) (hhas : h.HasFrame f)
    (hf : h.HasTable (h.frame f).table) (span : Span) (name : String) :
    (h.enter label f span).2.lookup ⟨h.frames.size⟩ name = h.lookup f name ∧
    ∀ {e}, h.HasFrame e → h.HasTable (h.frame e).table →
      (h.enter label f span).2.lookup e name = h.lookup e name := by
  have hnew : (h.enter label f span).2.After h.horizon := by
    have hparent : ∀ q, some (h.frame f).table = some q → h.HasTable q :=
      fun q hq => Option.some.inj hq ▸ hf
    refine (hh.self.newTable hparent).addFrame fun p hp => ?_
    rw [← Option.some.inj hp]
    exact hhas
  have hsize : (h.enter label f span).2.tables.size = h.tables.size + 1 := by simp [enter_eq]
  have hold : ∀ {t : TableId}, h.HasTable t →
      (h.enter label f span).2.get? t name = h.get? t name := by
    intro t ht
    refine hh.self.get?_eq hnew.rooted (by omega) (fun u hu => ?_) ht name
    exact table_newTable_of_hasTable hu
  refine ⟨?_, fun {e} he ht => ?_⟩
  · have hself : (h.enter label f span).2.HasTable ⟨h.tables.size⟩ := by
      rw [HasTable, hsize]
      exact Nat.lt_succ_self _
    rw [lookup, frame_enter, hnew.rooted.get?_eq_or hself, table_enter, if_pos rfl]
    exact hold hf
  · have hframe : (h.enter label f span).2.frame e = h.frame e :=
      frame_addFrame_of_hasFrame (h := (h.newTable _ _).2) he
    rw [lookup, hframe]
    exact hold ht

end Heap

/-! ### Meanings -/

section

variable {h k l : Heap} {c f : FrameId} {m : String → Meaning} {name : String} {d : Definition}
  {p g : FunctionId}

theorem Heap.Carries.mono (hd : h.Carries k d g) (hframes : k.frames.size ≤ l.frames.size)
    (hfunctions : k.functions.size ≤ l.functions.size) (hsame : l.function g = k.function g) :
    h.Carries l d g := by
  obtain ⟨home, hhome, hdata⟩ := hd.data
  exact ⟨hd.new, Nat.lt_of_lt_of_le hd.hasFunction hfunctions, home,
    ⟨hhome.1, Nat.lt_of_lt_of_le hhome.2 hframes⟩, hsame.trans hdata⟩

theorem Heap.Carries.initialized (hd : h.Carries k d g) : (k.function g).initialized = true := by
  obtain ⟨_, _, hdata⟩ := hd.data
  rw [hdata]

/-- A name keeps its meaning if every frame sees for it what some frame saw, and functions are left
alone that are defined or have that name. -/
theorem Meaning.Holds.mono {meaning : Meaning} (hm : meaning.Holds h c k name)
    (hframes : k.frames.size ≤ l.frames.size) (hfunctions : k.functions.size ≤ l.functions.size)
    (hsame : ∀ {g}, k.HasFunction g →
      (k.function g).initialized = true ∨ (k.function g).name = name → l.function g = k.function g)
    (hsees : ∀ {f}, h.Since l f → ∃ e, h.Since k e ∧ l.lookup f name = k.lookup e name) :
    meaning.Holds h c l name := by
  cases meaning with
  | outer =>
      intro f hf
      obtain ⟨e, he, hlook⟩ := hsees hf
      exact hlook.trans (hm he)
  | pending =>
      obtain ⟨p, hp⟩ := hm
      have hfunction := hsame hp.hasFunction (.inr hp.name_eq)
      refine ⟨p, hp.new, Nat.lt_of_lt_of_le hp.hasFunction hfunctions, ?_, ?_, fun hf => ?_⟩
      · rw [hfunction]
        exact hp.initialized
      · rw [hfunction]
        exact hp.name_eq
      · obtain ⟨e, he, hlook⟩ := hsees hf
        exact hlook.trans (hp.lookup he)
  | defined d =>
      intro f hf
      obtain ⟨e, he, hlook⟩ := hsees hf
      obtain ⟨g, hg, hcarries⟩ := hm he
      exact ⟨g, hlook.trans hg, hcarries.mono hframes hfunctions
        (hsame hcarries.hasFunction (.inl hcarries.initialized))⟩

namespace Heap.Introduces

/-- A change of functions that were made since. -/
theorem of_functions {m' : String → Meaning} (hk : h.Introduces c m k)
    (hparts : l.tables = k.tables ∧ l.frames = k.frames)
    (hfunctions : k.functions.size ≤ l.functions.size)
    (hsame : ∀ {g}, h.HasFunction g → l.function g = k.function g)
    (hmeans : ∀ name, (m' name).Holds h c l name) : h.Introduces c m' l where
  after := hk.after.of_parent_eq (by rw [hparts.1]) (fun t => by rw [table_congr hparts.1]) hparts.2
  functions := Nat.le_trans hk.functions hfunctions
  table ht := (table_congr hparts.1 _).trans (hk.table ht)
  frame hf := (frame_congr hparts.2 _).trans (hk.frame hf)
  function hg := (hsame hg).trans (hk.function hg)
  since hf := by
    rw [Since, HasFrame, hparts.2] at hf
    rw [HasTable, hparts.1, frame_congr hparts.2]
    exact hk.since hf
  means := hmeans

theorem addFunction (hk : h.Introduces c m k) (data : Function) :
    h.Introduces c m (k.addFunction data) := by
  have hsame : ∀ {g}, k.HasFunction g → (k.addFunction data).function g = k.function g :=
    fun hg => function_addFunction_of_hasFunction hg
  refine hk.of_functions ⟨rfl, rfl⟩ (by simp) (fun hg => ?_) fun name => ?_
  · exact hsame (Nat.lt_of_lt_of_le hg hk.functions)
  · exact (hk.means name).mono (Nat.le_refl _) (by simp) (fun hg _ => hsame hg)
      fun hf => ⟨_, hf, lookup_congr ⟨tables_addFunction _, frames_addFunction _⟩ _ _⟩

/-- The placeholder of a name is filled. -/
theorem initializeFrom (hk : h.Introduces c m k) (hp : h.Awaits k d.name p) {u : FunctionId}
    {label : String} {home : FrameId} (hhome : h.Since k home)
    (hu : k.function u = ⟨label, d.params, d.body, home, d.autoReturn, true⟩) :
    h.Introduces c (Function.update m d.name (.defined d)) (k.initializeFrom p u) ∧
      h.Carries (k.initializeFrom p u) d p := by
  have hne : p ≠ u := by
    rintro rfl
    have hinit := hp.initialized
    rw [hu] at hinit
    cases hinit
  have hparts : (k.initializeFrom p u).tables = k.tables ∧
      (k.initializeFrom p u).frames = k.frames := ⟨by simp, by simp⟩
  have hsize : (k.initializeFrom p u).functions.size = k.functions.size := by simp
  have hsame : ∀ {g}, g ≠ p → (k.initializeFrom p u).function g = k.function g := by
    intro g hg
    rw [function_initializeFrom, if_neg fun hc => hg hc.1]
  have hsince : ∀ {f}, h.Since (k.initializeFrom p u) f → h.Since k f := by
    intro f hf
    rwa [Since, HasFrame, hparts.2] at hf
  have hcarries : h.Carries (k.initializeFrom p u) d p := by
    refine ⟨hp.new, ?_, home, ?_, ?_⟩
    · rw [HasFunction, hsize]
      exact hp.hasFunction
    · rw [Since, HasFrame, hparts.2]
      exact hhome
    · rw [function_initializeFrom, if_pos ⟨rfl, hne, hp.hasFunction⟩, hp.name_eq, hu]
  refine ⟨hk.of_functions hparts (Nat.le_of_eq hsize.symm) (fun hg => hsame ?_) fun name => ?_,
    hcarries⟩
  · rintro rfl
    exact Nat.not_lt.mpr hp.new hg
  · by_cases hname : name = d.name
    · subst hname
      rw [Function.update_self]
      intro f hf
      exact ⟨p, (lookup_congr hparts f _).trans (hp.lookup (hsince hf)), hcarries⟩
    · rw [Function.update_of_ne hname]
      refine (hk.means name).mono (Nat.le_of_eq (by rw [hparts.2])) (Nat.le_of_eq hsize.symm)
        (fun _ hg => hsame ?_) fun hf => ⟨_, hsince hf, lookup_congr hparts _ _⟩
      -- The placeholder is neither defined nor does it have another name.
      rintro rfl
      rcases hg with hinit | hother
      · exact Bool.false_ne_true (hp.initialized.symm.trans hinit)
      · exact hname (hother.symm.trans hp.name_eq)

/-- A name is bound in a frame made since. -/
theorem of_define {m' : String → Meaning} {v : Value} (hk : h.Introduces c m k)
    (hf : h.Since k f) (hmeans : ∀ other, (m' other).Holds h c (k.define f name v) other) :
    h.Introduces c m' (k.define f name v) := by
  obtain ⟨hhas, hnew⟩ := hk.since hf
  have hparent : ∀ t, ((k.define f name v).table t).parent = (k.table t).parent := by
    intro t
    rw [Heap.define, table_bind]
    split <;> rfl
  refine ⟨hk.after.of_parent_eq (by simp [Heap.define]) hparent rfl, hk.functions, fun {t} ht => ?_,
    hk.frame, hk.function, fun hf => ?_, hmeans⟩
  · rw [Heap.define, table_bind, if_neg]
    · exact hk.table ht
    · rintro ⟨rfl, -⟩
      exact Nat.not_lt.mpr hnew ht
  · have hold := hk.since hf
    refine ⟨?_, hold.2⟩
    rw [HasTable, Heap.define, tables_size_bind]
    exact hold.1

/-- Other names keep their meaning when a name is bound. -/
theorem means_define_of_ne {v : Value} {other : String} (hk : h.Introduces c m k)
    (hne : name ≠ other) : (m other).Holds h c (k.define f name v) other :=
  (hk.means other).mono (Nat.le_refl _) (Nat.le_refl _) (fun _ _ => rfl)
    fun {e} he => ⟨e, he, get?_bind_of_ne hne _⟩

/-- A copy of a function that is defined is bound under its name. -/
theorem define (hk : h.Introduces c m k) (hf : h.Since k f) (hm : m d.name = .defined d)
    (hg : h.Carries k d g) : h.Introduces c m (k.define f d.name (.function g)) := by
  refine hk.of_define hf fun name => ?_
  by_cases hname : d.name = name
  · subst hname
    have hmeans := hk.means d.name
    rw [hm] at hmeans ⊢
    intro e he
    rcases get?_bind_self (h := k) (v := .function g) (k.frame e).table with hnow | hsame
    · exact ⟨g, hnow, hg.mono (Nat.le_refl _) (Nat.le_refl _) rfl⟩
    · obtain ⟨u, hu, hcarries⟩ := hmeans he
      exact ⟨u, hsame.trans hu, hcarries.mono (Nat.le_refl _) (Nat.le_refl _) rfl⟩
  · exact hk.means_define_of_ne hname

/-- A frame is entered from one made since. -/
theorem enter (hk : h.Introduces c m k) (hf : h.Since k f) (label : String) (span : Span) :
    h.Introduces c m (k.enter label f span).2 ∧
      h.Since (k.enter label f span).2 (k.enter label f span).1 := by
  obtain ⟨hhas, hnew⟩ := hk.since hf
  have hsize : k.frames.size < (k.enter label f span).2.frames.size := by simp [enter_eq]
  have hself : h.Since (k.enter label f span).2 ⟨k.frames.size⟩ := ⟨hk.after.frames, hsize⟩
  have hframe : ∀ {e}, k.HasFrame e → (k.enter label f span).2.frame e = k.frame e :=
    fun he => frame_addFrame_of_hasFrame (h := (k.newTable _ _).2) he
  have hcases : ∀ {e}, h.Since (k.enter label f span).2 e → e = ⟨k.frames.size⟩ ∨ h.Since k e := by
    intro e he
    rcases Nat.lt_or_ge e.index k.frames.size with hlt | hge
    · exact .inr ⟨he.1, hlt⟩
    · have hle : e.index < k.frames.size + 1 := by simpa [enter_eq, HasFrame] using he.2
      exact .inl (FrameId.eq_of_index_eq (Nat.le_antisymm (Nat.le_of_lt_succ hle) hge))
  refine ⟨⟨?_, hk.functions, fun ht => ?_, fun he => ?_, hk.function, fun he => ?_, fun name => ?_⟩,
    hself⟩
  · have hparent : ∀ q, some (k.frame f).table = some q → k.HasTable q :=
      fun q hq => Option.some.inj hq ▸ hhas
    refine (hk.after.newTable hparent).addFrame fun p hp => ?_
    rw [← Option.some.inj hp]
    exact hf.2
  · rw [table_enter, if_neg]
    · exact hk.table ht
    · exact Nat.ne_of_lt (Nat.lt_of_lt_of_le ht hk.after.tables)
  · rw [hframe (Nat.lt_of_lt_of_le he hk.after.frames)]
    exact hk.frame he
  · rcases hcases he with rfl | hold
    · rw [frame_enter]
      refine ⟨?_, hk.after.tables⟩
      simp [enter_eq, HasTable]
    · rw [hframe hold.2]
      refine ⟨?_, (hk.since hold).2⟩
      have hlt : (k.frame _).table.index < k.tables.size := (hk.since hold).1
      simp only [enter_eq, HasTable, tables_addFrame, tables_size_newTable]
      exact Nat.lt_succ_of_lt hlt
  · obtain ⟨hnewLook, hold⟩ := hk.after.lookup_enter label hf.2 hhas span name
    refine (hk.means name).mono (Nat.le_of_lt hsize) (Nat.le_refl _) (fun _ _ => rfl)
      fun {e} he => ?_
    rcases hcases he with rfl | hsince
    · exact ⟨f, hf, hnewLook⟩
    · exact ⟨e, hsince, hold hsince.2 (hk.since hsince).1⟩

end Heap.Introduces

end

end CapsuleScript
