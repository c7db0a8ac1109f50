import CapsuleScript.Proofs.Evaluation.Operations

/-! What is written once. A table gets new names only after those it has, and keeps what it binds
them to, except that a placeholder may give way to a function; a function keeps its name, and once it
is defined all of it. This holds on any heap, also on one that mentions things that have not been
made, for each change that an evaluation makes. -/

namespace CapsuleScript.Heap

variable {h k : Heap}

/-- What may come in place of the bound value `v`: the value itself, or a function if it is a
placeholder. -/
def Replaces (h : Heap) (v w : Value) : Prop :=
  w = v ∨ ∃ g copy, v = .function g ∧ (h.function g).initialized = false ∧ w = .function copy

/-- Everything that was made in `h` is still there in `k`, as it was written. -/
structure WriteOnce (h k : Heap) : Prop where
  tables : h.tables.size ≤ k.tables.size
  functions : h.functions.size ≤ k.functions.size
  names : ∀ {t}, h.HasTable t → (h.table t).bindings.names <+: (k.table t).bindings.names
  bound : ∀ {t name v}, h.HasTable t → (h.table t).bindings.get? name = some v →
    ∃ w, (k.table t).bindings.get? name = some w ∧ h.Replaces v w
  name : ∀ {g}, h.HasFunction g → (k.function g).name = (h.function g).name
  defined : ∀ {g}, h.HasFunction g → (h.function g).initialized → k.function g = h.function g

theorem initialized_of_not_hasFunction {g : FunctionId} (hg : ¬ h.HasFunction g) :
    (h.function g).initialized = false := by
  have hlt : ¬ g.index < h.functions.size := hg
  simp [function, Array.getD_eq_getD_getElem?, hlt]
  rfl

/-- A name means what the table itself binds it to. -/
theorem get?_of_bindings {t : TableId} {name : String} {v : Value}
    (hv : (h.table t).bindings.get? name = some v) : h.get? t name = some v := by
  have ht : h.HasTable t := by
    by_contra hnot
    rw [table_of_not_hasTable hnot] at hv
    cases hv
  obtain ⟨rest, hsize⟩ := Nat.exists_eq_add_of_lt ht
  rw [get?, hsize, lookupFrom, hv]

namespace WriteOnce

/-- What is a placeholder has always been one. -/
theorem placeholder (hk : WriteOnce h k) {g : FunctionId}
    (hg : (k.function g).initialized = false) : (h.function g).initialized = false := by
  by_cases hhas : h.HasFunction g
  · cases hinit : (h.function g).initialized with
    | false => rfl
    | true =>
        rw [hk.defined hhas hinit, hinit] at hg
        cases hg
  · exact initialized_of_not_hasFunction hhas

theorem refl (h : Heap) : WriteOnce h h where
  tables := Nat.le_refl _
  functions := Nat.le_refl _
  names _ := List.prefix_refl _
  bound _ hv := ⟨_, hv, .inl rfl⟩
  name _ := rfl
  defined _ _ := rfl

theorem trans {l : Heap} (hk : WriteOnce h k) (hl : WriteOnce k l) : WriteOnce h l where
  tables := Nat.le_trans hk.tables hl.tables
  functions := Nat.le_trans hk.functions hl.functions
  names ht := (hk.names ht).trans (hl.names (Nat.lt_of_lt_of_le ht hk.tables))
  bound := by
    intro t name v ht hv
    obtain ⟨w, hw, hvw⟩ := hk.bound ht hv
    obtain ⟨x, hx, hwx⟩ := hl.bound (Nat.lt_of_lt_of_le ht hk.tables) hw
    refine ⟨x, hx, ?_⟩
    rcases hvw with rfl | ⟨g, copy, hg, hinit, rfl⟩
    · rcases hwx with rfl | ⟨g, copy, hg, hinit, rfl⟩
      · exact .inl rfl
      · exact .inr ⟨g, copy, hg, hk.placeholder hinit, rfl⟩
    · rcases hwx with rfl | ⟨_, copy', _, _, rfl⟩
      · exact .inr ⟨g, copy, hg, hinit, rfl⟩
      · exact .inr ⟨g, copy', hg, hinit, rfl⟩
  name hg := (hl.name (Nat.lt_of_lt_of_le hg hk.functions)).trans (hk.name hg)
  defined hg hinit := by
    have hkept := hk.defined hg hinit
    rw [hl.defined (Nat.lt_of_lt_of_le hg hk.functions) (by rw [hkept]; exact hinit), hkept]

/-! ### Changes that bind nothing -/

/-- A change after which the tables that were there bind what they bound. -/
theorem of_bindings (hsize : h.tables.size ≤ k.tables.size)
    (hbindings : ∀ {t}, h.HasTable t → (k.table t).bindings = (h.table t).bindings)
    (hfunctions : k.functions = h.functions) : WriteOnce h k where
  tables := hsize
  functions := Nat.le_of_eq (by rw [hfunctions])
  names ht := by simp only [hbindings ht, List.prefix_refl]
  bound ht hv := ⟨_, by rw [hbindings ht, hv], .inl rfl⟩
  name _ := by rw [function_congr hfunctions]
  defined _ _ := function_congr hfunctions _

theorem newTable (p : Option TableId) (bs : Bindings Value) : WriteOnce h (h.newTable p bs).2 :=
  of_bindings (by simp) (fun ht => by rw [table_newTable_of_hasTable ht]) rfl

theorem setParent (t : TableId) (p : Option TableId) : WriteOnce h (h.setParent t p) := by
  refine of_bindings (by simp) (fun _ => ?_) rfl
  rw [table_setParent]
  split <;> rfl

theorem addFrame (frame : Frame) : WriteOnce h (h.addFrame frame) :=
  of_bindings (Nat.le_refl _) (fun _ => rfl) rfl

/-- A new table and a frame with it or with another. -/
theorem opened (p : Option TableId) (bs : Bindings Value) (frame : Frame) :
    WriteOnce h ((h.newTable p bs).2.addFrame frame) :=
  (newTable p bs).trans (addFrame frame)

theorem splice (t link : TableId) : WriteOnce h (h.splice t link).2 := by
  by_cases hmem : t ∈ h.chain link
  · rw [splice_of_mem hmem]
    exact refl h
  · rw [splice_of_not_mem hmem]
    exact setParent _ _

theorem cut (around t : TableId) : WriteOnce h (Evaluation.cut h around t) := by
  unfold Evaluation.cut
  split
  · exact (newTable none builtins).trans (setParent _ _)
  · exact refl h

/-! ### Functions -/

/-- A change to functions that are not defined. -/
theorem of_functions (htables : k.tables = h.tables)
    (hsize : h.functions.size ≤ k.functions.size)
    (hname : ∀ {g}, h.HasFunction g → (k.function g).name = (h.function g).name)
    (hdefined : ∀ {g}, h.HasFunction g → (h.function g).initialized →
      k.function g = h.function g) : WriteOnce h k where
  tables := Nat.le_of_eq (by rw [htables])
  functions := hsize
  names _ := by simp only [table_congr htables, List.prefix_refl]
  bound _ hv := ⟨_, by rw [table_congr htables, hv], .inl rfl⟩
  name := hname
  defined := hdefined

theorem addFunction (data : Function) : WriteOnce h (h.addFunction data) :=
  of_functions rfl (by simp) (fun hg => by rw [function_addFunction_of_hasFunction hg])
    fun hg _ => function_addFunction_of_hasFunction hg

theorem initializeFrom {g : FunctionId} (hinit : (h.function g).initialized = false)
    (source : FunctionId) : WriteOnce h (h.initializeFrom g source) := by
  refine of_functions (by simp) (by simp) (fun {u} _ => ?_) (fun {u} _ hdefined => ?_)
  · rw [function_initializeFrom]
    split <;> rfl
  · rw [function_initializeFrom, if_neg]
    rintro ⟨rfl, -⟩
    rw [hinit] at hdefined
    cases hdefined

mutual

/-- Keeping a value in a frame only makes functions. -/
theorem rehome (f : FrameId) : (v : Value) → (h : Heap) → WriteOnce h (Heap.rehome f v h).2
  | .function g, h => by
      rw [Heap.rehome]
      split
      · exact addFunction _
      · exact refl h
  | .list elements, h => rehomeAll f elements h
  | .number _, h | .bool _, h | .null, h | .text _, h | .encap .., h | .empty, h => refl h

theorem rehomeAll (f : FrameId) : (values : List Value) → (h : Heap) →
    WriteOnce h (Heap.rehomeAll f values h).2
  | [], h => refl h
  | v :: rest, h => (rehome f v h).trans (rehomeAll f rest (Heap.rehome f v h).2)

end

/-! ### Bindings -/

/-- A name is bound on a heap that differs from `h` in its functions: what the table bound it to in
`h` is replaced only where it may be. -/
theorem bind_of_replaces {l : Heap} (hl : WriteOnce h l) (htables : l.tables = h.tables)
    {t : TableId} {name : String} {v : Value}
    (hold : ∀ w, (h.table t).bindings.get? name = some w → h.Replaces w v) :
    WriteOnce h (l.bind t name v) where
  tables := Nat.le_of_eq (by rw [tables_size_bind, htables])
  functions := hl.functions
  names := by
    intro u _
    rw [table_bind, table_congr htables]
    split
    · exact Bindings.names_prefix_insert _ _ _
    · exact List.prefix_refl _
  bound := by
    intro u other w _ hw
    rw [table_bind, table_congr htables]
    split
    · rename_i hut
      obtain ⟨rfl, -⟩ := hut
      by_cases hname : name = other
      · subst hname
        exact ⟨v, Bindings.get?_insert_self _ _ _, hold w hw⟩
      · refine ⟨w, ?_, .inl rfl⟩
        exact (Bindings.get?_insert_of_ne _ _ hname).trans hw
    · exact ⟨w, hw, .inl rfl⟩
  name := hl.name
  defined := hl.defined

/-- A name is bound that the table does not bind. -/
theorem bind {t : TableId} {name : String} (hnone : (h.table t).bindings.get? name = none)
    (v : Value) : WriteOnce h (h.bind t name v) := by
  refine bind_of_replaces (refl h) rfl fun w hw => ?_
  rw [hnone] at hw
  cases hw

/-- A function comes in place of the placeholder that its name means in the frame `f`. -/
theorem bind_of_placeholder? {l : Heap} (hl : WriteOnce h l) (htables : l.tables = h.tables)
    {f : FrameId} {name : String} {g : FunctionId} (hg : h.placeholder? f name = some g)
    (copy : FunctionId) : WriteOnce h (l.bind (h.frame f).table name (.function copy)) := by
  obtain ⟨hlook, hinit⟩ := placeholder?_eq_some.mp hg
  refine bind_of_replaces hl htables fun w hw => ?_
  have hmeans : h.lookup f name = some w := get?_of_bindings hw
  rw [hlook] at hmeans
  cases hmeans
  exact .inr ⟨g, copy, rfl, hinit, rfl⟩

end WriteOnce

end CapsuleScript.Heap
