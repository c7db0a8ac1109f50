import CapsuleScript.Proofs.Fragment.Nodes
import CapsuleScript.Proofs.Heap.Bodies
import CapsuleScript.Proofs.Heap.Reach
import CapsuleScript.Proofs.Sealing.Operations

/-! Values and heaps of a fragment of the language. The empty value is nowhere in them, neither bound
to a name nor inside another value, and functions and objects are there only if the fragment has
them. Every operation on heaps keeps them so. -/

namespace CapsuleScript

open Heap

variable {L : Fragment}

namespace Value

mutual

/-- The value is of the fragment: neither it nor anything in it is the empty value. -/
def Belongs (L : Fragment) : Value → Prop
  | .number _ => True
  | .bool _ => True
  | .null => True
  | .text _ => True
  | .list elements => AllBelong L elements
  | .function _ => L.functions
  | .encap fields inherited _ _ =>
    L.objects ∧ EntriesBelong L fields ∧ EntriesBelong L inherited
  | .empty => False

/-- All values are so. -/
def AllBelong (L : Fragment) : List Value → Prop
  | [] => True
  | value :: rest => value.Belongs L ∧ AllBelong L rest

/-- All bound values are so. -/
def EntriesBelong (L : Fragment) : List (String × Value) → Prop
  | [] => True
  | (_, value) :: rest => value.Belongs L ∧ EntriesBelong L rest

end

theorem allBelong_iff {vs : List Value} : AllBelong L vs ↔ ∀ v ∈ vs, v.Belongs L := by
  induction vs with
  | nil => simp [AllBelong]
  | cons v rest ih => simp [AllBelong, ih]

theorem entriesBelong_iff {bs : Bindings Value} :
    EntriesBelong L bs ↔ ∀ e ∈ bs, e.2.Belongs L := by
  induction bs with
  | nil => simp [EntriesBelong]
  | cons e rest ih =>
      obtain ⟨name, v⟩ := e
      simp [EntriesBelong, ih]

variable {v : Value} {c : Capsule}

theorem Belongs.ne_empty (hv : v.Belongs L) : v ≠ .empty := by
  rintro rfl
  exact hv

theorem IsPlain.belongs (hv : v.IsPlain) : v.Belongs L := by
  cases v with
  | number | bool | text => trivial
  | _ => exact hv.elim

theorem Belongs.list {vs : List Value} (hvs : ∀ v ∈ vs, v.Belongs L) :
    (Value.list vs).Belongs L :=
  allBelong_iff.mpr hvs

theorem Belongs.elements {vs : List Value} (hv : (Value.list vs).Belongs L) :
    ∀ v ∈ vs, v.Belongs L :=
  allBelong_iff.mp hv

theorem Belongs.of_capsule? (hv : v.Belongs L) (hc : v.capsule? = some c) :
    c.toValue.Belongs L := by
  cases v <;> cases hc
  exact hv

theorem Belongs.members (hc : c.toValue.Belongs L) : ∀ e ∈ c.members, e.2.Belongs L := by
  intro e he
  rcases Bindings.mem_of_mem_override he with hmem | hmem
  · exact entriesBelong_iff.mp hc.2.2 e hmem
  · exact entriesBelong_iff.mp hc.2.1 e hmem

theorem Belongs.field? (hc : c.toValue.Belongs L) {name : String} (hv : c.field? name = some v) :
    v.Belongs L := by
  rcases Option.or_eq_some_iff.mp hv with hown | ⟨-, hget⟩
  · exact entriesBelong_iff.mp hc.2.1 _ (Bindings.mem_of_get? hown)
  · exact entriesBelong_iff.mp hc.2.2 _ (Bindings.mem_of_get? hget)

end Value

/-- Everything that is bound, and every body of a function, is of the fragment. -/
structure Heap.Belongs (L : Fragment) (h : Heap) : Prop where
  bindings : ∀ t, ∀ e ∈ (h.table t).bindings, e.2.Belongs L
  bodies : h.Bodies (Node.Belongs L)

namespace Heap.Belongs

variable {h k : Heap} {f : FrameId} {t : TableId} {v : Value} {name : String} {bs : Bindings Value}

theorem lookup (hh : h.Belongs L) (hv : h.lookup f name = some v) : v.Belongs L := by
  rw [Heap.lookup, get?_eq_findSome?] at hv
  obtain ⟨t, -, ht⟩ := List.exists_of_findSome?_eq_some hv
  exact hh.bindings t _ (Bindings.mem_of_get? ht)

theorem builtins {e : String × Value} (he : e ∈ Heap.builtins) : e.2.Belongs L := by
  simp only [Heap.builtins, List.mem_cons, List.not_mem_nil, or_false] at he
  rcases he with rfl | rfl | rfl <;> trivial

/-! ### Operations -/

/-- A change in which every table binds what it bound, or values of the fragment. -/
theorem of_tables (hh : h.Belongs L) (hfunctions : k.functions = h.functions)
    (htable : ∀ t, (k.table t).bindings = (h.table t).bindings ∨
      ∀ e ∈ (k.table t).bindings, e.2.Belongs L) : k.Belongs L := by
  refine ⟨fun t e he => ?_, hh.bodies.of_functions hfunctions⟩
  rcases htable t with hsame | hnew
  · rw [hsame] at he
    exact hh.bindings t e he
  · exact hnew e he

theorem newTable (hh : h.Belongs L) (p : Option TableId) (hbs : ∀ e ∈ bs, e.2.Belongs L) :
    (h.newTable p bs).2.Belongs L := by
  refine hh.of_tables rfl fun t => ?_
  rw [table_newTable]
  split
  · exact .inr hbs
  · exact .inl rfl

theorem addFrame (hh : h.Belongs L) (frame : Frame) : (h.addFrame frame).Belongs L :=
  hh.of_tables rfl fun _ => .inl rfl

theorem enter (hh : h.Belongs L) (label : String) (f : FrameId) (span : Span) :
    (h.enter label f span).2.Belongs L := by
  rw [enter_eq]
  exact (hh.newTable _ (by simp)).addFrame _

theorem define (hh : h.Belongs L) (f : FrameId) (name : String) (hv : v.Belongs L) :
    (h.define f name v).Belongs L := by
  refine hh.of_tables rfl fun t => ?_
  rw [Heap.define, table_bind]
  split
  · refine .inr fun e he => ?_
    rcases Bindings.mem_of_mem_insert he with hold | rfl
    · exact hh.bindings t e hold
    · exact hv
  · exact .inl rfl

theorem setParent (hh : h.Belongs L) (t : TableId) (p : Option TableId) :
    (h.setParent t p).Belongs L := by
  refine hh.of_tables rfl fun u => .inl ?_
  rw [table_setParent]
  split <;> rfl

theorem of_functions (hh : h.Belongs L) (htables : k.tables = h.tables)
    (hbodies : k.Bodies (Node.Belongs L)) : k.Belongs L :=
  ⟨fun t e he => hh.bindings t e (by rwa [table_congr htables] at he), hbodies⟩

theorem addFunction (hh : h.Belongs L) {data : Function} (hbody : data.body.Belongs L) :
    (h.addFunction data).Belongs L :=
  hh.of_functions rfl (hh.bodies.addFunction hbody)

theorem initializeFrom (hh : h.Belongs L) (g source : FunctionId) :
    (h.initializeFrom g source).Belongs L :=
  hh.of_functions (by simp) (hh.bodies.initializeFrom g source)

mutual

theorem rehome_value (f : FrameId) : (v : Value) → {h : Heap} → v.Belongs L →
    (Heap.rehome f v h).1.Belongs L
  | .function g, h, hv => by
      rw [Heap.rehome]
      split <;> exact hv
  | .list elements, h, hv => rehome_values f elements hv
  | .number _, _, hv | .bool _, _, hv | .null, _, hv | .text _, _, hv | .encap .., _, hv
  | .empty, _, hv => hv

theorem rehome_values (f : FrameId) : (vs : List Value) → {h : Heap} → Value.AllBelong L vs →
    Value.AllBelong L (Heap.rehomeAll f vs h).1
  | [], _, _ => trivial
  | v :: rest, _, hvs => ⟨rehome_value f v hvs.1, rehome_values f rest hvs.2⟩

end

theorem rehome (hh : h.Belongs L) (f : FrameId) (v : Value) :
    (Heap.rehome f v h).2.Belongs L :=
  hh.of_functions (rehome_parts f v h).1 (hh.bodies.rehome f v)

theorem splice (hh : h.Belongs L) (t link : TableId) : (h.splice t link).2.Belongs L := by
  by_cases hmem : t ∈ h.chain link
  · rw [splice_of_mem hmem]
    exact hh
  · rw [splice_of_not_mem hmem]
    exact hh.setParent _ _

theorem cut (hh : h.Belongs L) (around t : TableId) : (Evaluation.cut h around t).Belongs L := by
  unfold Evaluation.cut
  split
  · exact (hh.newTable none fun _ => builtins).setParent _ _
  · exact hh

theorem callFrame (hh : h.Belongs L) (callee : Function) {arguments : List Value}
    (harguments : ∀ v ∈ arguments, v.Belongs L) (span : Span) :
    (Evaluation.callFrame callee arguments span h).2.Belongs L := by
  rw [callFrame_eq]
  refine (hh.newTable _ fun e he => ?_).addFrame _
  rcases Bindings.mem_of_mem_override he with hmem | hmem
  · cases hmem
  · exact harguments _ (List.of_mem_zip hmem).2

theorem objectScope (hh : h.Belongs L) (span : Span) (typeName : Option String) (strict : Bool)
    (body : FrameId) (hbs : ∀ e ∈ bs, e.2.Belongs L) :
    (Evaluation.objectScope span typeName strict body bs h).2.Belongs L := by
  have htable := hh.newTable (some (h.frame body).table) hbs
  cases strict <;> exact htable.addFrame _

/-- The fields of an object are what its body has bound. -/
theorem fields (hh : h.Belongs L) (frames : List FrameId) :
    ∀ e ∈ Evaluation.fields h frames, e.2.Belongs L := by
  have hfold : ∀ (frames : List FrameId) (bs : Bindings Value), (∀ e ∈ bs, e.2.Belongs L) →
      ∀ e ∈ frames.foldl (fun bound f =>
        Bindings.override bound (h.table (h.frame f).table).bindings) bs, e.2.Belongs L := by
    intro frames
    induction frames with
    | nil => exact fun _ hbs => hbs
    | cons f rest ih =>
        refine fun bs hbs => ih _ fun e he => ?_
        rcases Bindings.mem_of_mem_override he with hmem | hmem
        · exact hbs e hmem
        · exact hh.bindings _ e hmem
  exact hfold _ _ (by simp)

theorem merge (hh : h.Belongs L) {c d : Capsule} (hc : c.toValue.Belongs L)
    (hd : d.toValue.Belongs L) (entry : Span) :
    (c.merge d entry h).2.Belongs L ∧ (c.merge d entry h).1.toValue.Belongs L := by
  have hmembers : ∀ e ∈ c.mergedMembers d, e.2.Belongs L := by
    intro e he
    rcases Bindings.mem_of_mem_override he with hmem | hmem
    · exact hc.members e hmem
    · exact hd.members e hmem
  exact ⟨(hh.newTable _ hmembers).addFrame _, hc.1, Value.entriesBelong_iff.mpr hmembers, trivial⟩

theorem collect (hh : h.Belongs L) (c : FrameId) : (h.collect c).Belongs L := by
  refine hh.of_tables functions_collect fun t => ?_
  rcases table_collect_or (h := h) (c := c) t with hclear | hsame
  · rw [hclear]
    exact .inr (by simp)
  · rw [hsame]
    exact .inl rfl

end Heap.Belongs

end CapsuleScript
