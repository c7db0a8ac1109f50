import CapsuleScript.Proofs.Heap.Marking
import CapsuleScript.Proofs.Session.Members
import Mathlib

/-! Equality of values. What the comparison computes is compared with a relation that says when two
values are the same: texts with the same characters, values that count as the same number, lists
with the same elements at the same places, and objects whose members have the same names and values,
in any order. Main statement: the comparison is symmetric and transitive, a value is equal to itself
exactly if nothing in it is a function, an undefined number or the value of an empty program, and
the two operators succeed for the same operands and give its result and the opposite. -/

namespace CapsuleScript

/-! ### Names that are bound once -/

namespace Bindings

variable {α : Type} {bs cs : Bindings α} {name : String} {a : α}

theorem Distinct.get?_of_mem (hbs : bs.Distinct) (hmem : (name, a) ∈ bs) :
    bs.get? name = some a := by
  induction bs with
  | nil => cases hmem
  | cons entry rest ih =>
      obtain ⟨key, b⟩ := entry
      obtain ⟨hkey, hrest⟩ := List.nodup_cons.mp hbs
      rcases List.mem_cons.mp hmem with heq | hmem
      · cases heq
        exact if_pos rfl
      · have hne : key ≠ name := by
          rintro rfl
          exact hkey (List.mem_map.mpr ⟨_, hmem, rfl⟩)
        rw [get?, if_neg hne, ih hrest hmem]

theorem mem_names_iff : name ∈ bs.names ↔ ∃ a, bs.get? name = some a := by
  rw [← Option.ne_none_iff_exists', ne_eq, get?_eq_none_iff, not_not]

theorem exists_get?_of_names (hnames : ∀ name, name ∈ bs.names ↔ name ∈ cs.names)
    (ha : bs.get? name = some a) : ∃ b, cs.get? name = some b :=
  mem_names_iff.mp ((hnames name).mp (mem_names_iff.mpr ⟨a, ha⟩))

/-- Of two rows of bindings of the same length, the one has all names of the other if the other has
all of its names. -/
theorem Distinct.mem_names_of_length (hbs : bs.Distinct) (hlength : bs.length = cs.length)
    (hsub : bs.names ⊆ cs.names) (hname : name ∈ cs.names) : name ∈ bs.names := by
  have hle : cs.names.length ≤ bs.names.length := by simp [names, hlength]
  exact ((List.subperm_of_subset hbs hsub).perm_of_length_le hle).mem_iff.mpr hname

theorem Distinct.length_eq (hbs : bs.Distinct) (hcs : cs.Distinct)
    (hnames : ∀ name, name ∈ bs.names ↔ name ∈ cs.names) : bs.length = cs.length := by
  have hperm : bs.names.Perm cs.names := (List.perm_ext_iff_of_nodup hbs hcs).mpr hnames
  simpa [names] using hperm.length_eq

end Bindings

/-- Each name is bound once, both among the fields of the object and among what it inherits. -/
def Capsule.Distinct (c : Capsule) : Prop := c.fields.Distinct ∧ c.inherited.Distinct

theorem Capsule.Distinct.members {c : Capsule} (hc : c.Distinct) : c.members.Distinct :=
  hc.2.override _

theorem Capsule.eq_of_toValue_eq {c d : Capsule} (h : c.toValue = d.toValue) : c = d :=
  Option.some.inj (congrArg Value.capsule? h)

namespace Value

/-- Every object in the value binds each name once. -/
abbrev Keyed (v : Value) : Prop := v.Objects Capsule.Distinct

variable {a b c v w : Value} {xs ys : List Value} {d e : Capsule} {name : String}

/-- To show something of every value, one may take it for granted of its parts. -/
theorem parts_induction {P : Value → Prop} (hstep : ∀ v, (∀ w ∈ v.parts, P w) → P v)
    (v : Value) : P v :=
  hstep v fun w hw =>
    have := sizeOf_lt_of_mem_parts hw
    parts_induction hstep w
termination_by sizeOf v

theorem mem_parts_of_mem_members (hw : (name, w) ∈ d.members) : w ∈ d.toValue.parts := by
  rcases Bindings.mem_of_mem_override hw with hmem | hmem
  · exact List.mem_append_right _ (List.mem_map_of_mem hmem)
  · exact List.mem_append_left _ (List.mem_map_of_mem hmem)

theorem Keyed.of_mem_parts (hv : v.Keyed) (hw : w ∈ v.parts) : w.Keyed := by
  cases v with
  | list => exact allObjects_iff.mp hv w hw
  | encap =>
      rcases List.mem_append.mp hw with hw | hw
      · obtain ⟨entry, hentry, rfl⟩ := List.mem_map.mp hw
        exact entriesObjects_iff.mp hv.2.1 entry hentry
      · obtain ⟨entry, hentry, rfl⟩ := List.mem_map.mp hw
        exact entriesObjects_iff.mp hv.2.2 entry hentry
  | _ => cases hw

theorem Keyed.of_getElem? (hv : (Value.list xs).Keyed) {i : Nat} (hw : xs[i]? = some w) :
    w.Keyed :=
  hv.of_mem_parts (List.mem_of_getElem? hw)

theorem Keyed.of_get? (hd : d.toValue.Keyed) (hw : d.members.get? name = some w) : w.Keyed :=
  hd.of_mem_parts (mem_parts_of_mem_members (Bindings.mem_of_get? hw))

/-! ### Values that are the same -/

/-- The two values are the same: in the way that texts, numbers, lists or objects are. -/
inductive Same : Value → Value → Prop where
  | text (s : String) : Same (.text s) (.text s)
  | number {a b : Value} {x y : Float} : a.number? = some x → b.number? = some y →
      (x == y) = true → Same a b
  | list {xs ys : List Value} : xs.length = ys.length →
      (∀ (i : Nat) x y, xs[i]? = some x → ys[i]? = some y → Same x y) → Same (.list xs) (.list ys)
  | capsule {d e : Capsule} : (∀ name, name ∈ d.members.names ↔ name ∈ e.members.names) →
      (∀ name v w, d.members.get? name = some v → e.members.get? name = some w → Same v w) →
      Same d.toValue e.toValue

theorem Same.symm (h : Same a b) : Same b a := by
  induction h with
  | text s => exact .text s
  | number ha hb hxy => exact .number hb ha (BEq.symm hxy)
  | list hlength _ ih => exact .list hlength.symm fun i x y hx hy => ih i y x hy hx
  | capsule hnames _ ih =>
      exact .capsule (fun name => (hnames name).symm) fun name v w hv hw => ih name w v hw hv

theorem Same.of_number? {x : Float} (h : Same a b) (ha : a.number? = some x) :
    ∃ y, b.number? = some y ∧ (x == y) = true := by
  cases h with
  | text => cases ha
  | number ha' hb hxy =>
      cases ha.symm.trans ha'
      exact ⟨_, hb, hxy⟩
  | list => cases ha
  | capsule => cases ha

theorem Same.of_list (h : Same (.list xs) b) : ∃ ys, b = .list ys ∧ xs.length = ys.length ∧
    ∀ (i : Nat) x y, xs[i]? = some x → ys[i]? = some y → Same x y := by
  generalize ha : Value.list xs = a at h
  cases h with
  | text => cases ha
  | number hx =>
      subst ha
      cases hx
  | list hlength h =>
      cases ha
      exact ⟨_, rfl, hlength, h⟩
  | capsule => cases ha

theorem Same.of_toValue (h : Same d.toValue b) : ∃ e : Capsule, b = e.toValue ∧
    (∀ name, name ∈ d.members.names ↔ name ∈ e.members.names) ∧
    ∀ name v w, d.members.get? name = some v → e.members.get? name = some w → Same v w := by
  generalize ha : d.toValue = a at h
  cases h with
  | text => cases ha
  | number hx =>
      subst ha
      cases hx
  | list => cases ha
  | capsule hnames h =>
      obtain rfl := Capsule.eq_of_toValue_eq ha
      exact ⟨_, rfl, hnames, h⟩

theorem Same.trans (hab : Same a b) (hbc : Same b c) : Same a c := by
  induction hab generalizing c with
  | text s => exact hbc
  | number ha hb hxy =>
      obtain ⟨z, hc, hyz⟩ := hbc.of_number? hb
      exact .number ha hc (BEq.trans hxy hyz)
  | @list xs ys hlength _ ih =>
      obtain ⟨zs, rfl, hlength', h⟩ := hbc.of_list
      refine .list (hlength.trans hlength') fun i x z hx hz => ?_
      obtain ⟨hi, -⟩ := List.getElem?_eq_some_iff.mp hx
      have hy := List.getElem?_eq_getElem (Nat.lt_of_lt_of_eq hi hlength)
      exact ih i x _ hx hy (h i _ z hy hz)
  | capsule hnames _ ih =>
      obtain ⟨e, rfl, hnames', h⟩ := hbc.of_toValue
      refine .capsule (fun name => (hnames name).trans (hnames' name)) fun name v w hv hw => ?_
      obtain ⟨u, hu⟩ := Bindings.exists_get?_of_names hnames hv
      exact ih name v u hv hu (h name u w hu hw)

/-! ### What the comparison computes -/

theorem equalAll_iff : equalAll xs ys = true ↔ xs.length = ys.length ∧
    ∀ (i : Nat) x y, xs[i]? = some x → ys[i]? = some y → x.equal y = true := by
  induction xs generalizing ys with
  | nil => cases ys <;> simp [equalAll]
  | cons x xs ih =>
      cases ys with
      | nil => simp [equalAll]
      | cons y ys =>
          rw [equalAll, Bool.and_eq_true, ih, List.length_cons, List.length_cons, Nat.succ_inj]
          constructor
          · rintro ⟨hhead, hlength, htail⟩
            refine ⟨hlength, fun i v w hv hw => ?_⟩
            cases i with
            | zero =>
                cases hv
                cases hw
                exact hhead
            | succ i => exact htail i v w hv hw
          · rintro ⟨hlength, h⟩
            exact ⟨h 0 x y rfl rfl, hlength, fun i v w hv hw => h (i + 1) v w hv hw⟩

theorem matched_iff {hidden : List String} {members entries : Bindings Value} :
    matched hidden members entries = true ↔ ∀ entry ∈ entries, entry.1 ∈ hidden ∨
      ∃ other, members.get? entry.1 = some other ∧ entry.2.equal other = true := by
  induction entries with
  | nil => simp [matched]
  | cons entry rest ih =>
      obtain ⟨name, v⟩ := entry
      rw [matched, Bool.and_eq_true, ih, List.forall_mem_cons, Bool.or_eq_true,
        List.contains_iff_mem]
      cases members.get? name <;> simp

/-- Objects are compared by size, and member by member. -/
theorem equal_toValue_iff (hd : d.Distinct) : d.toValue.equal e.toValue = true ↔
    d.members.length = e.members.length ∧ ∀ name v, d.members.get? name = some v →
      ∃ w, e.members.get? name = some w ∧ v.equal w = true := by
  have hequal : d.toValue.equal e.toValue = (d.members.length == e.members.length &&
      matched [] e.members d.fields && matched d.fields.names e.members d.inherited) := rfl
  rw [hequal, Bool.and_eq_true, Bool.and_eq_true, beq_iff_eq, matched_iff, matched_iff, and_assoc]
  have hmember : ∀ name, d.members.get? name = (d.fields.get? name).or (d.inherited.get? name) :=
    Bindings.get?_override hd.1 d.inherited
  refine and_congr_right fun _ => ⟨?_, fun h => ⟨?_, ?_⟩⟩
  · rintro ⟨hfields, hinherited⟩ name v hv
    rw [hmember, Option.or_eq_some_iff] at hv
    rcases hv with hown | ⟨hnone, hgiven⟩
    · exact (hfields _ (Bindings.mem_of_get? hown)).resolve_left (List.not_mem_nil)
    · exact (hinherited _ (Bindings.mem_of_get? hgiven)).resolve_left
        (Bindings.get?_eq_none_iff.mp hnone)
  · rintro ⟨name, v⟩ hentry
    refine .inr (h name v ?_)
    rw [hmember, hd.1.get?_of_mem hentry, Option.some_or]
  · rintro ⟨name, v⟩ hentry
    by_cases hown : name ∈ d.fields.names
    · exact .inl hown
    · refine .inr (h name v ?_)
      rw [hmember, Bindings.get?_eq_none_iff.mpr hown, Option.none_or, hd.2.get?_of_mem hentry]

theorem equal_of_number? {x : Float} (ha : a.number? = some x) :
    a.equal b = b.number?.elim false (x == ·) := by
  cases a <;> cases ha <;> cases b <;> rfl

/-- The ways in which two values can be equal. -/
theorem equal_cases (h : a.equal b = true) : (∃ s, a = .text s ∧ b = .text s) ∨
    (∃ x y, a.number? = some x ∧ b.number? = some y ∧ (x == y) = true) ∨
    (∃ xs ys, a = .list xs ∧ b = .list ys) ∨ ∃ d e : Capsule, a = d.toValue ∧ b = e.toValue := by
  have hnumber : ∀ x, a.number? = some x →
      ∃ x y, a.number? = some x ∧ b.number? = some y ∧ (x == y) = true := by
    intro x ha
    rw [equal_of_number? ha] at h
    cases hb : b.number? with
    | none => simp [hb] at h
    | some y => exact ⟨x, y, ha, rfl, by simpa [hb] using h⟩
  cases a with
  | number x => exact .inr (.inl (hnumber x rfl))
  | bool c => exact .inr (.inl (hnumber _ rfl))
  | null => exact .inr (.inl (hnumber _ rfl))
  | text s =>
      cases b with
      | text t =>
          obtain rfl : s = t := beq_iff_eq.mp h
          exact .inl ⟨s, rfl, rfl⟩
      | _ => cases h
  | list xs =>
      cases b with
      | list ys => exact .inr (.inr (.inl ⟨xs, ys, rfl, rfl⟩))
      | _ => cases h
  | encap fields inherited types scope =>
      cases b with
      | encap fields' inherited' types' scope' =>
          exact .inr (.inr (.inr ⟨⟨fields, inherited, types, scope⟩,
            ⟨fields', inherited', types', scope'⟩, rfl, rfl⟩))
      | _ => cases h
  | function => cases b <;> cases h
  | empty => cases b <;> cases h

theorem same_of_equal (ha : a.Keyed) (hb : b.Keyed) (h : a.equal b = true) : Same a b := by
  induction a using parts_induction generalizing b with
  | hstep a ih =>
  rcases equal_cases h with
    ⟨s, rfl, rfl⟩ | ⟨x, y, hx, hy, hxy⟩ | ⟨xs, ys, rfl, rfl⟩ | ⟨d, e, rfl, rfl⟩
  · exact .text s
  · exact .number hx hy hxy
  · obtain ⟨hlength, hall⟩ := equalAll_iff.mp h
    exact .list hlength fun i x y hx hy => ih x (List.mem_of_getElem? hx) (ha.of_getElem? hx)
      (hb.of_getElem? hy) (hall i x y hx hy)
  · obtain ⟨hlength, hall⟩ := (equal_toValue_iff ha.1).mp h
    have hsub : d.members.names ⊆ e.members.names := by
      intro name hname
      obtain ⟨v, hv⟩ := Bindings.mem_names_iff.mp hname
      obtain ⟨w, hw, -⟩ := hall name v hv
      exact Bindings.mem_names_iff.mpr ⟨w, hw⟩
    refine .capsule (fun name => ⟨fun hname => hsub hname, fun hname =>
      ha.1.members.mem_names_of_length hlength hsub hname⟩) fun name v w hv hw => ?_
    obtain ⟨u, hu, hequal⟩ := hall name v hv
    obtain rfl : u = w := Option.some.inj (hu.symm.trans hw)
    exact ih v (mem_parts_of_mem_members (Bindings.mem_of_get? hv)) (ha.of_get? hv)
      (hb.of_get? hw) hequal

theorem Same.equal (h : Same a b) (ha : a.Keyed) (hb : b.Keyed) : a.equal b = true := by
  induction h with
  | text s => exact beq_self_eq_true s
  | number hx hy hxy => rw [equal_of_number? hx, hy, Option.elim_some, hxy]
  | list hlength _ ih =>
      exact equalAll_iff.mpr ⟨hlength, fun i x y hx hy =>
        ih i x y hx hy (ha.of_getElem? hx) (hb.of_getElem? hy)⟩
  | capsule hnames _ ih =>
      refine (equal_toValue_iff ha.1).mpr
        ⟨ha.1.members.length_eq hb.1.members hnames, fun name v hv => ?_⟩
      obtain ⟨w, hw⟩ := Bindings.exists_get?_of_names hnames hv
      exact ⟨w, hw, ih name v w hv hw (ha.of_get? hv) (hb.of_get? hw)⟩

/-- The comparison tells whether two values are the same. -/
theorem equal_iff_same (ha : a.Keyed) (hb : b.Keyed) : a.equal b = true ↔ Same a b :=
  ⟨same_of_equal ha hb, fun h => h.equal ha hb⟩

/-! ### Values that are the same as themselves -/

/-- The second value stands in the first one, among the elements of lists and the members of objects,
or is that value itself. -/
inductive Holds : Value → Value → Prop where
  | self (v : Value) : Holds v v
  | element {xs : List Value} {x w : Value} : x ∈ xs → Holds x w → Holds (.list xs) w
  | member {d : Capsule} {name : String} {v w : Value} : (name, v) ∈ d.members → Holds v w →
      Holds d.toValue w

/-- The value is neither a function nor the undefined number nor the value of an empty program. -/
def IsOrdinary : Value → Prop
  | .number x => x.isNaN = false
  | .function _ => False
  | .empty => False
  | _ => True

theorem Same.isOrdinary (h : Same v v) : v.IsOrdinary := by
  cases v with
  | number x =>
      obtain ⟨y, hy, hxy⟩ := h.of_number? rfl
      cases hy
      rw [IsOrdinary, Float.isNaN_eq_decide_eq_nan, decide_eq_false_iff_not]
      exact Float.beq_self_iff.mp hxy
  | function => cases h with | number hx => cases hx
  | empty => cases h with | number hx => cases hx
  | _ => trivial

theorem Same.of_holds (hw : v.Holds w) (hv : v.Keyed) (h : Same v v) : Same w w := by
  induction hw with
  | self => exact h
  | element hx _ ih =>
      obtain ⟨i, hi⟩ := List.getElem?_of_mem hx
      obtain ⟨ys, hys, -, hall⟩ := h.of_list
      cases hys
      exact ih (hv.of_getElem? hi) (hall i _ _ hi hi)
  | member hmem _ ih =>
      have hget := hv.1.members.get?_of_mem hmem
      obtain ⟨e, he, -, hall⟩ := h.of_toValue
      obtain rfl := Capsule.eq_of_toValue_eq he
      exact ih (hv.of_get? hget) (hall _ _ _ hget hget)

theorem same_self (h : ∀ w, v.Holds w → w.IsOrdinary) : Same v v := by
  induction v using parts_induction with
  | hstep v ih =>
  have hown := h v (.self v)
  cases v with
  | number x =>
      rw [IsOrdinary, Float.isNaN_eq_decide_eq_nan, decide_eq_false_iff_not] at hown
      exact .number rfl rfl (Float.beq_self_iff.mpr hown)
  | bool b => exact .number rfl rfl (by cases b <;> decide)
  | null => exact .number rfl rfl (by decide)
  | text s => exact .text s
  | list xs =>
      refine .list rfl fun i x y hx hy => ?_
      obtain rfl : x = y := Option.some.inj (hx.symm.trans hy)
      have hmem := List.mem_of_getElem? hx
      exact ih x hmem fun w hw => h w (.element hmem hw)
  | encap fields inherited types scope =>
      refine .capsule (d := ⟨fields, inherited, types, scope⟩) (fun _ => Iff.rfl)
        fun name v w hv hw => ?_
      obtain rfl : v = w := Option.some.inj (hv.symm.trans hw)
      have hmem := Bindings.mem_of_get? hv
      exact ih v (mem_parts_of_mem_members hmem) fun w hw => h w (.member hmem hw)
  | function => exact hown.elim
  | empty => exact hown.elim

theorem equal_self_iff (hv : v.Keyed) :
    v.equal v = true ↔ ∀ w, v.Holds w → w.IsOrdinary := by
  rw [equal_iff_same hv hv]
  exact ⟨fun h w hw => (h.of_holds hw hv).isOrdinary, same_self⟩

end Value

/-! ### The two operators -/

namespace Operation

/-- Whether values can be asked to be equal: texts with texts, numbers with numbers, and lists and
objects with everything. -/
def comparable : Value → Value → Bool
  | .text _, .text _ => true
  | .list _, _ => true
  | .encap .., _ => true
  | v, w => v.number?.isSome && w.number?.isSome

/-- Either operator gives a truth value for operands that can be compared, and fails for others. -/
theorem binary_equal (left right : Stamped) (heap : Heap) :
    binary .equal left right heap =
      if comparable left.value right.value then .done (.bool (left.value.equal right.value)) heap
      else .raised (.failed (left.fault .illegalOperation (left.span.through right.span))) heap := by
  obtain ⟨v, span, owner⟩ := left
  obtain ⟨w, span', owner'⟩ := right
  cases v <;> cases w <;> rfl

theorem binary_notEqual (left right : Stamped) (heap : Heap) :
    binary .notEqual left right heap =
      if comparable left.value right.value then .done (.bool !(left.value.equal right.value)) heap
      else .raised (.failed (left.fault .illegalOperation (left.span.through right.span))) heap := by
  obtain ⟨v, span, owner⟩ := left
  obtain ⟨w, span', owner'⟩ := right
  cases v <;> cases w <;> rfl

theorem binary_equal_succeeds_iff (left right : Stamped) (heap : Heap) :
    (∃ v k, binary .equal left right heap = .done v k) ↔
      ∃ v k, binary .notEqual left right heap = .done v k := by
  rw [binary_equal, binary_notEqual]
  cases comparable left.value right.value <;> simp

end Operation

/-! ### Main statement -/

/-- At every moment of a session the objects in the values at hand bind each name once. -/
theorem Moment.keyed {h : Heap} {vs : List Value} {v : Value} (hm : Moment h vs) (hv : v ∈ vs) :
    v.Keyed := by
  obtain ⟨S, -, hvs⟩ := hm.exists_sealing
  exact (hvs v hv).objects.imp fun c hc => ⟨hc.distinct, hc.distinct_inherited⟩

/-- On values whose objects bind each name once, as all values do that programs come by, equality is
symmetric and transitive, and a value is equal to itself exactly if all that stands in it is ordinary.
The two operators succeed for the same operands, and give the result of the comparison and the
opposite. -/
theorem partialEquivalence_equal :
    (∀ h vs v, Moment h vs → v ∈ vs → v.Keyed) ∧
    (∀ a b : Value, a.Keyed → b.Keyed → a.equal b = b.equal a) ∧
    (∀ a b c : Value, a.Keyed → b.Keyed → c.Keyed → a.equal b = true → b.equal c = true →
      a.equal c = true) ∧
    (∀ v : Value, v.Keyed → (v.equal v = true ↔ ∀ w, v.Holds w → w.IsOrdinary)) ∧
    ∀ (left right : Stamped) (heap : Heap),
      ((∃ v k, Operation.binary .equal left right heap = .done v k) ↔
        ∃ v k, Operation.binary .notEqual left right heap = .done v k) ∧
      ∀ v k, Operation.binary .equal left right heap = .done v k →
        v = .bool (left.value.equal right.value) ∧
        Operation.binary .notEqual left right heap =
          .done (.bool !(left.value.equal right.value)) k := by
  refine ⟨fun h vs v hm hv => hm.keyed hv, fun a b ha hb => ?_, fun a b c ha hb hc hab hbc => ?_,
    fun v hv => Value.equal_self_iff hv, fun left right heap =>
      ⟨Operation.binary_equal_succeeds_iff left right heap, fun v k hequal => ?_⟩⟩
  · rw [Bool.eq_iff_iff, Value.equal_iff_same ha hb, Value.equal_iff_same hb ha]
    exact ⟨Value.Same.symm, Value.Same.symm⟩
  · rw [Value.equal_iff_same ha hb] at hab
    rw [Value.equal_iff_same hb hc] at hbc
    exact (hab.trans hbc).equal ha hc
  · rw [Operation.binary_equal] at hequal
    split at hequal
    case isTrue hcomparable =>
      cases hequal
      exact ⟨rfl, by rw [Operation.binary_notEqual, if_pos hcomparable]⟩
    case isFalse => cases hequal

/-- An object whose own `x` hides an undefined one, an object with the members in another order, and
an object with truth values in place of numbers. -/
theorem partialEquivalence_equal_objects : ∃ a b c : Value, a.Keyed ∧ b.Keyed ∧ c.Keyed ∧
    a.equal b = true ∧ b.equal c = true ∧ b.equal a = true ∧ a.equal c = true ∧
    (∀ w, a.Holds w → w.IsOrdinary) ∧
    (∀ span f heap, Operation.binary .notEqual ⟨a, span, f⟩ ⟨c, span, f⟩ heap =
      .done (.bool false) heap) ∧
    ∃ h vs v, Moment h vs ∧ v ∈ vs ∧ v.Keyed := by
  obtain ⟨hmoment, hsymm, htrans, hself, hoperators⟩ := partialEquivalence_equal
  let a : Value := .encap [("x", .number 1), ("y", .list [.text "s", .null])]
    [("x", .number Float.nan)] [] ⟨0⟩
  let b : Value := .encap [("y", .list [.text "s", .number 0])] [("x", .number 1)] [] ⟨0⟩
  let c : Value := .encap [("y", .list [.text "s", .bool false]), ("x", .bool true)] [] [] ⟨0⟩
  obtain ⟨ha, hb, hc⟩ : a.Keyed ∧ b.Keyed ∧ c.Keyed := by
    refine ⟨⟨⟨?_, ?_⟩, ?_⟩, ⟨⟨?_, ?_⟩, ?_⟩, ⟨⟨?_, ?_⟩, ?_⟩⟩ <;>
      simp [Bindings.Distinct, Bindings.names, Value.Objects, Value.AllObjects,
        Value.EntriesObjects]
  have hab : a.equal b = true := by decide
  have hbc : b.equal c = true := by decide
  have hba : b.equal a = true := (hsymm b a hb ha).trans hab
  have hac : a.equal c = true := htrans a b c ha hb hc hab hbc
  refine ⟨a, b, c, ha, hb, hc, hab, hbc, hba, hac,
    (hself a ha).mp (htrans a b a ha hb ha hab hba), fun span f heap => ?_, ?_⟩
  · obtain ⟨-, hnotEqual⟩ := (hoperators ⟨a, span, f⟩ ⟨c, span, f⟩ heap).2 (.bool true) heap
      (by rw [Operation.binary_equal, hac]; rfl)
    rw [hnotEqual, hac]
    rfl
  · have hbuiltin := (Moment.between (Session.Reachable.start {})).bound (t := ⟨0⟩)
      (e := ("true", .bool true)) (.head _)
    exact ⟨_, _, _, hbuiltin, .head _, hmoment _ _ _ hbuiltin (.head _)⟩

end CapsuleScript
