import CapsuleScript.Proofs.Mirror.Declaring
import CapsuleScript.Proofs.Operation.Equality
import Mathlib

/-! Merging objects. The members of the sum of two objects are those of the left one, each with the
value that the right one gives its name if it gives one, and then the members that only the right
one has. Main statement: the sum has these members, a name of the object is read in them, and in the
scope of the sum a name means the member or else what it means in the scope of the left object; sums
of three objects do not depend on the brackets. -/

namespace CapsuleScript

/-! ### Names and their order -/

namespace Bindings

variable {α : Type} {as bs cs : Bindings α} {name : String} {a : α}

instance (bs : Bindings α) : Decidable bs.Distinct := inferInstanceAs (Decidable bs.names.Nodup)

theorem names_insert_of_mem (h : name ∈ bs.names) : (bs.insert name a).names = bs.names := by
  induction bs with
  | nil => cases h
  | cons entry rest ih =>
      obtain ⟨key, b⟩ := entry
      rw [insert]
      split
      · rfl
      · rename_i hne
        have hrest : name ∈ Bindings.names rest := (List.mem_cons.mp h).resolve_left (Ne.symm hne)
        exact congrArg (key :: ·) (ih hrest)

theorem names_insert_of_not_mem (h : name ∉ bs.names) :
    (bs.insert name a).names = bs.names ++ [name] := by
  induction bs with
  | nil => rfl
  | cons entry rest ih =>
      obtain ⟨key, b⟩ := entry
      obtain ⟨hne, hrest⟩ := List.ne_and_not_mem_of_not_mem_cons h
      rw [insert, if_neg (Ne.symm hne)]
      exact congrArg (key :: ·) (ih hrest)

/-- Names keep their places, and new ones follow in their order. -/
theorem names_override (hcs : cs.Distinct) :
    (bs.override cs).names = bs.names ++ cs.names.filter (· ∉ bs.names) := by
  induction cs generalizing bs with
  | nil => simp [override, names]
  | cons entry rest ih =>
      obtain ⟨key, b⟩ := entry
      obtain ⟨hkey, hrest⟩ := List.nodup_cons.mp hcs
      have hstep : (bs.override ((key, b) :: rest)).names =
          (bs.insert key b).names ++ (names rest).filter (· ∉ (bs.insert key b).names) := ih hrest
      have hnames : names ((key, b) :: rest) = key :: names rest := rfl
      rw [hstep, hnames]
      by_cases hmem : key ∈ bs.names
      · rw [names_insert_of_mem hmem, List.filter_cons_of_neg (by simpa using hmem)]
      · rw [names_insert_of_not_mem hmem, List.filter_cons_of_pos (by simpa using hmem),
          List.append_assoc, List.singleton_append]
        refine congrArg (fun rest => bs.names ++ key :: rest)
          (List.filter_congr fun other hother => ?_)
        have hne : other ≠ key := fun heq => hkey (heq ▸ hother)
        simp [hne]

/-- Rows of bindings are the same if they bind the same names, in the same order, to the same. -/
theorem Distinct.ext (hbs : bs.Distinct) (hnames : bs.names = cs.names)
    (hget : ∀ name, bs.get? name = cs.get? name) : bs = cs := by
  have hcs : cs.Distinct := by
    rw [Distinct, ← hnames]
    exact hbs
  have hlength : bs.length = cs.length := by simpa [names] using congrArg List.length hnames
  refine List.ext_getElem hlength fun i hi hi' => ?_
  have hkey : bs[i].1 = cs[i].1 := by
    have hlist := List.getElem_of_eq hnames (i := i) (by simpa [names] using hi)
    simpa [names] using hlist
  have hleft : bs.get? bs[i].1 = some bs[i].2 := hbs.get?_of_mem (List.getElem_mem hi)
  have hright : cs.get? cs[i].1 = some cs[i].2 := hcs.get?_of_mem (List.getElem_mem hi')
  rw [hkey, hget, hright] at hleft
  exact Prod.ext hkey (Option.some.inj hleft).symm

theorem override_nil_left (hcs : cs.Distinct) : override [] cs = cs := by
  have hempty : Distinct ([] : Bindings α) := List.nodup_nil
  refine (hempty.override cs).ext ?_ fun name => ?_
  · rw [names_override hcs]
    simp [names]
  · rw [get?_override hcs, get?_nil, Option.or_none]

theorem override_assoc (has : as.Distinct) (hbs : bs.Distinct) (hcs : cs.Distinct) :
    (as.override bs).override cs = as.override (bs.override cs) := by
  refine ((has.override bs).override cs).ext ?_ fun name => ?_
  · rw [names_override hcs, names_override hbs, names_override (hbs.override cs),
      names_override hcs, List.filter_append, List.filter_filter, List.append_assoc]
    refine congrArg (as.names ++ ·) (congrArg (_ ++ ·) (List.filter_congr fun other _ => ?_))
    rw [Bool.and_eq_decide, decide_eq_decide]
    by_cases hleft : other ∈ as.names <;> simp [hleft]
  · rw [get?_override hcs, get?_override hbs, get?_override (hbs.override cs), get?_override hcs,
      Option.or_assoc]

/-- The names of `bs`, bound as in `cs` if they are bound there, and then those that only `cs`
binds. -/
def overlay (bs cs : Bindings α) : Bindings α :=
  bs.map (fun e => (e.1, (cs.get? e.1).getD e.2)) ++ cs.filter (fun e => e.1 ∉ bs.names)

theorem names_overlay (bs cs : Bindings α) :
    (bs.overlay cs).names = bs.names ++ cs.names.filter (· ∉ bs.names) := by
  simp only [overlay, names, List.map_append, List.map_map, List.filter_map]
  rfl

theorem get?_append (bs cs : Bindings α) (name : String) :
    get? name (bs ++ cs) = (bs.get? name).or (cs.get? name) := by
  induction bs with
  | nil => rfl
  | cons entry rest ih =>
      obtain ⟨key, b⟩ := entry
      by_cases hkey : key = name
      · simp [get?, hkey]
      · simpa [get?, hkey] using ih

theorem get?_filter {p : String → Bool} (cs : Bindings α) (hname : p name = true) :
    get? name (cs.filter fun e => p e.1) = cs.get? name := by
  induction cs with
  | nil => rfl
  | cons entry rest ih =>
      obtain ⟨key, b⟩ := entry
      by_cases hkey : key = name
      · rw [List.filter_cons_of_pos (by simpa [hkey] using hname), get?, get?, if_pos hkey,
          if_pos hkey]
      · cases hp : p key with
        | true =>
            rw [List.filter_cons_of_pos (by simpa using hp), get?, get?, if_neg hkey, if_neg hkey,
              ih]
        | false => rw [List.filter_cons_of_neg (by simp [hp]), get?, if_neg hkey, ih]

theorem get?_map_value (g : String → α → α) (bs : Bindings α) (name : String) :
    get? name (bs.map fun e => (e.1, g e.1 e.2)) = (bs.get? name).map (g name) := by
  induction bs with
  | nil => rfl
  | cons entry rest ih =>
      obtain ⟨key, b⟩ := entry
      by_cases hkey : key = name
      · simp [get?, hkey]
      · simpa [get?, hkey] using ih

theorem get?_overlay (bs cs : Bindings α) (name : String) :
    (bs.overlay cs).get? name = (cs.get? name).or (bs.get? name) := by
  rw [overlay, get?_append, get?_map_value fun key b => (cs.get? key).getD b]
  cases hname : bs.get? name with
  | some b => cases cs.get? name <;> rfl
  | none =>
      rw [Option.map_none, Option.none_or, Option.or_none]
      exact get?_filter (p := fun key => decide (key ∉ bs.names)) cs
        (by simpa using get?_eq_none_iff.mp hname)

theorem Distinct.override_eq_overlay (hbs : bs.Distinct) (hcs : cs.Distinct) :
    bs.override cs = bs.overlay cs := by
  refine (hbs.override cs).ext ?_ fun name => ?_
  · rw [names_override hcs, names_overlay]
  · rw [get?_override hcs, get?_overlay]

end Bindings

/-! ### Members -/

namespace Capsule

open Heap

variable {a b c m x y : Capsule}

instance (c : Capsule) : Decidable c.Distinct := inferInstanceAs (Decidable (_ ∧ _))

theorem Distinct.field?_eq (hc : c.Distinct) (name : String) :
    c.field? name = c.members.get? name :=
  (Bindings.get?_override hc.1 c.inherited name).symm

theorem members_merge (ha : a.Distinct) (entry : Span) (h : Heap) :
    (a.merge b entry h).1.members = a.members.override b.members :=
  Bindings.override_nil_left (ha.members.override b.members)

theorem Distinct.merge (ha : a.Distinct) (entry : Span) (h : Heap) :
    (a.merge b entry h).1.Distinct :=
  ⟨ha.members.override b.members, List.nodup_nil⟩

/-- The frame of a sum sees its members and then what the frame of the left object sees; older
frames see what they saw. -/
theorem lookup_merge {h : Heap} (hh : h.Sound) (hscope : h.HasFrame a.scope) (entry : Span)
    (name : String) :
    (a.merge b entry h).2.lookup (a.merge b entry h).1.scope name =
        ((a.members.override b.members).get? name).or (h.lookup a.scope name) ∧
      ∀ f, h.HasFrame f → (a.merge b entry h).2.lookup f name = h.lookup f name := by
  let k := (a.merge b entry h).2
  have hbelow : h.HasTable (h.frame a.scope).table := hh.hasTable hscope
  have hrooted : k.Rooted :=
    (hh.rooted.newTable fun q hq => Option.some.inj hq ▸ hbelow).of_parent_eq (Nat.le_refl _)
      fun _ => rfl
  have hold : ∀ {t : TableId}, h.HasTable t → k.get? t name = h.get? t name := fun ht =>
    hh.after.get?_eq hrooted (Nat.le_of_lt (by simp [k, merge, enterTable_eq]))
      (fun _ hu => table_newTable_of_hasTable hu) ht name
  refine ⟨?_, fun f hf => ?_⟩
  · have hself : k.HasTable ⟨h.tables.size⟩ := by simp [k, merge, HasTable, enterTable_eq]
    have hframe : (k.frame (a.merge b entry h).1.scope).table = ⟨h.tables.size⟩ :=
      congrArg Frame.table (frame_addFrame_self (h := (h.newTable _ _).2) _)
    have htable : k.table ⟨h.tables.size⟩ =
        ⟨a.members.override b.members, some (h.frame a.scope).table⟩ := by
      show (h.newTable _ _).2.table ⟨h.tables.size⟩ = _
      rw [table_newTable, if_pos rfl]
      rfl
    rw [lookup, hframe, hrooted.get?_eq_or hself, htable]
    exact congrArg _ (hold hbelow)
  · have hframe : k.frame f = h.frame f := frame_addFrame_of_hasFrame (h := (h.newTable _ _).2) hf
    rw [lookup, hframe]
    exact hold (hh.hasTable hf)

/-! ### Main statement -/

/-- The object `m` is what the operator gives for `a` and `b`, on some heap. -/
def IsSum (a b m : Capsule) : Prop :=
  ∃ (left right : Stamped) (h k : Heap), left.value = a.toValue ∧ right.value = b.toValue ∧
    Operation.binary .add left right h = .done m.toValue k

theorem binary_add {left right : Stamped} (hleft : left.value = a.toValue)
    (hright : right.value = b.toValue) (h : Heap) :
    Operation.binary .add left right h =
      .done (a.merge b left.span h).1.toValue (a.merge b left.span h).2 := by
  obtain ⟨v, span, owner⟩ := left
  obtain ⟨w, span', owner'⟩ := right
  cases hleft
  cases hright
  rfl

theorem IsSum.parts (hm : IsSum a b m) (ha : a.Distinct) :
    m.Distinct ∧ m.members = a.members.override b.members ∧ m.types = a.types ++ b.types := by
  obtain ⟨left, right, h, k, hleft, hright, hend⟩ := hm
  rw [binary_add hleft hright] at hend
  injection hend with hvalue _
  rw [← eq_of_toValue_eq hvalue]
  exact ⟨ha.merge left.span h, members_merge ha left.span h, rfl⟩

theorem IsSum.assoc {ab bc : Capsule} (ha : a.Distinct) (hb : b.Distinct) (hc : c.Distinct)
    (hab : IsSum a b ab) (hx : IsSum ab c x) (hbc : IsSum b c bc) (hy : IsSum a bc y) :
    x.members = y.members ∧ x.types = y.types := by
  obtain ⟨habdistinct, habmembers, habtypes⟩ := hab.parts ha
  obtain ⟨-, hbcmembers, hbctypes⟩ := hbc.parts hb
  obtain ⟨-, hxmembers, hxtypes⟩ := hx.parts habdistinct
  obtain ⟨-, hymembers, hytypes⟩ := hy.parts ha
  constructor
  · rw [hxmembers, hymembers, habmembers, hbcmembers,
      Bindings.override_assoc ha.members hb.members hc.members]
  · rw [hxtypes, hytypes, habtypes, hbctypes, List.append_assoc]

/-- Objects bind each name once, at every moment of a session. Of such an object a name is read in
its members. The sum of two has the members of the left one, those of the right one in their place,
and then the new ones of the right one; in its scope a name means the member, or else what it means
in the scope of the left one. Sums of three have the same members and types either way. -/
theorem merge_override :
    (∀ h vs, Moment h vs → h.Sound ∧ ∀ c : Capsule, c.toValue ∈ vs →
      c.Distinct ∧ h.HasFrame c.scope) ∧
    (∀ (c : Capsule) (name : String), c.Distinct → c.field? name = c.members.get? name) ∧
    (∀ (a b : Capsule) (left right : Stamped) (h : Heap), a.Distinct → b.Distinct →
      left.value = a.toValue → right.value = b.toValue →
      ∃ (m : Capsule) (k : Heap),
        Operation.binary .add left right h = .done m.toValue k ∧ m.Distinct ∧
        m.members = a.members.overlay b.members ∧ m.types = a.types ++ b.types ∧
        (∀ name, m.field? name = (b.members.get? name).or (a.members.get? name)) ∧
        (h.Sound → h.HasFrame a.scope → ∀ name,
          k.lookup m.scope name = (m.members.get? name).or (h.lookup a.scope name) ∧
          k.lookup a.scope name = h.lookup a.scope name)) ∧
    ∀ a b c ab bc x y : Capsule, a.Distinct → b.Distinct → c.Distinct →
      IsSum a b ab → IsSum ab c x → IsSum b c bc → IsSum a bc y →
      x.members = y.members ∧ x.types = y.types := by
  refine ⟨fun h vs hm => ?_, fun c name hc => hc.field?_eq name,
    fun a b left right h ha hb hleft hright => ?_,
    fun a b c ab bc x y ha hb hc hab hx hbc hy => hab.assoc ha hb hc hx hbc hy⟩
  · obtain ⟨S, hS, hvs⟩ := hm.exists_sealing
    refine ⟨hS.sound, fun c hc => ⟨(hm.keyed hc).1, ?_⟩⟩
    have hlives : c.toValue.Lives h := (hvs _ hc).live
    exact hlives.2.2
  · have hmerged := members_merge (b := b) ha left.span h
    refine ⟨_, _, binary_add hleft hright h, ha.merge left.span h, ?_, rfl, fun name => ?_,
      fun hh hscope name => ?_⟩
    · rw [hmerged, ha.members.override_eq_overlay hb.members]
    · rw [(ha.merge left.span h).field?_eq, hmerged, Bindings.get?_override hb.members]
    · obtain ⟨hself, hold⟩ := lookup_merge (b := b) hh hscope left.span name
      rw [hmerged]
      exact ⟨hself, hold a.scope hscope⟩

/-- Three objects of which each has members in common with the others. -/
theorem merge_override_three : ∃ (a b c : Capsule) (left right : Stamped) (h : Heap),
    a.Distinct ∧ b.Distinct ∧ c.Distinct ∧ left.value = a.toValue ∧ right.value = b.toValue ∧
    ∃ (m : Capsule) (k : Heap), Operation.binary .add left right h = .done m.toValue k ∧
      m.members.names = ["y", "z", "x", "w"] ∧ a.field? "z" = some (.text "p") ∧
      m.field? "z" = some (.text "b") ∧ k.lookup m.scope "x" = some (.text "q") ∧
      k.lookup m.scope "true" = some (.bool true) ∧
      (∃ x y : Capsule, IsSum m c x ∧ x.members = y.members ∧ x.types = ["A", "B", "C"] ∧
        x.types = y.types) ∧
      ∃ h vs, Moment h vs ∧ h.Sound := by
  obtain ⟨hmoment, hfield, hsum, hassoc⟩ := merge_override
  let a : Capsule := ⟨[("x", .text "a"), ("y", .text "a")], [("y", .text "p"), ("z", .text "p")],
    ["A"], ⟨0⟩⟩
  let b : Capsule := ⟨[("w", .text "b"), ("z", .text "b")], [("x", .text "q")], ["B"], ⟨0⟩⟩
  let c : Capsule := ⟨[("y", .text "c"), ("v", .text "c")], [], ["C"], ⟨0⟩⟩
  have ha : a.Distinct := by decide
  have hb : b.Distinct := by decide
  have hc : c.Distinct := by decide
  let stamp (d : Capsule) : Stamped := ⟨d.toValue, ⟨"", .origin, .origin⟩, none⟩
  let h := (Session.start {}).heap
  have hbetween := Moment.between (Session.Reachable.start {})
  have hh : h.Sound := (hmoment _ _ hbetween).1
  obtain ⟨m, k, hend, hm, hmembers, htypes, hread, hscope⟩ :=
    hsum a b (stamp a) (stamp b) h ha hb rfl rfl
  obtain ⟨x, _, hx, -, -, hxtypes, -⟩ := hsum m c (stamp m) (stamp c) h hm hc rfl rfl
  obtain ⟨bc, _, hbc, hbcdistinct, -⟩ := hsum b c (stamp b) (stamp c) h hb hc rfl rfl
  obtain ⟨y, _, hy, -⟩ := hsum a bc (stamp a) (stamp bc) h ha hbcdistinct rfl rfl
  have hmsum : IsSum a b m := ⟨_, _, _, _, rfl, rfl, hend⟩
  have hxsum : IsSum m c x := ⟨_, _, _, _, rfl, rfl, hx⟩
  obtain ⟨hxy, hxytypes⟩ := hassoc a b c m bc x y ha hb hc hmsum hxsum ⟨_, _, _, _, rfl, rfl, hbc⟩
    ⟨_, _, _, _, rfl, rfl, hy⟩
  have hseen := hscope hh (by decide)
  refine ⟨a, b, c, stamp a, stamp b, h, ha, hb, hc, rfl, rfl, m, k, hend, ?_, hfield a "z" ha,
    hread "z", ?_, ?_, ⟨x, y, hxsum, hxy, ?_, hxytypes⟩, ⟨_, _, hbetween, hh⟩⟩
  · rw [hmembers]
    decide
  · rw [(hseen "x").1, hmembers]
    rfl
  · rw [(hseen "true").1, hmembers]
    rfl
  · rw [hxtypes, htypes]
    rfl

end Capsule

end CapsuleScript
