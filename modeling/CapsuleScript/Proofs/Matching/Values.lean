import CapsuleScript.Operation.Binary
import Mathlib.Data.List.Forall2

/-! Values of two heaps that differ only in numbers. A matching says which table, frame and function
of one heap stands for which of the other. Two values match if they are the same but for the numbers
in them, and those are matched. Whatever a program can see of a value is the same for both. -/

namespace CapsuleScript

/-- Which tables, frames and functions of two heaps stand for each other. -/
structure Matching where
  tables : TableId → TableId → Prop
  frames : FrameId → FrameId → Prop
  functions : FunctionId → FunctionId → Prop

/-- The matching `X` matches what `W` does, and may match more. -/
structure Matching.Extends (W X : Matching) : Prop where
  tables : ∀ {t t'}, W.tables t t' → X.tables t t'
  frames : ∀ {f f'}, W.frames f f' → X.frames f f'
  functions : ∀ {g g'}, W.functions g g' → X.functions g g'

namespace Matching.Extends

variable {W X Y : Matching}

theorem refl (W : Matching) : W.Extends W := ⟨fun h => h, fun h => h, fun h => h⟩

theorem trans (hX : W.Extends X) (hY : X.Extends Y) : W.Extends Y :=
  ⟨fun h => hY.tables (hX.tables h), fun h => hY.frames (hX.frames h),
    fun h => hY.functions (hX.functions h)⟩

end Matching.Extends

mutual

/-- The values are the same but for the numbers in them, which are matched. -/
inductive Value.Match (W : Matching) : Value → Value → Prop where
  | number (x : Float) : Value.Match W (.number x) (.number x)
  | bool (b : Bool) : Value.Match W (.bool b) (.bool b)
  | null : Value.Match W .null .null
  | text (s : String) : Value.Match W (.text s) (.text s)
  | list {elements elements' : List Value} :
      Value.AllMatch W elements elements' → Value.Match W (.list elements) (.list elements')
  | function {g g' : FunctionId} :
      W.functions g g' → Value.Match W (.function g) (.function g')
  | encap {fields fields' inherited inherited' : List (String × Value)} {types : List String}
      {scope scope' : FrameId} :
      Value.EntriesMatch W fields fields' → Value.EntriesMatch W inherited inherited' →
      W.frames scope scope' →
      Value.Match W (.encap fields inherited types scope) (.encap fields' inherited' types scope')
  | empty : Value.Match W .empty .empty

/-- The values match one by one. -/
inductive Value.AllMatch (W : Matching) : List Value → List Value → Prop where
  | nil : Value.AllMatch W [] []
  | cons {v v' : Value} {rest rest' : List Value} :
      Value.Match W v v' → Value.AllMatch W rest rest' →
      Value.AllMatch W (v :: rest) (v' :: rest')

/-- The same names are bound, in the same order, to values that match. -/
inductive Value.EntriesMatch (W : Matching) :
    List (String × Value) → List (String × Value) → Prop where
  | nil : Value.EntriesMatch W [] []
  | cons {name : String} {v v' : Value} {rest rest' : List (String × Value)} :
      Value.Match W v v' → Value.EntriesMatch W rest rest' →
      Value.EntriesMatch W ((name, v) :: rest) ((name, v') :: rest')

end

/-- The objects are the same but for numbers. -/
structure Capsule.Match (W : Matching) (c c' : Capsule) : Prop where
  fields : Value.EntriesMatch W c.fields c'.fields
  inherited : Value.EntriesMatch W c.inherited c'.inherited
  types : c.types = c'.types
  scope : W.frames c.scope c'.scope

namespace Value

variable {W X : Matching}

mutual

theorem Match.mono (hX : W.Extends X) : {v v' : Value} → Match W v v' → Match X v v'
  | _, _, .number x => .number x
  | _, _, .bool b => .bool b
  | _, _, .null => .null
  | _, _, .text s => .text s
  | _, _, .list h => .list (AllMatch.mono hX h)
  | _, _, .function h => .function (hX.functions h)
  | _, _, .encap hf hi hs => .encap (EntriesMatch.mono hX hf) (EntriesMatch.mono hX hi) (hX.frames hs)
  | _, _, .empty => .empty

theorem AllMatch.mono (hX : W.Extends X) : {vs vs' : List Value} → AllMatch W vs vs' →
    AllMatch X vs vs'
  | _, _, .nil => .nil
  | _, _, .cons hv hrest => .cons (Match.mono hX hv) (AllMatch.mono hX hrest)

theorem EntriesMatch.mono (hX : W.Extends X) : {bs bs' : List (String × Value)} →
    EntriesMatch W bs bs' → EntriesMatch X bs bs'
  | _, _, .nil => .nil
  | _, _, .cons hv hrest => .cons (Match.mono hX hv) (EntriesMatch.mono hX hrest)

end

variable {v v' w w' : Value} {vs vs' ws ws' : List Value} {bs bs' cs cs' : Bindings Value}

/-! ### Lists and bindings -/

theorem allMatch_iff : AllMatch W vs vs' ↔ List.Forall₂ (Match W) vs vs' := by
  constructor
  · intro h
    induction vs generalizing vs' with
    | nil =>
        cases h
        exact .nil
    | cons v rest ih =>
        cases h with
        | cons hv hrest => exact .cons hv (ih hrest)
  · intro h
    induction h with
    | nil => exact .nil
    | cons hv _ ih => exact .cons hv ih

namespace AllMatch

theorem length_eq (h : AllMatch W vs vs') : vs.length = vs'.length := (allMatch_iff.mp h).length_eq

theorem append (h : AllMatch W vs vs') (hws : AllMatch W ws ws') :
    AllMatch W (vs ++ ws) (vs' ++ ws') :=
  allMatch_iff.mpr (List.rel_append (allMatch_iff.mp h) (allMatch_iff.mp hws))

theorem reverse (h : AllMatch W vs vs') : AllMatch W vs.reverse vs'.reverse :=
  allMatch_iff.mpr (List.rel_reverse (allMatch_iff.mp h))

theorem getD (h : AllMatch W vs vs') (i : Nat) : Match W (vs.getD i .null) (vs'.getD i .null) := by
  induction vs generalizing vs' i with
  | nil =>
      cases h
      exact .null
  | cons v rest ih =>
      cases h with
      | cons hv hrest =>
          cases i with
          | zero => exact hv
          | succ i => exact ih hrest i

theorem eraseIdx (h : AllMatch W vs vs') (i : Nat) :
    AllMatch W (vs.eraseIdx i) (vs'.eraseIdx i) := by
  induction vs generalizing vs' i with
  | nil =>
      cases h
      exact .nil
  | cons v rest ih =>
      cases h with
      | cons hv hrest =>
          cases i with
          | zero => exact hrest
          | succ i => exact .cons hv (ih hrest i)

end AllMatch

namespace EntriesMatch

theorem get? (h : EntriesMatch W bs bs') (name : String) :
    Option.Rel (Match W) (bs.get? name) (bs'.get? name) := by
  induction bs generalizing bs' with
  | nil =>
      cases h
      exact .none
  | cons entry rest ih =>
      cases h with
      | cons hv hrest =>
          simp only [Bindings.get?]
          split
          · exact .some hv
          · exact ih hrest

theorem has (h : EntriesMatch W bs bs') (name : String) : bs.has name = bs'.has name := by
  have hget := h.get? name
  unfold Bindings.has
  generalize bs.get? name = o at hget
  generalize bs'.get? name = o' at hget
  cases hget <;> rfl

theorem insert (h : EntriesMatch W bs bs') (name : String) (hv : Match W v v') :
    EntriesMatch W (bs.insert name v) (bs'.insert name v') := by
  induction bs generalizing bs' with
  | nil =>
      cases h
      exact .cons hv .nil
  | cons entry rest ih =>
      cases h with
      | cons hw hrest =>
          simp only [Bindings.insert]
          split
          · exact .cons hv hrest
          · exact .cons hw (ih hrest)

theorem override (h : EntriesMatch W bs bs') (hcs : EntriesMatch W cs cs') :
    EntriesMatch W (bs.override cs) (bs'.override cs') := by
  induction cs generalizing bs bs' cs' with
  | nil =>
      cases hcs
      exact h
  | cons entry rest ih =>
      cases hcs with
      | @cons name _ _ _ _ hv hrest =>
          have hnext := ih (h.insert name hv) hrest
          exact hnext

theorem isEmpty_eq (h : EntriesMatch W bs bs') : bs.isEmpty = bs'.isEmpty := by
  cases h <;> rfl

theorem length_eq (h : EntriesMatch W bs bs') : bs.length = bs'.length := by
  induction bs generalizing bs' with
  | nil =>
      cases h
      rfl
  | cons entry rest ih =>
      cases h with
      | cons _ hrest => simp [ih hrest]

theorem names_eq (h : EntriesMatch W bs bs') : bs.names = bs'.names := by
  induction bs generalizing bs' with
  | nil =>
      cases h
      rfl
  | cons entry rest ih =>
      cases h with
      | cons _ hrest => simpa [Bindings.names] using ih hrest

theorem zip (params : List String) (h : AllMatch W vs vs') :
    EntriesMatch W (params.zip vs) (params.zip vs') := by
  induction params generalizing vs vs' with
  | nil => exact .nil
  | cons param rest ih =>
      cases h with
      | nil => exact .nil
      | cons hv hrest => exact .cons hv (ih hrest)

end EntriesMatch

/-! ### What a program sees of a value -/

theorem Match.number?_eq (h : Match W v v') : v.number? = v'.number? := by
  cases h <;> rfl

theorem Match.isTrue_eq (h : Match W v v') : v.isTrue = v'.isTrue := by
  cases h with
  | list h =>
      cases h <;> rfl
  | encap hf hi _ =>
      have hmembers := (hi.override hf).isEmpty_eq
      exact congrArg (!·) hmembers
  | _ => rfl

theorem Match.capsule? (h : Match W v v') :
    Option.Rel (Capsule.Match W) v.capsule? v'.capsule? := by
  cases h with
  | encap hf hi hs => exact .some ⟨hf, hi, rfl, hs⟩
  | _ => exact .none

mutual

theorem Match.render_eq {nameOf nameOf' : FunctionId → String}
    (hname : ∀ {g g'}, W.functions g g' → nameOf g = nameOf' g') :
    {v v' : Value} → Match W v v' → render nameOf v = render nameOf' v'
  | _, _, .list h => by simp only [render, AllMatch.renderAll_eq hname h]
  | _, _, .function h => by simp only [render, hname h]
  | _, _, .number _ | _, _, .bool _ | _, _, .null | _, _, .text _ | _, _, .empty => rfl
  | _, _, .encap _ _ _ => rfl

theorem AllMatch.renderAll_eq {nameOf nameOf' : FunctionId → String}
    (hname : ∀ {g g'}, W.functions g g' → nameOf g = nameOf' g') :
    {vs vs' : List Value} → AllMatch W vs vs' → renderAll nameOf vs = renderAll nameOf' vs'
  | _, _, .nil => rfl
  | _, _, .cons hv hrest => by
      simp only [renderAll, Match.render_eq hname hv, AllMatch.renderAll_eq hname hrest]

end

mutual

theorem Match.equal_eq : {v v' w w' : Value} → Match W v v' → Match W w w' →
    equal v w = equal v' w'
  | _, _, _, _, .list h, .list hw => AllMatch.equalAll_eq h hw
  | _, _, _, _, .encap hf hi _, .encap hf' hi' _ => by
      have hmembers := hi'.override hf'
      simp only [equal, Capsule.members, (hi.override hf).length_eq, hmembers.length_eq, hf.names_eq,
        EntriesMatch.matched_eq [] hmembers hf, EntriesMatch.matched_eq _ hmembers hi]
  | _, _, _, _, .number x, hw | _, _, _, _, .bool x, hw | _, _, _, _, .text x, hw => by
      cases hw <;> rfl
  | _, _, _, _, .null, hw | _, _, _, _, .empty, hw | _, _, _, _, .function _, hw => by
      cases hw <;> rfl
  | _, _, _, _, .list _, .number _ | _, _, _, _, .list _, .bool _ | _, _, _, _, .list _, .null
  | _, _, _, _, .list _, .text _ | _, _, _, _, .list _, .function _
  | _, _, _, _, .list _, .encap _ _ _ | _, _, _, _, .list _, .empty => rfl
  | _, _, _, _, .encap _ _ _, .number _ | _, _, _, _, .encap _ _ _, .bool _
  | _, _, _, _, .encap _ _ _, .null | _, _, _, _, .encap _ _ _, .text _
  | _, _, _, _, .encap _ _ _, .function _ | _, _, _, _, .encap _ _ _, .list _
  | _, _, _, _, .encap _ _ _, .empty => rfl

theorem AllMatch.equalAll_eq : {vs vs' ws ws' : List Value} → AllMatch W vs vs' →
    AllMatch W ws ws' → equalAll vs ws = equalAll vs' ws'
  | _, _, _, _, .nil, .nil => rfl
  | _, _, _, _, .nil, .cons _ _ => rfl
  | _, _, _, _, .cons _ _, .nil => rfl
  | _, _, _, _, .cons hv hrest, .cons hw hrest' => by
      simp only [equalAll, Match.equal_eq hv hw, AllMatch.equalAll_eq hrest hrest']

theorem EntriesMatch.matched_eq (hidden : List String) {members members' : Bindings Value}
    (hmembers : EntriesMatch W members members') : {bs bs' : List (String × Value)} →
    EntriesMatch W bs bs' → matched hidden members bs = matched hidden members' bs'
  | _, _, .nil => rfl
  | _, _, @EntriesMatch.cons _ name _ _ _ _ hv hrest => by
      have hget := hmembers.get? name
      simp only [matched, EntriesMatch.matched_eq hidden hmembers hrest]
      generalize members.get? name = o at hget
      generalize members'.get? name = o' at hget
      cases hget with
      | none => rfl
      | some hw => simp only [Option.elim, Match.equal_eq hv hw]

end

end Value

end CapsuleScript
