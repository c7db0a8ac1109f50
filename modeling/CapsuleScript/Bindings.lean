/-! Names bound to things, in the order in which the names were first bound. Binding a name again
keeps its place. -/

namespace CapsuleScript

/-- Named things in the order of their names' first binding. -/
abbrev Bindings (α : Type) := List (String × α)

namespace Bindings

variable {α : Type}

/-- What `name` is bound to. -/
def get? (name : String) : Bindings α → Option α
  | [] => none
  | (key, a) :: rest => if key = name then some a else get? name rest

/-- Whether `name` is bound. -/
def has (bs : Bindings α) (name : String) : Bool := (bs.get? name).isSome

/-- Binds `name` to `a`, in its old place if it has one and else at the end. -/
def insert (name : String) (a : α) : Bindings α → Bindings α
  | [] => [(name, a)]
  | (key, b) :: rest => if key = name then (key, a) :: rest else (key, b) :: insert name a rest

/-- The names of `bs` and `cs`, bound as in `cs` where both bind them. -/
def override (bs cs : Bindings α) : Bindings α :=
  cs.foldl (fun bound entry => bound.insert entry.1 entry.2) bs

/-- The bound names. -/
def names (bs : Bindings α) : List String := bs.map Prod.fst

@[simp] theorem get?_nil (name : String) : get? name ([] : Bindings α) = none := rfl

theorem get?_insert_self (bs : Bindings α) (name : String) (a : α) :
    (bs.insert name a).get? name = some a := by
  induction bs with
  | nil => simp [insert, get?]
  | cons entry rest ih =>
      obtain ⟨key, b⟩ := entry
      by_cases h : key = name <;> simp [insert, get?, h, ih]

theorem get?_insert_of_ne (bs : Bindings α) {name other : String} (a : α) (hne : name ≠ other) :
    (bs.insert name a).get? other = bs.get? other := by
  induction bs with
  | nil => simp [insert, get?, hne]
  | cons entry rest ih =>
      obtain ⟨key, b⟩ := entry
      by_cases h : key = name
      · simp [insert, get?, h, hne]
      · by_cases h' : key = other <;> grind [insert, get?]

theorem has_insert_of_has {bs : Bindings α} {name other : String} {a : α} (h : bs.has other) :
    (bs.insert name a).has other := by
  unfold has at *
  by_cases hname : name = other
  · rw [hname, get?_insert_self]
    rfl
  · rwa [get?_insert_of_ne bs a hname]

/-- Binding a name adds it at the end or leaves the names as they are. -/
theorem names_prefix_insert (bs : Bindings α) (name : String) (a : α) :
    bs.names <+: (bs.insert name a).names := by
  induction bs with
  | nil => exact List.nil_prefix
  | cons entry rest ih =>
      obtain ⟨key, b⟩ := entry
      rw [insert]
      split
      · exact List.prefix_refl _
      · exact List.cons_prefix_cons.mpr ⟨rfl, ih⟩

end Bindings

end CapsuleScript
