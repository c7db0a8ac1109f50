import CapsuleScript.Proofs.Heap.Relink
import CapsuleScript.Proofs.Node.Shape

/-! Heaps that evaluations work on. In a sound heap everything that is referred to has been made:
the tables of frames, the homes of functions and what values hold. Frames are entered from older
ones, chains of tables end, and the bodies of functions are statements. -/

namespace CapsuleScript

mutual

/-- The functions and frames that the value holds have been made. -/
def Value.Lives (h : Heap) : Value → Prop
  | .list elements => Value.AllLive h elements
  | .function g => h.HasFunction g
  | .encap fields inherited _ scope =>
    Value.EntriesLive h fields ∧ Value.EntriesLive h inherited ∧ h.HasFrame scope
  | _ => True

/-- What the values hold has been made. -/
def Value.AllLive (h : Heap) : List Value → Prop
  | [] => True
  | value :: rest => value.Lives h ∧ Value.AllLive h rest

/-- What the bound values hold has been made. -/
def Value.EntriesLive (h : Heap) : List (String × Value) → Prop
  | [] => True
  | (_, value) :: rest => value.Lives h ∧ Value.EntriesLive h rest

end

namespace Value

variable {h k : Heap}

theorem allLive_iff {values : List Value} : AllLive h values ↔ ∀ v ∈ values, v.Lives h := by
  induction values with
  | nil => simp [AllLive]
  | cons v rest ih => simp [AllLive, ih]

theorem entriesLive_iff {entries : Bindings Value} :
    EntriesLive h entries ↔ ∀ e ∈ entries, e.2.Lives h := by
  induction entries with
  | nil => simp [EntriesLive]
  | cons e rest ih =>
      obtain ⟨name, v⟩ := e
      simp [EntriesLive, ih]

theorem EntriesLive.get? {entries : Bindings Value} (hlive : EntriesLive h entries) {name : String}
    {v : Value} (hv : entries.get? name = some v) : v.Lives h := by
  induction entries with
  | nil => cases hv
  | cons e rest ih =>
      obtain ⟨key, w⟩ := e
      rw [Bindings.get?] at hv
      split at hv
      · cases hv
        exact hlive.1
      · exact ih hlive.2 hv

theorem EntriesLive.insert {entries : Bindings Value} (hlive : EntriesLive h entries) (name : String)
    {v : Value} (hv : v.Lives h) : EntriesLive h (entries.insert name v) := by
  induction entries with
  | nil => exact ⟨hv, trivial⟩
  | cons e rest ih =>
      obtain ⟨key, w⟩ := e
      rw [Bindings.insert]
      split
      · exact ⟨hv, hlive.2⟩
      · exact ⟨hlive.1, ih hlive.2⟩

theorem EntriesLive.override {entries others : Bindings Value} (hlive : EntriesLive h entries)
    (hothers : EntriesLive h others) : EntriesLive h (entries.override others) := by
  induction others generalizing entries with
  | nil => exact hlive
  | cons e rest ih => exact ih (hlive.insert e.1 hothers.1) hothers.2

mutual

/-- A value stays alive while frames and functions are only added. -/
theorem Lives.mono (hframes : h.frames.size ≤ k.frames.size)
    (hfunctions : h.functions.size ≤ k.functions.size) : {v : Value} → v.Lives h → v.Lives k
  | .list _, hv => AllLive.mono hframes hfunctions hv
  | .function _, hv => Nat.lt_of_lt_of_le hv hfunctions
  | .encap .., hv =>
      ⟨EntriesLive.mono hframes hfunctions hv.1, EntriesLive.mono hframes hfunctions hv.2.1,
        Nat.lt_of_lt_of_le hv.2.2 hframes⟩
  | .number _, _ | .bool _, _ | .null, _ | .text _, _ | .empty, _ => trivial

theorem AllLive.mono (hframes : h.frames.size ≤ k.frames.size)
    (hfunctions : h.functions.size ≤ k.functions.size) :
    {values : List Value} → AllLive h values → AllLive k values
  | [], _ => trivial
  | _ :: _, hv => ⟨hv.1.mono hframes hfunctions, AllLive.mono hframes hfunctions hv.2⟩

theorem EntriesLive.mono (hframes : h.frames.size ≤ k.frames.size)
    (hfunctions : h.functions.size ≤ k.functions.size) :
    {entries : List (String × Value)} → EntriesLive h entries → EntriesLive k entries
  | [], _ => trivial
  | (_, _) :: _, hv => ⟨hv.1.mono hframes hfunctions, EntriesLive.mono hframes hfunctions hv.2⟩

end

end Value

namespace Heap

/-- Everything that is referred to has been made. -/
structure Sound (h : Heap) : Prop where
  rooted : h.Rooted
  live : ∀ t, Value.EntriesLive h (h.table t).bindings
  hasTable : ∀ {f}, h.HasFrame f → h.HasTable (h.frame f).table
  /-- A frame is entered from an older one. -/
  older : ∀ {f p}, h.HasFrame f → (h.frame f).parent = some p → p.index < f.index
  home : ∀ {g}, h.HasFunction g → h.HasFrame (h.function g).home
  body : ∀ {g}, h.HasFunction g → (h.function g).body.IsStatement

variable {h : Heap}

theorem Sound.hasFrame_parent (hh : h.Sound) {f p : FrameId} (hf : h.HasFrame f)
    (hp : (h.frame f).parent = some p) : h.HasFrame p :=
  Nat.lt_trans (hh.older hf hp) hf

theorem Sound.lives_of_lookup (hh : h.Sound) {f : FrameId} {name : String} {v : Value}
    (hv : h.lookup f name = some v) : v.Lives h := by
  rw [lookup, get?_eq_findSome?] at hv
  obtain ⟨t, -, ht⟩ := List.exists_of_findSome?_eq_some hv
  exact (hh.live t).get? ht

end Heap

end CapsuleScript
