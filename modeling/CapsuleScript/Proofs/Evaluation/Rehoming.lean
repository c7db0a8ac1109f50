import CapsuleScript.Proofs.Heap.Rehoming
import CapsuleScript.Proofs.Session.Runs

/-! Assignments bind values with their functions at home in the frame of the binding. The frame is
the one that the next statement runs in. -/

namespace CapsuleScript

open Heap

variable {h k : Heap} {f : FrameId} {span : Span} {name : String} {topLevel : Bool} {e : Node}
  {sub : Evaluator} {v : Value} {out : Outcome}

/-- The value that an assignment binds, and the heap on which it does: a function given to a name
that has a placeholder defines the placeholder, which is then what is bound. -/
def Heap.bindable (h : Heap) (f : FrameId) (name : String) (v : Value) : Value × Heap :=
  match h.placeholder? f name, v with
  | some placeholder, .function g => (.function placeholder, h.initializeFrom placeholder g)
  | _, v => (v, h)

theorem Heap.Sound.lives_bindable (hh : h.Sound) (hv : v.Lives h) (f : FrameId) (name : String) :
    (h.bindable f name v).1.Lives (h.bindable f name v).2 := by
  unfold Heap.bindable
  split
  · rename_i placeholder g hplaceholder
    have hp : h.HasFunction placeholder :=
      hh.lives_of_lookup (placeholder?_eq_some.mp hplaceholder).1
    show _ < _
    rw [functions_size_initializeFrom]
    exact hp
  · exact hv

theorem Heap.functions_size_bindable (h : Heap) (f : FrameId) (name : String) (v : Value) :
    (h.bindable f name v).2.functions.size = h.functions.size := by
  unfold Heap.bindable
  split
  · exact functions_size_initializeFrom _ _
  · rfl

theorem Heap.function_bindable {g : FunctionId}
    (hother : ∀ source, v = .function source → h.placeholder? f name ≠ some g) :
    (h.bindable f name v).2.function g = h.function g := by
  unfold Heap.bindable
  split
  · rename_i placeholder source hplaceholder
    rw [function_initializeFrom, if_neg]
    rintro ⟨rfl, -⟩
    exact hother source rfl hplaceholder
  · rfl

namespace Evaluation

/-- A result of two computations one after the other comes from a result of the first. -/
theorem done_of_bind_done {α β : Type} {run : Run α} {next : α → Run β} {b : β}
    (hend : (run >>= next) h = .done b k) : ∃ a l, run h = .done a l ∧ next a l = .done b k := by
  rw [Run.bind_apply] at hend
  cases hrun : run h with
  | done a l =>
      rw [hrun] at hend
      exact ⟨a, l, rfl, hend⟩
  | raised signal l =>
      rw [hrun] at hend
      cases hend
  | outOfFuel =>
      rw [hrun] at hend
      cases hend

/-- An assignment that succeeds ends with binding what its code gave. -/
theorem assign_done (hend : assign sub span name topLevel e f h = .done out k) :
    ∃ given l, value sub e f h = .done given l ∧
      bindKept span name f (l.bindable f name given.value).1 (l.bindable f name given.value).2 =
        .done out k := by
  rw [assign_eq_bindKept] at hend
  obtain ⟨given, l, hgiven, hrest⟩ := done_of_bind_done hend
  refine ⟨given, l, hgiven, ?_⟩
  have hkeep : ∀ v, (do
      if topLevel && (← Run.read fun heap => (heap.lookup f name).isSome) then
        Run.fail (.alreadyBound name) span f
      else bindKept span name f v : Run Outcome) l = .done out k →
      bindKept span name f v l = .done out k := by
    intro v hbind
    obtain ⟨bound, _, hread, hbind⟩ := done_of_bind_done hbind
    cases hread
    split at hbind
    · cases hbind
    · exact hbind
  obtain ⟨p, _, hread, hrest⟩ := done_of_bind_done hrest
  cases hread
  beta_reduce at hrest
  unfold Heap.bindable
  generalize l.placeholder? f name = placeholder at hrest ⊢
  generalize given.value = v at hrest ⊢
  cases placeholder with
  | none => exact hkeep v hrest
  | some p =>
      cases v with
      | function g => exact hrest
      | _ =>
          have hbind := hkeep _ hrest
          exact hbind

theorem functions_bindingTarget {label : String} {t : FrameId}
    (hend : bindingTarget name label span f h = .done t k) : k.functions = h.functions := by
  unfold bindingTarget at hend
  obtain ⟨binds, _, hbinds, hrest⟩ := done_of_bind_done hend
  cases hbinds
  split at hrest
  · cases hrest
    rfl
  · cases hrest
    rfl

/-- A name is bound in the table of a frame, if the frame has one. -/
theorem get?_define (t : FrameId) (w : Value)
    (htable : (h.define t name w).HasTable ((h.define t name w).frame t).table) :
    ((h.define t name w).table ((h.define t name w).frame t).table).bindings.get? name =
      some w := by
  have hframe : (h.define t name w).frame t = h.frame t := frame_congr rfl t
  have hhas : h.HasTable (h.frame t).table := by
    rwa [hframe, HasTable, define, tables_size_bind] at htable
  rw [hframe, define, table_bind, if_pos ⟨rfl, hhas⟩, Bindings.get?_insert_self]

/-- In the heap `k` the name is bound in the frame that goes on, to the value with its functions
replaced, and every function of `h` is as it was. -/
def Binds (h k : Heap) (name : String) (v : Value) (out : Outcome) : Prop :=
  h.Retains k ∧ (v.Lives h → v.Rehomed h k out.frame out.result.value) ∧
    (k.HasTable (k.frame out.frame).table →
      (k.table (k.frame out.frame).table).bindings.get? name = some out.result.value)

/-- A value is kept in the frame `t`, on a heap that has the functions of `h`. -/
theorem binds_keep {l : Heap} {t : FrameId} (hl : h.Retains l)
    (hend : (do
      let bound ← Run.make (rehome t v)
      Run.change (·.define t name bound)
      return give bound span t : Run Outcome) l = .done out k) : Binds h k name v out := by
  have hdone : Ending.done (give (rehome t v l).1 span t)
      ((rehome t v l).2.define t name (rehome t v l).1) = Ending.done out k := hend
  cases hdone
  have hdefine : (rehome t v l).2.Retains ((rehome t v l).2.define t name (rehome t v l).1) :=
    .of_functions rfl
  exact ⟨hl.trans ((retains_rehome t v l).trans hdefine),
    fun hlive => (rehomed_rehome t hl hlive).mono hdefine, get?_define t _⟩

theorem binds_bindKept (hend : bindKept span name f v h = .done out k) : Binds h k name v out := by
  unfold bindKept at hend
  split at hend
  · obtain ⟨t, l, htarget, hbind⟩ := done_of_bind_done hend
    have hfunctions : l.functions = h.functions := by
      cases htarget
      rfl
    exact binds_keep (.of_functions hfunctions) hbind
  · obtain ⟨t, l, htarget, hbind⟩ := done_of_bind_done hend
    exact binds_keep (.of_functions (functions_bindingTarget htarget)) hbind

/-! ### Main statement -/

/-- An assignment that succeeds evaluates its code, perhaps defines a placeholder, and binds the
value in the frame that goes on. Of the functions of that value, in lists of any depth, the defined
ones are copied and have that frame as their home; all else, and with it every function that there
was, is as it was, apart from the placeholder. In a program the value holds what has been made, and
the frame has a table. -/
theorem assign_rehomed {limits : Limits} {fuel : Nat}
    (hend : eval limits fuel (.assign span name topLevel e) f h = .done out k) :
    ∃ steps given h₁ u h₂, fuel = steps + 1 ∧
      value (eval limits steps) e f h = .done given h₁ ∧
      h₁.bindable f name given.value = (u, h₂) ∧
      (k.HasTable (k.frame out.frame).table →
        (k.table (k.frame out.frame).table).bindings.get? name = some out.result.value) ∧
      (u.Lives h₂ → u.Rehomed h₂ k out.frame out.result.value) ∧
      (∀ g, h₂.HasFunction g → k.function g = h₂.function g) ∧
      (∀ g, h₁.HasFunction g → (∀ source, given.value = .function source →
        h₁.placeholder? f name ≠ some g) → k.function g = h₁.function g) ∧
      (h.Sound → h.HasFrame f → e.IsStatement →
        u.Lives h₂ ∧ k.HasTable (k.frame out.frame).table) := by
  cases fuel with
  | zero => cases hend
  | succ steps =>
      have hassign : assign (eval limits steps) span name topLevel e f h = .done out k := hend
      obtain ⟨given, h₁, hgiven, hbind⟩ := assign_done hassign
      obtain ⟨hretains, hrehomed, hbound⟩ := binds_bindKept hbind
      refine ⟨steps, given, h₁, _, _, rfl, hgiven, rfl, hbound, hrehomed,
        fun g hg => hretains.function hg, fun g hg hother => ?_, fun hh hf he => ?_⟩
      · have hg' : (h₁.bindable f name given.value).2.HasFunction g := by
          rw [HasFunction, functions_size_bindable]
          exact hg
        rw [hretains.function hg', function_bindable hother]
      · have hr : h.Ready 0 f := ⟨hh, Nat.zero_le _, hf⟩
        have hw : h.Writable 0 f := ⟨hf, Nat.zero_le _⟩
        obtain ⟨hsteps, hlive⟩ :=
          (evolves_value (evolves_eval limits steps) hr he fun _ => hw).done_of hgiven
        obtain ⟨hsteps', hgoes⟩ :=
          (evolves_assign (evolves_eval limits steps) hr hw he).done_of hassign
        exact ⟨(hsteps.sound hh).lives_bindable hlive f name,
          (hsteps'.sound hh).hasTable hgoes.hasFrame⟩

/-- A list of a function and, one level deeper, a placeholder, bound where the placeholder was
declared. -/
theorem assign_rehomed_list : ∃ (h k : Heap) (f : FrameId) (e : Node) (out : Outcome)
    (copy placeholder : FunctionId),
    eval {} 4 (.assign ⟨"", .origin, .origin⟩ "x" false e) f h = .done out k ∧ h.Sound ∧
    h.HasFrame f ∧ e.IsStatement ∧
    (k.table (k.frame out.frame).table).bindings.get? "x" =
      some (.list [.function copy, .list [.function placeholder]]) ∧
    (k.function copy).home = out.frame ∧ (k.function placeholder).initialized = false := by
  let nowhere : Span := ⟨"", .origin, .origin⟩
  let start := (Session.start {}).heap
  let declaration : Node := .declaration nowhere "f" (.ident nowhere "null")
  let e : Node := .list nowhere [.function nowhere none [] true (.ident nowhere "null"),
    .list nowhere [.ident nowhere "f"]]
  have hr : start.Ready 0 ⟨0⟩ := ⟨sound_start {}, Nat.zero_le _, by decide⟩
  have hw : start.Writable 0 ⟨0⟩ := ⟨by decide, Nat.zero_le _⟩
  have hfits : declaration.IsStatement := ⟨rfl, trivial⟩
  have he : e.IsStatement := ⟨⟨fun _ => by contradiction, trivial⟩, ⟨trivial, trivial⟩, trivial⟩
  obtain ⟨placed, h, hdeclare⟩ : ∃ placed h, eval {} 1 declaration ⟨0⟩ start = .done placed h :=
    ⟨_, _, rfl⟩
  obtain ⟨hsteps, hgoes⟩ := (evolves_eval {} 1 hr hfits fun _ => .inr hw).done_of hdeclare
  obtain ⟨out, k, hend⟩ : ∃ out k,
      eval {} 4 (.assign nowhere "x" false e) placed.frame h = .done out k := by
    cases hdeclare
    exact ⟨_, _, rfl⟩
  have hh : h.Sound := hsteps.sound (sound_start {})
  obtain ⟨steps, given, h₁, u, h₂, hfuel, hgiven, hbindable, hbound, hrehomed, hretains, -, hall⟩ :=
    assign_rehomed hend
  obtain ⟨hlive, htable⟩ := hall hh hgoes.hasFrame he
  obtain ⟨rfl, hdefined, hplaceholder⟩ : u = .list [.function ⟨1⟩, .list [.function ⟨0⟩]] ∧
      (h₂.function ⟨1⟩).initialized = true ∧ (h₂.function ⟨0⟩).initialized = false := by
    cases hfuel
    cases hdeclare
    cases hgiven
    cases hbindable
    exact ⟨rfl, rfl, rfl⟩
  obtain ⟨_, hvalue, _, _, rfl, hfirst, _, _, rfl, ⟨_, rfl, _, _, rfl, hinner, rfl⟩, rfl⟩ :=
    hrehomed hlive
  rw [Value.Rehomed, if_pos hdefined] at hfirst
  rw [Value.Rehomed, if_neg (by rw [hplaceholder]; decide)] at hinner
  obtain ⟨copy, rfl, -, -, hdata⟩ := hfirst
  subst hinner
  refine ⟨h, k, placed.frame, e, out, copy, ⟨0⟩, hend, hh, hgoes.hasFrame, he, ?_, ?_, ?_⟩
  · rw [hbound htable, hvalue]
  · rw [hdata]
  · rw [hretains ⟨0⟩ hlive.2.1.1, hplaceholder]

end Evaluation

end CapsuleScript
