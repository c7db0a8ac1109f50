import CapsuleScript.Proofs.Heap.Bodies
import CapsuleScript.Proofs.Scoping.Nodes
import CapsuleScript.Proofs.Session.Interruption

/-! The points that a computation comes to. A point is an evaluation that is about to begin; the
computation comes to it if it is broken off there, whatever the failure it is broken off with. The
signals of loops are contained in a computation if it comes to the statement that raises one only to
end with the signal, or to come to a loop that takes it up as well. The rules below follow the ways
in which computations are put together. -/

namespace CapsuleScript

open Heap

/-- The functions of the heap leave no loops outside of their bodies. -/
abbrev Heap.Scoped (h : Heap) : Prop := h.Bodies fun body => body.isScoped false = true

/-- The statement at `span` that leaves a loop in the given way. -/
def LoopExit.statement (span : Span) : LoopExit → Node
  | stop => .stopLoop span
  | next => .nextTurn span

/-- An evaluation that is about to begin. -/
structure Point where
  node : Node
  frame : FrameId
  heap : Heap

/-- A signal that leaves a loop, and the heap on which it is raised. -/
structure Leaving where
  exit : LoopExit
  span : Span
  frame : FrameId
  heap : Heap

/-- The point before the signal is raised. -/
def Leaving.point (x : Leaving) : Point := ⟨x.exit.statement x.span, x.frame, x.heap⟩

/-- How a computation ends that the signal leaves. -/
def Leaving.ending {α : Type} (x : Leaving) : Ending α :=
  .raised (.exited x.exit x.span x.frame) x.heap

/-- However the computation ended, the functions of the heap leave no loops, a loop signal is one of
its own and a failure is not that of a loop signal which nothing took up. -/
def Ending.Within {α : Type} (own : LoopExit → Span → Prop) : Ending α → Prop
  | .done _ k => k.Scoped
  | .raised (.returned _) k => k.Scoped
  | .raised (.exited exit s _) k => k.Scoped ∧ own exit s
  | .raised (.failed fault) k => k.Scoped ∧ ∀ exit, fault.kind ≠ .outsideLoop exit
  | .outOfFuel => True

theorem Ending.Within.imp {α : Type} {own wider : LoopExit → Span → Prop} {ending : Ending α}
    (hown : ∀ exit s, own exit s → wider exit s) (hending : ending.Within own) :
    ending.Within wider := by
  cases ending with
  | done a k => exact hending
  | outOfFuel => trivial
  | raised signal k =>
      cases signal with
      | returned value => exact hending
      | exited exit s r => exact ⟨hending.1, hown exit s hending.2⟩
      | failed fault => exact hending

/-! ### Computations that evaluate nothing -/

/-- The computation ends on the heap `h` with no loop signal but its own. -/
def Run.Within {α : Type} (run : Run α) (h : Heap) (own : LoopExit → Span → Prop) : Prop :=
  (run h).Within own

namespace Run.Within

variable {α β : Type} {h k : Heap} {own : LoopExit → Span → Prop} {next : α → Run β}

theorem pure (hh : h.Scoped) {a : α} : (Pure.pure a : Run α).Within h own := hh

theorem fail (hh : h.Scoped) {kind : FaultKind} {span : Span} {f : FrameId}
    (hkind : ∀ exit, kind ≠ .outsideLoop exit) : (Run.fail kind span f : Run α).Within h own :=
  ⟨hh, hkind⟩

theorem bind {run : Run α} (hrun : run.Within h own)
    (hnext : ∀ a k, k.Scoped → (next a).Within k own) : (run >>= next).Within h own := by
  unfold Run.Within at *
  rw [Run.bind_apply]
  cases hend : run h with
  | done a k =>
      rw [hend] at hrun
      exact hnext a k hrun
  | raised signal k =>
      rw [hend] at hrun
      cases signal <;> exact hrun
  | outOfFuel => trivial

theorem read_bind {g : Heap → α} (hnext : (next (g h)).Within h own) :
    (Run.read g >>= next).Within h own := hnext

theorem make_bind {g : Heap → α × Heap} (hnext : (next (g h).1).Within (g h).2 own) :
    (Run.make g >>= next).Within h own := hnext

theorem change_bind {g : Heap → Heap} {next : Unit → Run β} (hnext : (next ()).Within (g h) own) :
    (Run.change g >>= next).Within h own := hnext

end Run.Within

/-! ### Coming to a point -/

namespace Evaluation

variable {α β : Type} {h k : Heap} {f : FrameId}

/-- Never breaks off. -/
def never : Breakpoint := fun _ _ _ => none

open Classical in
/-- Breaks off at the point with the given failure, and at no other point. -/
noncomputable def onlyAt (m : Point) (fault : Fault) : Breakpoint := fun n f h =>
  if (⟨n, f, h⟩ : Point) = m then some fault else none

theorem onlyAt_self (m : Point) (fault : Fault) :
    onlyAt m fault m.node m.frame m.heap = some fault := if_pos rfl

theorem onlyAt_of_ne {m : Point} {fault : Fault} {n : Node} (hne : (⟨n, f, h⟩ : Point) ≠ m) :
    onlyAt m fault n f h = none := if_neg hne

theorem eq_of_onlyAt {m other : Point} {fault found : Fault}
    (hfound : onlyAt m fault other.node other.frame other.heap = some found) :
    other = m ∧ found = fault := by
  unfold onlyAt at hfound
  split at hfound
  · rename_i heq
    cases hfound
    exact ⟨heq, rfl⟩
  · cases hfound

/-- The computation, given for each way to break it off, comes to the point. -/
def Passes (run : Breakpoint → Run α) (h : Heap) (m : Point) : Prop :=
  ∀ fault, run (onlyAt m fault) h = .raised (.failed fault) m.heap

theorem not_passes_of_const {run : Breakpoint → Run α} {m : Point} {ending : Ending α}
    (hconst : ∀ fault, run (onlyAt m fault) h = ending) : ¬ Passes run h m := by
  intro hpasses
  have hsame : ∀ fault, ending = .raised (.failed fault) m.heap := fun fault =>
    (hconst fault).symm.trans (hpasses fault)
  -- The same ending would be two different failures.
  have htwo := (hsame ⟨.illegalOperation, m.node.span, none⟩).symm.trans
    (hsame ⟨.divisionByZero, m.node.span, none⟩)
  cases htwo

/-- The signals of loops are contained in the computation: it ends with none but its `own`, and if
it comes to a statement that raises one it either ends with this signal or comes to a point when it
is `taken` up. -/
structure Contained (taken : Leaving → Point → Prop) (own : LoopExit → Span → Prop)
    (run : Breakpoint → Run α) (h : Heap) : Prop where
  ends : (run never h).Within own
  broken : ∀ stop, run stop h = run never h ∨ ∃ (m : Point) (fault : Fault),
    stop m.node m.frame m.heap = some fault ∧ run stop h = .raised (.failed fault) m.heap ∧
      Passes run h m
  points : ∀ m, Passes run h m → m.heap.Scoped
  caught : ∀ x : Leaving, Passes run h x.point →
    run never h = x.ending ∨ ∃ m, taken x m ∧ Passes run h m

namespace Contained

variable {taken other : Leaving → Point → Prop} {own wider : LoopExit → Span → Prop}
variable {run : Breakpoint → Run α}

/-- A computation that evaluates nothing. -/
theorem plain {run : Run α} (hrun : run.Within h own) : Contained taken own (fun _ => run) h where
  ends := hrun
  broken _ := .inl rfl
  points _ hpasses := absurd hpasses (not_passes_of_const fun _ => rfl)
  caught _ hpasses := absurd hpasses (not_passes_of_const fun _ => rfl)

theorem congr {run' : Breakpoint → Run α} (hrun : Contained taken own run k)
    (heq : ∀ stop, run' stop h = run stop k) : Contained taken own run' h := by
  have hpasses : ∀ m, Passes run' h m ↔ Passes run k m := fun m => by
    simp only [Passes, heq]
  refine ⟨?_, fun stop => ?_, fun m hm => hrun.points m ((hpasses m).mp hm), fun x hx => ?_⟩
  · rw [heq]
    exact hrun.ends
  · simp only [heq, hpasses]
    exact hrun.broken stop
  · simp only [heq, hpasses]
    exact hrun.caught x ((hpasses _).mp hx)

/-- A computation that does not come to a point is not changed by a breakpoint there. -/
theorem passes_or (hrun : Contained taken own run h) (m : Point) :
    Passes run h m ∨ ∀ fault, run (onlyAt m fault) h = run never h := by
  by_cases hm : Passes run h m
  · exact .inl hm
  · refine .inr fun fault => ?_
    rcases hrun.broken (onlyAt m fault) with heq | ⟨found, _, hfound, -, hpasses⟩
    · exact heq
    · rw [(eq_of_onlyAt hfound).1] at hpasses
      exact absurd hpasses hm

section Attempts

variable {next : Breakpoint → Except Signal α → Run β}

theorem attempt_bind_of_failed {stop : Breakpoint} {fault : Fault}
    (hfailed : ∀ stop fault, next stop (.error (.failed fault)) = Run.raise (.failed fault))
    (hend : run stop h = .raised (.failed fault) k) :
    ((run stop).attempt >>= next stop) h = .raised (.failed fault) k := by
  rw [Run.bind_apply, Run.attempt, hend]
  simp only [hfailed]
  rfl

theorem attempt_bind_of_done {stop : Breakpoint} {result : Except Signal α}
    (hend : (run never).attempt h = .done result k) (hsame : run stop h = run never h) :
    ((run stop).attempt >>= next stop) h = next stop result k := by
  have hattempt : (run stop).attempt h = .done result k := by
    rw [← hend]
    simp only [Run.attempt, hsame]
  rw [Run.bind_apply, hattempt]

/-- The computation goes on, or fails, after the first part of it has come to the point. -/
theorem passes_attempt_bind {m : Point}
    (hfailed : ∀ stop fault, next stop (.error (.failed fault)) = Run.raise (.failed fault))
    (hm : Passes run h m) : Passes (fun stop => (run stop).attempt >>= next stop) h m :=
  fun fault => attempt_bind_of_failed hfailed (hm fault)

/-- The first part of a computation keeps it from no point that the rest comes to. -/
theorem passes_attempt_bind_of_next (hrun : Contained taken own run h) {m : Point}
    {result : Except Signal α}
    (hfailed : ∀ stop fault, next stop (.error (.failed fault)) = Run.raise (.failed fault))
    (hend : (run never).attempt h = .done result k)
    (hm : Passes (fun stop => next stop result) k m) :
    Passes (fun stop => (run stop).attempt >>= next stop) h m := by
  rcases hrun.passes_or m with hfirst | hsame
  · exact passes_attempt_bind hfailed hfirst
  · exact fun fault => (attempt_bind_of_done hend (hsame fault)).trans (hm fault)

/-- After a computation the next one goes on with what it gave, unless it failed or did not end. -/
theorem goesOn_or_ends (hrun : Contained taken own run h) (wider : LoopExit → Span → Prop)
    (hfailed : ∀ stop fault, next stop (.error (.failed fault)) = Run.raise (.failed fault)) :
    (∃ result k, (run never).attempt h = .done result k ∧ k.Scoped ∧
      ∀ fault, result ≠ .error (.failed fault)) ∨
    ∃ ending : Ending β, ending.Within wider ∧
      ∀ stop, run stop h = run never h → ((run stop).attempt >>= next stop) h = ending := by
  have hends := hrun.ends
  cases hend : run never h with
  | done a k =>
      rw [hend] at hends
      exact .inl ⟨.ok a, k, by rw [Run.attempt, hend], hends, fun _ heq => by cases heq⟩
  | outOfFuel =>
      refine .inr ⟨.outOfFuel, trivial, fun stop hsame => ?_⟩
      rw [Run.bind_apply, Run.attempt, hsame]
  | raised signal k =>
      rw [hend] at hends
      cases signal with
      | returned value =>
          refine .inl ⟨.error (.returned value), k, by rw [Run.attempt, hend], hends, ?_⟩
          exact fun _ heq => by cases heq
      | exited exit s r =>
          refine .inl ⟨.error (.exited exit s r), k, by rw [Run.attempt, hend], hends.1, ?_⟩
          exact fun _ heq => by cases heq
      | failed fault =>
          exact .inr ⟨.raised (.failed fault) k, hends, fun stop hsame =>
            attempt_bind_of_failed hfailed hsame⟩

theorem broken_attempt_bind (hrun : Contained taken own run h)
    (hfailed : ∀ stop fault, next stop (.error (.failed fault)) = Run.raise (.failed fault))
    (stop : Breakpoint) : run stop h = run never h ∨ ∃ (m : Point) (fault : Fault),
      stop m.node m.frame m.heap = some fault ∧
        ((run stop).attempt >>= next stop) h = .raised (.failed fault) m.heap ∧
          Passes (fun stop => (run stop).attempt >>= next stop) h m := by
  rcases hrun.broken stop with hsame | ⟨m, fault, hstop, hend, hpasses⟩
  · exact .inl hsame
  · exact .inr ⟨m, fault, hstop, attempt_bind_of_failed hfailed hend,
      passes_attempt_bind hfailed hpasses⟩

/-- What comes after a computation, which may take up its signals but none of its failures. -/
theorem attempt_bind (hrun : Contained taken own run h)
    (hfailed : ∀ stop fault, next stop (.error (.failed fault)) = Run.raise (.failed fault))
    (htaken : ∀ x m, taken x m → other x m)
    (hexited : ∀ x : Leaving, Passes run h x.point → run never h = x.ending → own x.exit x.span →
      next never (.error (.exited x.exit x.span x.frame)) x.heap = x.ending ∨
        ∃ m, other x m ∧ Passes (fun stop => (run stop).attempt >>= next stop) h m)
    (hnext : ∀ result k, (run never).attempt h = .done result k → k.Scoped →
      (∀ fault, result ≠ .error (.failed fault)) →
        Contained other wider (fun stop => next stop result) k) :
    Contained other wider (fun stop => (run stop).attempt >>= next stop) h := by
  have hfirst : ∀ x : Leaving, Passes run h x.point →
      ((run never).attempt >>= next never) h = x.ending ∨
        ∃ m, other x m ∧ Passes (fun stop => (run stop).attempt >>= next stop) h m := by
    intro x hx
    rcases hrun.caught x hx with hend | ⟨m, hm, hpasses⟩
    · have hends := hrun.ends
      rw [hend] at hends
      rcases hexited x hx hend hends.2 with hpassed | htakes
      · refine .inl ?_
        rw [Run.bind_apply, Run.attempt, hend]
        exact hpassed
      · exact .inr htakes
    · exact .inr ⟨m, htaken x m hm, passes_attempt_bind hfailed hpasses⟩
  rcases hrun.goesOn_or_ends wider hfailed with
    ⟨result, k, hend, hk, hnot⟩ | ⟨ending, hwithin, hconst⟩
  · have hrest := hnext result k hend hk hnot
    have hsame : ∀ stop, run stop h = run never h →
        ((run stop).attempt >>= next stop) h = next stop result k := fun stop =>
      attempt_bind_of_done hend
    refine ⟨?_, fun stop => ?_, fun m hm => ?_, fun x hx => ?_⟩
    · rw [hsame never rfl]
      exact hrest.ends
    · rcases hrun.broken_attempt_bind hfailed stop with heq | hm
      · rw [hsame stop heq, hsame never rfl]
        rcases hrest.broken stop with heq' | ⟨m, fault, hstop, hended, hpasses⟩
        · exact .inl heq'
        · have hcomes := hrun.passes_attempt_bind_of_next hfailed hend hpasses
          exact .inr ⟨m, fault, hstop, hended, hcomes⟩
      · exact .inr hm
    · rcases hrun.passes_or m with hfirstm | heq
      · exact hrun.points m hfirstm
      · exact hrest.points m fun fault => (hsame _ (heq fault)).symm.trans (hm fault)
    · rcases hrun.passes_or x.point with hfirstx | heq
      · exact hfirst x hfirstx
      · rw [hsame never rfl]
        rcases hrest.caught x fun fault => (hsame _ (heq fault)).symm.trans (hx fault) with
          hended | ⟨m, hm, hpasses⟩
        · exact .inl hended
        · exact .inr ⟨m, hm, hrun.passes_attempt_bind_of_next hfailed hend hpasses⟩
  · refine ⟨?_, fun stop => ?_, fun m hm => ?_, fun x hx => ?_⟩
    · rw [hconst never rfl]
      exact hwithin
    · rcases hrun.broken_attempt_bind hfailed stop with heq | hm
      · exact .inl ((hconst stop heq).trans (hconst never rfl).symm)
      · exact .inr hm
    · rcases hrun.passes_or m with hfirstm | heq
      · exact hrun.points m hfirstm
      · exact absurd hm (not_passes_of_const fun fault => hconst _ (heq fault))
    · rcases hrun.passes_or x.point with hfirstx | heq
      · exact hfirst x hfirstx
      · exact absurd hx (not_passes_of_const fun fault => hconst _ (heq fault))

end Attempts

theorem imp (hrun : Contained taken own run h) (hown : ∀ exit s, own exit s → wider exit s) :
    Contained taken wider run h :=
  ⟨hrun.ends.imp hown, hrun.broken, hrun.points, hrun.caught⟩

theorem imp_taken (hrun : Contained taken own run h) (htaken : ∀ x m, taken x m → other x m) :
    Contained other own run h := by
  refine ⟨hrun.ends, hrun.broken, hrun.points, fun x hx => ?_⟩
  rcases hrun.caught x hx with hend | ⟨m, hm, hpasses⟩
  · exact .inl hend
  · exact .inr ⟨m, htaken x m hm, hpasses⟩

theorem or_taken (hrun : Contained taken own run h) :
    Contained (fun x m => taken x m ∨ other x m) own run h :=
  hrun.imp_taken fun _ _ => .inl

/-- Goes on after a result only. -/
def andThen (next : α → Run β) : Except Signal α → Run β
  | .ok a => next a
  | .error signal => Run.raise signal

theorem bind {next : Breakpoint → α → Run β} (hrun : Contained taken own run h)
    (hnext : ∀ a k, run never h = .done a k → k.Scoped →
      Contained taken own (fun stop => next stop a) k) :
    Contained taken own (fun stop => run stop >>= next stop) h := by
  have hends := hrun.ends
  have hattempt : Contained taken own
      (fun stop => (run stop).attempt >>= andThen (next stop)) h := by
    refine attempt_bind hrun (fun _ _ => rfl) (fun _ _ => id) (fun _ _ _ _ => .inl rfl) ?_
    intro result k hend hk hnot
    unfold Run.attempt at hend
    cases hrunh : run never h with
    | done a l =>
        rw [hrunh] at hend
        cases hend
        exact hnext a k hrunh hk
    | raised signal l =>
        rw [hrunh] at hend hends
        cases hend
        cases signal <;> exact plain hends
    | outOfFuel =>
        rw [hrunh] at hend
        cases hend
  refine hattempt.congr fun stop => ?_
  simp only [Run.bind_apply, Run.attempt]
  cases run stop h <;> rfl

theorem read_bind {g : Heap → α} {next : Breakpoint → α → Run β}
    (hnext : Contained taken own (fun stop => next stop (g h)) h) :
    Contained taken own (fun stop => Run.read g >>= next stop) h :=
  hnext.congr fun _ => rfl

theorem make_bind {g : Heap → α × Heap} {next : Breakpoint → α → Run β}
    (hnext : Contained taken own (fun stop => next stop (g h).1) (g h).2) :
    Contained taken own (fun stop => Run.make g >>= next stop) h :=
  hnext.congr fun _ => rfl

theorem change_bind {g : Heap → Heap} {next : Breakpoint → Unit → Run β}
    (hnext : Contained taken own (fun stop => next stop ()) (g h)) :
    Contained taken own (fun stop => Run.change g >>= next stop) h :=
  hnext.congr fun _ => rfl

end Contained

end Evaluation

end CapsuleScript
