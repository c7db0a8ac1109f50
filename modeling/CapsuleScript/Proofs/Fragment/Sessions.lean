import CapsuleScript.Proofs.Fragment.Constructs
import CapsuleScript.Proofs.Scoping.Sessions
import CapsuleScript.Proofs.Session.Atomicity

/-! The empty value in sessions. It is what a program without declarations ends with, and it is not
to be seen anywhere else. Main statement: between programs, before each evaluation of a run and after
it, no name is bound to the empty value and no value has it in it, nothing that is evaluated or
returned is the empty value, and a run ends with it just if its program has no declaration. -/

namespace CapsuleScript

open Heap

variable {L : Fragment} {broken : Prop} {h : Heap} {f : FrameId}

namespace Evaluation

/-- A program ends with a value of the fragment, or as it started if it has no declaration. -/
theorem belongs_programFrom {sub : Evaluator} (hsub : sub.Belongs L broken) {body : List Node}
    (hn : Node.AllBelong L body) {outcome : Outcome} (hh : h.Belongs L) :
    Run.Belongs L broken (programFrom sub body outcome) h fun out =>
      out.Belongs L ∨ body = [] ∧ out = outcome := by
  induction body generalizing h outcome with
  | nil => exact .pure hh (.inr ⟨rfl, rfl⟩)
  | cons statement rest ih =>
      refine .bind (hsub hn.1 hh).attempt fun ending k hk hending => ?_
      cases ending with
      | ok next =>
          have hrest : Run.Belongs L broken (programFrom sub rest next) k fun out =>
              out.Belongs L ∨ rest = [] ∧ out = next := ih hn.2 hk
          refine Run.Belongs.imp hrest fun out hout => .inl ?_
          rcases hout with hbelongs | ⟨-, rfl⟩
          · exact hbelongs
          · exact hending
      | error signal =>
          cases signal with
          | returned result => exact .pure hk (.inl hending.2)
          | exited exit s r => exact .raise hk hending
          | failed fault => exact .raise hk hending

theorem belongs_programUntil {stop : Breakpoint}
    (hstop : ∀ n f h fault, n.Belongs L → stop n f h = some fault → broken) (limits : Limits)
    (fuel : Nat) (span : Span) (mayDeclare : Bool) {body : List Node} (hn : Node.AllBelong L body)
    (hh : h.Belongs L) :
    Run.Belongs L broken (programUntil stop limits fuel (.block span mayDeclare body) f) h fun out =>
      out.Belongs L ∨ body = [] ∧ out = give .empty span f :=
  belongs_programFrom (belongs_evalUntil hstop limits fuel) hn hh

/-- At every point that a program comes to, the heap and the node are of the fragment: otherwise the
program could not be broken off there with the failure of a loop signal. -/
theorem belongs_of_passes {limits : Limits} {fuel : Nat} {span : Span} {mayDeclare : Bool}
    {body : List Node} (hn : Node.AllBelong L body) (hh : h.Belongs L) {m : Point}
    (hm : Passes (fun stop => programUntil stop limits fuel (.block span mayDeclare body) f) h m) :
    m.heap.Belongs L ∧ m.node.Belongs L := by
  let fault : Fault := ⟨.outsideLoop .stop, m.node.span, none⟩
  have hstop : ∀ n f h found, n.Belongs L → onlyAt m fault n f h = some found →
      m.node.Belongs L := by
    intro n f h found hbelongs hfound
    have hsame : (⟨n, f, h⟩ : Point) = m := (eq_of_onlyAt hfound).1
    rw [← hsame]
    exact hbelongs
  have hends : Run.Belongs L (m.node.Belongs L) _ h _ :=
    belongs_programUntil (f := f) hstop limits fuel span mayDeclare hn hh
  have hbroken : programUntil (onlyAt m fault) limits fuel (.block span mayDeclare body) f h =
      .raised (.failed fault) m.heap := hm fault
  unfold Run.Belongs at hends
  rw [hbroken] at hends
  exact ⟨hends.1, hends.2.resolve_right fun hkind => hkind .stop rfl⟩

end Evaluation

/-- The declarations of a program. A text that is no program has none. -/
def Submission.declarations (p : Submission) : List Node :=
  match Token.readAll p.source p.text with
  | .error _ => []
  | .ok tokens =>
    match Node.ofTokens tokens with
    | .ok (.block _ _ declarations) => declarations
    | _ => []

/-- A program is read as a block of the whole language, which is without statements just if there are
no declarations. -/
theorem Node.exists_allBelong_ofSource {p : Submission} {program : Node}
    (hread : Node.ofSource p.source p.text = .ok program) :
    ∃ span body, program = .block span true body ∧ AllBelong .whole body ∧
      (body = [] ↔ p.declarations = []) := by
  obtain ⟨tokens, parsed, htokens, hparsed, rfl⟩ := Node.ofSource_eq_ok_iff.mp hread
  obtain ⟨span, declarations, rfl, hbelong⟩ := grammar_belongs.exists_declarations hparsed
  have hhoisted := (allBelong_iff.mpr hbelong).hoist
  have hdeclarations : p.declarations = declarations := by
    simp only [Submission.declarations, htokens, hparsed]
  refine ⟨span, _, rfl, hhoisted.2.append hhoisted.1, ?_⟩
  rw [hdeclarations]
  constructor
  · exact fun hnil => hoistAll_fst_eq_nil.mp (List.append_eq_nil_iff.mp hnil).2
  · rintro rfl
    rfl

/-- The value with which a program ends. -/
def Ending.value? : Ending Outcome → Option Value
  | .done outcome _ => some outcome.result.value
  | .raised signal _ => signal.toExcept.toOption.map Stamped.value
  | .outOfFuel => none

namespace Session

open Evaluation

variable {s : Session} {p : Submission}

theorem belongs_start (limits : Limits) : (start limits).heap.Belongs L := by
  refine ⟨fun t e he => ?_, fun g => ?_⟩
  · have htable : ((start limits).heap.table t).bindings = Heap.builtins ∨
        ((start limits).heap.table t).bindings = [] := by
      obtain ⟨index⟩ := t
      cases index with
      | zero => exact .inl rfl
      | succ index => exact .inr rfl
    rcases htable with hbuiltins | hnone
    · rw [hbuiltins] at he
      exact Heap.Belongs.builtins he
    · rw [hnone] at he
      cases he
  · have hdefault : (start limits).heap.function g = default := rfl
    rw [hdefault]
    trivial

theorem belongs_nextFrame (hs : s.heap.Belongs L) : s.nextFrame.2.Belongs L := by
  rw [nextFrame_eq]
  exact (hs.newTable _ (by simp)).addFrame _

/-- How a program ends in a session without the empty value. -/
theorem belongs_ending (hs : s.heap.Belongs .whole) {ending : Ending Outcome}
    (hending : s.ending? p = some ending) :
    ending.Belongs .whole False fun out =>
      out.Belongs .whole ∨ p.declarations = [] ∧ out.result.value = .empty := by
  obtain ⟨program, hread, rfl⟩ := ending?_eq_some_iff.mp hending
  obtain ⟨span, body, rfl, hbelong, hempty⟩ := Node.exists_allBelong_ofSource hread
  have hends : Run.Belongs .whole False (programFrom (eval s.limits p.fuel) body
      (give .empty span s.nextFrame.1)) s.nextFrame.2 _ :=
    belongs_programFrom (belongs_eval s.limits p.fuel) hbelong (belongs_nextFrame hs)
  refine Run.Belongs.imp hends fun out hout => hout.imp_right ?_
  rintro ⟨hnil, rfl⟩
  exact ⟨hempty.mp hnil, rfl⟩

/-- A program without declarations ends with the empty value. -/
theorem value?_of_declarations_nil (hnil : p.declarations = []) {ending : Ending Outcome}
    (hending : s.ending? p = some ending) : ending.value? = some .empty := by
  obtain ⟨program, hread, rfl⟩ := ending?_eq_some_iff.mp hending
  obtain ⟨span, body, rfl, -, hempty⟩ := Node.exists_allBelong_ofSource hread
  rw [hempty.mpr hnil]
  rfl

theorem belongs_after (hs : s.heap.Belongs .whole) (p : Submission) :
    (s.after (s.ending? p)).heap.Belongs .whole := by
  cases hending : s.ending? p with
  | none => exact hs
  | some ending =>
      have hends := belongs_ending hs hending
      cases ending with
      | done out k => exact hends.1
      | raised signal k => exact hends.1
      | outOfFuel => exact hs

theorem Reachable.belongs (hs : s.Reachable) : s.heap.Belongs .whole := by
  induction hs with
  | start limits => exact belongs_start limits
  | @submit s p _ ih =>
      rw [submit_snd_eq]
      exact (belongs_after ih p).collect _

/-- A program with a declaration ends with another value. -/
theorem belongs_value? (hs : s.heap.Belongs .whole) (hne : p.declarations ≠ [])
    {ending : Ending Outcome} (hending : s.ending? p = some ending) {v : Value}
    (hv : ending.value? = some v) : v.Belongs .whole := by
  have hends := belongs_ending hs hending
  cases ending with
  | done out k =>
      cases hv
      exact hends.2.resolve_right fun hempty => hne hempty.1
  | outOfFuel => cases hv
  | raised signal k =>
      cases signal <;> cases hv
      exact hends.2.2

/-- The run ends with a value if it is shown, and its text is shown. -/
theorem exists_value?_of_shown {text : String} (hshown : (s.submit p).1 = .shown text) :
    ∃ v, (s.ending? p).bind Ending.value? = some v ∧
      text = (s.after (s.ending? p)).heap.render v := by
  cases hending : s.ending? p with
  | none =>
      obtain ⟨e, hsubmit⟩ := submit_of_no_ending hending
      rw [hsubmit] at hshown
      cases hshown
  | some ending =>
      rw [submit_of_ending hending] at hshown
      cases ending with
      | done out k =>
          cases hshown
          exact ⟨_, rfl, rfl⟩
      | outOfFuel => cases hshown
      | raised signal k =>
          cases signal <;> cases hshown
          exact ⟨_, rfl, rfl⟩

/-- In every session and for every program: between programs, when the program has run and before
each of its evaluations, nothing that is bound is the empty value or has it in it; nothing that an
evaluation gives or returns is or has it either; and the program ends with the empty value just if it
has no declaration. -/
theorem empty_unseen_of_reachable (hs : s.Reachable) (p : Submission) :
    s.heap.Belongs .whole ∧ (s.after (s.ending? p)).heap.Belongs .whole ∧
    (∀ m, s.Passes p m → m.heap.Belongs .whole ∧ ∀ fuel,
      (eval s.limits fuel m.node m.frame m.heap).Belongs .whole False (Outcome.Belongs .whole)) ∧
    ∀ text, (s.submit p).1 = .shown text → ∃ v, (s.ending? p).bind Ending.value? = some v ∧
      text = (s.after (s.ending? p)).heap.render v ∧ (v = .empty ↔ p.declarations = []) ∧
      (v ≠ .empty → v.Belongs .whole) := by
  have hheap := hs.belongs
  refine ⟨hheap, belongs_after hheap p, ?_, fun text hshown => ?_⟩
  · rintro m ⟨program, hread, hm⟩
    obtain ⟨span, body, rfl, hbelong, -⟩ := Node.exists_allBelong_ofSource hread
    obtain ⟨hmheap, hmnode⟩ := belongs_of_passes hbelong (belongs_nextFrame hheap) hm
    exact ⟨hmheap, fun fuel => belongs_eval s.limits fuel hmnode hmheap⟩
  · obtain ⟨v, hv, htext⟩ := exists_value?_of_shown hshown
    obtain ⟨ending, hending, hvalue⟩ := Option.bind_eq_some_iff.mp hv
    refine ⟨v, hv, htext, ?_⟩
    by_cases hnil : p.declarations = []
    · have hempty : v = .empty :=
        Option.some.inj (hvalue.symm.trans (value?_of_declarations_nil hnil hending))
      exact ⟨iff_of_true hempty hnil, fun hne => absurd hempty hne⟩
    · have hbelongs : v.Belongs .whole := belongs_value? hheap hnil hending hvalue
      exact ⟨iff_of_false hbelongs.ne_empty hnil, fun _ => hbelongs⟩

/-- An object with a function that puts what it is given into a list, and a call of the function. -/
def listing : Submission :=
  ⟨"<stdin>", "p = encap \x7b f = fun: x -> [x] \x7d\nr = p => f: \"a\"", 20⟩

/-- The call gives a list, and a program of blank lines gives the empty value. -/
theorem empty_unseen_listing :
    (∃ v, ((start {}).ending? listing).bind Ending.value? = some v ∧ v ≠ .empty ∧
      v.Belongs .whole) ∧
    ∃ v, ((start {}).ending? ⟨"<stdin>", "\n\n", 1⟩).bind Ending.value? = some v ∧ v = .empty := by
  constructor
  · have hshown : ((start {}).submit listing).1 = .shown "[a]" := by cbv
    have hdeclarations : listing.declarations.length = 2 := by cbv
    obtain ⟨v, hv, -, hempty, hbelongs⟩ :=
      (empty_unseen_of_reachable (.start {}) listing).2.2.2 "[a]" hshown
    have hne : v ≠ .empty := by
      intro heq
      rw [hempty.mp heq] at hdeclarations
      cases hdeclarations
    exact ⟨v, hv, hne, hbelongs hne⟩
  · have hshown : ((start {}).submit ⟨"<stdin>", "\n\n", 1⟩).1 = .shown "" := by cbv
    have hdeclarations : Submission.declarations ⟨"<stdin>", "\n\n", 1⟩ = [] := by cbv
    obtain ⟨v, hv, -, hempty, -⟩ :=
      (empty_unseen_of_reachable (.start {}) ⟨"<stdin>", "\n\n", 1⟩).2.2.2 "" hshown
    exact ⟨v, hv, hempty.mpr hdeclarations⟩

end Session

end CapsuleScript
