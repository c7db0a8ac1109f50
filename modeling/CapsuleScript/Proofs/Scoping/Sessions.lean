import CapsuleScript.Proofs.Evaluation.Lookup
import CapsuleScript.Proofs.Scoping.Constructs
import CapsuleScript.Proofs.Session.Atomicity

/-! Sessions whose programs leave loops only from the bodies of loops. Main statement: no program of
such a session fails because it leaves a loop outside of one, the body of no function ends with the
signal of a loop, and each such signal is taken up by the innermost loop in whose body the statement
stands that raises it. -/

namespace CapsuleScript

open Heap

namespace Evaluation

variable {h : Heap} {f : FrameId} {limits : Limits} {fuel : Nat}

/-! ### All nodes -/

/-- The loop that is evaluated at the point `m` takes up the signal `x`. A turn of the loop begins
at the point `t`, comes to the statement that raises the signal and ends with the signal; the loop
then stops or goes on in the frame in which it resumes. The statement stands in the body of the
loop, outside of functions and of the bodies of other loops. -/
def TakesUp (limits : Limits) (x : Leaving) (m : Point) : Prop :=
  ∃ (fuel : Nat) (t : Point), m.node.loopBody? = some t.node ∧
    Passes (fun stop => evalUntil stop limits (fuel + 1) m.node m.frame) m.heap t ∧
    Passes (fun stop => evalUntil stop limits fuel t.node t.frame) t.heap x.point ∧
    turn (eval limits fuel) t.node t.frame t.heap =
      .done ⟨x.exit = .next, none, x.heap.resume t.frame x.frame⟩ x.heap ∧
    t.node.Leaves x.exit x.span

variable {taken : Leaving → Point → Prop} {sub : Breakpoint → Evaluator} {inLoop : Bool}

/-- Every node contains the signals of loops, and a loop takes up those of its turns. -/
theorem contained_node (hsub : Scopes taken sub) (limits : Limits) (bound : Nat) (hh : h.Scoped)
    {n : Node} (hn : n.isScoped inLoop = true) :
    Contained (fun x m => taken x m ∨ ∃ body, n.loopBody? = some body ∧ IsTurn sub body x m)
      n.Leaves (fun stop => node limits bound (sub stop) n f) h := by
  have hloop : ∀ {own run body}, n.loopBody? = some body →
      Contained (α := Outcome) (fun x m => taken x m ∨ IsTurn sub body x m) own run h →
      Contained (fun x m => taken x m ∨ ∃ body, n.loopBody? = some body ∧ IsTurn sub body x m)
        own run h := by
    intro own run body hbody hrun
    refine hrun.imp_taken fun x m htaken => ?_
    rcases htaken with htaken | hturn
    · exact .inl htaken
    · exact .inr ⟨body, hbody, hturn⟩
  cases n with
  | number => exact .plain (.pure hh)
  | text => exact .plain (.pure hh)
  | list span elements =>
      refine .or_taken (.bind (contained_values hsub hh hn fun _ _ => id) ?_)
      exact fun _ _ _ hk => .plain (.pure hk)
  | binary span op left right => exact (contained_binary hsub hh hn).or_taken
  | unary span op operand =>
      have hoperand : operand.isScoped inLoop = true := hn
      exact (contained_unary hsub hh hoperand).or_taken
  | assign span name topLevel value =>
      have hvalue : value.isScoped inLoop = true := hn
      exact (contained_assign hsub hh hvalue).or_taken
  | ident span name =>
      refine .read_bind ?_
      cases h.lookup f name with
      | some v => exact .plain (.pure hh)
      | none => exact .plain (.fail hh nofun)
  | block span mayDeclare body => exact (contained_block hsub hh hn).or_taken
  | conditional => exact (contained_conditional hsub hh hn).or_taken
  | function span name params autoReturn body => exact .plain (within_function hh hn _ _ _)
  | declaration span name placeholder => exact .plain (within_declaration hh hn _)
  | call span callee arguments => exact (contained_call hsub hh hn).or_taken
  | result span value => exact (contained_result hsub hh hn).or_taken
  | stopLoop span => exact .plain ⟨hh, false, rfl, rfl, rfl⟩
  | nextTurn span => exact .plain ⟨hh, false, rfl, rfl, rfl⟩
  | whileLoop span condition body =>
      simp only [Node.isScoped, Bool.and_eq_true] at hn
      exact hloop rfl (contained_whileTurns hsub hh hn.1 hn.2)
  | forLoop => exact hloop rfl (contained_forLoop hsub hh hn)
  | encap => exact (contained_encap hsub hh hn).or_taken
  | prev span expression =>
      have hinner : expression.isScoped inLoop = true := hn
      exact (contained_prev hsub hh hinner).or_taken

theorem evalUntil_of_some {stop : Breakpoint} {n : Node} {fault : Fault}
    (hstop : stop n f h = some fault) :
    evalUntil stop limits (fuel + 1) n f h = .raised (.failed fault) h := by
  simp only [evalUntil, Run.bind_apply, Run.read, hstop]
  rfl

theorem evalUntil_of_none {stop : Breakpoint} {n : Node} (hstop : stop n f h = none) :
    evalUntil stop limits (fuel + 1) n f h =
      node limits fuel (evalUntil stop limits fuel) n f h := by
  simp only [evalUntil, Run.bind_apply, Run.read, hstop]

theorem evalUntil_never (limits : Limits) (fuel : Nat) :
    evalUntil never limits fuel = eval limits fuel :=
  evalUntil_none limits fuel

theorem passes_evalUntil_self (n : Node) :
    Passes (fun stop => evalUntil stop limits (fuel + 1) n f) h ⟨n, f, h⟩ :=
  fun fault => evalUntil_of_some (onlyAt_self ⟨n, f, h⟩ fault)

theorem passes_evalUntil {n : Node} {m : Point}
    (hm : Passes (fun stop => node limits fuel (evalUntil stop limits fuel) n f) h m) :
    Passes (fun stop => evalUntil stop limits (fuel + 1) n f) h m := by
  by_cases hself : (⟨n, f, h⟩ : Point) = m
  · subst hself
    exact passes_evalUntil_self n
  · exact fun fault => (evalUntil_of_none (onlyAt_of_ne hself)).trans (hm fault)

theorem passes_of_passes_evalUntil {n : Node} {m : Point} (hne : (⟨n, f, h⟩ : Point) ≠ m)
    (hm : Passes (fun stop => evalUntil stop limits (fuel + 1) n f) h m) :
    Passes (fun stop => node limits fuel (evalUntil stop limits fuel) n f) h m :=
  fun fault => (evalUntil_of_none (onlyAt_of_ne hne)).symm.trans (hm fault)

/-- A turn of the loop that is evaluated takes up its signals. -/
theorem takesUp_of_isTurn {n body : Node} (hbody : n.loopBody? = some body) {x : Leaving}
    {m : Point} (hturn : IsTurn (fun stop => evalUntil stop limits fuel) body x m)
    (hm : Passes (fun stop => node limits fuel (evalUntil stop limits fuel) n f) h m) :
    TakesUp limits x ⟨n, f, h⟩ := by
  have hend : eval limits fuel m.node m.frame m.heap = x.ending := by
    rw [← evalUntil_never]
    exact hturn.ends
  refine ⟨fuel, m, by rw [hbody, hturn.node], passes_evalUntil hm, hturn.passes, ?_, hturn.leaves⟩
  simp only [turn, Run.bind_apply, Run.attempt, hend]
  rfl

/-- Every evaluation contains the signals of loops. -/
theorem scopes_evalUntil (limits : Limits) (fuel : Nat) :
    Scopes (TakesUp limits) (fun stop => evalUntil stop limits fuel) := by
  induction fuel with
  | zero => exact ⟨fun _ _ => .plain trivial, fun _ => .inl rfl⟩
  | succ fuel ih =>
      refine ⟨fun {n f h inLoop} hh hn => ?_, fun m => .inr (passes_evalUntil_self m.node)⟩
      have hnode := contained_node (f := f) ih limits fuel hh hn
      have hnever : evalUntil never limits (fuel + 1) n f h =
          node limits fuel (evalUntil never limits fuel) n f h := evalUntil_of_none rfl
      refine ⟨?_, fun stop => ?_, fun m hm => ?_, fun x hx => ?_⟩
      · rw [hnever]
        exact hnode.ends
      · cases hstop : stop n f h with
        | some fault =>
            exact .inr ⟨⟨n, f, h⟩, fault, hstop, evalUntil_of_some hstop, passes_evalUntil_self n⟩
        | none =>
            rw [evalUntil_of_none hstop, hnever]
            rcases hnode.broken stop with hsame | ⟨m, fault, hfound, hend, hm⟩
            · exact .inl hsame
            · exact .inr ⟨m, fault, hfound, hend, passes_evalUntil hm⟩
      · by_cases hself : (⟨n, f, h⟩ : Point) = m
        · subst hself
          exact hh
        · exact hnode.points m (passes_of_passes_evalUntil hself hm)
      · rw [hnever]
        by_cases hself : (⟨n, f, h⟩ : Point) = x.point
        · obtain ⟨exit, span, r, l⟩ := x
          cases hself
          cases exit <;> exact .inl rfl
        · rcases hnode.caught x (passes_of_passes_evalUntil hself hx) with hend | ⟨m, htaken, hm⟩
          · exact .inl hend
          · refine .inr ?_
            rcases htaken with htaken | ⟨body, hbody, hturn⟩
            · exact ⟨m, htaken, passes_evalUntil hm⟩
            · exact ⟨⟨n, f, h⟩, takesUp_of_isTurn hbody hturn hm, passes_evalUntil_self n⟩

theorem contained_programFrom (hsub : Scopes taken sub) (hh : h.Scoped) {body : List Node}
    (hbody : Node.allScoped false body = true) {outcome : Outcome} :
    Contained taken (fun _ _ => False) (fun stop => programFrom (sub stop) body outcome) h := by
  induction body generalizing h outcome with
  | nil => exact .plain (.pure hh)
  | cons statement rest ih =>
      simp only [Node.allScoped, Bool.and_eq_true] at hbody
      have hnot : ∀ {exit s}, ¬ statement.Leaves exit s := Node.not_leaves_of_isScoped hbody.1
      have hstatement : Contained taken statement.Leaves
          (fun stop => sub stop statement outcome.frame) h := hsub.contained hh hbody.1
      refine .attempt_bind hstatement (fun _ _ => rfl) (fun _ _ => id) ?_ ?_
      · exact fun x _ _ hleaves => absurd hleaves hnot
      · intro result k hend hk hfailed
        cases result with
        | ok next => exact ih hk hbody.2
        | error signal =>
            cases signal with
            | returned value => exact .plain (.pure hk)
            | exited exit s r =>
                have hends := hstatement.ends
                rw [Run.Signals.of_attempt hend] at hends
                exact absurd hends.2 hnot
            | failed fault => exact absurd rfl (hfailed fault)

/-- A program contains all signals of its loops. -/
theorem contained_programUntil (limits : Limits) (fuel : Nat) (hh : h.Scoped) {n : Node}
    (hn : n.isScoped false = true) :
    Contained (TakesUp limits) (fun _ _ => False) (fun stop => programUntil stop limits fuel n f)
      h := by
  have hsub := scopes_evalUntil limits fuel
  cases n with
  | block span mayDeclare body => exact contained_programFrom hsub hh hn
  | _ =>
      exact (hsub.contained hh hn).imp fun _ _ hleaves => Node.not_leaves_of_isScoped hn hleaves

/-- The body of no function ends with the signal of a loop. -/
theorem eval_body_ne_ending (hh : h.Scoped) (g : FunctionId) (x : Leaving) :
    eval limits fuel (h.function g).body f h ≠ x.ending := by
  intro hend
  have hends := ((scopes_evalUntil limits fuel).contained (f := f) hh (hh g)).ends
  rw [evalUntil_never, hend] at hends
  exact Node.not_leaves_of_isScoped (hh g) hends.2

end Evaluation

/-! ### Sessions -/

/-- Whether each statement of the program that leaves a loop stands in the body of one, with no
function between them. A text that is no program has none. -/
def Submission.isScoped (p : Submission) : Bool :=
  match Token.readAll p.source p.text with
  | .error _ => true
  | .ok tokens =>
    match Node.ofTokens tokens with
    | .error _ => true
    | .ok program => program.isScoped false

namespace Session

open Evaluation

variable {s : Session} {p : Submission}

/-- A session after programs of this kind only. -/
inductive Disciplined : Session → Prop where
  | start (limits : Limits) : Disciplined (start limits)
  | submit {s : Session} (p : Submission) :
      Disciplined s → p.isScoped = true → Disciplined (s.submit p).2

/-- While the program runs in the session, the evaluation at the point begins. -/
def Passes (s : Session) (p : Submission) (m : Point) : Prop :=
  ∃ program, Node.ofSource p.source p.text = .ok program ∧
    Evaluation.Passes (fun stop => programUntil stop s.limits p.fuel program s.nextFrame.1)
      s.nextFrame.2 m

theorem isScoped_ofSource (hp : p.isScoped = true) {program : Node}
    (hread : Node.ofSource p.source p.text = .ok program) : program.isScoped false = true := by
  obtain ⟨tokens, parsed, htokens, hparsed, rfl⟩ := Node.ofSource_eq_ok_iff.mp hread
  simp only [Submission.isScoped, htokens, hparsed] at hp
  exact (Node.isScoped_hoist false parsed).1.trans hp

theorem scoped_start (limits : Limits) : (start limits).heap.Scoped := by
  intro g
  have hdefault : (start limits).heap.function g = default := rfl
  rw [hdefault]
  rfl

/-- How a program of the kind ends in a session after such programs. -/
theorem within_program (hs : s.heap.Scoped) (fuel : Nat) {program : Node}
    (hprogram : program.isScoped false = true) :
    (Evaluation.program s.limits fuel program s.nextFrame.1 s.nextFrame.2).Within
      fun _ _ => False := by
  have hnext : s.nextFrame.2.Scoped := hs.of_functions rfl
  have hends := (contained_programUntil (f := s.nextFrame.1) s.limits fuel hnext hprogram).ends
  rwa [show programUntil never s.limits fuel = Evaluation.program s.limits fuel from
    programUntil_none s.limits fuel] at hends

theorem scoped_execute (hs : s.heap.Scoped) (fuel : Nat) {program : Node}
    (hprogram : program.isScoped false = true) : (s.execute fuel program).2.heap.Scoped := by
  have hends := within_program hs fuel hprogram
  rw [execute_eq]
  cases hend : Evaluation.program s.limits fuel program s.nextFrame.1 s.nextFrame.2 with
  | done outcome k =>
      rw [hend] at hends
      exact hends
  | outOfFuel => exact hs
  | raised signal k =>
      rw [hend] at hends
      cases signal with
      | returned value => exact hends
      | exited exit span r => exact hends.1
      | failed fault => exact hends.1

theorem Disciplined.scoped (hs : s.Disciplined) : s.heap.Scoped := by
  induction hs with
  | start limits => exact scoped_start limits
  | @submit s p _ hp ih =>
      unfold Session.submit Session.run
      cases hread : Node.ofSource p.source p.text with
      | error e => exact ih.of_functions functions_collect
      | ok program =>
          have hexecuted := scoped_execute ih p.fuel (isScoped_ofSource hp hread)
          exact hexecuted.of_functions functions_collect

/-- A program that ends within its loops does not fail for leaving one. -/
theorem kind_ne_of_submit (hs : s.heap.Scoped) (hp : p.isScoped = true) {fault : Fault}
    {message : String} (hfailed : (s.submit p).1 = .failed fault message) (exit : LoopExit) :
    fault.kind ≠ .outsideLoop exit := by
  cases hending : s.ending? p with
  | none =>
      obtain ⟨e, hsubmit⟩ := submit_of_no_ending hending
      rw [hsubmit] at hfailed
      cases hfailed
  | some ending =>
      obtain ⟨program, hread, rfl⟩ := ending?_eq_some_iff.mp hending
      rw [submit_of_ending hending] at hfailed
      have hends := within_program hs p.fuel (isScoped_ofSource hp hread)
      generalize Evaluation.program s.limits p.fuel program s.nextFrame.1 s.nextFrame.2 = ending
        at hfailed hends
      cases ending with
      | done outcome k => cases hfailed
      | outOfFuel => cases hfailed
      | raised signal k =>
          cases signal with
          | returned value => cases hfailed
          | exited exit span r => exact hends.2.elim
          | failed found =>
              cases hfailed
              exact hends.2 exit

/-- In a session after programs in which each statement that leaves a loop stands in the body of
one, a further such program does not fail for leaving a loop; wherever it is, the body of no
function of its heap ends with the signal of a loop; and each signal that is raised is taken up by
the innermost loop in whose body the statement stands. -/
theorem takesUp_of_passes (hs : s.Disciplined) (hp : p.isScoped = true) :
    (∀ fault message exit, (s.submit p).1 = .failed fault message →
      fault.kind ≠ .outsideLoop exit) ∧
    (∀ m, s.Passes p m → ∀ (g : FunctionId) (fuel : Nat) (f : FrameId) (x : Leaving),
      eval s.limits fuel (m.heap.function g).body f m.heap ≠ x.ending) ∧
    ∀ x : Leaving, s.Passes p x.point → ∃ m, s.Passes p m ∧ TakesUp s.limits x m := by
  have hnext : s.nextFrame.2.Scoped := hs.scoped.of_functions rfl
  refine ⟨fun fault message exit hfailed => kind_ne_of_submit hs.scoped hp hfailed exit, ?_, ?_⟩
  · rintro m ⟨program, hread, hm⟩ g fuel f x
    have hprogram := contained_programUntil (f := s.nextFrame.1) s.limits p.fuel hnext
      (isScoped_ofSource hp hread)
    exact eval_body_ne_ending (hprogram.points m hm) g x
  · rintro x ⟨program, hread, hx⟩
    have hprogram := contained_programUntil (f := s.nextFrame.1) s.limits p.fuel hnext
      (isScoped_ofSource hp hread)
    rcases hprogram.caught x hx with hend | ⟨m, htaken, hm⟩
    · have hends := hprogram.ends
      rw [hend] at hends
      exact hends.2.elim
    · exact ⟨m, ⟨program, hread, hm⟩, htaken⟩

/-- A program with a loop that stops at once. -/
def stopping : Submission := ⟨"<stdin>", "r = \x7b while true \x7b break \x7d \x7d", 20⟩

/-- Breaks off before a loop is stopped. -/
def beforeStop : Breakpoint
  | .stopLoop span, f, _ => some ⟨.illegalOperation, span, some f⟩
  | _, _, _ => none

/-- Whether the program ends with a value, if it may be broken off. -/
def endsUntil (s : Session) (stop : Breakpoint) (p : Submission) : Bool :=
  match Node.ofSource p.source p.text with
  | .error _ => false
  | .ok program =>
    (programUntil stop s.limits p.fuel program s.nextFrame.1 s.nextFrame.2).passes fun _ _ => true

/-- The signal of the program is raised, and its loop takes it up. -/
theorem takesUp_stopping : ∃ x m, (start {}).Passes stopping x.point ∧
    (start {}).Passes stopping m ∧ TakesUp {} x m := by
  have hscoped : stopping.isScoped = true := by cbv
  have hends : (start {}).endsUntil never stopping = true := by cbv
  have hbroken : (start {}).endsUntil beforeStop stopping = false := by cbv
  unfold endsUntil at hends hbroken
  cases hread : Node.ofSource stopping.source stopping.text with
  | error e =>
      rw [hread] at hends
      cases hends
  | ok program =>
      rw [hread] at hends hbroken
      have hnext : (start {}).nextFrame.2.Scoped := (scoped_start {}).of_functions rfl
      have hprogram := contained_programUntil (f := (start {}).nextFrame.1) (start {}).limits
        stopping.fuel hnext (isScoped_ofSource hscoped hread)
      rcases hprogram.broken beforeStop with hsame | ⟨m, fault, hstop, -, hm⟩
      · simp only [hsame] at hbroken hends
        exact absurd (hbroken.symm.trans hends) Bool.false_ne_true
      · obtain ⟨n, f, h⟩ := m
        cases n with
        | stopLoop span =>
            have hx : (start {}).Passes stopping (Leaving.point ⟨.stop, span, f, h⟩) :=
              ⟨program, hread, hm⟩
            obtain ⟨m, hpasses, htakes⟩ :=
              (takesUp_of_passes (.start {}) hscoped).2.2 ⟨.stop, span, f, h⟩ hx
            exact ⟨⟨.stop, span, f, h⟩, m, hx, hpasses, htakes⟩
        | _ => cases hstop

end Session

end CapsuleScript
