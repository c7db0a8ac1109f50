import CapsuleScript.Proofs.Session.Atomicity
import CapsuleScript.Proofs.Session.Visibility
import Mathlib

/-! Declarations of names that are bound. A program that comes to the declaration of a name of its
session fails there, unless the name has lost its meaning or means a placeholder by then and is given
a function. The placeholder need not be what the session bound: the declarations of functions are put
in ahead of a program, whatever their names meant. Main statement: what a program does that comes to
the declaration of a name that its session binds. -/

namespace CapsuleScript

open Heap

/-! ### Programs and their declarations -/

namespace Node

theorem hoistAll_append (nodes others : List Node) : hoistAll (nodes ++ others) =
    ((hoistAll nodes).1 ++ (hoistAll others).1, (hoistAll nodes).2 ++ (hoistAll others).2) := by
  induction nodes with
  | nil => simp [hoistAll]
  | cons node rest ih => simp [hoistAll, ih]

/-- The declarations that a text consists of. -/
def declarations? (source text : String) : Option (List Node) :=
  match Token.readAll source text with
  | .ok tokens =>
    match Node.ofTokens tokens with
    | .ok (.block _ true declarations) => some declarations
    | _ => none
  | .error _ => none

theorem ofSource_of_declarations? {source text : String} {declarations : List Node}
    (hread : declarations? source text = some declarations) : ∃ span, Node.ofSource source text =
      .ok (.block span true ((hoistAll declarations).2 ++ (hoistAll declarations).1)) := by
  unfold declarations? at hread
  cases htokens : Token.readAll source text with
  | error e =>
      rw [htokens] at hread
      cases hread
  | ok tokens =>
      rw [htokens] at hread
      simp only at hread
      split at hread
      · rename_i span found hparsed
        cases hread
        exact ⟨span, Node.ofSource_eq_ok_iff.mpr ⟨tokens, _, htokens, hparsed, rfl⟩⟩
      · cases hread

end Node

namespace Evaluation

variable {fresh : Nat} {h k : Heap} {f g : FrameId} {sub : Evaluator}

/-- Statements of a program, one after the other, as long as none ends with a signal. They give the
frame in which the next one runs. -/
def leads (sub : Evaluator) : List Node → FrameId → Run FrameId
  | [], f => return f
  | statement :: rest, f => do
    let next ← sub statement f
    leads sub rest next.frame

theorem programFrom_cons_done {statement : Node} {rest : List Node} {outcome next : Outcome}
    (hend : sub statement outcome.frame h = .done next k) :
    programFrom sub (statement :: rest) outcome h = programFrom sub rest next k := by
  rw [programFrom, Run.bind_apply, Run.attempt, hend]

theorem programFrom_cons_failed {statement : Node} {rest : List Node} {outcome : Outcome}
    {fault : Fault} (hend : sub statement outcome.frame h = .raised (.failed fault) k) :
    programFrom sub (statement :: rest) outcome h = .raised (.failed fault) k := by
  rw [programFrom, Run.bind_apply, Run.attempt, hend]
  rfl

/-- A program goes on where its first statements have led it. -/
theorem programFrom_of_leads {lead : List Node} (hlead : leads sub lead f h = .done g k)
    (rest : List Node) (result : Stamped) : ∃ result',
      programFrom sub (lead ++ rest) ⟨result, f⟩ h = programFrom sub rest ⟨result', g⟩ k := by
  induction lead generalizing f h result with
  | nil =>
      cases hlead
      exact ⟨result, rfl⟩
  | cons statement lead ih =>
      rw [leads, Run.bind_apply] at hlead
      cases hend : sub statement f h with
      | done next l =>
          rw [hend] at hlead
          obtain ⟨result', hrest⟩ := ih hlead next.result
          refine ⟨result', ?_⟩
          rw [List.cons_append, programFrom_cons_done hend]
          exact hrest
      | raised signal l =>
          rw [hend] at hlead
          cases hlead
      | outOfFuel =>
          rw [hend] at hlead
          cases hlead

theorem evolves_leads (hsub : sub.Evolves) {lead : List Node} (hbody : Node.AllFit true lead)
    (hr : h.Ready fresh f) (hg : h.Writable fresh g) (hd : h.Descends f g) :
    (leads sub lead g).Evolves fresh h fun g k => k.Writable fresh g ∧ k.Descends f g := by
  induction lead generalizing h g with
  | nil => exact .pure ⟨hg, hd⟩
  | cons statement rest ih =>
      have hcurrent : h.Ready fresh g := ⟨hr.sound, hr.le, hg.1⟩
      apply Run.Evolves.bind hr.sound (hsub hcurrent hbody.1 fun _ => .inr hg)
      intro next k hk hs hnext
      exact ih hbody.2 (hr.steps hs) (hnext.writable rfl)
        (hnext.descends.trans (hd.keeps hr.sound hs.keeps hg.1))

/-! ### Declarations of names -/

/-- The name `name` of the program may be given the value `v` in the frame `f`: it has no meaning, or
`v` is a function and the name means a placeholder. -/
def Admits (h : Heap) (f : FrameId) (name : String) (v : Value) : Prop :=
  h.lookup f name = none ∨ (v.function?).isSome ∧ (h.placeholder? f name).isSome

theorem exists_bindingTarget (name label : String) (span : Span) (f : FrameId) (h : Heap) :
    ∃ target k, bindingTarget name label span f h = .done target k := by
  cases hbinds : h.bindsDirectly f name with
  | true => exact ⟨_, _, by rw [bindingTarget, Run.bind_apply, Run.read, hbinds]; rfl⟩
  | false => exact ⟨_, _, by rw [bindingTarget, Run.bind_apply, Run.read, hbinds]; rfl⟩

theorem exists_bindKept (span : Span) (name : String) (f : FrameId) (kept : Value) (h : Heap) :
    ∃ next k, bindKept span name f kept h = .done next k := by
  unfold bindKept
  split
  · exact ⟨_, _, rfl⟩
  · obtain ⟨target, k, htarget⟩ := exists_bindingTarget name name span f h
    rw [Run.bind_apply, htarget]
    exact ⟨_, _, rfl⟩

/-- What an assignment does with a value that does not define a placeholder. -/
theorem assign_of_not_defines {span : Span} {name : String} {node : Node} {given : Stamped}
    (hvalue : value sub node f h = .done given k)
    (hnot : ¬ ((given.value.function?).isSome ∧ (k.placeholder? f name).isSome)) :
    assign sub span name true node f h =
      if (k.lookup f name).isSome then .raised (.failed ⟨.alreadyBound name, span, some f⟩) k
      else bindKept span name f given.value k := by
  have hrest : assign sub span name true node f h = (do
      if true && (← Run.read fun heap => (heap.lookup f name).isSome) then
        Run.fail (.alreadyBound name) span f
      else bindKept span name f given.value : Run Outcome) k := by
    rw [assign_eq_bindKept, Run.bind_apply, hvalue]
    simp only
    rw [Run.bind_apply, Run.read]
    cases hp : k.placeholder? f name with
    | none => rfl
    | some p =>
        cases hv : given.value with
        | function g => exact absurd ⟨by rw [hv]; rfl, by rw [hp]; rfl⟩ hnot
        | _ => rfl
  rw [hrest, Run.bind_apply, Run.read]
  cases (k.lookup f name).isSome <;> rfl

theorem assign_of_admits {span : Span} {name : String} {node : Node} {given : Stamped}
    (hvalue : value sub node f h = .done given k) (hadmits : Admits k f name given.value) :
    ∃ next l, assign sub span name true node f h = .done next l := by
  by_cases hdefines : (given.value.function?).isSome ∧ (k.placeholder? f name).isSome
  · obtain ⟨p, hp⟩ := Option.isSome_iff_exists.mp hdefines.2
    cases hv : given.value with
    | function g =>
        rw [assign_eq_bindKept, Run.bind_apply, hvalue]
        simp only
        rw [Run.bind_apply, Run.read, hp, hv]
        exact exists_bindKept span name f (.function p) (k.initializeFrom p g)
    | _ =>
        rw [hv] at hdefines
        cases hdefines.1
  · have hnone : k.lookup f name = none := hadmits.resolve_right hdefines
    rw [assign_of_not_defines hvalue hdefines, hnone]
    exact exists_bindKept span name f given.value k

theorem assign_of_not_admits {span : Span} {name : String} {node : Node} {given : Stamped}
    (hvalue : value sub node f h = .done given k) (hadmits : ¬ Admits k f name given.value) :
    assign sub span name true node f h =
      .raised (.failed ⟨.alreadyBound name, span, some f⟩) k := by
  have hbound : (k.lookup f name).isSome = true :=
    Option.isSome_iff_ne_none.mpr fun hnone => hadmits (.inl hnone)
  rw [assign_of_not_defines hvalue fun hdefines => hadmits (.inr hdefines), if_pos hbound]

end Evaluation

namespace Session

open Evaluation

variable {s : Session} {n : String} {t : TableId}

theorem answer_of_failed {p : Submission} {program : Node} {fault : Fault} {k : Heap}
    (hread : Node.ofSource p.source p.text = .ok program)
    (hend : Evaluation.program s.limits p.fuel program s.nextFrame.1 s.nextFrame.2 =
      .raised (.failed fault) k) : (s.submit p).1 = .failed fault (fault.message k) := by
  rw [submit_of_ending (ending?_eq_some_iff.mpr ⟨program, hread, rfl⟩), hend]
  rfl

theorem mem_takeWhile_of_find? {α : Type} [DecidableEq α] {p : α → Bool} {l : List α} {a b : α}
    (hfind : l.find? p = some b) (ha : a ∈ l) (hpa : p a = true) (hne : b ≠ a) :
    b ∈ l.takeWhile (· ≠ a) := by
  induction l with
  | nil => cases hfind
  | cons c rest ih =>
      rw [List.find?_cons] at hfind
      cases hpc : p c with
      | true =>
          rw [hpc] at hfind
          cases hfind
          simp [hne]
      | false =>
          rw [hpc] at hfind
          have hca : c ≠ a := by
            rintro rfl
            rw [hpa] at hpc
            cases hpc
          have hrest : a ∈ rest := (List.mem_cons.mp ha).resolve_left hca.symm
          simp only [List.takeWhile_cons, ne_eq, hca, not_false_eq_true, decide_true, if_true]
          exact List.mem_cons_of_mem _ (ih hfind hrest)

/-- Why a name that was bound, to something other than a placeholder, may be given a value when the
session has come to `u`: its chain was cut, or a table that came in front of the one in which the
name was found binds it to a placeholder. -/
theorem Moves.cutSince_or_shadowed {u : Session} {v : Value} (hs : s.Sound) (hm : Moves s u)
    (ht : s.heap.holder? s.frame n = some t) (hdefined : s.heap.placeholder? s.frame n = none)
    (hadmits : Admits u.heap u.frame n v) : CutSince s u ∨ (v.function?).isSome ∧
      ∃ x ∈ u.heap.before u.frame t, x ∉ s.heap.before s.frame t ∧
        ∃ g, (u.heap.table x).bindings.get? n = some (.function g) ∧
          (u.heap.function g).initialized = false := by
  have hkeeps := hm.steps.keeps
  obtain ⟨hmem, hbinds, hfront⟩ := find?_eq_some_iff_takeWhile.mp ht
  have hscopes : ∀ x ∈ s.heap.scopes s.frame, s.heap.HasTable x := fun x hx =>
    hs.heap.rooted.hasTable_of_mem_chain (hs.heap.hasTable hs.hasFrame) hx
  have hbindings : ∀ x ∈ s.heap.scopes s.frame,
      (u.heap.table x).bindings = (s.heap.table x).bindings := fun x hx =>
    hkeeps.bindings (hscopes x hx) (hscopes x hx)
  rcases hm.scopes hs with hsub | hcut
  · refine .inr ?_
    have hmem' : t ∈ u.heap.scopes u.frame := hsub.subset hmem
    have hbinds' : (u.heap.table t).bindings.has n = true := by
      rw [hbindings t hmem]
      exact hbinds
    obtain ⟨x, hx⟩ : ∃ x, u.heap.holder? u.frame n = some x :=
      Option.isSome_iff_exists.mp (List.find?_isSome.mpr ⟨t, hmem', hbinds'⟩)
    have hxbinds : (u.heap.table x).bindings.has n = true :=
      (find?_eq_some_iff_takeWhile.mp hx).2.1
    have hlook : u.heap.lookup u.frame n = (u.heap.table x).bindings.get? n := lookup_of_holder? hx
    have hbound : (u.heap.lookup u.frame n).isSome = true := by
      rw [hlook]
      exact hxbinds
    -- The name has a meaning, so it is admitted only as a placeholder.
    obtain ⟨hfunction, hplaceholder⟩ := hadmits.resolve_left fun hnone => by
      rw [hnone] at hbound
      cases hbound
    obtain ⟨g, hg⟩ := Option.isSome_iff_exists.mp hplaceholder
    obtain ⟨hglook, hginit⟩ := placeholder?_eq_some.mp hg
    rw [hlook] at hglook
    have hne : x ≠ t := by
      rintro rfl
      rw [hbindings x hmem] at hglook
      have hold : s.heap.lookup s.frame n = some (.function g) :=
        (lookup_of_holder? ht).trans hglook
      have hhas : s.heap.HasFunction g := hs.heap.lives_of_lookup hold
      cases hinit : (s.heap.function g).initialized with
      | true =>
          rw [hkeeps.function hhas hinit, hinit] at hginit
          cases hginit
      | false =>
          rw [placeholder?_eq_some.mpr ⟨hold, hinit⟩] at hdefined
          cases hdefined
    refine ⟨hfunction, x, mem_takeWhile_of_find? hx hmem' hbinds' hne, fun hin => ?_, g, hglook,
      hginit⟩
    have hnot := hfront x hin
    rw [← hbindings x (List.takeWhile_subset _ hin)] at hnot
    exact Bool.false_ne_true (hnot.symm.trans hxbinds)
  · exact .inl hcut

section

variable {source text : String} {fuel : Nat} {pre post : List Node} {sp : Span} {e : Node}
  {f : FrameId} {h k : Heap} {given : Stamped}

/-- What runs before a declaration of a program: the declarations of all its functions, and the
declarations before it. -/
def leading (pre : List Node) (declaration : Node) (post : List Node) : List Node :=
  (Node.hoistAll (pre ++ declaration :: post)).2 ++ (Node.hoistAll pre).1

theorem leading_append (pre : List Node) (sp : Span) (n : String) (e : Node) (post : List Node) :
    (Node.hoistAll (pre ++ .assign sp n true e :: post)).2 ++
        (Node.hoistAll (pre ++ .assign sp n true e :: post)).1 =
      leading pre (.assign sp n true e) post ++
        .assign sp n true (Node.hoist e).1 :: (Node.hoistAll post).1 := by
  have hsecond : (Node.hoistAll (pre ++ .assign sp n true e :: post)).1 =
      (Node.hoistAll pre).1 ++ .assign sp n true (Node.hoist e).1 :: (Node.hoistAll post).1 := by
    rw [Node.hoistAll_append, ← Node.hoist_assign_fst]
    rfl
  rw [leading, hsecond, List.append_assoc]

/-- A program that has come to a declaration, and has the value for it, has moved its session. -/
theorem Sound.moves_leading (hs : s.Sound)
    (hread : Node.declarations? source text = some (pre ++ .assign sp n true e :: post))
    (hlead : leads (eval s.limits (fuel + 1)) (leading pre (.assign sp n true e) post)
      s.nextFrame.1 s.nextFrame.2 = .done f h)
    (hvalue : value (eval s.limits fuel) (Node.hoist e).1 f h = .done given k) :
    Moves s { s with heap := k, frame := f } := by
  obtain ⟨span, hsource⟩ := Node.ofSource_of_declarations? hread
  rw [leading_append] at hsource
  have hfits : Node.AllFit true (leading pre (.assign sp n true e) post ++
      .assign sp n true (Node.hoist e).1 :: (Node.hoistAll post).1) :=
    (Node.shape_ofSource hsource).2.2
  rw [Node.allFit_iff] at hfits
  have hleading : Node.AllFit true (leading pre (.assign sp n true e) post) :=
    Node.allFit_iff.mpr fun node hmem => hfits node (List.mem_append_left _ hmem)
  have hstatement : (Node.assign sp n true (Node.hoist e).1).IsStatement :=
    hfits _ (List.mem_append_right _ List.mem_cons_self)
  have hstep : Step s.heap.tables.size s.heap s.nextFrame.2 := hs.step_nextFrame
  obtain ⟨hr, hw⟩ := hs.ready_nextFrame
  obtain ⟨hsteps, hwritable, hdescends⟩ :=
    (evolves_leads (evolves_eval s.limits (fuel + 1)) hleading hr hw .refl).done_of hlead
  have hr' : h.Ready s.heap.tables.size f := ⟨(hr.steps hsteps).sound, (hr.steps hsteps).le, hwritable.1⟩
  have hlast := ((evolves_value (evolves_eval s.limits fuel) hr' hstatement.2
    fun _ => hwritable).done_of hvalue).1
  exact ⟨.head hstep (hsteps.trans hlast), hlast.keeps.hasFrame hwritable.1,
    .inr ⟨hsteps.trans hlast, hdescends.keeps hr'.sound hlast.keeps hwritable.1⟩⟩

/-- A program of a session in which `n` is bound, to something other than a placeholder, has come to
the declaration of `n` at `sp`, and has the value for it. If the name may not be given the value, the
program fails there because the name is bound already; else it goes on behind the declaration, and
then either the chain of the session was cut, or the value is a function and a table that came in
front of the one in which the session found the name binds it to a placeholder. -/
theorem submit_of_declared (hs : s.Reachable)
    (hread : Node.declarations? source text = some (pre ++ .assign sp n true e :: post))
    (ht : s.heap.holder? s.frame n = some t) (hdefined : s.heap.placeholder? s.frame n = none)
    (hlead : leads (eval s.limits (fuel + 1)) (leading pre (.assign sp n true e) post)
      s.nextFrame.1 s.nextFrame.2 = .done f h)
    (hvalue : value (eval s.limits fuel) (Node.hoist e).1 f h = .done given k) :
    (¬ Admits k f n given.value → (s.submit ⟨source, text, fuel + 1⟩).1 =
      .failed ⟨.alreadyBound n, sp, some f⟩ (Fault.message k ⟨.alreadyBound n, sp, some f⟩)) ∧
    (Admits k f n given.value →
      (∃ next l, s.ending? ⟨source, text, fuel + 1⟩ =
        some (programFrom (eval s.limits (fuel + 1)) (Node.hoistAll post).1 next l)) ∧
      (CutSince s { s with heap := k, frame := f } ∨ (given.value.function?).isSome ∧
        ∃ x ∈ k.before f t, x ∉ s.heap.before s.frame t ∧
          ∃ g, (k.table x).bindings.get? n = some (.function g) ∧
            (k.function g).initialized = false)) := by
  obtain ⟨span, hsource⟩ := Node.ofSource_of_declarations? hread
  rw [leading_append] at hsource
  obtain ⟨result, hprogram⟩ := programFrom_of_leads hlead
    (.assign sp n true (Node.hoist e).1 :: (Node.hoistAll post).1) (.of .empty span s.nextFrame.1)
  refine ⟨fun hadmits => ?_, fun hadmits => ⟨?_, ?_⟩⟩
  · have hrefused : eval s.limits (fuel + 1) (.assign sp n true (Node.hoist e).1) f h =
        .raised (.failed ⟨.alreadyBound n, sp, some f⟩) k := assign_of_not_admits hvalue hadmits
    exact answer_of_failed hsource (hprogram.trans (programFrom_cons_failed hrefused))
  · obtain ⟨next, l, hdone⟩ : ∃ next l,
        eval s.limits (fuel + 1) (.assign sp n true (Node.hoist e).1) f h = .done next l :=
      assign_of_admits hvalue hadmits
    refine ⟨next, l, ?_⟩
    unfold ending?
    rw [hsource]
    exact congrArg some (hprogram.trans (programFrom_cons_done hdone))
  · exact (hs.sound.moves_leading hread hlead hvalue).cutSince_or_shadowed hs.sound ht hdefined
      hadmits

end

/-- A session in which `x` is bound to a text, and `f` to a function. -/
def binding : Session :=
  ((start {}).submitAll [⟨"<stdin>", "x = \"a\"", 20⟩, ⟨"<stdin>", "f = fun -> x", 20⟩]).2

/-- The region of a program of one line from `i` to `j`. -/
def onLine (i j : Nat) : Span := ⟨"<stdin>", ⟨i, 0, i⟩, ⟨j, 0, j⟩⟩

/-- The name `f` where it is given to `x`. -/
def givenName : Node := .ident (onLine 4 5) "f"

/-- A function where it is given to `x`. -/
def givenFunction : Node :=
  .function (onLine 4 14) none [] true (.text (onLine 11 14) "b")

/-- The function `f` is given to `x`, which is bound and has no placeholder: the program fails. -/
theorem submit_of_declared_binding : ∃ t f h k given,
    binding.heap.holder? binding.frame "x" = some t ∧
    leads (eval binding.limits 20) (leading [] (.assign (onLine 0 5) "x" true
      givenName) []) binding.nextFrame.1 binding.nextFrame.2 = .done f h ∧
    value (eval binding.limits 19) (Node.hoist givenName).1 f h = .done given k ∧
    (given.value.function?).isSome ∧ ¬ Admits k f "x" given.value ∧
    (binding.submit ⟨"<stdin>", "x = f", 20⟩).1 = .failed ⟨.alreadyBound "x", onLine 0 5, some f⟩
      (Fault.message k ⟨.alreadyBound "x", onLine 0 5, some f⟩) := by
  have hs : binding.Reachable := (Reachable.start {}).submitAll _
  have hread : Node.declarations? "<stdin>" "x = f" =
      some ([] ++ .assign (onLine 0 5) "x" true givenName :: []) := by cbv
  have hdefined : binding.heap.placeholder? binding.frame "x" = none := by cbv
  have hbound : (binding.heap.holder? binding.frame "x").isSome = true := by cbv
  have hrun : (leads (eval binding.limits 20) (leading [] (.assign (onLine 0 5) "x" true
      givenName) []) binding.nextFrame.1 binding.nextFrame.2).passes (fun f h =>
        (value (eval binding.limits 19) (Node.hoist givenName).1 f h).passes
          fun given k => (given.value.function?).isSome && (k.lookup f "x").isSome &&
            (k.placeholder? f "x").isNone) = true := by
    cbv
  obtain ⟨t, ht⟩ := Option.isSome_iff_exists.mp hbound
  obtain ⟨f, h, hlead, htest⟩ := Ending.exists_of_passes hrun
  obtain ⟨given, k, hvalue, htest⟩ := Ending.exists_of_passes htest
  simp only [Bool.and_eq_true, Option.isNone_iff_eq_none] at htest
  obtain ⟨⟨hfunction, hlookup⟩, hplaceholder⟩ := htest
  have hadmits : ¬ Admits k f "x" given.value := by
    rintro (hnone | ⟨-, hsome⟩)
    · rw [hnone] at hlookup
      cases hlookup
    · rw [hplaceholder] at hsome
      cases hsome
  exact ⟨t, f, h, k, given, ht, hlead, hvalue, hfunction, hadmits,
    (submit_of_declared hs hread ht hdefined hlead hvalue).1 hadmits⟩

/-- Names can be bound twice: the declaration of the function `x` is put in ahead of the program, so
that its definition is not refused although `x` is bound to a text. -/
theorem exists_shown_submit_declared : ¬ ∀ (s : Session) (source text : String) (fuel : Nat)
    (pre post : List Node) (sp : Span) (n : String) (e : Node) (v : Value) (f : FrameId)
    (h k : Heap) (given : Stamped), s.Reachable →
    Node.declarations? source text = some (pre ++ .assign sp n true e :: post) →
    s.heap.lookup s.frame n = some v →
    (∀ g, v = .function g → (s.heap.function g).initialized = true) →
    leads (eval s.limits (fuel + 1)) (leading pre (.assign sp n true e) post) s.nextFrame.1
      s.nextFrame.2 = .done f h →
    value (eval s.limits fuel) (Node.hoist e).1 f h = .done given k →
    ∃ fault message, (s.submit ⟨source, text, fuel + 1⟩).1 = .failed fault message ∧
      fault.kind = .alreadyBound n := by
  intro hclaim
  have hs : binding.Reachable := (Reachable.start {}).submitAll _
  have hread : Node.declarations? "<stdin>" "x = fun -> \"b\"" =
      some ([] ++ .assign (onLine 0 14) "x" true givenFunction :: []) := by cbv
  have htext : areTexts "a" "a" (binding.heap.lookup binding.frame "x")
      (binding.heap.lookup binding.frame "x") = true := by cbv
  have hrun : (leads (eval binding.limits 20) (leading [] (.assign (onLine 0 14) "x" true
      givenFunction) []) binding.nextFrame.1 binding.nextFrame.2).passes (fun f h =>
        (value (eval binding.limits 19) (Node.hoist givenFunction).1 f h).passes
          fun _ _ => true) = true := by
    cbv
  have hshown : (binding.submit ⟨"<stdin>", "x = fun -> \"b\"", 20⟩).1.isShown = true := by
    rw [isShown_submit]
    cbv
  obtain ⟨f, h, hlead, htest⟩ := Ending.exists_of_passes hrun
  obtain ⟨given, k, hvalue, -⟩ := Ending.exists_of_passes htest
  obtain ⟨fault, message, hfailed, -⟩ := hclaim binding "<stdin>" _ 19 _ _ _ "x" _ _ f h k given hs
    hread (eq_of_areTexts htext).1 (by simp) hlead hvalue
  rw [hfailed] at hshown
  cases hshown

end Session

end CapsuleScript
