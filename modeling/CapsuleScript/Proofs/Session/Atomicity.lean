import CapsuleScript.Proofs.Matching.Program
import CapsuleScript.Proofs.Matching.Reached
import CapsuleScript.Proofs.Session.Runs
import Mathlib

/-! Programs that fail. A session moves on only with programs that end with a value, so a program
that fails is forgotten, except for what it did to tables and functions that the session reaches: it
may have linked such a table to another parent, or have defined a placeholder. Where it did not, all
later programs are answered as if it had never run. -/

namespace CapsuleScript

open Heap

/-- What is told of an answer: all of it but the number of the frame in which a program failed. -/
def Answer.told : Answer → Answer
  | failed fault message => failed { fault with frame := none } message
  | answer => answer

theorem Answer.isShown_told (answer : Answer) : answer.told.isShown = answer.isShown := by
  cases answer <;> rfl

/-- Whether a program that ends so ends with a value. -/
def Ending.shows : Ending Outcome → Bool
  | .done _ _ => true
  | .raised signal _ => signal.toExcept.isOk
  | .outOfFuel => false

/-- What is answered to a program that ends so. -/
def Ending.answer : Ending Outcome → Answer
  | .done outcome heap => .shown (heap.render outcome.result.value)
  | .raised signal heap =>
    match signal.toExcept with
    | .ok result => .shown (heap.render result.value)
    | .error fault => .failed fault (fault.message heap)
  | .outOfFuel => .unfinished

theorem Ending.isShown_answer (ending : Ending Outcome) :
    ending.answer.isShown = ending.shows := by
  cases ending with
  | done outcome k => rfl
  | raised signal k => cases signal <;> rfl
  | outOfFuel => rfl

/-- What the frame `c` reaches in `h` is linked and defined in `k` as it was. -/
structure Heap.Untouched (h k : Heap) (c : FrameId) : Prop where
  parent : ∀ {t}, h.Reaches c (.table t) → (k.table t).parent = (h.table t).parent
  function : ∀ {g}, h.Reaches c (.value (.function g)) → k.function g = h.function g

namespace Session

variable {s t : Session}

/-! ### Sessions that differ only in numbers -/

/-- The sessions differ only in numbers, and in what they do not reach. -/
structure Alike (s t : Session) : Prop where
  limits : s.limits = t.limits
  matching : ∃ W : Matching, W.Heaps s.heap t.heap ∧ W.frames s.frame t.frame

theorem Alike.collect (hs : s.Sound) (ht : t.Sound) (hst : Alike s t) :
    Alike s.collect t.collect := by
  obtain ⟨W, hW, hf⟩ := hst.matching
  exact ⟨hst.limits, _, hW.collect hs.heap ht.heap hs.hasFrame ht.hasFrame, hf, .start, .start⟩

/-- Signals that nothing takes up stand for the same. -/
theorem toExcept_match {W : Matching} {signal signal' : Signal}
    (hsignal : signal.Match W signal') :
    (∃ v v', signal.toExcept = .ok v ∧ signal'.toExcept = .ok v' ∧ v.Match W v') ∨
      ∃ fault fault', signal.toExcept = .error fault ∧ signal'.toExcept = .error fault' ∧
        fault.Match W fault' := by
  cases hsignal with
  | returned hv => exact .inl ⟨_, _, rfl, rfl, hv⟩
  | exited hf => exact .inr ⟨_, _, rfl, rfl, rfl, rfl, .some hf⟩
  | failed hfault => exact .inr ⟨_, _, rfl, rfl, hfault⟩

theorem Alike.execute (hst : Alike s t) (fuel : Nat) (program : Node) :
    (s.execute fuel program).1.told = (t.execute fuel program).1.told ∧
      Alike (s.execute fuel program).2 (t.execute fuel program).2 := by
  obtain ⟨W, hW, hf⟩ := hst.matching
  have hnext : W.Made (fun X => X.frames) s.nextFrame t.nextFrame := by
    rw [nextFrame_eq, nextFrame_eq]
    exact hW.opened (hW.frame hf).2.2.table .nil rfl rfl rfl .none rfl
  obtain ⟨X, hX, hheaps, hframe⟩ := hnext
  have hend := Evaluation.matches_program s.limits fuel program hheaps hframe
  unfold Run.Matches at hend
  rw [execute_eq, execute_eq, ← hst.limits]
  generalize Evaluation.program s.limits fuel program s.nextFrame.1 s.nextFrame.2 = ending at hend
  generalize Evaluation.program s.limits fuel program t.nextFrame.1 t.nextFrame.2 = ending' at hend
  cases hend with
  | outOfFuel => exact ⟨rfl, hst⟩
  | done hmade =>
      obtain ⟨Y, -, hheaps', hout⟩ := hmade
      refine ⟨?_, rfl, Y, hheaps', hout.frame⟩
      exact congrArg Answer.shown (hheaps'.render_eq hout.result.value)
  | raised hmade =>
      obtain ⟨Y, hY, hheaps', hsignal⟩ := hmade
      have hframe' := hY.frames (hX.frames hf)
      rcases toExcept_match hsignal with ⟨v, v', hv, hv', hmatch⟩ | ⟨e, e', he, he', hmatch⟩
      · simp only [hv, hv']
        refine ⟨?_, rfl, Y, hheaps', hframe'⟩
        exact congrArg Answer.shown (hheaps'.render_eq hmatch.value)
      · simp only [he, he']
        refine ⟨?_, rfl, Y, hheaps', hframe'⟩
        simp only [Answer.told, hheaps'.message_eq hmatch, hmatch.kind, hmatch.span]

theorem Sound.execute (hs : s.Sound) {p : Submission} {program : Node}
    (hread : Node.ofSource p.source p.text = .ok program) : (s.execute p.fuel program).2.Sound :=
  (hs.moves_execute (Node.shape_ofSource hread) p.fuel).sound hs

theorem Sound.submit (hs : s.Sound) (p : Submission) : (s.submit p).2.Sound := by
  obtain ⟨t, hm, heq⟩ := hs.exists_moves p
  rw [heq]
  exact (hm.sound hs).collect

/-- A program is answered the same in sessions that are alike, and leaves them alike. -/
theorem Alike.submit (hs : s.Sound) (ht : t.Sound) (hst : Alike s t) (p : Submission) :
    (s.submit p).1.told = (t.submit p).1.told ∧ Alike (s.submit p).2 (t.submit p).2 := by
  unfold Session.submit run
  cases hread : Node.ofSource p.source p.text with
  | error e => exact ⟨rfl, hst.collect hs ht⟩
  | ok program =>
      obtain ⟨htold, hnext⟩ := hst.execute p.fuel program
      exact ⟨htold, hnext.collect (hs.execute hread) (ht.execute hread)⟩

theorem Alike.submitAll (hs : s.Sound) (ht : t.Sound) (hst : Alike s t) (ps : List Submission) :
    (s.submitAll ps).1.map Answer.told = (t.submitAll ps).1.map Answer.told := by
  induction ps generalizing s t with
  | nil => rfl
  | cons p rest ih =>
      obtain ⟨htold, hnext⟩ := hst.submit hs ht p
      have hrest := ih (hs.submit p) (ht.submit p) hnext
      exact congrArg₂ List.cons htold hrest

/-! ### How programs end -/

/-- How a program ends in the session, if it is one. -/
def ending? (s : Session) (p : Submission) : Option (Ending Outcome) :=
  match Node.ofSource p.source p.text with
  | .ok program => some (Evaluation.program s.limits p.fuel program s.nextFrame.1 s.nextFrame.2)
  | .error _ => none

/-- The session after a program that ends so, before anything is cleared. -/
def after (s : Session) : Option (Ending Outcome) → Session
  | some (.done outcome heap) => { s with heap := heap, frame := outcome.frame }
  | some (.raised _ heap) => { s with heap := heap }
  | _ => s

theorem ending?_eq_some_iff {p : Submission} {ending : Ending Outcome} :
    s.ending? p = some ending ↔ ∃ program, Node.ofSource p.source p.text = .ok program ∧
      ending = Evaluation.program s.limits p.fuel program s.nextFrame.1 s.nextFrame.2 := by
  unfold ending?
  cases Node.ofSource p.source p.text with
  | error e => simp
  | ok program => simp [eq_comm]

theorem execute_eq_answer (s : Session) (fuel : Nat) (program : Node) :
    s.execute fuel program =
      let ending := Evaluation.program s.limits fuel program s.nextFrame.1 s.nextFrame.2
      (ending.answer, s.after (some ending)) := by
  rw [execute_eq]
  cases Evaluation.program s.limits fuel program s.nextFrame.1 s.nextFrame.2 with
  | done outcome k => rfl
  | raised signal k => cases signal <;> rfl
  | outOfFuel => rfl

/-- How a program ends tells what is answered to it, and where the session goes on. -/
theorem submit_of_ending {p : Submission} {ending : Ending Outcome}
    (hending : s.ending? p = some ending) :
    s.submit p = (ending.answer, (s.after (some ending)).collect) := by
  obtain ⟨program, hread, rfl⟩ := ending?_eq_some_iff.mp hending
  unfold Session.submit run
  rw [hread]
  simp only [execute_eq_answer]

/-- A text that is no program is refused. -/
theorem submit_of_no_ending {p : Submission} (hending : s.ending? p = none) :
    ∃ e, s.submit p = (.refused e, s.collect) := by
  unfold ending? at hending
  unfold Session.submit run
  cases hread : Node.ofSource p.source p.text with
  | error e => exact ⟨e, rfl⟩
  | ok program =>
      rw [hread] at hending
      cases hending

theorem submit_snd_eq (s : Session) (p : Submission) :
    (s.submit p).2 = (s.after (s.ending? p)).collect := by
  cases hending : s.ending? p with
  | some ending => rw [submit_of_ending hending]
  | none =>
      obtain ⟨e, hsubmit⟩ := submit_of_no_ending hending
      rw [hsubmit]
      rfl

theorem isShown_submit (s : Session) (p : Submission) :
    (s.submit p).1.isShown = (s.ending? p).elim false Ending.shows := by
  cases hending : s.ending? p with
  | some ending =>
      rw [submit_of_ending hending]
      exact ending.isShown_answer
  | none =>
      obtain ⟨e, hsubmit⟩ := submit_of_no_ending hending
      rw [hsubmit]
      rfl

theorem limits_submit (s : Session) (p : Submission) : (s.submit p).2.limits = s.limits := by
  rw [submit_snd_eq]
  show (s.after (s.ending? p)).limits = s.limits
  unfold after
  split <;> rfl

/-- A program without a value leaves the session where it is, and if it did not fail, as it is but
for the clearing. -/
theorem submit_of_not_shown {p : Submission} (hfails : (s.submit p).1.isShown = false) :
    (s.submit p).2.frame = s.frame ∧
      ((∃ fault message, (s.submit p).1 = .failed fault message) ∨ (s.submit p).2 = s.collect) := by
  cases hending : s.ending? p with
  | none =>
      obtain ⟨e, hsubmit⟩ := submit_of_no_ending hending
      rw [hsubmit]
      exact ⟨rfl, .inr rfl⟩
  | some ending =>
      rw [submit_of_ending hending] at hfails ⊢
      cases ending with
      | done outcome k => cases hfails
      | raised signal k =>
          cases signal with
          | returned result => cases hfails
          | exited exit span f => exact ⟨rfl, .inl ⟨_, _, rfl⟩⟩
          | failed fault => exact ⟨rfl, .inl ⟨_, _, rfl⟩⟩
      | outOfFuel => exact ⟨rfl, .inr rfl⟩

/-! ### Programs that fail -/

theorem Sound.untouched_collect (hs : s.Sound) :
    Untouched s.heap s.collect.heap s.frame where
  parent ht := congrArg Table.parent (hs.heap.table_collect hs.hasFrame ht)
  function _ := function_congr functions_collect _

/-- A session that stays where it is, and whose reach is untouched, is alike. -/
theorem Moves.alike (hs : s.Sound) (hm : Moves s t) (hframe : t.frame = s.frame)
    (hlimits : t.limits = s.limits) (hkept : Untouched s.heap t.collect.heap s.frame) :
    Alike s t.collect := by
  have hkeeps := hm.steps.keeps
  have ht := hm.sound hs
  refine ⟨hlimits.symm, Matching.same.reached s.heap s.frame t.collect.heap t.collect.frame, ?_,
    hframe.symm, .start, .start⟩
  refine Matching.oneToOne_same.heaps_reached hs.heap ht.collect.heap hs.hasFrame
    ht.collect.hasFrame ?_ ?_ ?_
  · rintro x _ ⟨rfl, hr, hr'⟩
    have hhas := (hs.heap.marked_of_reaches hs.hasFrame hr).1
    have htable : t.collect.heap.table x = t.heap.table x :=
      ht.heap.table_collect ht.hasFrame hr'.of_collect
    have hbindings : (t.collect.heap.table x).bindings = (s.heap.table x).bindings :=
      calc (t.collect.heap.table x).bindings = (t.heap.table x).bindings := by rw [htable]
        _ = (s.heap.table x).bindings := hkeeps.bindings hhas hhas
    refine ⟨?_, ?_⟩
    · rw [hbindings]
      exact Value.entriesMatch_same _
    · rw [hkept.parent hr]
      exact Matching.rel_same fun _ _ => rfl
  · rintro f _ ⟨rfl, hr, -⟩
    have hhas := (hs.heap.marked_of_reaches hs.hasFrame hr).1
    have hframe : t.collect.heap.frame f = s.heap.frame f :=
      calc t.collect.heap.frame f = t.heap.frame f := frame_congr frames_collect f
        _ = s.heap.frame f := hkeeps.frame hhas
    rw [hframe]
    exact Frame.match_same _
  · rintro g _ ⟨rfl, hr, -⟩
    rw [hkept.function hr]
    exact Function.match_same _

/-- Later programs are answered as if a program without a value had never run: always if it is no
program, and if it failed, as long as it left the tables and functions that the session reaches as
they were. -/
theorem told_submitAll_of_not_shown (hs : s.Reachable) (p : Submission)
    (hfails : (s.submit p).1.isShown = false)
    (hkept : ∀ fault message, (s.submit p).1 = .failed fault message →
      Untouched s.heap (s.submit p).2.heap s.frame) (ps : List Submission) :
    ((s.submit p).2.submitAll ps).1.map Answer.told = (s.submitAll ps).1.map Answer.told := by
  obtain ⟨hframe, hanswer⟩ := submit_of_not_shown hfails
  have hlimits := limits_submit s p
  have huntouched : Untouched s.heap (s.submit p).2.heap s.frame := by
    rcases hanswer with ⟨fault, message, hfailed⟩ | hsame
    · exact hkept fault message hfailed
    · rw [hsame]
      exact hs.sound.untouched_collect
  obtain ⟨t, hm, heq⟩ := hs.sound.exists_moves p
  rw [heq] at hframe hlimits huntouched ⊢
  have halike := hm.alike hs.sound hframe hlimits huntouched
  exact (halike.submitAll hs.sound (hm.sound hs.sound).collect ps).symm

/-- A session in which `x` is bound. -/
def naming : Session := ((start {}).submit ⟨"<stdin>", "x = \"a\"", 20⟩).2

/-- A program that asks for a name without a meaning. -/
def misnaming : Submission := ⟨"<stdin>", "y = nope", 20⟩

/-- The program fails, and what follows is answered as if it had not run. -/
theorem told_submitAll_misnaming :
    ((naming.submit misnaming).2.submitAll [⟨"<stdin>", "z = x", 20⟩]).1.map Answer.told =
      (naming.submitAll [⟨"<stdin>", "z = x", 20⟩]).1.map Answer.told := by
  have hs : naming.Reachable := .submit _ (.start {})
  have hmarked : ∀ {item}, naming.heap.Reaches naming.frame item →
      naming.heap.Marked naming.frame item := hs.sound.heap.marked_of_reaches hs.sound.hasFrame
  have htables : naming.heap.tables.size = 2 := by cbv
  have hfunctions : naming.heap.functions.size = 0 := by cbv
  have hlinks : ((List.range 2).all fun i =>
      (((naming.after (naming.ending? misnaming)).collect.heap.table ⟨i⟩).parent ==
        (naming.heap.table ⟨i⟩).parent)) = true := by cbv
  refine told_submitAll_of_not_shown hs misnaming ?_
    (fun _ _ _ => ⟨fun {t} ht => ?_, fun {g} hg => ?_⟩) _
  · rw [isShown_submit]
    cbv
  · have hlt : t.index < naming.heap.tables.size := (hmarked ht).1
    rw [htables] at hlt
    rw [submit_snd_eq]
    exact eq_of_beq (List.all_eq_true.mp hlinks t.index (List.mem_range.mpr hlt))
  · have hlt : g.index < naming.heap.functions.size := (hmarked hg).1
    rw [hfunctions] at hlt
    exact absurd hlt (Nat.not_lt_zero _)

/-- A session with an object whose function asks for a name that has no meaning. -/
def asking : Session :=
  ((start {}).submit
    ⟨"<stdin>", "P = encap \x7b greet = fun -> name \x7d as Parent", 20⟩).2

/-- A program that gives the name a meaning, makes an object that inherits from that of the session,
and fails. -/
def answering : Submission :=
  ⟨"<stdin>", "name = \"late\"\nC = encap \x7b x = name \x7d as Child: P\nz = nope", 20⟩

/-- Programs that fail are not always forgotten: the function finds the name that the failed program
has bound. -/
theorem exists_told_submitAll_ne : ¬ ∀ (s : Session) (p : Submission) (ps : List Submission),
    s.Reachable → (s.submit p).1.isShown = false →
      ((s.submit p).2.submitAll ps).1.map Answer.told = (s.submitAll ps).1.map Answer.told := by
  intro hclaim
  have hfails : (asking.submit answering).1.isShown = false := by
    rw [isShown_submit]
    cbv
  have hafter : ((asking.submit answering).2.submit ⟨"<stdin>", "r = P => greet!", 20⟩).1.isShown =
      true := by
    rw [isShown_submit, submit_snd_eq]
    cbv
  have hbefore : (asking.submit ⟨"<stdin>", "r = P => greet!", 20⟩).1.isShown = false := by
    rw [isShown_submit]
    cbv
  have htold := hclaim asking answering [⟨"<stdin>", "r = P => greet!", 20⟩]
    (.submit _ (.start {})) hfails
  have hfirst : ((asking.submit answering).2.submit ⟨"<stdin>", "r = P => greet!", 20⟩).1.told =
      (asking.submit ⟨"<stdin>", "r = P => greet!", 20⟩).1.told := (List.cons.inj htold).1
  have hshown := congrArg Answer.isShown hfirst
  rw [Answer.isShown_told, Answer.isShown_told, hafter, hbefore] at hshown
  exact Bool.false_ne_true hshown.symm

end Session

end CapsuleScript
