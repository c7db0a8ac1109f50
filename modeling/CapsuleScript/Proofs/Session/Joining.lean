import CapsuleScript.Proofs.Evaluation.Places
import CapsuleScript.Proofs.Fragment.Sessions
import CapsuleScript.Proofs.Mirror.Agreement
import CapsuleScript.Proofs.Node.Joining
import CapsuleScript.Proofs.Session.Visibility
import Mathlib

/-! Two programs and the program of both. A session that runs two programs has a frame and a table for
each of them, and clears what it does not reach in between; a session that runs the second program as
a continuation of the first has one frame. Main statement: for programs of the core this makes no
difference. The two programs end with values just if the joined program does, and then the last
values have the same text and every name means the same in both sessions. -/

namespace CapsuleScript

open Heap

/-! ### Programs of the core -/

/-- Whether the program has declarations, all of them of the core. -/
def Submission.isCore (p : Submission) : Bool :=
  !p.declarations.isEmpty && p.declarations.all Node.isCoreDeclaration

/-- The text is read as a program of these declarations, which are of the core. -/
structure Node.ReadsCore (source text : String) (declarations : List Node) : Prop where
  read : ∃ tokens span, Token.readAll source text = .ok tokens ∧
    Node.ofTokens tokens = .ok (.block span true declarations)
  core : ∀ n ∈ declarations, n.isCoreDeclaration = true

theorem Submission.readsCore {p : Submission} (hcore : p.isCore = true) :
    p.declarations ≠ [] ∧ Node.ReadsCore p.source p.text p.declarations := by
  unfold Submission.isCore at hcore
  simp only [Bool.and_eq_true, Bool.not_eq_true', List.isEmpty_eq_false_iff, List.all_eq_true]
    at hcore
  obtain ⟨hne, hall⟩ := hcore
  refine ⟨hne, ?_, hall⟩
  unfold Submission.declarations at hne ⊢
  cases htokens : Token.readAll p.source p.text with
  | error e => simp only [htokens, ne_eq, not_true_eq_false] at hne
  | ok tokens =>
      simp only [htokens] at hne
      cases hparsed : Node.ofTokens tokens with
      | error e => simp only [hparsed, ne_eq, not_true_eq_false] at hne
      | ok program =>
          obtain ⟨span, declarations, rfl, -⟩ := Node.grammar_belongs.exists_declarations hparsed
          exact ⟨tokens, span, rfl, by simp only [hparsed]⟩

namespace Node.ReadsCore

variable {source text source' text' : String} {declarations others : List Node}

theorem data (hread : ReadsCore source text declarations) : ∀ n ∈ declarations, n.Belongs .data := by
  obtain ⟨tokens, span, -, hparsed⟩ := hread.read
  obtain ⟨_, _, heq, hwhole⟩ := grammar_belongs.exists_declarations hparsed
  cases heq
  exact fun n hn => data_of_isCoreDeclaration (hread.core n hn) (hwhole n hn)

/-- There is nothing to put into a program of the core. -/
theorem ofSource (hread : ReadsCore source text declarations) :
    ∃ span, Node.ofSource source text = .ok (.block span true declarations) := by
  obtain ⟨tokens, span, htokens, hparsed⟩ := hread.read
  have hhoist : hoistAll declarations = (declarations, []) :=
    hoistAll_of_forall fun n hn => hoist_of_isCoreDeclaration (hread.core n hn)
  have hsame : (block span true declarations).declareFunctions = block span true declarations := by
    rw [declareFunctions, hoist, hhoist]
    rfl
  exact ⟨span, Node.ofSource_eq_ok_iff.mpr ⟨tokens, _, htokens, hparsed, hsame.symm⟩⟩

/-- Two programs of the core with a line break between them are one. -/
theorem join (hfirst : ReadsCore source text declarations)
    (hsecond : ReadsCore source' text' others) (whole : String) :
    ∃ all, ReadsCore whole (text ++ "\n" ++ text') all ∧
      List.Forall₂ Alike (declarations ++ others) all := by
  obtain ⟨tokens, span, htokens, hparsed⟩ := hfirst.read
  obtain ⟨more, span', hmore, hparsed'⟩ := hsecond.read
  obtain ⟨last, line, rest, joined, hjoined, hcontinues, hcontinues'⟩ :=
    Token.exists_readAll_join htokens hmore whole
  obtain ⟨span, all, hall, halike⟩ :=
    exists_ofTokens_join hcontinues hcontinues' hparsed hparsed'
  refine ⟨all, ⟨⟨joined, span, hjoined, hall⟩, isCoreDeclaration_of_alike halike ?_⟩, halike⟩
  exact List.forall_mem_append.mpr ⟨hfirst.core, hsecond.core⟩

end Node.ReadsCore

/-! ### Frames of sessions -/

variable {h k : Heap} {f : FrameId}

/-- Clearing what a frame does not reach leaves alone what it sees. -/
theorem Heap.Plain.agrees_collect (hh : h.Plain f) : h.Agrees f (h.collect f) f := by
  have hframe : (h.collect f).HasFrame f := by
    rw [HasFrame, frames_collect]
    exact hh.hasFrame
  refine ⟨hh, ⟨hh.sound.collect, hframe, hh.data.collect f⟩, fun name => ?_⟩
  have hscopes : (h.collect f).chain ((h.collect f).frame f).table = h.chain (h.frame f).table :=
    hh.sound.scopes_collect hh.hasFrame
  have htables : (h.chain (h.frame f).table).map (h.collect f).table =
      (h.chain (h.frame f).table).map h.table :=
    List.map_congr_left fun t ht =>
      hh.sound.table_collect hh.hasFrame (hh.sound.reaches_of_mem_scopes hh.hasFrame ht)
  rw [lookup, lookup, get?_eq_findSome?_map, get?_eq_findSome?_map, hscopes, htables]

theorem Ending.Fails.shows_eq_false {ending : Ending Outcome} (hfails : ending.Fails) :
    ending.shows = false := by
  cases ending with
  | done out k => exact hfails.elim
  | raised signal k =>
      cases signal with
      | returned result => exact absurd rfl (hfails result)
      | exited exit s r => rfl
      | failed fault => rfl
  | outOfFuel => rfl

theorem Ending.fails_bare_iff {α : Type} {forget : α → α} {ending : Ending α} :
    (ending.bare forget).Fails ↔ ending.Fails := by
  cases ending with
  | done a k => exact Iff.rfl
  | raised signal k =>
      cases signal with
      | returned result => exact iff_of_false (fun h => h _ rfl) fun h => h _ rfl
      | exited exit s r => exact iff_of_true (fun _ => nofun) fun _ => nofun
      | failed fault => exact iff_of_true (fun _ => nofun) fun _ => nofun
  | outOfFuel => exact Iff.rfl

namespace Session

open Evaluation

variable {s : Session} {p : Submission}

/-- A program sees what the session sees. -/
theorem agrees_nextFrame (hs : s.heap.Plain s.frame) :
    s.heap.Agrees s.frame s.nextFrame.2 s.nextFrame.1 := by
  have hsession : s.Sound := ⟨hs.sound, hs.hasFrame⟩
  obtain ⟨hready, -⟩ := hsession.ready_nextFrame
  refine ⟨hs, ⟨hready.sound, hready.hasFrame, belongs_nextFrame hs.data⟩, fun name => ?_⟩
  have hnew : s.nextFrame.2.table ⟨s.heap.tables.size⟩ =
      ⟨[], some (s.heap.frame s.frame).table⟩ := by
    rw [nextFrame_eq]
    exact (table_newTable _ _ _).trans (if_pos rfl)
  have hself : s.nextFrame.2.HasTable ⟨s.heap.tables.size⟩ := by
    rw [nextFrame_eq, HasTable, tables_addFrame, tables_size_newTable]
    exact Nat.lt_succ_self _
  have hold : ∀ {t : TableId}, s.heap.HasTable t → s.nextFrame.2.get? t name = s.heap.get? t name := by
    intro t ht
    refine hs.sound.after.get?_eq hready.sound.rooted hready.le (fun u hu => ?_) ht name
    exact table_newTable_of_hasTable hu
  rw [lookup, lookup, frame_nextFrame, hready.sound.rooted.get?_eq_or hself, hnew]
  exact (hold (hs.sound.hasTable hs.hasFrame)).symm

/-- How the declarations end as the program at `span` that the session runs next. -/
def endingOf (s : Session) (fuel : Nat) (span : Span) (declarations : List Node) : Ending Outcome :=
  programFrom (eval s.limits fuel) declarations (give .empty span s.nextFrame.1) s.nextFrame.2

theorem submit_of_done {span : Span} {declarations : List Node} {out : Outcome}
    (hread : Node.ofSource p.source p.text = .ok (.block span true declarations))
    (hend : s.endingOf p.fuel span declarations = .done out k) :
    s.submit p = (.shown (k.render out.result.value),
      ({ s with heap := k, frame := out.frame } : Session).collect) := by
  have hprogram : s.ending? p = some (.done out k) :=
    ending?_eq_some_iff.mpr ⟨_, hread, hend.symm⟩
  rw [submit_of_ending hprogram]
  rfl

theorem isShown_of_fails {span : Span} {declarations : List Node}
    (hread : Node.ofSource p.source p.text = .ok (.block span true declarations))
    (hfails : (s.endingOf p.fuel span declarations).Fails) : (s.submit p).1.isShown = false := by
  have hprogram : s.ending? p = some (s.endingOf p.fuel span declarations) :=
    ending?_eq_some_iff.mpr ⟨_, hread, rfl⟩
  rw [isShown_submit, hprogram]
  exact hfails.shows_eq_false

/-! ### Two programs and the declarations of both -/

section

variable {q : Submission} {declarations others : List Node}

/-- Two programs of the core end with values just if the declarations of both do in the frame of the
first. Then the last values have the same text, and the names mean the same. -/
theorem submitAll_pair (hs : s.heap.Plain s.frame)
    (hfirst : Node.ReadsCore p.source p.text declarations)
    (hsecond : Node.ReadsCore q.source q.text others) (hne : others ≠ []) (hfuel : q.fuel = p.fuel)
    (span : Span) :
    (∃ out k text last, s.endingOf p.fuel span (declarations ++ others) = .done out k ∧
      s.submitAll [p, q] = ([.shown text, .shown (k.render out.result.value)], last) ∧
      ∀ name, k.lookup out.frame name = last.heap.lookup last.frame name) ∨
    (s.endingOf p.fuel span (declarations ++ others)).Fails ∧
      ∃ answer ∈ (s.submitAll [p, q]).1, answer.isShown = false := by
  obtain ⟨span₁, hread⟩ := hfirst.ofSource
  obtain ⟨span₂, hread'⟩ := hsecond.ofSource
  have hstart : s.nextFrame.2.Agrees (give .empty span s.nextFrame.1).frame s.nextFrame.2
      (give .empty span₁ s.nextFrame.1).frame := (agrees_nextFrame hs).right.agrees
  rcases agrees_programFrom s.limits p.fuel hfirst.core hfirst.data others hstart with
    ⟨out, k, out', k', hk, -, hrun, hrun'⟩ | ⟨hfails, hfails'⟩
  · have hsubmit := submit_of_done hread hrun'
    -- The second program starts where the first has left the session, with what it does not reach
    -- cleared and a frame of its own.
    let next : Session := ({ s with heap := k', frame := out'.frame } : Session).collect
    have hmiddle : k.Agrees out.frame next.heap next.frame := hk.trans hk.right.agrees_collect
    have hnext : k.Agrees out.frame next.nextFrame.2 (give .empty span₂ next.nextFrame.1).frame :=
      hmiddle.trans (agrees_nextFrame hmiddle.right)
    have hboth : s.submitAll [p, q] =
        ([.shown (k'.render out'.result.value), (next.submit q).1], (next.submit q).2) := by
      rw [submitAll, hsubmit]
      rfl
    rw [hboth]
    rcases agrees_programFrom s.limits p.fuel hsecond.core hsecond.data [] hnext with
      ⟨last, l, last', l', hl, hsame, hjoint, hrun₂⟩ | ⟨hfails, hfails'⟩
    · rw [← hfuel] at hrun₂
      have hsubmit' : next.submit q = _ := submit_of_done hread' hrun₂
      obtain ⟨hvalue, hdata⟩ := hsame (.inr hne)
      rw [List.append_nil] at hjoint
      refine .inl ⟨last, l, k'.render out'.result.value, (next.submit q).2, hrun.trans hjoint, ?_, ?_⟩
      · rw [hsubmit', hvalue, hdata.render_eq l l']
      · rw [hsubmit']
        exact (hl.trans hl.right.agrees_collect).lookup
    · rw [List.append_nil, ← hrun] at hfails
      rw [← hfuel] at hfails'
      exact .inr ⟨hfails, (next.submit q).1, by simp, isShown_of_fails hread' hfails'⟩
  · refine .inr ⟨hfails, (s.submit p).1, List.mem_cons_self, ?_⟩
    exact isShown_of_fails hread hfails'

end

/-- A program of the core and the same declarations from another text. -/
theorem submit_of_alike (hs : s.heap.Plain s.frame) {declarations all : List Node} (span : Span)
    (hread : Node.ReadsCore p.source p.text all)
    (halike : List.Forall₂ Node.Alike declarations all) :
    (∀ out k, s.endingOf p.fuel span declarations = .done out k →
      (s.submit p).1 = .shown (k.render out.result.value) ∧
      ∀ name, k.lookup out.frame name = (s.submit p).2.heap.lookup (s.submit p).2.frame name) ∧
    ((s.endingOf p.fuel span declarations).Fails → (s.submit p).1.isShown = false) := by
  obtain ⟨span', hsource⟩ := hread.ofSource
  have hbare : (s.endingOf p.fuel span' all).bare Outcome.bare =
      (s.endingOf p.fuel span declarations).bare Outcome.bare :=
    programFrom_eq_of_alike s.limits p.fuel halike span span' s.nextFrame.1 s.nextFrame.2
  refine ⟨fun out k hend => ?_, fun hfails => ?_⟩
  · rw [hend] at hbare
    have hstart : s.nextFrame.2.Agrees (give .empty span' s.nextFrame.1).frame s.nextFrame.2
        (give .empty span' s.nextFrame.1).frame := (agrees_nextFrame hs).right.agrees
    rcases agrees_programFrom s.limits p.fuel hread.core hread.data [] hstart with
      ⟨_, _, last, l, hl, -, -, hrun⟩ | ⟨-, hfails⟩
    · have hrun : s.endingOf p.fuel span' all = .done last l := hrun
      rw [hrun] at hbare
      obtain ⟨hout, hheap⟩ := Ending.done.inj hbare
      have hvalue : last.bare.result.value = out.bare.result.value := by rw [hout]
      have hframe : last.bare.frame = out.bare.frame := by rw [hout]
      have htext : l.render last.result.value = k.render out.result.value := by
        rw [← render_bare, hheap, render_bare]
        exact congrArg k.render hvalue
      rw [submit_of_done hsource hrun, htext]
      refine ⟨rfl, fun name => ?_⟩
      have hlook : k.lookup out.frame name = l.lookup last.frame name := by
        rw [← lookup_bare, ← hheap, lookup_bare]
        exact congrArg (l.lookup · name) hframe.symm
      exact hlook.trans (hl.right.agrees_collect.lookup name)
    · have hnot : ((s.endingOf p.fuel span' all).bare Outcome.bare).Fails :=
        Ending.fails_bare_iff.mpr hfails
      rw [hbare] at hnot
      exact hnot.elim
  · rw [← Ending.fails_bare_iff, ← hbare, Ending.fails_bare_iff] at hfails
    exact isShown_of_fails hsource hfails

theorem plain_start (limits : Limits) : (start limits).heap.Plain (start limits).frame :=
  ⟨(sound_start limits).heap, (sound_start limits).hasFrame, belongs_start limits⟩

/-- A session that runs two programs of the core one after the other, and one that runs the second as
the continuation of the first on a new line. Both programs end with values just if the joined one
does; then the last values have the same text, and every name means the same in both sessions. -/
theorem shown_join_iff (limits : Limits) (fuel : Nat) {source text source' text' : String}
    (hfirst : Submission.isCore ⟨source, text, fuel⟩ = true)
    (hsecond : Submission.isCore ⟨source', text', fuel⟩ = true) (whole : String) :
    let apart := (start limits).submitAll [⟨source, text, fuel⟩, ⟨source', text', fuel⟩]
    let joined := (start limits).submit ⟨whole, text ++ "\n" ++ text', fuel⟩
    ((∀ answer ∈ apart.1, answer.isShown = true) ↔ joined.1.isShown = true) ∧
    (joined.1.isShown = true → apart.1.getLast? = some joined.1 ∧
      ∀ name, apart.2.heap.lookup apart.2.frame name =
        joined.2.heap.lookup joined.2.frame name) := by
  intro apart joined
  have hs := plain_start limits
  obtain ⟨-, hread⟩ := Submission.readsCore hfirst
  obtain ⟨hne, hread'⟩ := Submission.readsCore hsecond
  obtain ⟨all, hall, halike⟩ := hread.join hread' whole
  let p : Submission := ⟨whole, text ++ "\n" ++ text', fuel⟩
  have hall : Node.ReadsCore p.source p.text all := hall
  obtain ⟨hdone, hfails⟩ := submit_of_alike hs Node.bare.nowhere hall halike
  rcases submitAll_pair hs hread hread' hne rfl Node.bare.nowhere with
    ⟨out, k, first, last, hend, happart, hnames⟩ | ⟨hfail, answer, hmem, hanswer⟩
  · obtain ⟨hshown, hnames'⟩ := hdone out k hend
    have happart : apart = _ := happart
    have hshown : joined.1 = _ := hshown
    rw [happart, hshown]
    refine ⟨iff_of_true (by simp [Answer.isShown]) rfl, fun _ => ⟨rfl, fun name => ?_⟩⟩
    exact (hnames name).symm.trans (hnames' name)
  · have hnot : joined.1.isShown = false := hfails hfail
    have hsome : ¬ ∀ answer ∈ apart.1, answer.isShown = true := by
      intro hall
      rw [hall answer hmem] at hanswer
      cases hanswer
    rw [hnot]
    exact ⟨iff_of_false hsome Bool.false_ne_true, fun hshown => absurd hshown Bool.false_ne_true⟩

/-- A list. -/
def listed : Submission := ⟨"<stdin>", "a = [\"x\", \"y\"]", 20⟩

/-- A block with a loop over the list, and a comprehension. -/
def gathered : Submission :=
  ⟨"<stdin>", "b = \x7b\nt = \"\"\nfor e in a \x7b t = t + e \x7d\nt\n\x7d\nc = e for e in a -> if e != \"x\"",
    20⟩

/-- The second program sees the list in a session that has run the first, and also behind it. -/
theorem shown_join_gathered :
    ((start {}).submitAll [listed, gathered]).1.getLast? = some (.shown "[y]") ∧
    ∀ name, ((start {}).submitAll [listed, gathered]).2.heap.lookup
        ((start {}).submitAll [listed, gathered]).2.frame name =
      ((start {}).submit ⟨"<stdin>", listed.text ++ "\n" ++ gathered.text, 20⟩).2.heap.lookup
        ((start {}).submit ⟨"<stdin>", listed.text ++ "\n" ++ gathered.text, 20⟩).2.frame name := by
  have hfirst : listed.isCore = true := by cbv
  have hsecond : gathered.isCore = true := by cbv
  have hjoined : ((start {}).submit ⟨"<stdin>", listed.text ++ "\n" ++ gathered.text, 20⟩).1 =
      .shown "[y]" := by cbv
  obtain ⟨-, hsame⟩ := shown_join_iff {} 20 hfirst hsecond "<stdin>"
  obtain ⟨hlast, hnames⟩ := hsame (congrArg Answer.isShown hjoined)
  exact ⟨hlast.trans (congrArg some hjoined), hnames⟩

end Session

end CapsuleScript
