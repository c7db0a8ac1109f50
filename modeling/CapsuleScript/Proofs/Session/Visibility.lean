import CapsuleScript.Proofs.Evaluation.Lookup
import Mathlib

/-! Names of earlier programs. The tables in which a session looks up its names stay on its chain, in
their order, from one program to the next, unless a strict object is cut off on that chain: a function
of an earlier program that makes a strict object from an object of a later one can do that. As long
as it does not happen, every name that was bound stays bound. -/

namespace CapsuleScript

open Heap

namespace Heap

variable {fresh : Nat} {h k : Heap} {c : FrameId}

theorem reaches_of_mem_path {o : Option TableId} {l : List TableId} (hl : h.Path o l)
    (ho : ∀ t, o = some t → h.Reaches c (.table t)) : ∀ u ∈ l, h.Reaches c (.table u) := by
  induction hl with
  | nil => simp
  | @cons t rest _ ih =>
      intro u hu
      rcases List.mem_cons.mp hu with rfl | hmem
      · exact ho u rfl
      · exact ih (fun p hp => .above (ho t rfl) hp) u hmem

theorem Sound.reaches_of_mem_scopes (hh : h.Sound) (hc : h.HasFrame c) {t : TableId}
    (ht : t ∈ h.scopes c) : h.Reaches c (.table t) := by
  refine reaches_of_mem_path (hh.rooted.path_chain (hh.hasTable hc)) (fun u hu => ?_) t ht
  cases hu
  exact .owned .start

/-- Clearing what a frame does not reach leaves its names alone. -/
theorem Sound.scopes_collect (hh : h.Sound) (hc : h.HasFrame c) :
    (h.collect c).scopes c = h.scopes c := by
  unfold scopes
  rw [frame_congr frames_collect]
  refine hh.collect.rooted.chain_eq_of_path ?_ ?_
  · rw [HasTable, tables_size_collect]
    exact hh.hasTable hc
  · refine (hh.rooted.path_chain (hh.hasTable hc)).congr fun u hu => ?_
    rw [hh.table_collect hc (hh.reaches_of_mem_scopes hc hu)]

theorem owned_congr (hframes : k.frames = h.frames) (t : TableId) : k.Owned t ↔ h.Owned t := by
  unfold Owned HasFrame
  simp only [hframes, frame_congr hframes]

end Heap

namespace Session

variable {s t : Session} {name : String}

/-- The tables in which the session looks up its names. -/
def scopes (s : Session) : List TableId := s.heap.scopes s.frame

/-- The name is bound in the session. -/
def Resolves (s : Session) (name : String) : Prop := (s.heap.lookup s.frame name).isSome

/-- A table stands on the chain of the session `t` that was not there when the session was `s`, and
that no frame has: a strict object was cut off on the chain. -/
def CutSince (s t : Session) : Prop := ∃ x ∈ t.scopes, ¬ s.heap.HasTable x ∧ ¬ t.heap.Owned x

theorem resolves_iff : s.Resolves name ↔ ∃ t ∈ s.scopes, (s.heap.table t).bindings.has name := by
  unfold Resolves lookup scopes Heap.scopes
  rw [get?_eq_findSome?, List.findSome?_isSome_iff]
  rfl

/-- The chain of a session keeps its tables while a program runs, unless it is cut. -/
theorem Moves.scopes (hs : s.Sound) (hm : Moves s t) :
    s.scopes.Sublist t.scopes ∨ CutSince s t := by
  have hkeeps := hm.steps.keeps
  have hk := hm.steps.sound hs.heap
  have ht := hs.heap.hasTable hs.hasFrame
  unfold Session.scopes Heap.scopes CutSince
  rcases hm.frame with hframe | ⟨hsteps, hdescends⟩
  · rw [hframe, hkeeps.frame hs.hasFrame]
    rcases Steps.grows hs.heap hm.steps _ ht with hsub | ⟨x, hx, hnew, howned⟩
    · exact .inl hsub
    · refine .inr ⟨x, ?_, Nat.not_lt.mpr hnew, howned⟩
      unfold Session.scopes Heap.scopes
      rwa [hframe, hkeeps.frame hs.hasFrame]
  · have hstep : Step s.heap.tables.size s.heap s.nextFrame.2 := hs.step_nextFrame
    have hsound := hstep.sound hs.heap
    have hmodule := hsteps.keeps.frame (hasFrame_nextFrame s)
    rw [frame_nextFrame] at hmodule
    have hlinked := Steps.linked hs.heap hm.steps
    have hseen := (hlinked.mem_chain_of_descends (m := s.nextFrame.1) hk (Nat.le_refl _) hm.hasFrame
      hdescends).2
    rw [hmodule] at hseen
    rcases hseen with hseen | ⟨x, hx, hnew, howned⟩
    · -- The chain of the program's own table is the old chain under that table.
      have hchain : s.nextFrame.2.chain ⟨s.heap.tables.size⟩ =
          ⟨s.heap.tables.size⟩ :: s.heap.chain (s.heap.frame s.frame).table := by
        rw [nextFrame_eq]
        simp only [chain_addFrame]
        rw [hs.heap.rooted.chain_newTable_self fun q hq => Option.some.inj hq ▸ ht]
        rfl
      have hhas : s.nextFrame.2.HasTable ⟨s.heap.tables.size⟩ := by
        have htable := hsound.hasTable (hasFrame_nextFrame s)
        rwa [frame_nextFrame] at htable
      have hsuffix := hk.rooted.chain_suffix_of_mem (hk.hasTable hm.hasFrame) hseen
      rcases Steps.grows hsound hsteps _ hhas with hsub | ⟨x, hx, hnew, howned⟩
      · rw [hchain] at hsub
        exact .inl (((List.sublist_cons_self _ _).trans hsub).trans hsuffix.sublist)
      · refine .inr ⟨x, hsuffix.subset hx, Nat.not_lt.mpr ?_, howned⟩
        exact Nat.le_trans hstep.keeps.tables hnew
    · exact .inr ⟨x, hx, Nat.not_lt.mpr hnew, howned⟩

/-- What programs leave of the session `s`: its tables, and its chain unless that is cut. -/
structure Follows (s t : Session) : Prop where
  hasTable : ∀ {x}, s.heap.HasTable x → t.heap.HasTable x
  owned : ∀ {x}, s.heap.HasTable x → t.heap.Owned x → s.heap.Owned x
  scopes : s.scopes.Sublist t.scopes ∨ CutSince s t

theorem Sound.hasTable_of_mem_scopes (hs : s.Sound) {x : TableId} (hx : x ∈ s.scopes) :
    s.heap.HasTable x :=
  hs.heap.rooted.hasTable_of_mem_chain (hs.heap.hasTable hs.hasFrame) hx

/-- A chain that was cut stays cut. -/
theorem CutSince.follows {u : Session} (ht : t.Sound) (hcut : CutSince s t) (hst : Follows s t)
    (htu : Follows t u) : CutSince s u := by
  rcases htu.scopes with hsub | ⟨x, hx, hnew, howned⟩
  · obtain ⟨x, hx, hnew, howned⟩ := hcut
    exact ⟨x, hsub.subset hx, hnew, fun ho => howned (htu.owned (ht.hasTable_of_mem_scopes hx) ho)⟩
  · exact ⟨x, hx, fun hold => hnew (hst.hasTable hold), howned⟩

theorem Follows.trans {u : Session} (ht : t.Sound) (hst : Follows s t) (htu : Follows t u) :
    Follows s u where
  hasTable hx := htu.hasTable (hst.hasTable hx)
  owned hx ho := hst.owned hx (htu.owned (hst.hasTable hx) ho)
  scopes := by
    rcases hst.scopes with hsub | hcut
    · rcases htu.scopes with hsub' | ⟨x, hx, hnew, howned⟩
      · exact .inl (hsub.trans hsub')
      · exact .inr ⟨x, hx, fun hold => hnew (hst.hasTable hold), howned⟩
    · exact .inr (hcut.follows ht hst htu)

/-- After one program the session follows the one before it, and the tables that stay on its chain
bind what they bound. -/
theorem Sound.follows_submit (hs : s.Sound) (p : Submission) : Follows s (s.submit p).2 ∧
    ∀ x ∈ s.scopes, x ∈ (s.submit p).2.scopes →
      ((s.submit p).2.heap.table x).bindings = (s.heap.table x).bindings := by
  obtain ⟨t, hm, heq⟩ := hs.exists_moves p
  rw [heq]
  have hkeeps := hm.steps.keeps
  have ht := hm.sound hs
  have hscopes : t.collect.scopes = t.scopes := ht.heap.scopes_collect ht.hasFrame
  have howned : ∀ x, t.collect.heap.Owned x ↔ t.heap.Owned x := owned_congr frames_collect
  refine ⟨⟨fun hx => ?_, fun hx ho => ?_, ?_⟩, fun x hx hx' => ?_⟩
  · show (t.heap.collect t.frame).HasTable _
    rw [HasTable, tables_size_collect]
    exact hkeeps.hasTable hx
  · exact hkeeps.owned hx ((howned _).mp ho)
  · unfold CutSince
    rw [hscopes]
    rcases hm.scopes hs with hsub | ⟨x, hx, hnew, hnot⟩
    · exact .inl hsub
    · exact .inr ⟨x, hx, hnew, fun ho => hnot ((howned x).mp ho)⟩
  · rw [hscopes] at hx'
    have hhas := hs.hasTable_of_mem_scopes hx
    have hreached := ht.heap.reaches_of_mem_scopes ht.hasFrame hx'
    calc ((t.heap.collect t.frame).table x).bindings = (t.heap.table x).bindings := by
          rw [ht.heap.table_collect ht.hasFrame hreached]
      _ = (s.heap.table x).bindings := hkeeps.bindings hhas hhas

theorem Reachable.follows_submitAll (hs : s.Reachable) (ps : List Submission) :
    Follows s (s.submitAll ps).2 := by
  induction ps generalizing s with
  | nil => exact ⟨fun hx => hx, fun _ ho => ho, .inl (List.Sublist.refl _)⟩
  | cons p rest ih =>
      have hnext : (s.submit p).2.Reachable := .submit p hs
      exact (hs.sound.follows_submit p).1.trans hnext.sound (ih hnext)

theorem Reachable.resolves_submit (hs : s.Reachable) (p : Submission) (hname : s.Resolves name)
    (huncut : ¬ CutSince s (s.submit p).2) : (s.submit p).2.Resolves name := by
  obtain ⟨hfollows, hbindings⟩ := hs.sound.follows_submit p
  obtain ⟨x, hx, hbinds⟩ := resolves_iff.mp hname
  have hx' := (hfollows.scopes.resolve_right huncut).subset hx
  refine resolves_iff.mpr ⟨x, hx', ?_⟩
  rw [hbindings x hx hx']
  exact hbinds

theorem Reachable.resolves_of_not_cutSince (hs : s.Reachable) (ps : List Submission)
    (hname : s.Resolves name) (huncut : ¬ CutSince s (s.submitAll ps).2) :
    (s.submitAll ps).2.Resolves name := by
  induction ps generalizing s with
  | nil => exact hname
  | cons p rest ih =>
      have hnext : (s.submit p).2.Reachable := .submit p hs
      have hfirst := (hs.sound.follows_submit p).1
      have hrest := hnext.follows_submitAll rest
      refine ih hnext (hs.resolves_submit p hname fun hcut => ?_) ?_
      · exact huncut (hcut.follows hnext.sound hfirst hrest)
      · rintro ⟨x, hx, hnew, howned⟩
        exact huncut ⟨x, hx, fun hold => hnew (hfirst.hasTable hold), howned⟩

/-- Whatever programs run and however they end, the tables in which a session looked up its names stay
on its chain, in their order, unless the chain is cut; and a name that is bound stays bound exactly if
the chain is not cut on the way or what is left of it binds the name. -/
theorem resolves_submitAll_iff (hs : s.Reachable) (ps : List Submission) (hname : s.Resolves name) :
    (s.scopes.Sublist (s.submitAll ps).2.scopes ∨ CutSince s (s.submitAll ps).2) ∧
    ((s.submitAll ps).2.Resolves name ↔ ¬ CutSince s (s.submitAll ps).2 ∨
      ∃ x ∈ (s.submitAll ps).2.scopes, ((s.submitAll ps).2.heap.table x).bindings.has name) := by
  refine ⟨(hs.follows_submitAll ps).scopes, fun hlater => .inr (resolves_iff.mp hlater), ?_⟩
  rintro (huncut | hbinds)
  · exact hs.resolves_of_not_cutSince ps hname huncut
  · exact resolves_iff.mpr hbinds

/-- A program, a second one that ends with a value, and one that is refused: the chain has no cut, and
`x` is still bound. -/
theorem resolves_submitAll_uncut :
    (((start {}).submit ⟨"<stdin>", "x = \"a\"", 20⟩).2.submitAll
      [⟨"<stdin>", "y = x", 20⟩, ⟨"<stdin>", "z =", 20⟩]).2.Resolves "x" := by
  have hs : ((start {}).submit ⟨"<stdin>", "x = \"a\"", 20⟩).2.Reachable := .submit _ (.start {})
  have hname : ((start {}).submit ⟨"<stdin>", "x = \"a\"", 20⟩).2.Resolves "x" := by
    unfold Resolves
    cbv
  refine (resolves_submitAll_iff hs _ hname).2.mpr (.inl ?_)
  rintro ⟨x, hx, -, howned⟩
  generalize hlast : (((start {}).submit ⟨"<stdin>", "x = \"a\"", 20⟩).2.submitAll
      [⟨"<stdin>", "y = x", 20⟩, ⟨"<stdin>", "z =", 20⟩]).2 = last at hx howned
  have hframes : (last.scopes.all fun x => last.heap.HasFrame ⟨x.index⟩ &&
      (last.heap.frame ⟨x.index⟩).table == x) = true := by
    rw [← hlast]
    cbv
  have hx := List.all_eq_true.mp hframes x hx
  simp only [Bool.and_eq_true, decide_eq_true_eq, beq_iff_eq] at hx
  exact howned ⟨⟨x.index⟩, hx⟩

/-- A session with a function that makes a strict object from its argument, and an object `o`. -/
def strictCall : Session :=
  ((start {}).submitAll
    [⟨"<stdin>", "x = \"a\"\nf = fun: p -> (sencap \x7b z = \"z\" \x7d as C: p)", 20⟩,
      ⟨"<stdin>", "o = encap \x7b y = x \x7d", 20⟩]).2

/-- Names do get lost: after a call of the function with the object, `x` is not bound any more. -/
theorem exists_not_resolves : ¬ ∀ (s : Session) (ps : List Submission) (name : String),
    s.Reachable → s.Resolves name → (s.submitAll ps).2.Resolves name := by
  intro hclaim
  have hbefore : (strictCall.heap.lookup strictCall.frame "x").isSome = true := by cbv
  have hafter : ((strictCall.submitAll [⟨"<stdin>", "r = f: o", 20⟩]).2.heap.lookup
      (strictCall.submitAll [⟨"<stdin>", "r = f: o", 20⟩]).2.frame "x").isSome = false := by cbv
  have hlater := hclaim strictCall [⟨"<stdin>", "r = f: o", 20⟩] "x"
    ((Reachable.start {}).submitAll _) hbefore
  exact Bool.false_ne_true (hafter.symm.trans hlater)

end Session

end CapsuleScript
