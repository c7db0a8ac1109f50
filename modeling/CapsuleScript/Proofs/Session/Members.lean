import CapsuleScript.Proofs.Sealing.Program
import CapsuleScript.Proofs.Session.Interruption
import CapsuleScript.Proofs.Session.Visibility
import Mathlib

/-! The members of objects, in every heap that comes about while a session runs its programs. A member
is read in the scope of its object, or from the fields that the object was made with. Main statement:
the two agree, unless the member is inherited and, on the chain of the scope, a table in front of the
one that it comes from binds its name or a strict object was cut off. -/

namespace CapsuleScript

open Heap

/-! ### Clearing -/

mutual

/-- A test on objects may use what is known of the frames that a value holds. -/
theorem Value.Objects.imp_of_frames {P Q : Capsule → Prop} {R : FrameId → Prop}
    (homeOf : FunctionId → FrameId) (himp : ∀ c, R c.scope → P c → Q c) :
    {v : Value} → (∀ f ∈ v.addFrames homeOf [], R f) → v.Objects P → v.Objects Q
  | .list _, hframes, hv => Value.AllObjects.imp_of_frames homeOf himp hframes hv
  | .encap fields inherited _ scope, hframes, hv => by
      simp only [Value.addFrames, List.mem_cons, forall_eq_or_imp] at hframes
      obtain ⟨hscope, hframes⟩ := hframes
      refine ⟨himp _ hscope hv.1, Value.EntriesObjects.imp_of_frames homeOf himp (fun f hf => ?_) hv.2.1,
        Value.EntriesObjects.imp_of_frames homeOf himp (fun f hf => ?_) hv.2.2⟩
      · exact hframes f ((Value.mem_addFramesOfEntries _ _).mpr (.inl hf))
      · exact hframes f ((Value.mem_addFramesOfEntries _ _).mpr (.inr hf))
  | .number _, _, _ | .bool _, _, _ | .null, _, _ | .text _, _, _ | .function _, _, _
  | .empty, _, _ => trivial

theorem Value.AllObjects.imp_of_frames {P Q : Capsule → Prop} {R : FrameId → Prop}
    (homeOf : FunctionId → FrameId) (himp : ∀ c, R c.scope → P c → Q c) :
    {vs : List Value} → (∀ f ∈ Value.addFramesOfAll homeOf vs [], R f) →
      Value.AllObjects P vs → Value.AllObjects Q vs
  | [], _, _ => trivial
  | v :: rest, hframes, hvs => by
      refine ⟨hvs.1.imp_of_frames homeOf himp fun f hf => hframes f ?_,
        Value.AllObjects.imp_of_frames homeOf himp (fun f hf => hframes f ?_) hvs.2⟩
      · exact (Value.mem_addFrames _ _).mpr (.inl hf)
      · exact (Value.mem_addFrames _ _).mpr (.inr hf)

theorem Value.EntriesObjects.imp_of_frames {P Q : Capsule → Prop} {R : FrameId → Prop}
    (homeOf : FunctionId → FrameId) (himp : ∀ c, R c.scope → P c → Q c) :
    {bs : List (String × Value)} → (∀ f ∈ Value.addFramesOfEntries homeOf bs [], R f) →
      Value.EntriesObjects P bs → Value.EntriesObjects Q bs
  | [], _, _ => trivial
  | (_, v) :: rest, hframes, hbs => by
      refine ⟨hbs.1.imp_of_frames homeOf himp fun f hf => hframes f ?_,
        Value.EntriesObjects.imp_of_frames homeOf himp (fun f hf => hframes f ?_) hbs.2⟩
      · exact (Value.mem_addFrames _ _).mpr (.inl hf)
      · exact (Value.mem_addFrames _ _).mpr (.inr hf)

end

namespace Heap

variable {S : TableId → Prop} {h k : Heap} {f c : FrameId} {t : TableId}

/-- In a single world, the tables of frames that are not marked are cleared. -/
theorem Sealing.table_collect_of_not_marked (hS : h.Sealing S) (ht : h.Owned t)
    (hmarked : ¬ (h.reach c).has (.table t)) : (h.collect c).table t = {} := by
  obtain ⟨f, hf, rfl⟩ := ht
  exact table_collect_of_not_marked hf (by rw [hS.root, hS.root]) hmarked

theorem marked_of_mem_path {o : Option TableId} {l : List TableId} (hh : h.Rooted)
    (hl : h.Path o l) (ho : ∀ t, o = some t → h.HasTable t ∧ (h.reach c).has (.table t)) :
    ∀ u ∈ l, (h.reach c).has (.table u) := by
  induction hl with
  | nil => simp
  | @cons t rest _ ih =>
      obtain ⟨hhas, hmarked⟩ := ho t rfl
      intro u hu
      rcases List.mem_cons.mp hu with rfl | hmem
      · exact hmarked
      · refine ih (fun p hp => ⟨hh.hasTable_parent hp, ?_⟩) u hmem
        exact reach_closed (p := .table t) hhas hmarked (by simp [successors, hp])

/-- With a table all that are on its chain are marked. -/
theorem Sound.marked_of_mem_chain (hh : h.Sound) (hhas : h.HasTable t)
    (ht : (h.reach c).has (.table t)) {u : TableId} (hu : u ∈ h.chain t) :
    (h.reach c).has (.table u) := by
  refine marked_of_mem_path hh.rooted (hh.rooted.path_chain hhas) ?_ u hu
  rintro _ ⟨⟩
  exact ⟨hhas, ht⟩

theorem Sound.chain_collect (hh : h.Sound) (hhas : h.HasTable t)
    (ht : (h.reach c).has (.table t)) : (h.collect c).chain t = h.chain t := by
  refine hh.collect.rooted.chain_eq_of_path ?_
    ((hh.rooted.path_chain hhas).congr fun u hu => ?_)
  · rw [HasTable, tables_size_collect]
    exact hhas
  · rw [table_collect_of_marked (hh.marked_of_mem_chain hhas ht hu)]

/-- What is marked keeps its objects sealed when the rest is cleared. -/
theorem Sealing.sealed_collect (hS : h.Sealing S) {d : Capsule} (hd : d.Sealed S h)
    (hmarked : (h.reach c).has (.frame d.scope)) :
    d.Sealed (fun t => S t ∧ (h.reach c).has (.table t)) (h.collect c) := by
  have htable : (h.reach c).has (.table (h.frame d.scope).table) :=
    reach_closed (p := .frame d.scope) hd.hasFrame hmarked (by simp [successors])
  have hhas := hS.sound.hasTable hd.hasFrame
  have hframe : (h.collect c).frame d.scope = h.frame d.scope := frame_congr frames_collect _
  have hchain := hS.sound.chain_collect hhas htable
  refine ⟨?_, ?_, ?_, fun hget => ?_, hd.distinct, hd.distinct_inherited⟩
  · rw [HasFrame, frames_collect]
    exact hd.hasFrame
  · rw [hframe]
    exact ⟨hd.table, htable⟩
  · rw [hframe, table_collect_of_marked htable]
    exact hd.fields
  · unfold Supplies CutOff
    rw [hframe, hchain]
    rcases hd.inherited hget with ⟨u, hu, hsealed, hbound⟩ | ⟨x, hx, howned⟩
    · have humarked := hS.sound.marked_of_mem_chain hhas htable hu
      refine .inl ⟨u, hu, ⟨hsealed, humarked⟩, ?_⟩
      rw [table_collect_of_marked humarked]
      exact hbound
    · exact .inr ⟨x, hx, fun ho => howned ((owned_congr frames_collect x).mp ho)⟩

/-- A sealed heap stays sealed when what a frame does not reach is cleared: an object that is still
bound is bound in a marked table, so its scope is marked too. -/
theorem Sealing.collect (hS : h.Sealing S) (c : FrameId) :
    (h.collect c).Sealing fun t => S t ∧ (h.reach c).has (.table t) where
  sound := hS.sound.collect
  hasTable ht := by
    rw [HasTable, tables_size_collect]
    exact hS.hasTable ht.1
  objects t e he := by
    rcases table_collect_or (h := h) (c := c) t with hclear | hsame
    · rw [hclear] at he
      cases he
    rw [hsame] at he
    by_cases howned : h.Owned t
    · have hmarked : (h.reach c).has (.table t) := by
        by_contra hnot
        rw [← hsame, hS.table_collect_of_not_marked howned hnot] at he
        cases he
      obtain ⟨f, hf, rfl⟩ := howned
      refine (hS.objects _ e he).imp_of_frames (fun g => (h.function g).home)
        (R := fun f => (h.reach c).has (.frame f)) (fun d hd hsealed => hS.sealed_collect hsealed hd)
        fun g hg => ?_
      refine reach_closed (p := .table (h.frame f).table) (hS.sound.hasTable hf) hmarked ?_
      simp only [successors, List.mem_append, List.mem_map]
      exact .inr ⟨g, Value.mem_addFramesOfEntries_of_mem he hg, rfl⟩
    · exact (hS.unowned t howned e he).imp fun _ hc => hc.elim
  unowned t howned e he := by
    rcases table_collect_or (h := h) (c := c) t with hclear | hsame
    · rw [hclear] at he
      cases he
    rw [hsame] at he
    exact hS.unowned t (fun ho => howned ((owned_congr frames_collect t).mpr ho)) e he
  root f := by
    rw [frame_congr frames_collect]
    exact hS.root f

end Heap

/-! ### Sessions -/

namespace Evaluation

variable {S : TableId → Prop} {h : Heap} {f : FrameId}

theorem seals_evalUntil (stop : Breakpoint) (limits : Limits) (fuel : Nat) :
    Evaluator.Seals (evalUntil stop limits fuel) := by
  induction fuel with
  | zero => exact fun _ _ _ _ => .exhausted
  | succ fuel ih =>
      intro S h n f statement hS hf hn hfree
      apply Run.Seals.read_bind
      split
      · exact .raise hS trivial
      · exact seals_node limits fuel (evolves_evalUntil stop limits fuel) ih hS hf hn hfree

theorem seals_programUntil (stop : Breakpoint) (limits : Limits) (fuel : Nat) (hS : h.Sealing S)
    (hfree : h.Free S f) {n : Node} (hn : n.IsBlock ∧ n.IsStatement) :
    (programUntil stop limits fuel n f).Seals S h (Outcome.Settled true f) := by
  obtain ⟨hblock, hfits⟩ := hn
  cases n with
  | block span mayDeclare body =>
      exact seals_programFrom (seals_evalUntil stop limits fuel) hfits.2 hS
        (.give ⟨trivial, trivial⟩ fun _ => hfree)
  | _ => exact hblock.elim

end Evaluation

/-- The heap of a new session binds no objects. -/
theorem Heap.sealing_start (limits : Limits) :
    (Session.start limits).heap.Sealing fun _ => False := by
  have hnone : ∀ t, ∀ e ∈ ((Session.start limits).heap.table t).bindings,
      e.2.Objects fun _ => False := by
    rintro ⟨i⟩ e he
    cases i with
    | zero =>
        have hbuiltins : e ∈ builtins := he
        simp only [builtins, List.mem_cons, List.not_mem_nil, or_false] at hbuiltins
        obtain rfl | rfl | rfl := hbuiltins <;> trivial
    | succ i =>
        have htables : (Session.start limits).heap.tables = #[⟨builtins, none⟩] := rfl
        simp [table, htables, default] at he
  refine ⟨sound_start limits, fun ht => ht.elim, fun t e he => ?_, fun t _ => hnone t, ?_⟩
  · exact (hnone t e he).imp fun _ hc => hc.elim
  · rintro ⟨i⟩
    cases i with
    | zero => rfl
    | succ i =>
        have hframes : (Session.start limits).heap.frames =
          #[⟨moduleLabel, ⟨0⟩, none, none, ⟨0⟩⟩] := rfl
        simp [frame, hframes, default]

namespace Session

variable {S : TableId → Prop} {s : Session} {h : Heap}

/-- The frame of a program is one in which names may be bound. -/
theorem Sound.later_nextFrame (hs : s.Sound) (hS : s.heap.Sealing S) :
    Later S s.heap S s.nextFrame.2 ∧ s.nextFrame.2.Free S s.nextFrame.1 := by
  refine ⟨?_, hasFrame_nextFrame s, fun hsealed => ?_⟩
  · have hstep : Step 0 s.heap s.nextFrame.2 := hs.step_nextFrame
    rw [nextFrame_eq] at hstep ⊢
    exact .opened hS hstep rfl (hS.root s.frame) (by simp)
  · rw [frame_nextFrame] at hsealed
    exact absurd (hS.hasTable hsealed) (Nat.lt_irrefl _)

/-- Wherever a program is broken off, it leaves a sealed heap. -/
theorem Sound.exists_sealing_heapUntil (hs : s.Sound) (hS : s.heap.Sealing S)
    {stop : Evaluation.Breakpoint} {p : Submission} (hh : s.heapUntil stop p = some h) :
    ∃ T, h.Sealing T := by
  unfold heapUntil at hh
  cases hread : Node.ofSource p.source p.text with
  | error e =>
      rw [hread] at hh
      cases hh
      exact ⟨S, hS⟩
  | ok program =>
      rw [hread] at hh
      obtain ⟨hlater, hfree⟩ := hs.later_nextFrame hS
      obtain ⟨T, hk⟩ := (Evaluation.seals_programUntil stop s.limits p.fuel hlater.sealing hfree
        (Node.shape_ofSource hread)).later_of_heap? hh
      exact ⟨T, hk.sealing⟩

/-- The session goes on with the heap that a program leaves which is not broken off, after clearing
it. A program that does not end leaves the heap as it was. -/
theorem exists_heap_submit (s : Session) (p : Submission) : ∃ k f,
    (s.submit p).2.heap = k.collect f ∧
      (k = s.heap ∨ s.heapUntil (fun _ _ _ => none) p = some k) := by
  unfold submit run heapUntil
  cases hread : Node.ofSource p.source p.text with
  | error e => exact ⟨s.heap, s.frame, rfl, .inl rfl⟩
  | ok program =>
      show ∃ k f, (s.execute p.fuel program).2.collect.heap = k.collect f ∧ (k = s.heap ∨
        (Evaluation.programUntil _ s.limits p.fuel program s.nextFrame.1 s.nextFrame.2).heap? =
          some k)
      rw [Evaluation.programUntil_none, execute_eq]
      cases hend : Evaluation.program s.limits p.fuel program s.nextFrame.1 s.nextFrame.2 with
      | done outcome k => exact ⟨k, outcome.frame, rfl, .inr rfl⟩
      | raised signal k =>
          refine ⟨k, s.frame, ?_, .inr rfl⟩
          simp only
          split <;> rfl
      | outOfFuel => exact ⟨s.heap, s.frame, rfl, .inl rfl⟩

theorem Reachable.exists_sealing (hs : s.Reachable) : ∃ S, s.heap.Sealing S := by
  induction hs with
  | start limits => exact ⟨_, sealing_start limits⟩
  | @submit s p hr ih =>
      obtain ⟨S, hS⟩ := ih
      obtain ⟨k, f, heq, hk⟩ := s.exists_heap_submit p
      have hsealing : ∃ T, k.Sealing T := by
        rcases hk with rfl | hk
        · exact ⟨S, hS⟩
        · exact hr.sound.exists_sealing_heapUntil hS hk
      obtain ⟨T, hT⟩ := hsealing
      rw [heq]
      exact ⟨_, hT.collect f⟩

end Session

/-! ### Members -/

/-- In the scope of the object the name means the member. -/
def Capsule.Agrees (c : Capsule) (h : Heap) (name : String) : Prop :=
  h.lookup c.scope name = c.field? name

/-- A heap that comes about when a new session runs any programs, and values at hand at that
moment. -/
inductive Moment : Heap → List Value → Prop where
  /-- Between programs. -/
  | between {s : Session} : s.Reachable → Moment s.heap []
  /-- Before one of the evaluations of a program, or at its end. -/
  | within {s : Session} {h : Heap} (stop : Evaluation.Breakpoint) (p : Submission) :
      s.Reachable → s.heapUntil stop p = some h → Moment h []
  /-- A value that is bound is at hand. -/
  | bound {h : Heap} {vs : List Value} {t : TableId} {e : String × Value} :
      Moment h vs → e ∈ (h.table t).bindings → Moment h (e.2 :: vs)
  /-- The frame of a call or of a turn of a loop, with names bound to values at hand. -/
  | entered {h : Heap} {vs arguments : List Value} {callee : Function} (span : Span) :
      Moment h vs → h.HasFrame callee.home → arguments ⊆ vs →
      Moment (Evaluation.callFrame callee arguments span h).2 vs
  /-- The value of an expression or of a block. -/
  | given {h k : Heap} {vs : List Value} {n : Node} {f : FrameId} {statement : Bool}
      {out : Outcome} (stop : Evaluation.Breakpoint) (limits : Limits) (fuel : Nat) :
      Moment h vs → h.HasFrame f → n.Fits statement → (statement = true → n.IsBlock) →
      Evaluation.evalUntil stop limits fuel n f h = .done out k → Moment k (out.result.value :: vs)
  /-- While an expression or a block is evaluated. -/
  | during {h k : Heap} {vs : List Value} {n : Node} {f : FrameId} {statement : Bool}
      (stop : Evaluation.Breakpoint) (limits : Limits) (fuel : Nat) :
      Moment h vs → h.HasFrame f → n.Fits statement → (statement = true → n.IsBlock) →
      (Evaluation.evalUntil stop limits fuel n f h).heap? = some k → Moment k vs

namespace Moment

variable {S T : TableId → Prop} {h k : Heap} {vs : List Value} {v : Value}

/-- At every moment the heap is sealed, and the values at hand are settled. -/
theorem exists_sealing (hm : Moment h vs) : ∃ S, h.Sealing S ∧ ∀ v ∈ vs, v.Settled S h := by
  have hkept : ∀ {S T h k} {vs : List Value}, h.Sealing S → Later S h T k →
      (∀ v ∈ vs, v.Settled S h) → ∀ v ∈ vs, v.Settled T k := fun hS hk hvs v hv =>
    (hvs v hv).spares hS.sound hk.toSpares
  induction hm with
  | between hs =>
      obtain ⟨S, hS⟩ := hs.exists_sealing
      exact ⟨S, hS, by simp⟩
  | within stop p hs hh =>
      obtain ⟨S, hS⟩ := hs.exists_sealing
      obtain ⟨T, hT⟩ := hs.sound.exists_sealing_heapUntil hS hh
      exact ⟨T, hT, by simp⟩
  | bound _ he ih =>
      obtain ⟨S, hS, hvs⟩ := ih
      exact ⟨S, hS, List.forall_mem_cons.mpr ⟨hS.settled _ _ he, hvs⟩⟩
  | entered span _ hhome hsub ih =>
      obtain ⟨S, hS, hvs⟩ := ih
      have hk := (Later.callFrame hS hhome (fun v hv => hvs v (hsub hv)) span).1
      exact ⟨S, hk.sealing, hkept hS hk hvs⟩
  | given stop limits fuel _ hf hn hblock hend ih =>
      obtain ⟨S, hS, hvs⟩ := ih
      obtain ⟨T, hk, hout⟩ := (Evaluation.seals_evalUntil stop limits fuel hS hf hn
        fun hst => .inl (hblock hst)).done_of hend
      exact ⟨T, hk.sealing, List.forall_mem_cons.mpr ⟨hout.value, hkept hS hk hvs⟩⟩
  | during stop limits fuel _ hf hn hblock hend ih =>
      obtain ⟨S, hS, hvs⟩ := ih
      obtain ⟨T, hk⟩ := (Evaluation.seals_evalUntil stop limits fuel hS hf hn
        fun hst => .inl (hblock hst)).later_of_heap? hend
      exact ⟨T, hk.sealing, hkept hS hk hvs⟩

end Moment

end CapsuleScript
