import CapsuleScript.Proofs.Accord.Expressions
import CapsuleScript.Proofs.Fragment.Core

/-! Comprehensions accord in frames that see the same. The two loops go through different chains of
frames, since each turn runs in a frame on top of the one before it, but each new frame binds the
loop variable anew, so that names mean the same again. Main statement: for every expression of the
core there is a fuel from which on its evaluations accord, in particular end. -/

namespace CapsuleScript

open Heap

variable {W : Matching} {h h' : Heap} {f f' : FrameId} {span : Span} {name : String} {v v' : Value}

/-! ### The frame of a turn -/

namespace Heap

/-- The frame of a turn: it is entered from the frame `f` and binds only `name`, to `v`. -/
def turnFrame (h : Heap) (f : FrameId) (span : Span) (name : String) (v : Value) :
    FrameId × Heap :=
  let (g, k) := h.enter "<for>" f span
  (g, k.define g name v)

theorem turnFrame_eq (h : Heap) (f : FrameId) (span : Span) (name : String) (v : Value) :
    h.turnFrame f span name v = (⟨h.frames.size⟩,
      (h.newTable (some (h.frame f).table) [(name, v)]).2.addFrame
        ⟨"<for>", ⟨h.tables.size⟩, some f, some span, (h.frame f).root⟩) := by
  have hself := h.frame_enter "<for>" f span
  rw [enter_eq] at hself
  rw [turnFrame, enter_eq]
  simp only [define_eq, hself, bind_opened]
  rfl

theorem within_turnFrame (h : Heap) (f : FrameId) (span : Span) (name : String) (v : Value) :
    h.Within (h.turnFrame f span name v).2 := by
  rw [turnFrame_eq]
  exact .opened _ _ _

theorem frame_turnFrame (h : Heap) (f : FrameId) (span : Span) (name : String) (v : Value) :
    ((h.turnFrame f span name v).2.frame (h.turnFrame f span name v).1).table =
      ⟨h.tables.size⟩ := by
  rw [turnFrame_eq, frame_addFrame]
  exact congrArg Frame.table (if_pos rfl)

theorem table_turnFrame (h : Heap) (f : FrameId) (span : Span) (name : String) (v : Value) :
    (h.turnFrame f span name v).2.table ⟨h.tables.size⟩ =
      ⟨[(name, v)], some (h.frame f).table⟩ := by
  rw [turnFrame_eq]
  exact (table_newTable _ _ _).trans (if_pos rfl)

namespace Stands

theorem turnFrame (hf : h.Stands f) (span : Span) (name : String) (v : Value) :
    (h.turnFrame f span name v).2.Stands (h.turnFrame f span name v).1 where
  rooted := by
    have hnew : (h.newTable (some (h.frame f).table) [(name, v)]).2.Rooted :=
      hf.rooted.newTable fun q hq => Option.some.inj hq ▸ hf.hasTable
    rw [turnFrame_eq]
    exact hnew.of_parent_eq (Nat.le_refl _) fun _ => rfl
  hasFrame := by
    rw [turnFrame_eq]
    simp [HasFrame]
  hasTable := by
    rw [frame_turnFrame, turnFrame_eq]
    exact Rooted.hasTable_newTable_self

/-- In the frame of a turn the loop variable means the element, and all other names mean what they
mean in the frame it was entered from. -/
theorem lookup_turnFrame (hf : h.Stands f) (span : Span) (name : String) (v : Value)
    (other : String) :
    (h.turnFrame f span name v).2.lookup (h.turnFrame f span name v).1 other =
      if name = other then some v else h.lookup f other := by
  have hnew := hf.turnFrame span name v
  have hold := (h.within_turnFrame f span name v).get?_eq hf.rooted hnew.rooted hf.hasTable other
  have htable := hnew.hasTable
  rw [frame_turnFrame] at htable
  rw [lookup, frame_turnFrame, hnew.rooted.get?_eq_or htable, table_turnFrame, Option.bind_some,
    hold, Bindings.get?]
  split
  · rfl
  · rfl

end Stands

end Heap

/-- On top of frames that see the same, the frames of turns with matching elements do. -/
theorem Matching.SameNames.turnFrame (hS : W.SameNames h f h' f') (span : Span) (name : String)
    (hv : v.Match W v') :
    W.SameNames (h.turnFrame f span name v).2 (h.turnFrame f span name v).1
      (h'.turnFrame f' span name v').2 (h'.turnFrame f' span name v').1 where
  heaps := hS.heaps.within (h.within_turnFrame f span name v) (h'.within_turnFrame f' span name v')
    (hS.left.turnFrame span name v).rooted (hS.right.turnFrame span name v').rooted
  left := hS.left.turnFrame span name v
  right := hS.right.turnFrame span name v'
  lookup other := by
    rw [hS.left.lookup_turnFrame, hS.right.lookup_turnFrame]
    split
    · exact .some hv
    · exact hS.lookup other

namespace Evaluation

variable {sub : Evaluator} {body source : Node} {filter : Option Node}

/-! ### Loops -/

theorem accords_admitted (hfilter : ∀ n ∈ filter, n.Accords sub) (hS : W.SameNames h f h' f') :
    Run.Accords W (admitted sub filter f) (admitted sub filter f') h h' fun _ b b' => b = b' := by
  cases filter with
  | none => exact .pure hS.heaps rfl
  | some filter =>
      apply Run.Accords.bind (accords_value (hfilter filter rfl) hS)
      intro X k k' s s' hX hs
      exact .pure hX.heaps hs.value.isTrue_eq

/-- Both turns have gone to their ends and stayed in their frames. -/
inductive Turn.Accord (f f' : FrameId) (W : Matching) : Turn → Turn → Prop where
  | ended {s s' : Stamped} :
      s.Accord W s' → Turn.Accord f f' W ⟨true, some s, f⟩ ⟨true, some s', f'⟩

theorem accords_turn (hbody : body.Accords sub) (hS : W.SameNames h f h' f') :
    Run.Accords W (turn sub body f) (turn sub body f') h h' (Turn.Accord f f') := by
  have hend := hbody hS
  unfold Run.Accords turn at *
  rw [Run.bind_apply, Run.bind_apply, Run.attempt, Run.attempt]
  generalize sub body f h = ending at hend
  generalize sub body f' h' = ending' at hend
  cases hend with
  | @done X out out' k k' hX hout =>
      obtain ⟨result, frame⟩ := out
      obtain ⟨result', frame'⟩ := out'
      obtain ⟨hresult, rfl, rfl⟩ := hout
      exact .done hX (.ended hresult)
  | failed hkind hspan => exact .failed hkind hspan

/-- A turn starts by entering its frame and binding the loop variable in it. -/
theorem enter_define_bind {α : Type} (next : FrameId → Run α) :
    ((do
      let g ← Run.make (·.enter "<for>" f span)
      Run.change (·.define g name v)
      next g) : Run α) h =
      next (h.turnFrame f span name v).1 (h.turnFrame f span name v).2 := rfl

theorem accords_forTurns (hbody : body.Accords sub) (hfilter : ∀ n ∈ filter, n.Accords sub)
    {elements elements' : List Value} {progress progress' : Progress}
    (hS : W.SameNames h progress.frame h' progress'.frame)
    (helements : Value.AllMatch W elements elements')
    (hcollected : Value.AllMatch W progress.collected progress'.collected) :
    Run.Accords W (forTurns sub span name body filter elements progress)
      (forTurns sub span name body filter elements' progress') h h'
      fun X done done' => Value.AllMatch X done.collected done'.collected := by
  induction elements generalizing W h h' elements' progress progress' with
  | nil =>
      cases helements
      exact .pure hS.heaps hcollected
  | cons element rest ih =>
      cases helements with
      | @cons _ element' _ rest' helement hrest =>
          have hturn := hS.turnFrame span name helement
          have hentered : W.Grown h h' W (h.turnFrame progress.frame span name element).2
              (h'.turnFrame progress'.frame span name element').2 :=
            ⟨.refl W, hturn.heaps, within_turnFrame .., within_turnFrame ..⟩
          unfold Run.Accords forTurns
          rw [enter_define_bind, enter_define_bind]
          refine .of_grown hentered ?_
          apply Run.Accords.bind (accords_admitted hfilter hturn)
          rintro X k k' passed _ hX rfl
          have hturn' := hturn.grown hX
          have hrest' := hrest.mono hX.matching
          have hcollected' := hcollected.mono hX.matching
          cases passed with
          | false => exact ih hturn' hrest' hcollected'
          | true =>
              apply Run.Accords.bind (accords_turn hbody hturn')
              rintro Y l l' _ _ hY ⟨hs⟩
              exact ih (hturn'.grown hY) (hrest'.mono hY.matching)
                (.cons hs.value (hcollected'.mono hY.matching))

theorem accords_comprehension (hsource : source.Accords sub) (hbody : body.Accords sub)
    (hfilter : ∀ n ∈ filter, n.Accords sub) (hS : W.SameNames h f h' f') :
    Run.Accords W (forLoop sub span name true source body filter f)
      (forLoop sub span name true source body filter f') h h' (Outcome.Accord f f') := by
  apply Run.Accords.bind (accords_value hsource hS)
  intro X k k' s s' hX hs
  have hvalue := hs.value
  obtain ⟨v, sspan, owner⟩ := s
  obtain ⟨v', sspan', owner'⟩ := s'
  have hfail : ∀ {w w' : Value}, w.Match X w' → Run.Accords X
      (do .fail (.notAList (← .read (·.render w))) span f : Run Outcome)
      (do .fail (.notAList (← .read (·.render w'))) span f') k k' (Outcome.Accord f f') := by
    intro w w' hw
    refine .read_bind ?_
    rw [hX.heaps.render_eq hw]
    exact .fail _ _ _ _
  cases hvalue with
  | list helements =>
      apply Run.Accords.bind (accords_forTurns hbody hfilter (hS.grown hX) helements .nil)
      intro Y l l' done done' hY hcollected
      exact .pure hY.heaps (.give (.list hcollected.reverse))
  | number x => exact hfail (.number x)
  | bool b => exact hfail (.bool b)
  | null => exact hfail .null
  | text t => exact hfail (.text t)
  | function hg => exact hfail (.function hg)
  | encap hfields hinherited hscope => exact hfail (.encap hfields hinherited hscope)
  | empty => exact hfail .empty

/-! ### Expressions of the core -/

variable {limits : Limits}

/-- From some fuel on the evaluations of the node accord. -/
def Settles (limits : Limits) (n : Node) : Prop :=
  ∃ enough, ∀ fuel, enough ≤ fuel → n.Accords (eval limits fuel)

/-- For several nodes there is a fuel that is enough for all. -/
theorem exists_enough_forall_mem {nodes : List Node} (hnodes : ∀ n ∈ nodes, Settles limits n) :
    ∃ enough, ∀ fuel, enough ≤ fuel → ∀ n ∈ nodes, n.Accords (eval limits fuel) := by
  induction nodes with
  | nil => exact ⟨0, fun _ _ _ hn => absurd hn List.not_mem_nil⟩
  | cons n rest ih =>
      obtain ⟨first, hfirst⟩ := hnodes n List.mem_cons_self
      obtain ⟨others, hothers⟩ := ih fun m hm => hnodes m (List.mem_cons_of_mem n hm)
      refine ⟨max first others, fun fuel hfuel => List.forall_mem_cons.mpr ⟨?_, ?_⟩⟩
      · exact hfirst fuel (Nat.le_trans (Nat.le_max_left _ _) hfuel)
      · exact hothers fuel (Nat.le_trans (Nat.le_max_right _ _) hfuel)

/-- A node settles if its evaluation accords whenever that of its parts does. -/
theorem settles_of_parts {n : Node} (parts : List Node) (hparts : ∀ m ∈ parts, Settles limits m)
    (hn : ∀ fuel, (∀ m ∈ parts, m.Accords (eval limits fuel)) →
      n.Accords (eval limits (fuel + 1))) : Settles limits n := by
  obtain ⟨enough, henough⟩ := exists_enough_forall_mem hparts
  refine ⟨enough + 1, fun fuel hfuel => ?_⟩
  cases fuel with
  | zero => exact absurd hfuel (Nat.not_succ_le_zero _)
  | succ fuel => exact hn fuel (henough fuel (Nat.le_of_succ_le_succ hfuel))

theorem coreRules_settles (limits : Limits) :
    Node.CoreRules fun statement n => statement = false → Settles limits n where
  number _ :=
    settles_of_parts [] (by simp) fun _ _ _ _ _ _ _ hS => .pure hS.heaps (.give (.number _))
  text _ :=
    settles_of_parts [] (by simp) fun _ _ _ _ _ _ _ hS => .pure hS.heaps (.give (.text _))
  ident _ := settles_of_parts [] (by simp) fun _ _ _ _ _ _ _ hS => accords_ident hS _ _
  list {_ _ elements} h _ :=
    settles_of_parts elements (fun n hn => h n hn rfl) fun _ hparts _ _ _ _ _ hS =>
      accords_list hparts hS _
  binary {_ _ _ left right} hop hl hr _ := by
    refine settles_of_parts [left, right] (by simp [hl rfl, hr rfl]) ?_
    intro fuel hparts W h f h' f' hS
    simp only [List.forall_mem_cons] at hparts
    exact accords_binary hparts.1 hparts.2.1 hS _ hop
  unary {_ _ _ operand} h _ := by
    refine settles_of_parts [operand] (by simp [h rfl]) ?_
    intro fuel hparts W h f h' f' hS
    exact accords_unary (hparts operand List.mem_cons_self) hS _ _
  conditional {_ _ producesValue condition thenBranch elseBranch} hplace hc ht he hst := by
    subst hst
    cases producesValue with
    | false => cases hplace rfl
    | true =>
        refine settles_of_parts (condition :: thenBranch :: elseBranch.toList) ?_ ?_
        · simp only [List.forall_mem_cons, Option.mem_toList]
          exact ⟨hc rfl, ht rfl, fun n hn => he n hn rfl⟩
        · intro fuel hparts W h f h' f' hS
          simp only [List.forall_mem_cons, Option.mem_toList] at hparts
          exact accords_conditional hparts.1 hparts.2.1 hparts.2.2 hS _
  forLoop {_ _ _ comprehension source body filter} hplace hs hb hf hst := by
    subst hst
    cases comprehension with
    | false => cases hplace rfl
    | true =>
        refine settles_of_parts (source :: body :: filter.toList) ?_ ?_
        · simp only [List.forall_mem_cons, Option.mem_toList]
          exact ⟨hs rfl, hb rfl, fun n hn => hf n hn rfl⟩
        · intro fuel hparts W h f h' f' hS
          simp only [List.forall_mem_cons, Option.mem_toList] at hparts
          exact accords_comprehension hparts.1 hparts.2.1 hparts.2.2 hS
  assign _ _ hst := absurd hst (by decide)
  block _ hst := absurd hst (by decide)
  whileLoop _ _ hst := absurd hst (by decide)
  stopLoop hst := absurd hst (by decide)
  nextTurn hst := absurd hst (by decide)

end Evaluation

end CapsuleScript
