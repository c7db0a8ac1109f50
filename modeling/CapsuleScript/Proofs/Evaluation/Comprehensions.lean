import CapsuleScript.Proofs.Accord.Comprehensions
import CapsuleScript.Proofs.Evaluation.Lookup
import CapsuleScript.Proofs.Matching.Reached
import Mathlib

/-! Comprehensions filter and then map. The turns of a loop run in frames on top of each other, also
those whose element was refused. Main statement: in the core this cannot be told from evaluating the
filter and the body for each element on their own, in a new frame on top of the one around the
comprehension that binds nothing but the loop variable. The comprehension gives the values of the
body for the elements that the filter admits, in their order, or fails for the reason of the first
evaluation that fails. -/

namespace CapsuleScript

open Heap

variable {α β : Type} {W : Matching} {h k l m n : Heap} {f g : FrameId} {span : Span}
  {name : String} {v w u : Value} {vs : List Value}

/-! ### Evaluation aside -/

/-- What a computation comes to: its result with the heap that it leaves, or the reason of its
failure. There is nothing to tell of one that runs out of fuel or is left by another signal. -/
def Ending.comesTo : Ending α → ExceptT FaultKind Option (α × Heap)
  | .done a k => return (a, k)
  | .raised (.failed fault) _ => throw fault.kind
  | .raised _ _ => ExceptT.mk none
  | .outOfFuel => ExceptT.mk none

namespace Heap

/-- What the computation comes to on the heap `k`, in a new frame on top of the frame `f` that binds
`name` to `v` and nothing else. -/
def aside (k : Heap) (f : FrameId) (span : Span) (name : String) (v : Value)
    (run : FrameId → Run α) : ExceptT FaultKind Option (α × Heap) :=
  let entered := k.turnFrame f span name v
  (run entered.1 entered.2).comesTo

/-- What is picked for the element `v`: the value that `give` has for it, with the heap it is made
on, if `test` admits it. Each of the two is run on its own. -/
def picked (k : Heap) (f : FrameId) (span : Span) (name : String) (test : FrameId → Run Bool)
    (give : FrameId → Run Stamped) (v : Value) :
    ExceptT FaultKind Option (Option (Value × Heap)) := do
  if (← k.aside f span name v test).1 then
    let (given, l) ← k.aside f span name v give
    return some (given.value, l)
  else return none

/-- The value `w` on the heap `l` is the value `u` on the heap `m`, but for the numbers of what was
made after the heap was `k`. -/
def SameSince (k l : Heap) (w : Value) (m : Heap) (u : Value) : Prop :=
  ∃ X, k.own.Extends X ∧ X.Heaps l m ∧ w.Match X u

theorem SameSince.within {l' : Heap} (hw : k.SameSince l w m u) (hl : l.Within l')
    (hr : l'.Rooted) : k.SameSince l' w m u := by
  obtain ⟨X, hX, hheaps, hmatch⟩ := hw
  exact ⟨X, hX, hheaps.within hl (.refl m) hr hheaps.rooted', hmatch⟩

/-! ### The frames of a loop -/

/-- The frame `g` of the heap `l` is one that a loop over `name` in the frame `f` of the heap `k`
has come to: the heap has only grown, and all other names mean what they mean in `f`. -/
structure LoopedTo (k : Heap) (f : FrameId) (name : String) (l : Heap) (g : FrameId) : Prop where
  within : k.Within l
  stands : l.Stands g
  lookup : ∀ other, name ≠ other → l.lookup g other = k.lookup f other

theorem Sound.stands (hk : k.Sound) (hf : k.HasFrame f) : k.Stands f :=
  ⟨hk.rooted, hf, hk.hasTable hf⟩

theorem Sound.loopedTo (hk : k.Sound) (hf : k.HasFrame f) (name : String) :
    k.LoopedTo f name k f :=
  ⟨.refl k, hk.stands hf, fun _ _ => rfl⟩

namespace LoopedTo

/-- The frame of the next turn sees what a frame on top of `f` sees that binds the element. -/
theorem sameNames (hg : k.LoopedTo f name l g) (hk : k.Sound) (hf : k.HasFrame f) (span : Span)
    (hv : v.Lives k) :
    k.own.SameNames (l.turnFrame g span name v).2 (l.turnFrame g span name v).1
      (k.turnFrame f span name v).2 (k.turnFrame f span name v).1 where
  heaps := hk.heaps_own.within (hg.within.trans (within_turnFrame ..)) (within_turnFrame ..)
    (hg.stands.turnFrame span name v).rooted ((hk.stands hf).turnFrame span name v).rooted
  left := hg.stands.turnFrame span name v
  right := (hk.stands hf).turnFrame span name v
  lookup other := by
    rw [hg.stands.lookup_turnFrame, (hk.stands hf).lookup_turnFrame]
    by_cases hname : name = other
    · rw [if_pos hname, if_pos hname]
      exact .some hv.match_own
    · rw [if_neg hname, if_neg hname, hg.lookup other hname]
      exact Matching.rel_same fun w hw => (hk.lives_of_lookup hw).match_own

/-- The loop goes on from the frame of a turn. -/
theorem next (hg : k.LoopedTo f name l g) (hm : (l.turnFrame g span name v).2.Within m)
    (hr : m.Rooted) : k.LoopedTo f name m (l.turnFrame g span name v).1 where
  within := (hg.within.trans (within_turnFrame ..)).trans hm
  stands := (hg.stands.turnFrame span name v).within hm hr
  lookup other hname := by
    rw [(hg.stands.turnFrame span name v).lookup_eq hm hr, hg.stands.lookup_turnFrame,
      if_neg hname, hg.lookup other hname]

end LoopedTo

end Heap

namespace Evaluation

variable {sub : Evaluator} {body source : Node} {filter : Option Node}

/-! ### The turns of a loop -/

/-- The turn has gone to its end in the frame `f`, with the value that was given aside. -/
inductive Turn.Gives (f : FrameId) (W : Matching) : Turn → Stamped → Prop where
  | ended {s s' : Stamped} : s.value.Match W s'.value → Turn.Gives f W ⟨true, some s, f⟩ s'

theorem accords_turn_value (hbody : body.Accords sub) (hS : W.SameNames l f k g) :
    Run.Accords W (turn sub body f) (value sub body g) l k (Turn.Gives f) := by
  have hend := hbody hS
  unfold Run.Accords turn value at *
  rw [Run.bind_apply, Run.bind_apply, Run.attempt]
  generalize sub body f l = ending at hend
  generalize sub body g k = ending' at hend
  cases hend with
  | @done X out out' m n hX hout =>
      obtain ⟨result, frame⟩ := out
      obtain ⟨hresult, rfl, -⟩ := hout
      refine .done hX (.ended ?_)
      rw [Stamped.anchored_value]
      exact hresult.value
  | failed hkind hspan => exact .failed hkind hspan

/-- What the turns of a loop from the heap `l` on have come to is what was picked aside: they have
added the values that were picked to what had been collected before, or failed for the same
reason. -/
inductive Gathers (k l : Heap) (collected : List Value) :
    Ending Progress → ExceptT FaultKind Option (List (Value × Heap)) → Prop where
  | ended {progress : Progress} {m : Heap} {ws : List Value} {us : List (Value × Heap)} :
      l.Within m → m.Rooted → List.Forall₂ (fun w u => k.SameSince m w u.2 u.1) ws us →
      progress.collected = ws.reverse ++ collected →
      Gathers k l collected (.done progress m) (pure us)
  | failed {fault : Fault} {m : Heap} :
      Gathers k l collected (.raised (.failed fault) m) (throw fault.kind)

namespace Gathers

variable {collected : List Value} {ending : Ending Progress}
  {picks : ExceptT FaultKind Option (List (Value × Heap))}

/-- What was added before the turns counts as added. -/
theorem of_within (hlm : l.Within m) (hpicks : Gathers k m collected ending picks) :
    Gathers k l collected ending picks := by
  cases hpicks with
  | ended hl hr hall hcollected => exact .ended (hlm.trans hl) hr hall hcollected
  | failed => exact .failed

/-- The turns start with a computation that accords with one that is run aside. -/
theorem bind {Q : Matching → α → β → Prop} {run : Run α} {run' : Run β} {next : α → Run Progress}
    {next' : β × Heap → ExceptT FaultKind Option (List (Value × Heap))}
    (hrun : Run.Accords W run run' l m Q)
    (hnext : ∀ {X a b l' m'}, W.Grown l m X l' m' → Q X a b →
      Gathers k l' collected (next a l') (next' (b, m'))) :
    Gathers k l collected ((run >>= next) l) ((run' m).comesTo >>= next') := by
  unfold Run.Accords at hrun
  rw [Run.bind_apply]
  generalize run l = ending at hrun
  generalize run' m = ending' at hrun
  cases hrun with
  | done hX hQ => exact (hnext hX hQ).of_within hX.left
  | failed hkind hspan =>
      rw [Ending.comesTo, ← hkind]
      exact .failed

/-- The value of a turn is what was picked for its element. -/
theorem taken {given : Value × Heap} (hw : k.SameSince l w given.2 given.1)
    (hpicks : Gathers k l (w :: collected) ending picks) :
    Gathers k l collected ending (do return given :: (← picks)) := by
  cases hpicks with
  | ended hl hr hall hcollected =>
      refine .ended hl hr (.cons (hw.within hl hr) hall) ?_
      rw [hcollected, List.reverse_cons, List.append_assoc, List.singleton_append]
  | failed => exact .failed

end Gathers

theorem gathers_forTurns (hbody : body.Accords sub) (hfilter : ∀ n ∈ filter, n.Accords sub)
    (hk : k.Sound) (hf : k.HasFrame f) (hvs : Value.AllLive k vs) (span : Span)
    (progress : Progress) (hg : k.LoopedTo f name l progress.frame) :
    Gathers k l progress.collected (forTurns sub span name body filter vs progress l)
      (vs.filterMapM (k.picked f span name (admitted sub filter) (value sub body))) := by
  induction vs generalizing l progress with
  | nil => exact .ended (.refl l) hg.stands.rooted .nil rfl
  | cons v rest ih =>
      obtain ⟨hv, hrest⟩ := hvs
      have hnames := hg.sameNames hk hf span hv
      rw [forTurns, enter_define_bind, List.filterMapM_cons, picked, aside, bind_assoc]
      apply Gathers.of_within (within_turnFrame l progress.frame span name v)
      apply Gathers.bind (accords_admitted hfilter hnames)
      rintro X passed _ m n hX rfl
      cases passed with
      | false => exact ih hrest ⟨_, progress.result, _⟩ (hg.next hX.left hX.heaps.rooted)
      | true =>
          -- aside, the body starts on the heap that the filter started on
          have hbegin : k.own.Grown _ _ k.own m (k.turnFrame f span name v).2 :=
            ⟨.refl _, hnames.heaps.within hX.left (.refl _) hX.heaps.rooted hnames.right.rooted,
              hX.left, .refl _⟩
          simp only [if_true, aside, bind_assoc]
          apply Gathers.bind (accords_turn_value hbody (hnames.grown hbegin))
          rintro Y _ given o p hY ⟨hvalue⟩
          exact .taken ⟨Y, hY.matching, hY.heaps, hvalue⟩
            (ih hrest ⟨_, _, _⟩ (hg.next (hX.left.trans hY.left) hY.heaps.rooted))

/-! ### Comprehensions -/

/-- What a comprehension has come to is what was picked aside: the list of the values that were
picked, and the heap has only grown, or a failure for the same reason. -/
inductive Collects (k : Heap) (f : FrameId) (span : Span) :
    Ending Outcome → ExceptT FaultKind Option (List (Value × Heap)) → Prop where
  | given {l : Heap} {ws : List Value} {us : List (Value × Heap)} :
      k.Within l → List.Forall₂ (fun w u => k.SameSince l w u.2 u.1) ws us →
      Collects k f span (.done (give (.list ws) span f) l) (pure us)
  | failed {fault : Fault} {l : Heap} :
      Collects k f span (.raised (.failed fault) l) (throw fault.kind)

theorem Gathers.collects {run : Run Progress}
    {picks : ExceptT FaultKind Option (List (Value × Heap))} (hrun : Gathers k k [] (run k) picks) :
    Collects k f span
      ((do let progress ← run; return give (.list progress.collected.reverse) span f) k) picks := by
  rw [Run.bind_apply]
  generalize run k = ending at hrun
  cases hrun with
  | ended hl _ hall hcollected =>
      rw [List.append_nil] at hcollected
      dsimp only
      rw [hcollected, List.reverse_reverse]
      exact .given hl hall
  | failed => exact .failed

/-- Once its source is a list, a comprehension is the turns over it. -/
theorem forLoop_of_list {out : Outcome} (hend : sub source f h = .done out k)
    (hvs : out.result.value = .list vs) : forLoop sub span name true source body filter f h =
      (do
        let progress ← forTurns sub span name body filter vs ⟨[], .of .null span f, f⟩
        return give (.list progress.collected.reverse) span f : Run Outcome) k := by
  have hlist : (out.result.anchored f).value = .list vs := (Stamped.anchored_value _ f).trans hvs
  have hvalue : value sub source f h = .done (out.result.anchored f) k := by
    rw [value, Run.bind_apply, hend]
    rfl
  rw [forLoop, Run.bind_apply, hvalue]
  dsimp only
  rw [hlist]
  rfl

/-- **Comprehensions filter and map.** On any heap that a session can have, a comprehension of the
core over a list gives the values of its body for the elements that its filter admits, both evaluated
aside: on the heap that the list was made on, in a frame on top of that of the comprehension that
binds nothing but the loop variable. If one of these evaluations fails, the comprehension fails for
the reason of the first that does, where for each element the filter comes before the body. -/
theorem collects_comprehension (limits : Limits) (hbody : body.isCore false = true)
    (hfilter : Node.optionCore false filter = true) :
    ∃ enough, ∀ fuel, enough ≤ fuel → ∀ {h k : Heap} {f : FrameId} {source : Node} {out : Outcome}
      {vs : List Value} (span : Span) (name : String),
      h.Reachable → h.HasFrame f → source.IsExpression →
      eval limits fuel source f h = .done out k → out.result.value = .list vs →
      Collects k f span (eval limits (fuel + 1) (.forLoop span name true source body filter) f h)
        (vs.filterMapM (k.picked f span name (admitted (eval limits fuel) filter)
          (value (eval limits fuel) body))) := by
  have hcore := coreRules_settles limits
  have hparts : ∀ n ∈ body :: filter.toList, Settles limits n := by
    simp only [List.forall_mem_cons, Option.mem_toList]
    exact ⟨hcore.of_isCore _ body hbody rfl, fun n hn =>
      hcore.of_optionCore _ filter hfilter n hn rfl⟩
  obtain ⟨enough, henough⟩ := exists_enough_forall_mem hparts
  refine ⟨enough, fun fuel hfuel {h k f source out vs} span name hh hf hsource hend hvs => ?_⟩
  have haccords := henough fuel hfuel
  simp only [List.forall_mem_cons, Option.mem_toList] at haccords
  -- evaluating the source keeps the heap sound, and what it gives has been made on it
  have hr : h.Ready h.tables.size f := ⟨hh.sound, Nat.le_refl _, hf⟩
  have hevolves := evolves_eval limits fuel hr hsource fun hst => absurd hst Bool.false_ne_true
  obtain ⟨hsteps, hout⟩ := hevolves.done_of hend
  obtain ⟨hk, -, hkf⟩ := hr.steps hsteps
  have hlive := hout.live
  rw [hvs] at hlive
  have hturns := gathers_forTurns haccords.1 haccords.2 hk hkf hlive span ⟨[], .of .null span f, f⟩
    (hk.loopedTo hkf name)
  have hloop : eval limits (fuel + 1) (.forLoop span name true source body filter) f h = _ :=
    forLoop_of_list hend hvs
  rw [hloop]
  exact hturns.collects

/-- The comprehension `x + "!" for x in [x, "a"]`, whose source means another `x` than its body. -/
def exclaiming (span : Span) : Node :=
  .forLoop span "x" true (.list span [.ident span "x", .text span "a"])
    (.binary span .add (.ident span "x") (.text span "!")) none

/-- In a comprehension over `["b", "c"]` with one more loop variable `x` and the filter `x != "b"`,
it is evaluated for `"c"` only. -/
theorem collects_comprehension_exclaiming : ∃ span fuel picks,
    List.map Prod.fst <$> picks =
      (pure [.list [.text "c!", .text "a!"]] : ExceptT FaultKind Option (List Value)) ∧
    Collects (Session.start {}).heap (Session.start {}).frame span
      (eval {} (fuel + 1)
        (.forLoop span "x" true (.list span [.text span "b", .text span "c"]) (exclaiming span)
          (some (.binary span .notEqual (.ident span "x") (.text span "b"))))
        (Session.start {}).frame (Session.start {}).heap) picks := by
  let span : Span := ⟨"<stdin>", .origin, .origin⟩
  have hbody : (exclaiming span).isCore false = true := by decide
  have hfilter : Node.optionCore false
      (some (.binary span .notEqual (.ident span "x") (.text span "b"))) = true := by decide
  obtain ⟨enough, hcollects⟩ := collects_comprehension {} hbody hfilter
  have hsource : eval {} (enough + 4) (.list span [.text span "b", .text span "c"])
      (Session.start {}).frame (Session.start {}).heap =
        .done (give (.list [.text "b", .text "c"]) span (Session.start {}).frame)
          (Session.start {}).heap := rfl
  have hcollects := hcollects (enough + 4) (Nat.le_add_right _ _) span "x" (.start {})
    (Session.Reachable.start {}).sound.hasFrame (by trivial) hsource rfl
  refine ⟨span, enough + 4, _, ?_, hcollects⟩
  cbv

end Evaluation

end CapsuleScript
