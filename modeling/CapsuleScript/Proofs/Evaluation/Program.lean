import CapsuleScript.Proofs.Evaluation.Objects

/-! Every evaluation evolves the heap, by induction on the fuel, and so does every program. An
evaluation of an expression stays in its frame and binds nothing in the tables it found. -/

namespace CapsuleScript.Evaluation

open Heap

variable {fresh : Nat} {h k : Heap} {f : FrameId} {statement : Bool} {sub : Evaluator}

theorem evolves_node (limits : Limits) (bound : Nat) (hsub : sub.Evolves) :
    Evaluator.Evolves (node limits bound sub) := by
  intro fresh h n f statement hr hn hw
  cases n with
  | block span mayDeclare body =>
      obtain ⟨rfl, hbody⟩ := hn
      exact evolves_block hsub hr hbody
  | number span x => exact .pure (.give trivial hr.hasFrame fun hst => (hw hst).resolve_left id)
  | text span s => exact .pure (.give trivial hr.hasFrame fun hst => (hw hst).resolve_left id)
  | list span elements => exact evolves_list hsub hr hn fun hst => (hw hst).resolve_left id
  | binary span op left right =>
      exact evolves_binary hsub hr hn.1 hn.2 fun hst => (hw hst).resolve_left id
  | unary span op operand => exact evolves_unary hsub hr hn fun hst => (hw hst).resolve_left id
  | assign span name topLevel value =>
      obtain ⟨rfl, hvalue⟩ := hn
      exact evolves_assign hsub hr ((hw rfl).resolve_left id) hvalue
  | ident span name => exact evolves_ident hr fun hst => (hw hst).resolve_left id
  | conditional span producesValue condition thenBranch elseBranch =>
      exact evolves_conditional hsub hr hn fun hst => (hw hst).resolve_left id
  | function span name params autoReturn body =>
      exact evolves_function hr hn fun hst => (hw hst).resolve_left id
  | declaration span name placeholder =>
      obtain ⟨rfl, hplaceholder⟩ := hn
      exact evolves_declaration hr hplaceholder ((hw rfl).resolve_left id)
  | call span callee arguments =>
      exact evolves_call hsub hr hn.1 hn.2 fun hst => (hw hst).resolve_left id
  | result span value =>
      obtain ⟨rfl, hvalue⟩ := hn
      exact evolves_result hsub hr hvalue
  | stopLoop span => exact .raise ((hw hn).resolve_left id)
  | nextTurn span => exact .raise ((hw hn).resolve_left id)
  | whileLoop span condition body =>
      obtain ⟨rfl, hcondition, hbody⟩ := hn
      have hwritable := (hw rfl).resolve_left id
      exact evolves_whileTurns hsub hcondition hbody hr
        (.give trivial hr.hasFrame fun _ => hwritable)
  | forLoop span name comprehension source body filter =>
      exact evolves_forLoop hsub hr hn fun hst => (hw hst).resolve_left id
  | encap span typeName strict body parent =>
      exact evolves_encap hsub hr hn.1 hn.2.1 hn.2.2 fun hst => (hw hst).resolve_left id
  | prev span expression => exact evolves_prev hsub hr hn fun hst => (hw hst).resolve_left id

/-- Every evaluation evolves the heap. -/
theorem evolves_eval (limits : Limits) (fuel : Nat) : Evaluator.Evolves (eval limits fuel) := by
  induction fuel with
  | zero => exact fun _ _ _ => .exhausted
  | succ fuel ih => exact evolves_node limits fuel ih

theorem evolves_programFrom (hsub : sub.Evolves) {body : List Node} (hbody : Node.AllFit true body)
    {outcome : Outcome} (hr : h.Ready fresh f) (hout : outcome.GoesOn fresh true f h) :
    (programFrom sub body outcome).Evolves fresh h (Outcome.GoesOn fresh true f) := by
  induction body generalizing h outcome with
  | nil => exact .pure hout
  | cons statement rest ih =>
      have hcurrent : h.Ready fresh outcome.frame := ⟨hr.sound, hr.le, hout.hasFrame⟩
      have hw := hout.writable rfl
      have hend := (hsub hcurrent hbody.1 fun _ => .inr hw).attempt
      apply Run.Evolves.bind hr.sound hend
      intro ending k hk hs hending
      have hdescends := hout.descends.keeps hr.sound hs.keeps hout.hasFrame
      split
      · exact ih hbody.2 (hr.steps hs) ⟨hending.live, hending.hasFrame,
          hending.descends.trans hdescends, hending.writable,
          fun hst => absurd hst.symm Bool.false_ne_true⟩
      · exact .pure ⟨hending, hs.keeps.hasFrame hout.hasFrame, hdescends,
          fun _ => hs.keeps.writable hw, fun hst => absurd hst.symm Bool.false_ne_true⟩
      · exact .raise hending

theorem evolves_program (limits : Limits) (fuel : Nat) (hr : h.Ready fresh f)
    (hw : h.Writable fresh f) {n : Node} (hn : n.IsBlock ∧ n.IsStatement) :
    (program limits fuel n f).Evolves fresh h (Outcome.GoesOn fresh true f) := by
  obtain ⟨hblock, hfits⟩ := hn
  cases n with
  | block span mayDeclare body =>
      exact evolves_programFrom (evolves_eval limits fuel) hfits.2 hr
        (.give trivial hr.hasFrame fun _ => hw)
  | _ => exact hblock.elim

end CapsuleScript.Evaluation
