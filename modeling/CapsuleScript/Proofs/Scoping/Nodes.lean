import CapsuleScript.Proofs.Evaluation.LoopSignals

/-! Programs in which every statement that leaves a loop stands in the body of one, with no function
between them. Putting in the declarations of functions keeps such programs so, and outside of the
bodies of loops no such statement stands in them. -/

namespace CapsuleScript.Node

mutual

/-- Whether each statement in the node that leaves a loop stands in the body of one, with no
function between them. With `inLoop` the node itself stands in such a body. -/
def isScoped (inLoop : Bool) : Node → Bool
  | .number .. => true
  | .text .. => true
  | .ident .. => true
  | .list _ elements => allScoped inLoop elements
  | .binary _ _ left right => left.isScoped inLoop && right.isScoped inLoop
  | .unary _ _ operand => operand.isScoped inLoop
  | .assign _ _ _ value => value.isScoped inLoop
  | .block _ _ statements => allScoped inLoop statements
  | .conditional _ _ condition thenBranch elseBranch =>
    condition.isScoped inLoop && thenBranch.isScoped inLoop && optionScoped inLoop elseBranch
  | .function _ _ _ _ body => body.isScoped false
  | .declaration _ _ placeholder => placeholder.isScoped false
  | .call _ callee arguments => callee.isScoped inLoop && allScoped inLoop arguments
  | .result _ value => optionScoped inLoop value
  | .stopLoop _ => inLoop
  | .nextTurn _ => inLoop
  | .whileLoop _ condition body => condition.isScoped inLoop && body.isScoped true
  | .forLoop _ _ _ source body filter =>
    source.isScoped inLoop && body.isScoped true && optionScoped inLoop filter
  | .encap _ _ _ body parent => body.isScoped inLoop && optionScoped inLoop parent
  | .prev _ expression => expression.isScoped inLoop

/-- Whether this is so in all of the nodes. -/
def allScoped (inLoop : Bool) : List Node → Bool
  | [] => true
  | node :: rest => node.isScoped inLoop && allScoped inLoop rest

/-- Whether this is so in the node, if there is one. -/
def optionScoped (inLoop : Bool) : Option Node → Bool
  | none => true
  | some node => node.isScoped inLoop

end

/-- The statement at `s` that leaves a loop stands in the node, outside of functions and of the
bodies of loops. -/
def Leaves (node : Node) (exit : LoopExit) (s : Span) : Prop := ∃ away, node.Exits away exit s

variable {inLoop : Bool} {exit : LoopExit} {s : Span}

mutual

/-- No statement leaves a loop outside of the bodies of loops. -/
theorem not_exits_of_isScoped : {node : Node} → node.isScoped false = true →
    ∀ away, ¬ node.Exits away exit s
  | .list _ elements, h, away => by
      simp only [isScoped] at h
      exact not_anyExits_of_allScoped h away
  | .binary .., h, away => by
      simp only [isScoped, Bool.and_eq_true] at h
      rintro (hleft | ⟨-, hright⟩ | ⟨-, -, deeper, hright⟩)
      · exact not_exits_of_isScoped h.1 away hleft
      · exact not_exits_of_isScoped h.2 away hright
      · exact not_exits_of_isScoped h.2 deeper hright
  | .unary .., h, away => by
      simp only [isScoped] at h
      exact not_exits_of_isScoped h away
  | .assign .., h, away => by
      simp only [isScoped] at h
      exact not_exits_of_isScoped h away
  | .block .., h, away => by
      simp only [isScoped] at h
      exact not_anyExits_of_allScoped h away
  | .conditional .., h, away => by
      simp only [isScoped, Bool.and_eq_true] at h
      rintro (hcondition | hthen | helse)
      · exact not_exits_of_isScoped h.1.1 away hcondition
      · exact not_exits_of_isScoped h.1.2 away hthen
      · exact not_optionExits_of_optionScoped h.2 away helse
  | .call .., h, away => by
      simp only [isScoped, Bool.and_eq_true] at h
      rintro (hcallee | harguments)
      · exact not_exits_of_isScoped h.1 away hcallee
      · exact not_anyExits_of_allScoped h.2 away harguments
  | .result .., h, away => by
      simp only [isScoped] at h
      exact not_optionExits_of_optionScoped h away
  | .whileLoop .., h, away => by
      simp only [isScoped, Bool.and_eq_true] at h
      exact not_exits_of_isScoped h.1 away
  | .forLoop .., h, away => by
      simp only [isScoped, Bool.and_eq_true] at h
      rintro (hsource | hfilter)
      · exact not_exits_of_isScoped h.1.1 away hsource
      · exact not_optionExits_of_optionScoped h.2 away hfilter
  | .encap .., h, away => by
      simp only [isScoped, Bool.and_eq_true] at h
      rintro (hbody | hparent)
      · exact not_exits_of_isScoped h.1 away hbody
      · exact not_optionExits_of_optionScoped h.2 away hparent
  | .prev .., h, _ => by
      simp only [isScoped] at h
      rintro ⟨-, deeper, hinner⟩
      exact not_exits_of_isScoped h deeper hinner
  | .stopLoop _, h, _ | .nextTurn _, h, _ => by
      simp only [isScoped, Bool.false_eq_true] at h
  | .number .., _, _ | .text .., _, _ | .ident .., _, _ | .function .., _, _
  | .declaration .., _, _ => id

theorem not_anyExits_of_allScoped : {nodes : List Node} → allScoped false nodes = true →
    ∀ away, ¬ AnyExits nodes away exit s
  | [], _, _ => id
  | _ :: _, h, away => by
      simp only [allScoped, Bool.and_eq_true] at h
      rintro (hfirst | hrest)
      · exact not_exits_of_isScoped h.1 away hfirst
      · exact not_anyExits_of_allScoped h.2 away hrest

theorem not_optionExits_of_optionScoped : {node : Option Node} → optionScoped false node = true →
    ∀ away, ¬ OptionExits node away exit s
  | none, _, _ => id
  | some _, h, away => by
      simp only [optionScoped] at h
      exact not_exits_of_isScoped h away

end

theorem not_leaves_of_isScoped {node : Node} (h : node.isScoped false = true) :
    ¬ node.Leaves exit s :=
  fun ⟨away, hexits⟩ => not_exits_of_isScoped h away hexits

/-! ### Putting the declarations in -/

theorem allScoped_append (nodes others : List Node) :
    allScoped inLoop (nodes ++ others) = (allScoped inLoop nodes && allScoped inLoop others) := by
  induction nodes with
  | nil => simp only [List.nil_append, allScoped, Bool.true_and]
  | cons node rest ih => simp only [List.cons_append, allScoped, ih, Bool.and_assoc]

mutual

/-- Putting the declarations in changes nothing, and the declarations left over are no such
statements. -/
theorem isScoped_hoist : (inLoop : Bool) → (node : Node) →
    (hoist node).1.isScoped inLoop = node.isScoped inLoop ∧
      allScoped inLoop (hoist node).2 = true
  | inLoop, .assign span name topLevel value => by
      have hvalue := isScoped_hoist inLoop value
      refine ⟨by simp only [hoist_assign_fst, isScoped, hvalue.1], ?_⟩
      cases value with
      | function => rfl
      | _ => exact hvalue.2
  | _, .function _ (some _) _ _ body => ⟨(isScoped_hoist false body).1, rfl⟩
  | _, .function _ none _ _ body => ⟨(isScoped_hoist false body).1, rfl⟩
  | inLoop, .block _ true statements => by
      have hall := allScoped_hoistAll inLoop statements
      exact ⟨by simp only [hoist, isScoped, allScoped_append, hall.1, hall.2, Bool.true_and], rfl⟩
  | inLoop, .block _ false statements => allScoped_hoistAll inLoop statements
  | inLoop, .conditional _ _ _ thenBranch none => by
      have hthen := isScoped_hoist inLoop thenBranch
      exact ⟨by simp only [hoist, isScoped, hthen.1], hthen.2⟩
  | inLoop, .conditional _ _ _ thenBranch (some elseBranch) => by
      have hthen := isScoped_hoist inLoop thenBranch
      have helse := isScoped_hoist inLoop elseBranch
      refine ⟨by simp only [hoist, isScoped, optionScoped, hthen.1, helse.1], ?_⟩
      simp only [hoist, allScoped_append, hthen.2, helse.2, Bool.and_self]
  | inLoop, .whileLoop _ _ body =>
      ⟨by simp only [hoist, isScoped, (isScoped_hoist true body).1], (isScoped_hoist inLoop body).2⟩
  | inLoop, .forLoop _ _ _ _ body _ =>
      ⟨by simp only [hoist, isScoped, (isScoped_hoist true body).1], (isScoped_hoist inLoop body).2⟩
  | inLoop, .encap _ _ _ body _ =>
      ⟨by simp only [hoist, isScoped, (isScoped_hoist inLoop body).1],
        (isScoped_hoist inLoop body).2⟩
  | inLoop, .prev _ inner => isScoped_hoist inLoop inner
  | _, .number .. | _, .text .. | _, .list .. | _, .binary .. | _, .unary .. | _, .ident ..
  | _, .declaration .. | _, .call .. | _, .result .. | _, .stopLoop .. | _, .nextTurn .. =>
      ⟨rfl, rfl⟩

theorem allScoped_hoistAll : (inLoop : Bool) → (nodes : List Node) →
    allScoped inLoop (hoistAll nodes).1 = allScoped inLoop nodes ∧
      allScoped inLoop (hoistAll nodes).2 = true
  | _, [] => ⟨rfl, rfl⟩
  | inLoop, node :: rest => by
      have hnode := isScoped_hoist inLoop node
      have hrest := allScoped_hoistAll inLoop rest
      refine ⟨by simp only [hoistAll, allScoped, hnode.1, hrest.1], ?_⟩
      simp only [hoistAll, allScoped_append, hnode.2, hrest.2, Bool.and_self]

end

end CapsuleScript.Node
