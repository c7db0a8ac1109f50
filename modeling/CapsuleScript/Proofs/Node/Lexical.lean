import CapsuleScript.Proofs.Node.Shape

/-! Nodes without object literals and without a way back to the frame that the current one was entered
from. What such a node gives depends only on what names mean. Putting in the declarations of functions
keeps nodes so, and an expression leaves no declarations to the block around it. -/

namespace CapsuleScript.Node

mutual

/-- Nowhere in the node is there an object literal or an evaluation in an earlier frame. -/
def Lexical : Node → Prop
  | .number .. => True
  | .text .. => True
  | .ident .. => True
  | .list _ elements => AllLexical elements
  | .binary _ _ left right => left.Lexical ∧ right.Lexical
  | .unary _ _ operand => operand.Lexical
  | .assign _ _ _ value => value.Lexical
  | .block _ _ body => AllLexical body
  | .conditional _ _ condition thenBranch elseBranch =>
    condition.Lexical ∧ thenBranch.Lexical ∧ OptionLexical elseBranch
  | .function _ _ _ _ body => body.Lexical
  | .declaration _ _ placeholder => placeholder.Lexical
  | .call _ callee arguments => callee.Lexical ∧ AllLexical arguments
  | .result _ value => OptionLexical value
  | .stopLoop _ => True
  | .nextTurn _ => True
  | .whileLoop _ condition body => condition.Lexical ∧ body.Lexical
  | .forLoop _ _ _ source body filter => source.Lexical ∧ body.Lexical ∧ OptionLexical filter
  | .encap .. => False
  | .prev .. => False

/-- All nodes are so. -/
def AllLexical : List Node → Prop
  | [] => True
  | node :: rest => node.Lexical ∧ AllLexical rest

/-- The node, if there is one, is so. -/
def OptionLexical : Option Node → Prop
  | none => True
  | some node => node.Lexical

end

theorem AllLexical.append {nodes others : List Node} (hnodes : AllLexical nodes)
    (hothers : AllLexical others) : AllLexical (nodes ++ others) := by
  induction nodes with
  | nil => exact hothers
  | cons node rest ih => exact ⟨hnodes.1, ih hnodes.2⟩

mutual

theorem Lexical.hoist : {node : Node} → node.Lexical →
    (node.hoist).1.Lexical ∧ AllLexical (node.hoist).2
  | .assign _ _ _ value, h => by
      have hlexical : value.Lexical := h
      have hvalue := hlexical.hoist
      cases value with
      | function _ name => cases name <;> exact ⟨hvalue.1, trivial, trivial⟩
      | _ => exact hvalue
  | .function _ (some _) _ _ body, h =>
      have hbody : body.Lexical := h
      ⟨hbody.hoist.1, trivial, trivial⟩
  | .function _ none _ _ body, h =>
      have hbody : body.Lexical := h
      ⟨hbody.hoist.1, trivial⟩
  | .block _ true body, h =>
      have hbody : AllLexical body := h
      ⟨hbody.hoist.2.append hbody.hoist.1, trivial⟩
  | .block _ false body, h =>
      have hbody : AllLexical body := h
      hbody.hoist
  | .conditional _ _ _ _ none, h => ⟨⟨h.1, h.2.1.hoist.1, trivial⟩, h.2.1.hoist.2⟩
  | .conditional _ _ _ _ (some otherwise), h =>
      have helse : otherwise.Lexical := h.2.2
      ⟨⟨h.1, h.2.1.hoist.1, helse.hoist.1⟩, h.2.1.hoist.2.append helse.hoist.2⟩
  | .whileLoop .., h => ⟨⟨h.1, h.2.hoist.1⟩, h.2.hoist.2⟩
  | .forLoop .., h => ⟨⟨h.1, h.2.1.hoist.1, h.2.2⟩, h.2.1.hoist.2⟩
  | .number .., h | .text .., h | .list .., h | .binary .., h | .unary .., h | .ident .., h
  | .declaration .., h | .call .., h | .result .., h | .stopLoop .., h | .nextTurn .., h =>
      ⟨h, trivial⟩

theorem AllLexical.hoist : {nodes : List Node} → AllLexical nodes →
    AllLexical (hoistAll nodes).1 ∧ AllLexical (hoistAll nodes).2
  | [], _ => ⟨trivial, trivial⟩
  | _ :: _, h => ⟨⟨h.1.hoist.1, h.2.hoist.1⟩, h.1.hoist.2.append h.2.hoist.2⟩

end

/-- Expressions define no names, so they leave no declarations. -/
theorem IsExpression.hoist_snd : {node : Node} → node.Lexical → node.IsExpression →
    (node.hoist).2 = []
  | .assign .., _, h => absurd h.1 Bool.false_ne_true
  | .function _ (some _) _ _ _, _, h => absurd (h.1 rfl) Bool.false_ne_true
  | .function _ none _ _ _, _, _ => rfl
  | .block .., _, h => absurd h.1 Bool.false_ne_true
  | .conditional _ true _ thenBranch none, hl, h =>
      have hthen : (thenBranch.hoist).2 = [] := hoist_snd hl.2.1 h.2.2.1
      hthen
  | .conditional _ true _ thenBranch (some otherwise), hl, h => by
      have hthen : (thenBranch.hoist).2 = [] := hoist_snd hl.2.1 h.2.2.1
      have helse : (otherwise.hoist).2 = [] := hoist_snd hl.2.2 h.2.2.2
      rw [hoist]
      simp [hthen, helse]
  | .conditional _ false .., _, h => absurd (h.1 rfl) Bool.false_ne_true
  | .whileLoop .., _, h => absurd h.1 Bool.false_ne_true
  | .forLoop _ _ true _ body _, hl, h =>
      have hbody : (body.hoist).2 = [] := hoist_snd hl.2.1 h.2.2.1
      hbody
  | .forLoop _ _ false .., _, h => absurd (h.1 rfl) Bool.false_ne_true
  | .number .., _, _ | .text .., _, _ | .list .., _, _ | .binary .., _, _ | .unary .., _, _
  | .ident .., _, _ | .declaration .., _, _ | .call .., _, _ | .result .., _, _
  | .stopLoop .., _, _ | .nextTurn .., _, _ => rfl

end CapsuleScript.Node
