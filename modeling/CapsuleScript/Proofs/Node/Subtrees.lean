import CapsuleScript.Proofs.Node.Shape
import Mathlib

/-! Nodes inside of nodes. What stands directly in a node are its children; what stands in it at any
depth occurs in it. A property that every node hands on to its children is one of all that occurs in
a node that has it. -/

namespace CapsuleScript.Node

/-- The nodes that stand directly in a node, in the order in which it holds them. -/
def children : Node → List Node
  | .list _ elements => elements
  | .binary _ _ left right => [left, right]
  | .unary _ _ operand => [operand]
  | .assign _ _ _ value => [value]
  | .block _ _ statements => statements
  | .conditional _ _ condition thenBranch elseBranch =>
    condition :: thenBranch :: elseBranch.toList
  | .function _ _ _ _ body => [body]
  | .declaration _ _ placeholder => [placeholder]
  | .call _ callee arguments => callee :: arguments
  | .result _ value => value.toList
  | .whileLoop _ condition body => [condition, body]
  | .forLoop _ _ _ source body filter => source :: body :: filter.toList
  | .encap _ _ _ body parent => body :: parent.toList
  | .prev _ expression => [expression]
  | .number .. => []
  | .text .. => []
  | .ident .. => []
  | .stopLoop _ => []
  | .nextTurn _ => []

/-- The first node stands somewhere in the second, or is that node itself. -/
inductive Occurs : Node → Node → Prop where
  | self (node : Node) : Occurs node node
  | child {inner child node : Node} : child ∈ node.children → Occurs inner child → Occurs inner node

theorem Occurs.closed {C : Node → Prop} {inner node : Node} (h : inner.Occurs node)
    (hC : ∀ {n m}, C n → m ∈ n.children → C m) (hnode : C node) : C inner := by
  induction h with
  | self => exact hnode
  | child hmem _ ih => exact ih (hC hnode hmem)

/-- What stands in a tree that has just been read has been read too. -/
theorem Parsed.of_mem_children {statement : Bool} {node child : Node} (h : node.Parsed statement)
    (hchild : child ∈ node.children) : ∃ inner, child.Parsed inner := by
  have hall : ∀ {inner nodes}, AllParsed inner nodes → child ∈ nodes →
      ∃ inner, child.Parsed inner :=
    fun h hmem => ⟨_, allParsed_iff.mp h child hmem⟩
  have hoption : ∀ {inner} {node : Option Node}, OptionParsed inner node → child ∈ node.toList →
      ∃ inner, child.Parsed inner :=
    fun h hmem => ⟨_, optionParsed_iff.mp h child (Option.mem_toList.mp hmem)⟩
  cases node with
  | list => exact hall h hchild
  | binary =>
      rcases List.mem_pair.mp hchild with rfl | rfl
      · exact ⟨_, h.1⟩
      · exact ⟨_, h.2⟩
  | unary =>
      cases List.mem_singleton.mp hchild
      exact ⟨_, h⟩
  | assign =>
      cases List.mem_singleton.mp hchild
      exact ⟨_, h.2⟩
  | block => exact hall h.2 hchild
  | conditional =>
      rcases List.mem_cons.mp hchild with rfl | hchild
      · exact ⟨_, h.2.1⟩
      · rcases List.mem_cons.mp hchild with rfl | hchild
        · exact ⟨_, h.2.2.1⟩
        · exact hoption h.2.2.2 hchild
  | function =>
      cases List.mem_singleton.mp hchild
      exact ⟨_, h.2⟩
  | declaration => exact h.elim
  | call =>
      rcases List.mem_cons.mp hchild with rfl | hchild
      · exact ⟨_, h.1⟩
      · exact hall h.2 hchild
  | result => exact hoption h.2 hchild
  | whileLoop =>
      rcases List.mem_pair.mp hchild with rfl | rfl
      · exact ⟨_, h.2.1⟩
      · exact ⟨_, h.2.2⟩
  | forLoop =>
      rcases List.mem_cons.mp hchild with rfl | hchild
      · exact ⟨_, h.2.1⟩
      · rcases List.mem_cons.mp hchild with rfl | hchild
        · exact ⟨_, h.2.2.1⟩
        · exact hoption h.2.2.2 hchild
  | encap =>
      rcases List.mem_cons.mp hchild with rfl | hchild
      · exact ⟨_, h.2.1⟩
      · exact hoption h.2.2 hchild
  | prev =>
      cases List.mem_singleton.mp hchild
      exact ⟨_, h⟩
  | _ => cases hchild

end CapsuleScript.Node
