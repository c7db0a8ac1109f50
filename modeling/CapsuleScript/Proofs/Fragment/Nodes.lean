import CapsuleScript.Node.Hoist
import CapsuleScript.Proofs.Node.Reading

/-! Fragments of the language: with or without functions, objects and results. In every fragment a
block has a statement, so that it has a value. What is read belongs to the whole language, and putting
in the declarations of functions keeps a node in its fragment. -/

namespace CapsuleScript

/-- A fragment of the language, told by whether it has functions, objects and results of functions. -/
structure Fragment where
  functions : Prop
  objects : Prop
  results : Prop

/-- The whole language. -/
def Fragment.whole : Fragment := ⟨True, True, True⟩

/-- The fragment in which all values are data. -/
def Fragment.data : Fragment := ⟨False, False, False⟩

variable {L : Fragment}

namespace Node

mutual

/-- The node is of the fragment, and every block in it has a statement. -/
def Belongs (L : Fragment) : Node → Prop
  | .number .. => True
  | .text .. => True
  | .ident .. => True
  | .stopLoop _ => True
  | .nextTurn _ => True
  | .list _ elements => AllBelong L elements
  | .binary _ _ left right => left.Belongs L ∧ right.Belongs L
  | .unary _ _ operand => operand.Belongs L
  | .assign _ _ _ value => value.Belongs L
  | .block _ _ body => body ≠ [] ∧ AllBelong L body
  | .conditional _ _ condition thenBranch elseBranch =>
    condition.Belongs L ∧ thenBranch.Belongs L ∧ OptionBelongs L elseBranch
  | .function _ _ _ _ body => L.functions ∧ body.Belongs L
  | .declaration _ _ placeholder => L.functions ∧ placeholder.Belongs L
  | .call _ callee arguments => callee.Belongs L ∧ AllBelong L arguments
  | .result _ value => L.results ∧ OptionBelongs L value
  | .whileLoop _ condition body => condition.Belongs L ∧ body.Belongs L
  | .forLoop _ _ _ source body filter =>
    source.Belongs L ∧ body.Belongs L ∧ OptionBelongs L filter
  | .encap _ _ _ body parent => L.objects ∧ body.Belongs L ∧ OptionBelongs L parent
  | .prev _ expression => expression.Belongs L

/-- All nodes are so. -/
def AllBelong (L : Fragment) : List Node → Prop
  | [] => True
  | node :: rest => node.Belongs L ∧ AllBelong L rest

/-- The node, if there is one, is so. -/
def OptionBelongs (L : Fragment) : Option Node → Prop
  | none => True
  | some node => node.Belongs L

end

theorem AllBelong.append {nodes others : List Node} (hnodes : AllBelong L nodes)
    (hothers : AllBelong L others) : AllBelong L (nodes ++ others) := by
  induction nodes with
  | nil => exact hothers
  | cons node rest ih => exact ⟨hnodes.1, ih hnodes.2⟩

theorem allBelong_iff {nodes : List Node} : AllBelong L nodes ↔ ∀ n ∈ nodes, n.Belongs L := by
  induction nodes with
  | nil => simp [AllBelong]
  | cons node rest ih => simp [AllBelong, ih]

/-! ### Declarations put in -/

/-- As many statements are left as there were. -/
theorem hoistAll_fst_eq_nil {nodes : List Node} : (hoistAll nodes).1 = [] ↔ nodes = [] := by
  cases nodes <;> simp [hoistAll]

mutual

theorem Belongs.hoist : {node : Node} → node.Belongs L →
    (node.hoist).1.Belongs L ∧ AllBelong L (node.hoist).2
  | .assign _ _ _ value, h => by
      have hbelongs : value.Belongs L := h
      have hvalue := hbelongs.hoist
      cases value with
      | function _ name => cases name <;> exact ⟨hvalue.1, ⟨h.1, trivial⟩, trivial⟩
      | _ => exact hvalue
  | .function _ (some _) _ _ body, h =>
      have hbody : body.Belongs L := h.2
      ⟨⟨h.1, hbody.hoist.1⟩, ⟨h.1, trivial⟩, trivial⟩
  | .function _ none _ _ body, h =>
      have hbody : body.Belongs L := h.2
      ⟨⟨h.1, hbody.hoist.1⟩, trivial⟩
  | .block _ true body, h => by
      have hbody : AllBelong L body := h.2
      refine ⟨⟨fun hnil => h.1 ?_, hbody.hoist.2.append hbody.hoist.1⟩, trivial⟩
      exact hoistAll_fst_eq_nil.mp (List.append_eq_nil_iff.mp hnil).2
  | .block _ false body, h => by
      have hbody : AllBelong L body := h.2
      exact ⟨⟨fun hnil => h.1 (hoistAll_fst_eq_nil.mp hnil), hbody.hoist.1⟩, hbody.hoist.2⟩
  | .conditional _ _ _ _ none, h => ⟨⟨h.1, h.2.1.hoist.1, trivial⟩, h.2.1.hoist.2⟩
  | .conditional _ _ _ _ (some otherwise), h =>
      have helse : otherwise.Belongs L := h.2.2
      ⟨⟨h.1, h.2.1.hoist.1, helse.hoist.1⟩, h.2.1.hoist.2.append helse.hoist.2⟩
  | .whileLoop .., h => ⟨⟨h.1, h.2.hoist.1⟩, h.2.hoist.2⟩
  | .forLoop .., h => ⟨⟨h.1, h.2.1.hoist.1, h.2.2⟩, h.2.1.hoist.2⟩
  | .encap .., h => ⟨⟨h.1, h.2.1.hoist.1, h.2.2⟩, h.2.1.hoist.2⟩
  | .prev _ inner, h =>
      have hinner : inner.Belongs L := h
      hinner.hoist
  | .number .., h | .text .., h | .list .., h | .binary .., h | .unary .., h | .ident .., h
  | .declaration .., h | .call .., h | .result .., h | .stopLoop .., h | .nextTurn .., h =>
      ⟨h, trivial⟩

theorem AllBelong.hoist : {nodes : List Node} → AllBelong L nodes →
    AllBelong L (hoistAll nodes).1 ∧ AllBelong L (hoistAll nodes).2
  | [], _ => ⟨trivial, trivial⟩
  | _ :: _, h => ⟨⟨h.1.hoist.1, h.2.hoist.1⟩, h.1.hoist.2.append h.2.hoist.2⟩

end

/-! ### What is read -/

theorem optionBelongs_iff {node : Option Node} :
    OptionBelongs L node ↔ ∀ n ∈ node, n.Belongs L := by
  cases node <;> simp [OptionBelongs]

/-- What is read belongs to the whole language. -/
theorem grammar_belongs : Grammar fun _ => Belongs .whole where
  of_false h := h
  number := trivial
  text := trivial
  ident := trivial
  list h := allBelong_iff.mpr h
  binary hl hr := ⟨hl, hr⟩
  unary h := h
  choice hc ht he := ⟨hc, ht, he⟩
  call hc ha := ⟨hc, allBelong_iff.mpr ha⟩
  comprehension hs hb hf := ⟨hs, hb, optionBelongs_iff.mpr hf⟩
  function _ hbody := ⟨trivial, hbody⟩
  encap hbody hparent := ⟨trivial, hbody, optionBelongs_iff.mpr hparent⟩
  prev h := h
  assign h := h
  block hne h := ⟨hne, allBelong_iff.mpr h⟩
  conditional hc ht he := ⟨hc, ht, optionBelongs_iff.mpr he⟩
  whileLoop hc hb := ⟨hc, hb⟩
  forLoop hs hb := ⟨hs, hb, trivial⟩
  result h := ⟨trivial, optionBelongs_iff.mpr h⟩
  stopLoop := trivial
  nextTurn := trivial

end Node

end CapsuleScript
