import CapsuleScript.Node.Hoist
import CapsuleScript.Node.Parser.Phrase

/-! The shape of the trees that programs are read as. Statements stand only where the grammar has a
place for them, and the body of an object literal is a block. Putting in the declarations of
functions keeps the shape. A tree that has just been read has none of these declarations yet. -/

namespace CapsuleScript

/-- Whether statements are read for the phrase. -/
def Phrase.isStatement : Phrase → Bool
  | .statement _ => true
  | _ => false

namespace Node

/-- Statements in a scope of their own. -/
def IsBlock : Node → Prop
  | .block .. => True
  | _ => False

mutual

/-- The node is of the shape of an expression, or of a statement if one may stand there. -/
def Fits (statement : Bool) : Node → Prop
  | .number .. => True
  | .text .. => True
  | .ident .. => True
  | .list _ elements => AllFit false elements
  | .binary _ _ left right => left.Fits false ∧ right.Fits false
  | .unary _ _ operand => operand.Fits false
  | .assign _ _ _ value => statement = true ∧ value.Fits true
  | .block _ _ body => statement = true ∧ AllFit true body
  | .conditional _ producesValue condition thenBranch elseBranch =>
    (producesValue = false → statement = true) ∧ condition.Fits false ∧
      thenBranch.Fits (!producesValue) ∧ OptionFits (!producesValue) elseBranch
  | .function _ name _ _ body => (name.isSome → statement = true) ∧ body.Fits true
  | .declaration _ _ placeholder => statement = true ∧ placeholder.Fits true
  | .call _ callee arguments => callee.Fits false ∧ AllFit false arguments
  | .result _ value => statement = true ∧ OptionFits false value
  | .stopLoop _ => statement = true
  | .nextTurn _ => statement = true
  | .whileLoop _ condition body => statement = true ∧ condition.Fits false ∧ body.Fits true
  | .forLoop _ _ comprehension source body filter =>
    (comprehension = false → statement = true) ∧ source.Fits false ∧ body.Fits (!comprehension) ∧
      OptionFits false filter
  | .encap _ _ _ body parent => body.IsBlock ∧ body.Fits true ∧ OptionFits false parent
  | .prev _ expression => expression.Fits false

/-- All nodes are of the shape. -/
def AllFit (statement : Bool) : List Node → Prop
  | [] => True
  | node :: rest => node.Fits statement ∧ AllFit statement rest

/-- The node, if there is one, is of the shape. -/
def OptionFits (statement : Bool) : Option Node → Prop
  | none => True
  | some node => node.Fits statement

end

/-- The shape of the expressions of the grammar. -/
abbrev IsExpression (node : Node) : Prop := node.Fits false

/-- The shape of the statements of the grammar, expressions among them. -/
abbrev IsStatement (node : Node) : Prop := node.Fits true

theorem allFit_iff {statement : Bool} {nodes : List Node} :
    AllFit statement nodes ↔ ∀ node ∈ nodes, node.Fits statement := by
  induction nodes with
  | nil => simp [AllFit]
  | cons node rest ih => simp [AllFit, ih]

theorem AllFit.append {statement : Bool} {nodes others : List Node}
    (hnodes : AllFit statement nodes) (hothers : AllFit statement others) :
    AllFit statement (nodes ++ others) := by
  rw [allFit_iff] at *
  intro node hmem
  rcases List.mem_append.mp hmem with hmem | hmem
  · exact hnodes node hmem
  · exact hothers node hmem

theorem Fits.of_false {statement : Bool} {node : Node} (h : node.Fits false) :
    node.Fits statement := by
  cases node with
  | conditional _ producesValue =>
      cases producesValue with
      | false => exact absurd (h.1 rfl) Bool.false_ne_true
      | true => exact ⟨fun hfalse => absurd hfalse.symm Bool.false_ne_true, h.2⟩
  | forLoop _ _ comprehension =>
      cases comprehension with
      | false => exact absurd (h.1 rfl) Bool.false_ne_true
      | true => exact ⟨fun hfalse => absurd hfalse.symm Bool.false_ne_true, h.2⟩
  | _ => simp_all [Fits]

/-! ### Putting the declarations in -/

theorem fits_declare (name : String) (span : Span) : (declare name span).Fits true := by
  simp [declare, Fits]

theorem hoist_assign_fst (span : Span) (name : String) (topLevel : Bool) (value : Node) :
    (hoist (.assign span name topLevel value)).1 = .assign span name topLevel (hoist value).1 := by
  cases value with
  | function fspan fname params autoReturn body => cases fname <;> simp [hoist]
  | _ => simp [hoist]

theorem IsBlock.hoist {node : Node} (h : node.IsBlock) : (hoist node).1.IsBlock := by
  cases node with
  | block span mayDeclare statements => cases mayDeclare <;> simp [Node.hoist, IsBlock]
  | _ => exact h.elim

mutual

/-- Putting the declarations in keeps the shape, and the declarations left over are statements. -/
theorem Fits.hoist {statement : Bool} : {node : Node} → node.Fits statement →
    (node.hoist).1.Fits statement ∧ AllFit true (node.hoist).2
  | .assign _ _ _ value, h => by
      have hvalue := Fits.hoist h.2
      cases value with
      | function _ name =>
          cases name <;> exact ⟨⟨h.1, hvalue.1⟩, fits_declare _ _, trivial⟩
      | _ => exact ⟨⟨h.1, hvalue.1⟩, hvalue.2⟩
  | .function _ (some _) _ _ _, h => ⟨⟨h.1, h.2.hoist.1⟩, fits_declare _ _, trivial⟩
  | .function _ none _ _ _, h => ⟨⟨h.1, h.2.hoist.1⟩, trivial⟩
  | .block _ true _, h => ⟨⟨h.1, h.2.hoist.2.append h.2.hoist.1⟩, trivial⟩
  | .block _ false _, h => ⟨⟨h.1, h.2.hoist.1⟩, h.2.hoist.2⟩
  | .conditional _ _ _ _ none, h => ⟨⟨h.1, h.2.1, h.2.2.1.hoist.1, trivial⟩, h.2.2.1.hoist.2⟩
  | .conditional _ _ _ _ (some _), h =>
      have helse : Fits _ _ := h.2.2.2
      ⟨⟨h.1, h.2.1, h.2.2.1.hoist.1, helse.hoist.1⟩, h.2.2.1.hoist.2.append helse.hoist.2⟩
  | .whileLoop .., h => ⟨⟨h.1, h.2.1, h.2.2.hoist.1⟩, h.2.2.hoist.2⟩
  | .forLoop .., h => ⟨⟨h.1, h.2.1, h.2.2.1.hoist.1, h.2.2.2⟩, h.2.2.1.hoist.2⟩
  | .encap .., h => ⟨⟨h.1.hoist, h.2.1.hoist.1, h.2.2⟩, h.2.1.hoist.2⟩
  | .prev _ inner, h =>
      have hinner : inner.Fits false := h
      ⟨hinner.hoist.1, hinner.hoist.2⟩
  | .number .., h | .text .., h | .list .., h | .binary .., h | .unary .., h | .ident .., h
  | .declaration .., h | .call .., h | .result .., h | .stopLoop .., h | .nextTurn .., h =>
      ⟨h, trivial⟩

theorem AllFit.hoist {statement : Bool} : {nodes : List Node} → AllFit statement nodes →
    AllFit statement (hoistAll nodes).1 ∧ AllFit true (hoistAll nodes).2
  | [], _ => ⟨trivial, trivial⟩
  | _ :: _, h => ⟨⟨h.1.hoist.1, h.2.hoist.1⟩, h.1.hoist.2.append h.2.hoist.2⟩

end

/-! ### Trees as they are read -/

/-- Statements in a scope of their own, which declare their own functions. -/
def IsDeclaring : Node → Prop
  | .block _ mayDeclare _ => mayDeclare = true
  | _ => False

mutual

/-- The node is of the shape of an expression, or of a statement if one may stand there, before any
declarations are put in. The body of an object literal declares its own functions. -/
def Parsed (statement : Bool) : Node → Prop
  | .number .. => True
  | .text .. => True
  | .ident .. => True
  | .list _ elements => AllParsed false elements
  | .binary _ _ left right => left.Parsed false ∧ right.Parsed false
  | .unary _ _ operand => operand.Parsed false
  | .assign _ _ _ value => statement = true ∧ value.Parsed true
  | .block _ _ body => statement = true ∧ AllParsed true body
  | .conditional _ producesValue condition thenBranch elseBranch =>
    (producesValue = false → statement = true) ∧ condition.Parsed false ∧
      thenBranch.Parsed (!producesValue) ∧ OptionParsed (!producesValue) elseBranch
  | .function _ name _ _ body => (name.isSome → statement = true) ∧ body.Parsed true
  | .declaration .. => False
  | .call _ callee arguments => callee.Parsed false ∧ AllParsed false arguments
  | .result _ value => statement = true ∧ OptionParsed false value
  | .stopLoop _ => statement = true
  | .nextTurn _ => statement = true
  | .whileLoop _ condition body => statement = true ∧ condition.Parsed false ∧ body.Parsed true
  | .forLoop _ _ comprehension source body filter =>
    (comprehension = false → statement = true) ∧ source.Parsed false ∧
      body.Parsed (!comprehension) ∧ OptionParsed false filter
  | .encap _ _ _ body parent => body.IsDeclaring ∧ body.Parsed true ∧ OptionParsed false parent
  | .prev _ expression => expression.Parsed false

/-- All nodes are of the shape. -/
def AllParsed (statement : Bool) : List Node → Prop
  | [] => True
  | node :: rest => node.Parsed statement ∧ AllParsed statement rest

/-- The node, if there is one, is of the shape. -/
def OptionParsed (statement : Bool) : Option Node → Prop
  | none => True
  | some node => node.Parsed statement

end

theorem IsDeclaring.isBlock {node : Node} (h : node.IsDeclaring) : node.IsBlock := by
  cases node with
  | block => trivial
  | _ => exact h.elim

theorem Parsed.of_false {statement : Bool} {node : Node} (h : node.Parsed false) :
    node.Parsed statement := by
  cases node with
  | conditional _ producesValue =>
      cases producesValue with
      | false => exact absurd (h.1 rfl) Bool.false_ne_true
      | true => exact ⟨fun hfalse => absurd hfalse.symm Bool.false_ne_true, h.2⟩
  | forLoop _ _ comprehension =>
      cases comprehension with
      | false => exact absurd (h.1 rfl) Bool.false_ne_true
      | true => exact ⟨fun hfalse => absurd hfalse.symm Bool.false_ne_true, h.2⟩
  | _ => simp_all [Parsed]

mutual

theorem Parsed.fits {statement : Bool} : {node : Node} → node.Parsed statement →
    node.Fits statement
  | .list _ elements, h =>
      have helements : AllParsed false elements := h
      helements.allFit
  | .binary .., h => ⟨h.1.fits, h.2.fits⟩
  | .unary _ _ operand, h =>
      have hoperand : operand.Parsed false := h
      hoperand.fits
  | .assign .., h => ⟨h.1, h.2.fits⟩
  | .block .., h => ⟨h.1, h.2.allFit⟩
  | .conditional _ _ _ _ none, h => ⟨h.1, h.2.1.fits, h.2.2.1.fits, trivial⟩
  | .conditional _ _ _ _ (some otherwise), h =>
      have helse : otherwise.Parsed _ := h.2.2.2
      ⟨h.1, h.2.1.fits, h.2.2.1.fits, helse.fits⟩
  | .function .., h => ⟨h.1, h.2.fits⟩
  | .call .., h => ⟨h.1.fits, h.2.allFit⟩
  | .result _ none, h => ⟨h.1, trivial⟩
  | .result _ (some value), h =>
      have hvalue : value.Parsed false := h.2
      ⟨h.1, hvalue.fits⟩
  | .whileLoop .., h => ⟨h.1, h.2.1.fits, h.2.2.fits⟩
  | .forLoop _ _ _ _ _ none, h => ⟨h.1, h.2.1.fits, h.2.2.1.fits, trivial⟩
  | .forLoop _ _ _ _ _ (some filter), h =>
      have hfilter : filter.Parsed false := h.2.2.2
      ⟨h.1, h.2.1.fits, h.2.2.1.fits, hfilter.fits⟩
  | .encap _ _ _ _ none, h => ⟨h.1.isBlock, h.2.1.fits, trivial⟩
  | .encap _ _ _ _ (some parent), h =>
      have hparent : parent.Parsed false := h.2.2
      ⟨h.1.isBlock, h.2.1.fits, hparent.fits⟩
  | .prev _ inner, h =>
      have hinner : inner.Parsed false := h
      hinner.fits
  | .number .., h | .text .., h | .ident .., h | .stopLoop .., h | .nextTurn .., h => h

theorem AllParsed.allFit {statement : Bool} : {nodes : List Node} → AllParsed statement nodes →
    AllFit statement nodes
  | [], _ => trivial
  | _ :: _, h => ⟨h.1.fits, h.2.allFit⟩

end

theorem allParsed_iff {statement : Bool} {nodes : List Node} :
    AllParsed statement nodes ↔ ∀ node ∈ nodes, node.Parsed statement := by
  induction nodes with
  | nil => simp [AllParsed]
  | cons node rest ih => simp [AllParsed, ih]

theorem optionParsed_iff {statement : Bool} {node : Option Node} :
    OptionParsed statement node ↔ ∀ n ∈ node, n.Parsed statement := by
  cases node <;> simp [OptionParsed]

end Node

end CapsuleScript
