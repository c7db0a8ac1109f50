import CapsuleScript.Node.Parser.Phrase
import CapsuleScript.Proofs.Node.Shape
import Mathlib.Data.List.Forall2

/-! How a program is written down without leaving anything to precedence. Every expression inside
another phrase stands in parentheses, statements stand as they are with line breaks between them.
Only the object that a literal inherits from stands without parentheses: the grammar wants a name
there. -/

namespace CapsuleScript

namespace Token

/-- A text in parentheses. -/
def enclose (text : List Token) : List Token :=
  .mark .openParen :: (text ++ [.mark .closeParen])

/-- Several texts with the token `between` after each but the last. -/
def separated (between : Token) : List (List Token) → List Token
  | [] => []
  | first :: rest => first ++ rest.flatMap (between :: ·)

@[simp] theorem length_enclose (text : List Token) : (enclose text).length = text.length + 2 := by
  simp [enclose]

end Token

/-- How an operator between two operands is written. -/
def BinaryOp.token : BinaryOp → Token
  | add => .mark .plus
  | sub => .mark .minus
  | mul => .mark .star
  | div => .mark .slash
  | less => .mark .less
  | greater => .mark .greater
  | lessEqual => .mark .lessEqual
  | greaterEqual => .mark .greaterEqual
  | equal => .mark .equalEqual
  | notEqual => .mark .bangEqual
  | and => .keyword .andWord
  | or => .keyword .orWord
  | access => .mark .fatArrow

@[simp] theorem BinaryOp.binaryOp?_token (op : BinaryOp) : op.token.binaryOp? = some op := by
  cases op <;> rfl

theorem BinaryOp.looseness_pos (op : BinaryOp) : 0 < op.looseness := by
  cases op <;> decide

theorem BinaryOp.looseness_le (op : BinaryOp) : op.looseness ≤ 5 := by
  cases op <;> decide

/-- How an operator in front of an operand is written. -/
def UnaryOp.token : UnaryOp → Token
  | plus => .mark .plus
  | negate => .mark .minus
  | not => .mark .bang

namespace Node

/-! ### Trees without their places -/

mutual

/-- The tree with every region of text forgotten. -/
def bare : Node → Node
  | .number _ value => .number nowhere value
  | .text _ value => .text nowhere value
  | .list _ elements => .list nowhere (bareAll elements)
  | .binary _ op left right => .binary nowhere op left.bare right.bare
  | .unary _ op operand => .unary nowhere op operand.bare
  | .assign _ name topLevel value => .assign nowhere name topLevel value.bare
  | .ident _ name => .ident nowhere name
  | .block _ mayDeclare statements => .block nowhere mayDeclare (bareAll statements)
  | .conditional _ producesValue condition thenBranch elseBranch =>
    .conditional nowhere producesValue condition.bare thenBranch.bare (bareOption elseBranch)
  | .function _ name params autoReturn body => .function nowhere name params autoReturn body.bare
  | .declaration _ name placeholder => .declaration nowhere name placeholder.bare
  | .call _ callee arguments => .call nowhere callee.bare (bareAll arguments)
  | .result _ value => .result nowhere (bareOption value)
  | .stopLoop _ => .stopLoop nowhere
  | .nextTurn _ => .nextTurn nowhere
  | .whileLoop _ condition body => .whileLoop nowhere condition.bare body.bare
  | .forLoop _ name comprehension source body filter =>
    .forLoop nowhere name comprehension source.bare body.bare (bareOption filter)
  | .encap _ typeName strict body parent =>
    .encap nowhere typeName strict body.bare (bareOption parent)
  | .prev _ expression => .prev nowhere expression.bare
where
  nowhere : Span := ⟨"", .origin, .origin⟩

/-- The trees with every region of text forgotten. -/
def bareAll : List Node → List Node
  | [] => []
  | node :: rest => node.bare :: bareAll rest

/-- The tree, if there is one, with every region of text forgotten. -/
def bareOption : Option Node → Option Node
  | none => none
  | some node => some node.bare

end

/-- The second tree is the first one read from another place. -/
abbrev Alike (node other : Node) : Prop := other.bare = node.bare

theorem Alike.bareAll_eq {nodes others : List Node} (h : List.Forall₂ Alike nodes others) :
    bareAll others = bareAll nodes := by
  induction h with
  | nil => rfl
  | cons hnode _ ih => simp only [bareAll, hnode, ih]

/-! ### Normal forms -/

/-- A variable. -/
def IsVariable : Node → Prop
  | .ident .. => True
  | _ => False

mutual

/-- The tree is one that the grammar has for the phrase, with blocks wherever statements follow a
condition or a loop. -/
def Normal (phrase : Phrase) : Node → Prop
  | .number .. => True
  | .text .. => True
  | .list _ elements => AllNormal .expression elements
  | .binary _ _ left right => left.Normal .expression ∧ right.Normal .expression
  | .unary _ _ operand => operand.Normal .expression
  | .assign _ _ topLevel value =>
    phrase.isStatement ∧ topLevel = false ∧ value.Normal .expression
  | .ident .. => True
  | .block _ mayDeclare statements =>
    phrase = .statement mayDeclare ∧ statements ≠ [] ∧ AllNormal (.statement true) statements
  | .conditional _ true condition thenBranch elseBranch =>
    condition.Normal .expression ∧ thenBranch.Normal .expression ∧ elseBranch.isSome ∧
      OptionNormal .expression elseBranch
  | .conditional _ false condition thenBranch elseBranch =>
    phrase.isStatement ∧ condition.Normal .expression ∧ thenBranch.IsBlock ∧
      thenBranch.Normal (.statement false) ∧ (∀ branch ∈ elseBranch, branch.IsBlock) ∧
        OptionNormal (.statement false) elseBranch
  | .function _ name _ true body => (name.isSome → phrase.isStatement) ∧ body.Normal .expression
  | .function _ name _ false body =>
    (name.isSome → phrase.isStatement) ∧ body.IsBlock ∧ body.Normal (.statement true)
  | .declaration .. => False
  | .call _ callee arguments => callee.Normal .expression ∧ AllNormal .expression arguments
  | .result _ value => phrase.isStatement ∧ OptionNormal .expression value
  | .stopLoop _ => phrase.isStatement
  | .nextTurn _ => phrase.isStatement
  | .whileLoop _ condition body =>
    phrase.isStatement ∧ condition.Normal .expression ∧ body.IsBlock ∧
      body.Normal (.statement false)
  | .forLoop _ _ true source body filter =>
    source.Normal .expression ∧ body.Normal .expression ∧ OptionNormal .expression filter
  | .forLoop _ _ false source body filter =>
    phrase.isStatement ∧ source.Normal .expression ∧ body.IsBlock ∧
      body.Normal (.statement false) ∧ filter = none
  | .encap _ typeName _ body parent =>
    body.IsBlock ∧ body.Normal (.statement true) ∧ (typeName = none → parent = none) ∧
      ∀ object ∈ parent, object.IsVariable
  | .prev _ expression => expression.Normal .expression

/-- All trees are in normal form for the phrase. -/
def AllNormal (phrase : Phrase) : List Node → Prop
  | [] => True
  | node :: rest => node.Normal phrase ∧ AllNormal phrase rest

/-- The tree, if there is one, is in normal form for the phrase. -/
def OptionNormal (phrase : Phrase) : Option Node → Prop
  | none => True
  | some node => node.Normal phrase

end

theorem allNormal_iff {phrase : Phrase} {nodes : List Node} :
    AllNormal phrase nodes ↔ ∀ node ∈ nodes, node.Normal phrase := by
  induction nodes with
  | nil => simp [AllNormal]
  | cons node rest ih => simp [AllNormal, ih]

/-- A declaration of the program: a name and the statement whose value it is bound to. -/
def IsTopLevel : Node → Prop
  | .assign _ _ topLevel value => topLevel = true ∧ value.Normal (.statement true)
  | _ => False

/-- A block of declarations of the program. -/
def IsProgram : Node → Prop
  | .block _ mayDeclare statements => mayDeclare = true ∧ ∀ node ∈ statements, node.IsTopLevel
  | _ => False

/-! ### Writing -/

/-- Whether the tree is a statement without being an expression. -/
def standsAlone : Node → Bool
  | .assign .. => true
  | .block .. => true
  | .conditional _ producesValue _ _ _ => !producesValue
  | .function _ name _ _ _ => name.isSome
  | .declaration .. => true
  | .result .. => true
  | .stopLoop _ => true
  | .nextTurn _ => true
  | .whileLoop .. => true
  | .forLoop _ _ comprehension _ _ _ => !comprehension
  | _ => false

/-- The text of the tree as a statement: an expression is enclosed. -/
def placed (node : Node) (text : List Token) : List Token :=
  if node.standsAlone then text else Token.enclose text

/-- The parameters of a function, behind a colon if there are any. -/
def writtenParams : List String → List Token
  | [] => []
  | params => .mark .colon :: Token.separated (.mark .comma) (params.map fun name => [.name name])

/-- The name of an object's type and the variable it inherits from. -/
def writtenType (typeName : Option String) (parent : Option Node) : List Token :=
  typeName.elim [] (fun name => [.keyword .asWord, .name name]) ++
    (match parent with
      | some (.ident _ name) => [.mark .colon, .name name]
      | _ => [])

mutual

/-- The text of a tree. Declarations of functions are put in later and have no text. -/
def written : Node → List Token
  | .number _ value => [.number value]
  | .text _ value => [.text value]
  | .list _ elements =>
    .mark .openBracket ::
      (Token.separated (.mark .comma) (enclosedAll elements) ++ [.mark .closeBracket])
  | .binary _ op left right =>
    Token.enclose left.written ++ op.token :: Token.enclose right.written
  | .unary _ op operand => op.token :: Token.enclose operand.written
  | .assign _ name _ value => .name name :: .mark .equals :: value.placed value.written
  | .ident _ name => [.name name]
  | .block _ _ statements =>
    .mark .openBrace :: (Token.separated .newline (placedAll statements) ++ [.mark .closeBrace])
  | .conditional _ true condition thenBranch elseBranch =>
    Token.enclose thenBranch.written ++ .keyword .ifWord ::
      (Token.enclose condition.written ++ writtenAfter [.keyword .elseWord] elseBranch)
  | .conditional _ false condition thenBranch elseBranch =>
    .keyword .ifWord :: (Token.enclose condition.written ++ (thenBranch.written ++
      writtenAfter [.keyword .elseWord] elseBranch))
  | .function _ name params autoReturn body =>
    .keyword .funWord :: (name.elim [] (fun word => [.name word]) ++ (writtenParams params ++
      if autoReturn then .mark .arrow :: Token.enclose body.written else body.written))
  | .declaration .. => []
  | .call _ callee arguments =>
    Token.enclose callee.written ++
      if arguments.isEmpty then [.mark .bang]
      else .mark .colon :: Token.separated (.mark .comma) (enclosedAll arguments)
  | .result _ value => .keyword .returnWord :: writtenAfter [] value
  | .stopLoop _ => [.keyword .breakWord]
  | .nextTurn _ => [.keyword .continueWord]
  | .whileLoop _ condition body =>
    .keyword .whileWord :: (Token.enclose condition.written ++ body.written)
  | .forLoop _ name true source body filter =>
    Token.enclose body.written ++ .keyword .forWord :: .name name :: .keyword .inWord ::
      (Token.enclose source.written ++ writtenAfter [.mark .arrow, .keyword .ifWord] filter)
  | .forLoop _ name false source body _ =>
    .keyword .forWord :: .name name :: .keyword .inWord ::
      (Token.enclose source.written ++ body.written)
  | .encap _ typeName strict body parent =>
    .keyword (if strict then .sencapWord else .encapWord) ::
      (body.written ++ writtenType typeName parent)
  | .prev _ expression => .keyword .prevWord :: Token.enclose expression.written

/-- The texts of expressions, each enclosed. -/
def enclosedAll : List Node → List (List Token)
  | [] => []
  | node :: rest => Token.enclose node.written :: enclosedAll rest

/-- The texts of statements. -/
def placedAll : List Node → List (List Token)
  | [] => []
  | node :: rest => node.placed node.written :: placedAll rest

/-- The text of a part that may be left out, behind the tokens it follows. -/
def writtenAfter (lead : List Token) : Option Node → List Token
  | none => []
  | some node => lead ++ node.placed node.written

end

/-- The text of a program: its declarations on lines of their own. -/
def programText : Node → List Token
  | .block _ _ statements => Token.separated .newline (placedAll statements)
  | _ => []

theorem enclosedAll_eq_map (nodes : List Node) :
    enclosedAll nodes = nodes.map fun node => Token.enclose node.written := by
  induction nodes with
  | nil => rfl
  | cons node rest ih => simp [enclosedAll, ih]

theorem placedAll_eq_map (nodes : List Node) :
    placedAll nodes = nodes.map fun node => node.placed node.written := by
  induction nodes with
  | nil => rfl
  | cons node rest ih => simp [placedAll, ih]

theorem standsAlone_eq_false {node : Node} (h : node.Normal .expression) :
    node.standsAlone = false := by
  cases node with
  | conditional _ producesValue =>
      cases producesValue with
      | true => rfl
      | false => cases h.1
  | function _ name _ autoReturn =>
      cases name with
      | none => rfl
      | some => cases autoReturn <;> cases h.1 rfl
  | forLoop _ _ comprehension =>
      cases comprehension with
      | true => rfl
      | false => cases h.1
  | assign | block | result | whileLoop => cases h.1
  | stopLoop | nextTurn => cases h
  | declaration => exact h.elim
  | _ => rfl

/-- An expression in the place of a statement is enclosed. -/
theorem placed_of_normal {node : Node} (h : node.Normal .expression) :
    node.placed node.written = Token.enclose node.written := by
  simp [placed, standsAlone_eq_false h]

/-- A block in the place of a statement stands as it is. -/
theorem placed_of_isBlock {node : Node} (h : node.IsBlock) :
    node.placed node.written = node.written := by
  cases node with
  | block => rfl
  | _ => exact h.elim

end Node

end CapsuleScript
