import CapsuleScript.Proofs.Node.Reading
import CapsuleScript.Token.Lexer
import Mathlib

/-! Where the declarations of functions are put in. A block that may declare owns the functions that
its statements define outside of functions and of other such blocks. Main statement: in a program
with the declarations put in, a block that is reached through statements, branches, bodies and the
values of assignments starts with one declaration for each function it owns, in order; a block
inside an element, an operand, an argument, a condition, a source, a filter, a parent or a result is
as it was, without any. -/

namespace CapsuleScript

/-! ### Parts of a tree -/

/-- How a part stands in a node. -/
inductive Slot where
  | element (index : Nat)
  | left
  | right
  | operand
  /-- What an assignment binds. -/
  | assigned
  /-- A statement of a block, counted without the declarations put in. -/
  | statement (index : Nat)
  | condition
  | thenBranch
  | elseBranch
  | body
  | placeholder
  | callee
  | argument (index : Nat)
  /-- What a function gives as its result. -/
  | result
  | source
  | filter
  | parent
  /-- What is evaluated in an earlier frame. -/
  | inner
deriving DecidableEq

namespace Slot

/-- Whether the search for function definitions goes on into what stands there. -/
def isSearched : Slot → Bool
  | assigned => true
  | statement _ => true
  | thenBranch => true
  | elseBranch => true
  | body => true
  | inner => true
  | _ => false

end Slot

namespace Node

/-- Whether the node is the declaration of a function. -/
def isDeclaration : Node → Bool
  | .declaration .. => true
  | _ => false

/-- The part of the node that stands in the slot. -/
def part? : Node → Slot → Option Node
  | .list _ elements, .element i => elements[i]?
  | .binary _ _ left _, .left => some left
  | .binary _ _ _ right, .right => some right
  | .unary _ _ operand, .operand => some operand
  | .assign _ _ _ value, .assigned => some value
  | .block _ _ statements, .statement i => (statements.filter (!·.isDeclaration))[i]?
  | .conditional _ _ condition _ _, .condition => some condition
  | .conditional _ _ _ branch _, .thenBranch => some branch
  | .conditional _ _ _ _ branch, .elseBranch => branch
  | .function _ _ _ _ body, .body => some body
  | .declaration _ _ placeholder, .placeholder => some placeholder
  | .call _ callee _, .callee => some callee
  | .call _ _ arguments, .argument i => arguments[i]?
  | .result _ value, .result => value
  | .whileLoop _ condition _, .condition => some condition
  | .whileLoop _ _ body, .body => some body
  | .forLoop _ _ _ source _ _, .source => some source
  | .forLoop _ _ _ _ body _, .body => some body
  | .forLoop _ _ _ _ _ filter, .filter => filter
  | .encap _ _ _ body _, .body => some body
  | .encap _ _ _ _ parent, .parent => parent
  | .prev _ expression, .inner => some expression
  | _, _ => none

/-- The node that one comes to from slot to slot. -/
def at? : Node → List Slot → Option Node
  | node, [] => some node
  | node, slot :: path => (node.part? slot).bind (at? · path)

/-! ### The functions that a block owns -/

mutual

/-- The functions that the node leaves to the block around it: name and region of each statement
that defines one, outside of functions and of blocks that may declare. A function that is assigned
is known by the name it is assigned to. -/
def definitions : Node → List (String × Span)
  | .assign span name _ (.function ..) => [(name, span)]
  | .assign _ _ _ value => value.definitions
  | .function span (some name) _ _ _ => [(name, span)]
  | .function _ none _ _ _ => []
  | .block _ true _ => []
  | .block _ false statements => definitionsOfAll statements
  | .list _ elements => definitionsOfAll elements
  | .binary _ _ left right => left.definitions ++ right.definitions
  | .unary _ _ operand => operand.definitions
  | .conditional _ _ condition thenBranch elseBranch =>
    condition.definitions ++ thenBranch.definitions ++ definitionsOfOption elseBranch
  | .declaration _ _ placeholder => placeholder.definitions
  | .call _ callee arguments => callee.definitions ++ definitionsOfAll arguments
  | .result _ value => definitionsOfOption value
  | .whileLoop _ condition body => condition.definitions ++ body.definitions
  | .forLoop _ _ _ source body filter =>
    source.definitions ++ body.definitions ++ definitionsOfOption filter
  | .encap _ _ _ body parent => body.definitions ++ definitionsOfOption parent
  | .prev _ expression => expression.definitions
  | .number .. => []
  | .text .. => []
  | .ident .. => []
  | .stopLoop _ => []
  | .nextTurn _ => []

/-- The functions that the nodes leave to the block around them. -/
def definitionsOfAll : List Node → List (String × Span)
  | [] => []
  | node :: rest => node.definitions ++ definitionsOfAll rest

/-- The functions that the node, if there is one, leaves to the block around it. -/
def definitionsOfOption : Option Node → List (String × Span)
  | none => []
  | some node => node.definitions

end

mutual

/-- What is read as an expression defines no functions for the block around it. -/
theorem Parsed.definitions_eq_nil : {node : Node} → node.Parsed false → node.definitions = []
  | .list _ elements, h => by
      have helements : AllParsed false elements := h
      simp only [definitions, helements.definitions_eq_nil]
  | .binary .., h => by
      simp only [definitions, h.1.definitions_eq_nil, h.2.definitions_eq_nil, List.append_nil]
  | .unary _ _ operand, h => by
      have hoperand : operand.Parsed false := h
      simp only [definitions, hoperand.definitions_eq_nil]
  | .conditional _ true _ _ _, h => by
      have hbranches : Parsed false _ ∧ OptionParsed false _ := h.2.2
      simp only [definitions, h.2.1.definitions_eq_nil, hbranches.1.definitions_eq_nil,
        hbranches.2.definitions_eq_nil, List.append_nil]
  | .function _ none _ _ _, _ => by simp only [definitions]
  | .function _ (some _) _ _ _, h => absurd (h.1 rfl) Bool.false_ne_true
  | .call .., h => by
      simp only [definitions, h.1.definitions_eq_nil, h.2.definitions_eq_nil, List.append_nil]
  | .forLoop _ _ true _ _ _, h => by
      have hbody : Parsed false _ := h.2.2.1
      simp only [definitions, h.2.1.definitions_eq_nil, hbody.definitions_eq_nil,
        h.2.2.2.definitions_eq_nil, List.append_nil]
  | .encap _ _ _ (.block _ true _) _, h => by
      simp only [definitions, h.2.2.definitions_eq_nil, List.append_nil]
  | .prev _ inner, h => by
      have hinner : inner.Parsed false := h
      simp only [definitions, hinner.definitions_eq_nil]
  | .number .., _ | .text .., _ | .ident .., _ => by simp only [definitions]

theorem AllParsed.definitions_eq_nil : {nodes : List Node} → AllParsed false nodes →
    definitionsOfAll nodes = []
  | [], _ => by simp only [definitionsOfAll]
  | _ :: _, h => by
      simp only [definitionsOfAll, h.1.definitions_eq_nil, h.2.definitions_eq_nil, List.append_nil]

theorem OptionParsed.definitions_eq_nil : {node : Option Node} → OptionParsed false node →
    definitionsOfOption node = []
  | none, _ => by simp only [definitionsOfOption]
  | some node, h => by
      have hnode : node.Parsed false := h
      simp only [definitionsOfOption, hnode.definitions_eq_nil]

end

/-! ### Putting the declarations in -/

/-- The declaration of a function that a block owns. -/
def declareDefinition (definition : String × Span) : Node := declare definition.1 definition.2

theorem hoistAll_fst (nodes : List Node) : (hoistAll nodes).1 = nodes.map declareFunctions := by
  induction nodes with
  | nil => rw [hoistAll, List.map_nil]
  | cons node rest ih => rw [hoistAll, List.map_cons, ← ih, declareFunctions]

mutual

/-- What is left to the block around a node are the declarations of the functions that the node
defines for it. -/
theorem Parsed.hoist_snd {statement : Bool} : {node : Node} → node.Parsed statement →
    (hoist node).2 = node.definitions.map declareDefinition
  | .assign _ _ _ value, h => by
      have hvalue := h.2.hoist_snd
      cases value with
      | function => simp only [hoist, definitions, List.map_cons, List.map_nil, declareDefinition]
      | _ => simpa only [hoist, definitions] using hvalue
  | .function _ (some _) _ _ _, _ => by
      simp only [hoist, definitions, List.map_cons, List.map_nil, declareDefinition]
  | .function _ none _ _ _, _ => by simp only [hoist, definitions, List.map_nil]
  | .block _ true _, _ => by simp only [hoist, definitions, List.map_nil]
  | .block _ false _, h => by simp only [hoist, definitions, h.2.hoist_snd]
  | .conditional _ _ _ _ none, h => by
      simp only [hoist, definitions, definitionsOfOption, h.2.1.definitions_eq_nil,
        h.2.2.1.hoist_snd, List.nil_append, List.append_nil]
  | .conditional _ _ _ _ (some otherwise), h => by
      have helse : otherwise.Parsed _ := h.2.2.2
      simp only [hoist, definitions, definitionsOfOption, h.2.1.definitions_eq_nil,
        h.2.2.1.hoist_snd, helse.hoist_snd, List.nil_append, List.map_append]
  | .whileLoop .., h => by
      simp only [hoist, definitions, h.2.1.definitions_eq_nil, h.2.2.hoist_snd, List.nil_append]
  | .forLoop .., h => by
      simp only [hoist, definitions, h.2.1.definitions_eq_nil, h.2.2.1.hoist_snd,
        h.2.2.2.definitions_eq_nil, List.nil_append, List.append_nil]
  | .encap .., h => by
      simp only [hoist, definitions, h.2.1.hoist_snd, h.2.2.definitions_eq_nil, List.append_nil]
  | .prev _ inner, h => by
      have hinner : inner.Parsed false := h
      simp only [hoist, definitions, hinner.hoist_snd]
  | .list _ elements, h => by
      have helements : AllParsed false elements := h
      simp only [hoist, definitions, helements.definitions_eq_nil, List.map_nil]
  | .binary .., h => by
      simp only [hoist, definitions, h.1.definitions_eq_nil, h.2.definitions_eq_nil,
        List.append_nil, List.map_nil]
  | .unary _ _ operand, h => by
      have hoperand : operand.Parsed false := h
      simp only [hoist, definitions, hoperand.definitions_eq_nil, List.map_nil]
  | .call .., h => by
      simp only [hoist, definitions, h.1.definitions_eq_nil, h.2.definitions_eq_nil,
        List.append_nil, List.map_nil]
  | .result .., h => by simp only [hoist, definitions, h.2.definitions_eq_nil, List.map_nil]
  | .number .., _ | .text .., _ | .ident .., _ | .stopLoop _, _ | .nextTurn _, _ => by
      simp only [hoist, definitions, List.map_nil]

theorem AllParsed.hoist_snd {statement : Bool} : {nodes : List Node} →
    AllParsed statement nodes → (hoistAll nodes).2 = (definitionsOfAll nodes).map declareDefinition
  | [], _ => by simp only [hoistAll, definitionsOfAll, List.map_nil]
  | _ :: _, h => by
      simp only [hoistAll, definitionsOfAll, h.1.hoist_snd, h.2.hoist_snd, List.map_append]

end

theorem Parsed.isDeclaration_eq_false {statement : Bool} {node : Node} (h : node.Parsed statement) :
    node.isDeclaration = false := by
  cases node with
  | declaration => exact h.elim
  | _ => rfl

theorem isDeclaration_declareFunctions (node : Node) :
    node.declareFunctions.isDeclaration = node.isDeclaration := by
  cases node with
  | assign _ _ _ value => cases value <;> rfl
  | function _ name => cases name <;> rfl
  | block _ mayDeclare => cases mayDeclare <;> rfl
  | conditional _ _ _ _ elseBranch => cases elseBranch <;> rfl
  | _ => rfl

theorem isDeclaration_of_mem_map_declareDefinition {definitions : List (String × Span)} {node : Node}
    (hnode : node ∈ definitions.map declareDefinition) : node.isDeclaration = true := by
  obtain ⟨definition, -, rfl⟩ := List.mem_map.mp hnode
  rfl

theorem AllParsed.isDeclaration_eq_false_of_mem_map {statement : Bool} {nodes : List Node}
    {node : Node} (h : AllParsed statement nodes) (hnode : node ∈ nodes.map declareFunctions) :
    node.isDeclaration = false := by
  obtain ⟨part, hpart, rfl⟩ := List.mem_map.mp hnode
  rw [isDeclaration_declareFunctions, (allParsed_iff.mp h part hpart).isDeclaration_eq_false]

theorem declareFunctions_block {span : Span} {statements : List Node}
    (h : AllParsed true statements) : (block span true statements).declareFunctions =
      .block span true ((definitionsOfAll statements).map declareDefinition ++
        statements.map declareFunctions) := by
  simp only [declareFunctions, hoist, h.hoist_snd, hoistAll_fst]

/-- Without the declarations put in, the statements of a block are those that were read. -/
theorem filter_declareFunctions {statements : List Node} (h : AllParsed true statements)
    (definitions : List (String × Span)) :
    (definitions.map declareDefinition ++ statements.map declareFunctions).filter
      (!·.isDeclaration) = statements.map declareFunctions := by
  have hnone : (definitions.map declareDefinition).filter (!·.isDeclaration) = [] := by
    rw [List.filter_eq_nil_iff]
    intro node hmem
    simp [isDeclaration_of_mem_map_declareDefinition hmem]
  rw [List.filter_append, hnone, List.nil_append, List.filter_eq_self]
  intro node hmem
  simp [h.isDeclaration_eq_false_of_mem_map hmem]

theorem AllParsed.of_getElem? {statement : Bool} {nodes : List Node} (h : AllParsed statement nodes)
    {i : Nat} {node : Node} (hnode : nodes[i]? = some node) : node.Parsed statement :=
  allParsed_iff.mp h node (List.mem_of_getElem? hnode)

theorem AllParsed.filter_eq {statement : Bool} {nodes : List Node} (h : AllParsed statement nodes) :
    nodes.filter (!·.isDeclaration) = nodes := by
  rw [List.filter_eq_self]
  intro node hmem
  rw [(allParsed_iff.mp h node hmem).isDeclaration_eq_false]
  rfl

theorem declareFunctions_block_false (span : Span) (statements : List Node) :
    (block span false statements).declareFunctions =
      .block span false (statements.map declareFunctions) := by
  rw [← hoistAll_fst]
  rfl

/-- A block has its statements where they were, whether or not declarations are put in front. -/
theorem part?_declareFunctions_block {span : Span} {mayDeclare : Bool} {statements : List Node}
    (h : AllParsed true statements) (i : Nat) :
    (block span mayDeclare statements).declareFunctions.part? (.statement i) =
      (statements.map declareFunctions)[i]? := by
  cases mayDeclare with
  | true => rw [declareFunctions_block h, part?, filter_declareFunctions h]
  | false =>
      have hkept := filter_declareFunctions h []
      rw [List.map_nil, List.nil_append] at hkept
      rw [declareFunctions_block_false, part?, hkept]

/-- A part of the node with the declarations put in is that part of the node, with the declarations
put in if the search goes on there. -/
theorem Parsed.part?_declareFunctions {statement : Bool} {node part : Node} {slot : Slot}
    (h : node.Parsed statement) (hpart : node.part? slot = some part) :
    (∃ inner, part.Parsed inner) ∧ node.declareFunctions.part? slot =
      some (if slot.isSearched then part.declareFunctions else part) := by
  cases node with
  | list span elements =>
      have helements : AllParsed false elements := h
      cases slot with
      | element i => exact ⟨⟨false, helements.of_getElem? hpart⟩, hpart⟩
      | _ => cases hpart
  | binary =>
      cases slot with
      | left =>
          cases hpart
          exact ⟨⟨false, h.1⟩, rfl⟩
      | right =>
          cases hpart
          exact ⟨⟨false, h.2⟩, rfl⟩
      | _ => cases hpart
  | unary =>
      cases slot with
      | operand =>
          cases hpart
          exact ⟨⟨false, h⟩, rfl⟩
      | _ => cases hpart
  | assign span name topLevel value =>
      cases slot with
      | assigned =>
          cases hpart
          refine ⟨⟨true, h.2⟩, ?_⟩
          rw [declareFunctions, hoist_assign_fst]
          rfl
      | _ => cases hpart
  | block span mayDeclare statements =>
      cases slot with
      | statement i =>
          have hstatement : statements[i]? = some part := by
            rwa [part?, h.2.filter_eq] at hpart
          refine ⟨⟨true, h.2.of_getElem? hstatement⟩, ?_⟩
          rw [part?_declareFunctions_block h.2, List.getElem?_map, hstatement]
          rfl
      | _ => cases hpart
  | conditional span producesValue condition thenBranch elseBranch =>
      cases slot with
      | condition =>
          cases hpart
          exact ⟨⟨false, h.2.1⟩, by cases elseBranch <;> rfl⟩
      | thenBranch =>
          cases hpart
          exact ⟨⟨_, h.2.2.1⟩, by cases elseBranch <;> rfl⟩
      | elseBranch =>
          cases elseBranch with
          | none => cases hpart
          | some otherwise =>
              cases hpart
              exact ⟨⟨_, h.2.2.2⟩, rfl⟩
      | _ => cases hpart
  | function span name =>
      cases slot with
      | body =>
          cases hpart
          exact ⟨⟨true, h.2⟩, by cases name <;> rfl⟩
      | _ => cases hpart
  | declaration => exact h.elim
  | call span callee arguments =>
      cases slot with
      | callee =>
          cases hpart
          exact ⟨⟨false, h.1⟩, rfl⟩
      | argument i => exact ⟨⟨false, h.2.of_getElem? hpart⟩, hpart⟩
      | _ => cases hpart
  | result span value =>
      cases slot with
      | result =>
          cases value with
          | none => cases hpart
          | some value =>
              cases hpart
              exact ⟨⟨false, h.2⟩, rfl⟩
      | _ => cases hpart
  | whileLoop =>
      cases slot with
      | condition =>
          cases hpart
          exact ⟨⟨false, h.2.1⟩, rfl⟩
      | body =>
          cases hpart
          exact ⟨⟨true, h.2.2⟩, rfl⟩
      | _ => cases hpart
  | forLoop span name comprehension source body filter =>
      cases slot with
      | source =>
          cases hpart
          exact ⟨⟨false, h.2.1⟩, rfl⟩
      | body =>
          cases hpart
          exact ⟨⟨_, h.2.2.1⟩, rfl⟩
      | filter =>
          cases filter with
          | none => cases hpart
          | some filter =>
              cases hpart
              exact ⟨⟨false, h.2.2.2⟩, rfl⟩
      | _ => cases hpart
  | encap span typeName strict body parent =>
      cases slot with
      | body =>
          cases hpart
          exact ⟨⟨true, h.2.1⟩, rfl⟩
      | parent =>
          cases parent with
          | none => cases hpart
          | some parent =>
              cases hpart
              exact ⟨⟨false, h.2.2⟩, rfl⟩
      | _ => cases hpart
  | prev =>
      cases slot with
      | inner =>
          cases hpart
          exact ⟨⟨false, h⟩, rfl⟩
      | _ => cases hpart
  | _ => cases slot <;> cases hpart

/-- What is reached in a node with the declarations put in is what is reached there in the node,
with the declarations put in if the search comes to it. -/
theorem Parsed.at?_declareFunctions {path : List Slot} : {statement : Bool} → {node part : Node} →
    node.Parsed statement → node.at? path = some part →
    (∃ inner, part.Parsed inner) ∧ node.declareFunctions.at? path =
      some (if path.all Slot.isSearched then part.declareFunctions else part) := by
  induction path with
  | nil =>
      intro statement node part h hpart
      cases hpart
      exact ⟨⟨_, h⟩, rfl⟩
  | cons slot path ih =>
      intro statement node part h hpart
      obtain ⟨child, hchild, hrest⟩ := Option.bind_eq_some_iff.mp hpart
      obtain ⟨⟨inner, hparsed⟩, hdeclared⟩ := h.part?_declareFunctions hchild
      refine ⟨(ih hparsed hrest).1, ?_⟩
      rw [at?, hdeclared, Option.bind_some, List.all_cons]
      cases slot.isSearched with
      | true => exact (ih hparsed hrest).2
      | false => exact hrest

end Node

open Node

/-- In a program with the declarations put in, every block that may declare and that the search
comes to starts with one declaration for each function it owns, in order, and has no others; a block
that the search does not come to is as it was read, and has none. -/
theorem at?_declareFunctions_of_ofTokens {tokens : List Located} {program : Node}
    (hprogram : Node.ofTokens tokens = .ok program) {path : List Slot} {span : Span}
    {statements : List Node} (hblock : program.at? path = some (.block span true statements)) :
    program.declareFunctions.at? path = some (.block span true
      (if path.all Slot.isSearched then
        (definitionsOfAll statements).map declareDefinition ++ statements.map declareFunctions
      else statements)) ∧
    ∀ statement ∈ statements,
      statement.isDeclaration = false ∧ statement.declareFunctions.isDeclaration = false := by
  obtain ⟨-, -, -, hparsed⟩ := Node.exists_parsed_ofTokens hprogram
  obtain ⟨⟨inner, -, hstatements⟩, hdeclared⟩ := hparsed.at?_declareFunctions hblock
  constructor
  · rw [hdeclared, declareFunctions_block hstatements]
    split <;> rfl
  · intro statement hmem
    have hread := (allParsed_iff.mp hstatements statement hmem).isDeclaration_eq_false
    exact ⟨hread, (isDeclaration_declareFunctions statement).trans hread⟩

/-- The statements of the block that one comes to in the program that a text is read as. -/
def blockAt? (text : String) (path : List Slot) : Option (List Node) :=
  match Token.readAll "<stdin>" text with
  | .error _ => none
  | .ok tokens =>
    match Node.ofTokens tokens with
    | .error _ => none
    | .ok program =>
      match program.at? path with
      | some (.block _ true statements) => some statements
      | _ => none

theorem exists_of_blockAt? {text : String} {path : List Slot} {statements : List Node}
    (h : blockAt? text path = some statements) : ∃ tokens program span,
      Node.ofTokens tokens = .ok program ∧
        program.at? path = some (.block span true statements) := by
  unfold blockAt? at h
  split at h
  · cases h
  · rename_i tokens _
    split at h
    · cases h
    · rename_i program hprogram
      split at h
      · rename_i span found hblock
        cases h
        exact ⟨tokens, program, span, hprogram, hblock⟩
      · cases h

/-- The block of an object that is assigned inside of a block is searched: it declares the function
of its branch too. -/
theorem at?_declareFunctions_branch : ∃ program path span statements,
    (∃ tokens, Node.ofTokens tokens = .ok program) ∧
    program.at? path = some (.block span true statements) ∧
    path.all Slot.isSearched = true ∧
    (definitionsOfAll statements).map Prod.fst = ["f", "g"] ∧
    program.declareFunctions.at? path = some (.block span true
      ((definitionsOfAll statements).map declareDefinition ++
        statements.map declareFunctions)) := by
  have hread : (blockAt? "o = encap \x7b f = fun -> g!\nif true \x7b fun g -> f! \x7d \x7d"
      [.statement 0, .assigned, .body]).map (fun statements => (definitionsOfAll statements).map
        Prod.fst) = some ["f", "g"] := by
    cbv
  obtain ⟨statements, hblock, hnames⟩ := Option.map_eq_some_iff.mp hread
  obtain ⟨tokens, program, span, hprogram, hat⟩ := exists_of_blockAt? hblock
  exact ⟨program, _, span, statements, ⟨tokens, hprogram⟩, hat, rfl, hnames,
    (at?_declareFunctions_of_ofTokens hprogram hat).1⟩

/-- Not every block that may declare starts with the declarations of the functions it owns: the body
of a function in a list has none. -/
theorem exists_at?_declareFunctions_undeclared : ¬ ∀ tokens program path span statements,
    Node.ofTokens tokens = .ok program → program.at? path = some (.block span true statements) →
    ∃ rest, program.declareFunctions.at? path = some (.block span true
      ((definitionsOfAll statements).map declareDefinition ++ rest)) := by
  intro hall
  have hread : (blockAt? "xs = [fun \x7b fun g -> g \x7d]"
      [.statement 0, .assigned, .element 0, .body]).map (fun statements =>
        (definitionsOfAll statements).map Prod.fst) = some ["g"] := by
    cbv
  obtain ⟨statements, hblock, hnames⟩ := Option.map_eq_some_iff.mp hread
  obtain ⟨tokens, program, span, hprogram, hat⟩ := exists_of_blockAt? hblock
  obtain ⟨rest, hrest⟩ := hall _ _ _ _ _ hprogram hat
  obtain ⟨-, -, -, hparsed⟩ := Node.exists_parsed_ofTokens hprogram
  obtain ⟨⟨inner, -, hstatements⟩, hkept⟩ := hparsed.at?_declareFunctions hat
  have hsame : statements = (definitionsOfAll statements).map declareDefinition ++ rest := by
    rw [hrest] at hkept
    simpa [Slot.isSearched] using hkept.symm
  obtain ⟨definition, others, hcons⟩ : ∃ definition others,
      definitionsOfAll statements = definition :: others := by
    cases hdefinitions : definitionsOfAll statements with
    | nil => simp [hdefinitions] at hnames
    | cons definition others => exact ⟨definition, others, rfl⟩
  have hmem : declareDefinition definition ∈ statements := by
    rw [hsame, hcons]
    simp
  exact absurd (allParsed_iff.mp hstatements _ hmem) id

end CapsuleScript
