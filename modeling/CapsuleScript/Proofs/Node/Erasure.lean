import CapsuleScript.Proofs.Node.Hoisting
import CapsuleScript.Proofs.Node.Subtrees
import Mathlib

/-! Declarations are only put in. Main statement: a program with the declarations of its functions
put in is the program itself once they are erased, and each of them stands at the start of a block
that may declare, in front of all its other statements. -/

namespace CapsuleScript.Node

/-! ### Erasing the declarations -/

mutual

/-- The node without the declarations that stand in it among other nodes, or in a place that may be
empty. -/
def erase : Node → Node
  | .number span x => .number span x
  | .text span s => .text span s
  | .list span elements => .list span (eraseAll elements)
  | .binary span op left right => .binary span op left.erase right.erase
  | .unary span op operand => .unary span op operand.erase
  | .assign span name topLevel value => .assign span name topLevel value.erase
  | .ident span name => .ident span name
  | .block span mayDeclare statements => .block span mayDeclare (eraseAll statements)
  | .conditional span producesValue condition thenBranch elseBranch =>
    .conditional span producesValue condition.erase thenBranch.erase (eraseOption elseBranch)
  | .function span name params autoReturn body => .function span name params autoReturn body.erase
  | .declaration span name placeholder => .declaration span name placeholder.erase
  | .call span callee arguments => .call span callee.erase (eraseAll arguments)
  | .result span value => .result span (eraseOption value)
  | .stopLoop span => .stopLoop span
  | .nextTurn span => .nextTurn span
  | .whileLoop span condition body => .whileLoop span condition.erase body.erase
  | .forLoop span name comprehension source body filter =>
    .forLoop span name comprehension source.erase body.erase (eraseOption filter)
  | .encap span typeName strict body parent =>
    .encap span typeName strict body.erase (eraseOption parent)
  | .prev span expression => .prev span expression.erase

/-- The nodes that are no declarations, without those inside them. -/
def eraseAll : List Node → List Node
  | [] => []
  | node :: rest => if node.isDeclaration then eraseAll rest else node.erase :: eraseAll rest

/-- The node, if there is one and it is no declaration, without those inside it. -/
def eraseOption : Option Node → Option Node
  | none => none
  | some node => if node.isDeclaration then none else some node.erase

end

theorem eraseAll_append (nodes others : List Node) :
    eraseAll (nodes ++ others) = eraseAll nodes ++ eraseAll others := by
  induction nodes with
  | nil => rfl
  | cons node rest ih =>
      rw [List.cons_append, eraseAll, eraseAll, ih]
      split <;> rfl

theorem eraseAll_eq_nil {nodes : List Node} (h : ∀ node ∈ nodes, node.isDeclaration = true) :
    eraseAll nodes = [] := by
  induction nodes with
  | nil => rfl
  | cons node rest ih =>
      obtain ⟨hnode, hrest⟩ := List.forall_mem_cons.mp h
      rw [eraseAll, if_pos hnode, ih hrest]

mutual

/-- A tree that has just been read has nothing to erase. -/
theorem Parsed.erase_eq {statement : Bool} : {node : Node} → node.Parsed statement →
    node.erase = node
  | .list _ elements, h => by
      have helements : AllParsed false elements := h
      rw [erase, helements.eraseAll_eq]
  | .binary .., h => by rw [erase, h.1.erase_eq, h.2.erase_eq]
  | .unary _ _ operand, h => by
      have hoperand : operand.Parsed false := h
      rw [erase, hoperand.erase_eq]
  | .assign .., h => by rw [erase, h.2.erase_eq]
  | .block .., h => by rw [erase, h.2.eraseAll_eq]
  | .conditional .., h => by
      rw [erase, h.2.1.erase_eq, h.2.2.1.erase_eq, h.2.2.2.eraseOption_eq]
  | .function .., h => by rw [erase, h.2.erase_eq]
  | .call .., h => by rw [erase, h.1.erase_eq, h.2.eraseAll_eq]
  | .result .., h => by rw [erase, h.2.eraseOption_eq]
  | .whileLoop .., h => by rw [erase, h.2.1.erase_eq, h.2.2.erase_eq]
  | .forLoop .., h => by rw [erase, h.2.1.erase_eq, h.2.2.1.erase_eq, h.2.2.2.eraseOption_eq]
  | .encap .., h => by rw [erase, h.2.1.erase_eq, h.2.2.eraseOption_eq]
  | .prev _ inner, h => by
      have hinner : inner.Parsed false := h
      rw [erase, hinner.erase_eq]
  | .number .., _ | .text .., _ | .ident .., _ | .stopLoop _, _ | .nextTurn _, _ => by rw [erase]

theorem AllParsed.eraseAll_eq {statement : Bool} : {nodes : List Node} →
    AllParsed statement nodes → eraseAll nodes = nodes
  | [], _ => rfl
  | node :: _, h => by
      have hnode : ¬ node.isDeclaration = true := by simp [h.1.isDeclaration_eq_false]
      rw [eraseAll, if_neg hnode, h.1.erase_eq, h.2.eraseAll_eq]

theorem OptionParsed.eraseOption_eq {statement : Bool} : {node : Option Node} →
    OptionParsed statement node → eraseOption node = node
  | none, _ => rfl
  | some node, h => by
      have hparsed : node.Parsed statement := h
      have hnode : ¬ node.isDeclaration = true := by simp [hparsed.isDeclaration_eq_false]
      rw [eraseOption, if_neg hnode, hparsed.erase_eq]

end

theorem AllParsed.isDeclaration_hoistAll {statement : Bool} {nodes : List Node}
    (h : AllParsed statement nodes) : ∀ node ∈ (hoistAll nodes).2, node.isDeclaration = true := by
  intro node hmem
  rw [h.hoist_snd] at hmem
  exact isDeclaration_of_mem_map_declareDefinition hmem

theorem Parsed.not_isDeclaration_hoist {statement : Bool} {node : Node}
    (h : node.Parsed statement) : ¬ (hoist node).1.isDeclaration = true :=
  Bool.eq_false_iff.mp ((isDeclaration_declareFunctions node).trans h.isDeclaration_eq_false)

mutual

/-- Erasing takes out of a node what was put in. -/
theorem Parsed.erase_hoist {statement : Bool} : {node : Node} → node.Parsed statement →
    (hoist node).1.erase = node
  | .assign .., h => by rw [hoist_assign_fst, erase, h.2.erase_hoist]
  | .function _ name _ _ _, h => by cases name <;> rw [hoist, erase, h.2.erase_hoist]
  | .block _ true statements, h => by
      have hfound : eraseAll (hoistAll statements).2 = [] :=
        eraseAll_eq_nil h.2.isDeclaration_hoistAll
      rw [hoist, erase, eraseAll_append, hfound, List.nil_append, h.2.eraseAll_hoistAll]
  | .block _ false _, h => by rw [hoist, erase, h.2.eraseAll_hoistAll]
  | .conditional _ _ _ _ none, h => by
      rw [hoist, erase, h.2.1.erase_eq, h.2.2.1.erase_hoist, eraseOption]
  | .conditional _ _ _ _ (some otherwise), h => by
      have helse : otherwise.Parsed _ := h.2.2.2
      rw [hoist, erase, h.2.1.erase_eq, h.2.2.1.erase_hoist, eraseOption,
        if_neg helse.not_isDeclaration_hoist, helse.erase_hoist]
  | .whileLoop .., h => by rw [hoist, erase, h.2.1.erase_eq, h.2.2.erase_hoist]
  | .forLoop .., h => by
      rw [hoist, erase, h.2.1.erase_eq, h.2.2.1.erase_hoist, h.2.2.2.eraseOption_eq]
  | .encap .., h => by rw [hoist, erase, h.2.1.erase_hoist, h.2.2.eraseOption_eq]
  | .prev _ inner, h => by
      have hinner : inner.Parsed false := h
      rw [hoist, erase, hinner.erase_hoist]
  | .list .., h | .binary .., h | .unary .., h | .call .., h | .result .., h | .number .., h
  | .text .., h | .ident .., h | .stopLoop _, h | .nextTurn _, h => h.erase_eq

theorem AllParsed.eraseAll_hoistAll {statement : Bool} : {nodes : List Node} →
    AllParsed statement nodes → eraseAll (hoistAll nodes).1 = nodes
  | [], _ => rfl
  | _ :: _, h => by
      rw [hoistAll, eraseAll, if_neg h.1.not_isDeclaration_hoist, h.1.erase_hoist,
        h.2.eraseAll_hoistAll]

end

/-! ### Where the declarations stand -/

/-- The parts of a program with the declarations put in: what was read and was not searched, what
was searched, and the declarations. -/
inductive Settled : Node → Prop where
  | read {statement : Bool} {node : Node} : node.Parsed statement → Settled node
  | searched {statement : Bool} {node : Node} : node.Parsed statement →
      Settled node.declareFunctions
  | put (definition : String × Span) : Settled (declareDefinition definition)

/-- Declarations are put in among the statements of blocks that may declare, and nowhere else: a node
with the declarations put in has the parts of the node, some of them searched. -/
theorem Parsed.mem_children_declareFunctions {statement : Bool} {node child : Node}
    (h : node.Parsed statement) (hchild : child ∈ node.declareFunctions.children) :
    (∃ span statements definition, node = .block span true statements ∧
      child = declareDefinition definition) ∨
    ∃ part ∈ node.children, child = part ∨ child = part.declareFunctions := by
  cases node with
  | assign span name topLevel value =>
      rw [declareFunctions, hoist_assign_fst] at hchild
      exact .inr ⟨value, List.mem_singleton_self _, .inr (List.mem_singleton.mp hchild)⟩
  | block span mayDeclare statements =>
      cases mayDeclare with
      | true =>
          rw [declareFunctions_block h.2] at hchild
          rcases List.mem_append.mp hchild with hput | hkept
          · obtain ⟨definition, -, rfl⟩ := List.mem_map.mp hput
            exact .inl ⟨span, statements, definition, rfl, rfl⟩
          · obtain ⟨part, hpart, rfl⟩ := List.mem_map.mp hkept
            exact .inr ⟨part, hpart, .inr rfl⟩
      | false =>
          rw [declareFunctions_block_false] at hchild
          obtain ⟨part, hpart, rfl⟩ := List.mem_map.mp hchild
          exact .inr ⟨part, hpart, .inr rfl⟩
  | conditional span producesValue condition thenBranch elseBranch =>
      have hcondition : condition ∈ (conditional span producesValue condition thenBranch
          elseBranch).children := List.mem_cons_self
      have hthen : thenBranch ∈ (conditional span producesValue condition thenBranch
          elseBranch).children := List.mem_cons_of_mem _ List.mem_cons_self
      cases elseBranch with
      | none =>
          rcases List.mem_pair.mp hchild with rfl | rfl
          · exact .inr ⟨_, hcondition, .inl rfl⟩
          · exact .inr ⟨thenBranch, hthen, .inr rfl⟩
      | some otherwise =>
          rcases List.mem_cons.mp hchild with rfl | hbranch
          · exact .inr ⟨_, hcondition, .inl rfl⟩
          · rcases List.mem_pair.mp hbranch with rfl | rfl
            · exact .inr ⟨thenBranch, hthen, .inr rfl⟩
            · exact .inr ⟨otherwise, by simp [children], .inr rfl⟩
  | function span name params autoReturn body =>
      cases name <;>
        exact .inr ⟨body, List.mem_singleton_self _, .inr (List.mem_singleton.mp hchild)⟩
  | whileLoop span condition body =>
      rcases List.mem_pair.mp hchild with rfl | rfl
      · exact .inr ⟨_, List.mem_cons_self, .inl rfl⟩
      · exact .inr ⟨body, List.mem_pair.mpr (.inr rfl), .inr rfl⟩
  | forLoop span name comprehension source body filter =>
      rcases List.mem_cons.mp hchild with rfl | hchild
      · exact .inr ⟨_, List.mem_cons_self, .inl rfl⟩
      · rcases List.mem_cons.mp hchild with rfl | hchild
        · exact .inr ⟨body, by simp [children], .inr rfl⟩
        · exact .inr ⟨child, by simp_all [children], .inl rfl⟩
  | encap span typeName strict body parent =>
      rcases List.mem_cons.mp hchild with rfl | hchild
      · exact .inr ⟨body, List.mem_cons_self, .inr rfl⟩
      · exact .inr ⟨child, List.mem_cons_of_mem _ hchild, .inl rfl⟩
  | prev span expression =>
      exact .inr ⟨expression, List.mem_singleton_self _, .inr (List.mem_singleton.mp hchild)⟩
  | _ => exact .inr ⟨child, hchild, .inl rfl⟩

theorem Settled.of_mem_children {node child : Node} (h : node.Settled)
    (hchild : child ∈ node.children) : child.Settled := by
  cases h with
  | read hread =>
      obtain ⟨inner, hinner⟩ := hread.of_mem_children hchild
      exact .read hinner
  | searched hread =>
      rcases hread.mem_children_declareFunctions hchild with
        ⟨_, _, definition, -, rfl⟩ | ⟨part, hpart, hpart'⟩
      · exact .put definition
      · obtain ⟨inner, hinner⟩ := hread.of_mem_children hpart
        rcases hpart' with rfl | rfl
        · exact .read hinner
        · exact .searched hinner
  | put definition =>
      have hnull : (Node.ident definition.2 "null").Parsed false := trivial
      cases List.mem_singleton.mp hchild
      exact .read hnull

theorem Settled.exists_eq_declareDefinition {node : Node} (h : node.Settled)
    (hnode : node.isDeclaration = true) : ∃ definition, node = declareDefinition definition := by
  cases h with
  | read hread => simp [hread.isDeclaration_eq_false] at hnode
  | searched hread => exact absurd hnode hread.not_isDeclaration_hoist
  | put definition => exact ⟨definition, rfl⟩

/-- A node that holds a declaration is a block that may declare, and its declarations come first. -/
theorem Settled.exists_leading {outer inner : Node} (h : outer.Settled)
    (hinner : inner ∈ outer.children) (hdeclaration : inner.isDeclaration = true) :
    ∃ span leading rest, outer = .block span true (leading ++ rest) ∧ inner ∈ leading ∧
      (∀ n ∈ leading, n.isDeclaration = true) ∧ ∀ n ∈ rest, n.isDeclaration = false := by
  cases h with
  | read hread =>
      obtain ⟨statement, hparsed⟩ := hread.of_mem_children hinner
      simp [hparsed.isDeclaration_eq_false] at hdeclaration
  | searched hread =>
      rcases hread.mem_children_declareFunctions hinner with
        ⟨span, statements, definition, rfl, rfl⟩ | ⟨part, hpart, hkept⟩
      · rw [declareFunctions_block hread.2] at hinner
        refine ⟨span, _, _, declareFunctions_block hread.2, ?_,
          fun n hn => isDeclaration_of_mem_map_declareDefinition hn,
          fun n hn => hread.2.isDeclaration_eq_false_of_mem_map hn⟩
        rcases List.mem_append.mp hinner with hmem | hmem
        · exact hmem
        · rw [hread.2.isDeclaration_eq_false_of_mem_map hmem] at hdeclaration
          exact absurd hdeclaration Bool.false_ne_true
      · obtain ⟨statement, hparsed⟩ := hread.of_mem_children hpart
        rcases hkept with rfl | rfl
        · simp [hparsed.isDeclaration_eq_false] at hdeclaration
        · exact absurd hdeclaration hparsed.not_isDeclaration_hoist
  | put definition =>
      cases List.mem_singleton.mp hinner
      cases hdeclaration

/-- What stands in a program with the declarations put in. -/
theorem settled_of_occurs {tokens : List Located} {program node : Node}
    (hprogram : Node.ofTokens tokens = .ok program) (hnode : node.Occurs program.declareFunctions) :
    node.Settled := by
  obtain ⟨-, -, -, hparsed⟩ := exists_parsed_ofTokens hprogram
  exact hnode.closed (fun h hmem => h.of_mem_children hmem) (.searched hparsed)

/-- Putting in the declarations adds them to a program that has none, and changes nothing else: once
they are erased the program is as it was read. Each of them stands at the start of a block that may
declare, in front of all its other statements, and the program leaves none over. -/
theorem erase_declareFunctions {tokens : List Located} {program : Node}
    (hprogram : Node.ofTokens tokens = .ok program) :
    (∀ node : Node, node.Occurs program → node.isDeclaration = false) ∧
    program.declareFunctions.erase = program ∧
    (∀ outer inner : Node, outer.Occurs program.declareFunctions → inner ∈ outer.children →
      inner.isDeclaration = true → ∃ span leading rest, outer = .block span true (leading ++ rest) ∧
        inner ∈ leading ∧ (∀ n ∈ leading, n.isDeclaration = true) ∧
        ∀ n ∈ rest, n.isDeclaration = false) ∧
    program.declareFunctions.isDeclaration = false ∧ (hoist program).2 = [] := by
  obtain ⟨span, statements, rfl, hparsed⟩ := exists_parsed_ofTokens hprogram
  refine ⟨fun node hnode => ?_, hparsed.erase_hoist, fun outer inner houter hinner hdeclaration => ?_,
    rfl, rfl⟩
  · obtain ⟨statement, hread⟩ := hnode.closed (C := fun n => ∃ statement, n.Parsed statement)
      (fun ⟨_, h⟩ hmem => h.of_mem_children hmem) ⟨true, hparsed⟩
    exact hread.isDeclaration_eq_false
  · exact (settled_of_occurs hprogram houter).exists_leading hinner hdeclaration

/-- A function of an object and one of a branch in it: two declarations are put in, one of them into
the object, and erased again. -/
theorem erase_declareFunctions_nested : ∃ program, (∃ tokens, Node.ofTokens tokens = .ok program) ∧
    program.children.length = 2 ∧ program.declareFunctions.children.length = 3 ∧
    program.declareFunctions.erase = program := by
  have hread : (blockAt? "f = fun -> o\no = encap \x7b if true \x7b fun g -> f! \x7d \x7d" []).map
      (fun statements => (statements.length, (hoistAll statements).2.length)) = some (2, 1) := by
    cbv
  obtain ⟨statements, hblock, hlength⟩ := Option.map_eq_some_iff.mp hread
  obtain ⟨tokens, program, span, hprogram, hat⟩ := exists_of_blockAt? hblock
  cases hat
  obtain ⟨hstatements, hfound⟩ := Prod.mk.inj hlength
  refine ⟨_, ⟨tokens, hprogram⟩, hstatements, ?_, (erase_declareFunctions hprogram).2.1⟩
  rw [declareFunctions, hoist, children, List.length_append, hfound, hoistAll_fst, List.length_map,
    hstatements]

end CapsuleScript.Node
