import CapsuleScript.Proofs.Fragment.Nodes
import CapsuleScript.Proofs.Node.Lexical
import CapsuleScript.Proofs.Node.Writing

/-! The core of the language, in which programs compute with data alone: literals, variables, lists,
operators other than the access to objects, choices and comprehensions, and inside blocks assignments,
blocks, choices, loops and their exits. Such nodes have the shape of the phrases they stand for, see a
heap only through the meaning of names, give and return no functions and objects, and have no
functions to declare. Whether a node is one is told by the tree without its places. -/

namespace CapsuleScript.Node

variable {statement : Bool}

mutual

/-- Whether the node is an expression of the core, or a statement of it if one may stand there. -/
def isCore (statement : Bool) : Node → Bool
  | .number .. => true
  | .text .. => true
  | .ident .. => true
  | .list _ elements => allCore false elements
  | .binary _ op left right => op ≠ .access && (left.isCore false && right.isCore false)
  | .unary _ _ operand => operand.isCore false
  | .conditional _ producesValue condition thenBranch elseBranch =>
    (producesValue || statement) && (condition.isCore false &&
      (thenBranch.isCore (!producesValue) && optionCore (!producesValue) elseBranch))
  | .forLoop _ _ comprehension source body filter =>
    (comprehension || statement) && (source.isCore false &&
      (body.isCore (!comprehension) && optionCore false filter))
  | .assign _ _ _ value => statement && value.isCore false
  | .block _ _ body => statement && allCore true body
  | .whileLoop _ condition body => statement && (condition.isCore false && body.isCore true)
  | .stopLoop _ => statement
  | .nextTurn _ => statement
  | .function .. => false
  | .declaration .. => false
  | .call .. => false
  | .result .. => false
  | .encap .. => false
  | .prev .. => false

/-- Whether all nodes are so. -/
def allCore (statement : Bool) : List Node → Bool
  | [] => true
  | node :: rest => node.isCore statement && allCore statement rest

/-- Whether the node, if there is one, is so. -/
def optionCore (statement : Bool) : Option Node → Bool
  | none => true
  | some node => node.isCore statement

end

/-- Whether the node gives a name of the program the value of an expression or a block of the core. -/
def isCoreDeclaration : Node → Bool
  | .assign _ _ true (.block _ _ body) => allCore true body
  | .assign _ _ true value => value.isCore false
  | _ => false

theorem exists_of_isCoreDeclaration {node : Node} (h : node.isCoreDeclaration = true) :
    ∃ span name value, node = .assign span name true value ∧
      (value.isCore false = true ∨ value.IsBlock ∧ value.isCore true = true) := by
  cases node with
  | assign span name topLevel value =>
      cases topLevel with
      | false => cases value <;> cases h
      | true =>
          refine ⟨span, name, value, rfl, ?_⟩
          cases value with
          | block _ _ body => exact .inr ⟨trivial, h⟩
          | _ => exact .inl h
  | _ => cases h

/-! ### What nodes of the core are like -/

/-- What has to be shown of all nodes of the core, one rule for each construct. -/
structure CoreRules (P : Bool → Node → Prop) : Prop where
  number : ∀ {statement span x}, P statement (.number span x)
  text : ∀ {statement span s}, P statement (.text span s)
  ident : ∀ {statement span name}, P statement (.ident span name)
  list : ∀ {statement span elements}, (∀ n ∈ elements, P false n) →
    P statement (.list span elements)
  binary : ∀ {statement span op left right}, op ≠ .access → P false left → P false right →
    P statement (.binary span op left right)
  unary : ∀ {statement span op operand}, P false operand → P statement (.unary span op operand)
  conditional : ∀ {statement span producesValue condition thenBranch elseBranch},
    (producesValue = false → statement = true) → P false condition →
    P (!producesValue) thenBranch → (∀ n ∈ elseBranch, P (!producesValue) n) →
    P statement (.conditional span producesValue condition thenBranch elseBranch)
  forLoop : ∀ {statement span name comprehension source body filter},
    (comprehension = false → statement = true) → P false source → P (!comprehension) body →
    (∀ n ∈ filter, P false n) →
    P statement (.forLoop span name comprehension source body filter)
  assign : ∀ {span name topLevel value}, value.isCore false = true → P false value →
    P true (.assign span name topLevel value)
  block : ∀ {span mayDeclare body}, (∀ n ∈ body, P true n) → P true (.block span mayDeclare body)
  whileLoop : ∀ {span condition body}, P false condition → P true body →
    P true (.whileLoop span condition body)
  stopLoop : ∀ {span}, P true (.stopLoop span)
  nextTurn : ∀ {span}, P true (.nextTurn span)

namespace CoreRules

variable {P : Bool → Node → Prop}

mutual

theorem of_isCore (hP : CoreRules P) : (statement : Bool) → (node : Node) →
    node.isCore statement = true → P statement node
  | _, .number .., _ => hP.number
  | _, .text .., _ => hP.text
  | _, .ident .., _ => hP.ident
  | _, .list _ elements, h => hP.list (of_allCore hP false elements h)
  | _, .binary _ _ left right, h => by
      simp only [isCore, Bool.and_eq_true, decide_eq_true_eq] at h
      exact hP.binary h.1 (of_isCore hP false left h.2.1) (of_isCore hP false right h.2.2)
  | _, .unary _ _ operand, h => hP.unary (of_isCore hP false operand h)
  | _, .conditional _ producesValue condition thenBranch elseBranch, h => by
      simp only [isCore, Bool.and_eq_true, Bool.or_eq_true] at h
      refine hP.conditional (fun hfalse => h.1.resolve_left (by simp [hfalse]))
        (of_isCore hP false condition h.2.1) (of_isCore hP _ thenBranch h.2.2.1) ?_
      exact of_optionCore hP _ elseBranch h.2.2.2
  | _, .forLoop _ _ comprehension source body filter, h => by
      simp only [isCore, Bool.and_eq_true, Bool.or_eq_true] at h
      refine hP.forLoop (fun hfalse => h.1.resolve_left (by simp [hfalse]))
        (of_isCore hP false source h.2.1) (of_isCore hP _ body h.2.2.1) ?_
      exact of_optionCore hP false filter h.2.2.2
  | true, .assign _ _ _ value, h => hP.assign h (of_isCore hP false value h)
  | true, .block _ _ body, h => hP.block (of_allCore hP true body h)
  | true, .whileLoop _ condition body, h => by
      simp only [isCore, Bool.and_eq_true, Bool.true_and] at h
      exact hP.whileLoop (of_isCore hP false condition h.1) (of_isCore hP true body h.2)
  | true, .stopLoop _, _ => hP.stopLoop
  | true, .nextTurn _, _ => hP.nextTurn

theorem of_allCore (hP : CoreRules P) (statement : Bool) : (nodes : List Node) →
    allCore statement nodes = true → ∀ n ∈ nodes, P statement n
  | [], _ => by simp
  | node :: rest, h => by
      simp only [allCore, Bool.and_eq_true] at h
      exact List.forall_mem_cons.mpr ⟨of_isCore hP statement node h.1,
        of_allCore hP statement rest h.2⟩

theorem of_optionCore (hP : CoreRules P) (statement : Bool) : (node : Option Node) →
    optionCore statement node = true → ∀ n ∈ node, P statement n
  | none, _ => by simp
  | some node, h => by
      intro n hn
      cases Option.mem_some.mp hn
      exact of_isCore hP statement node h

end

end CoreRules

theorem allLexical_iff {nodes : List Node} : AllLexical nodes ↔ ∀ n ∈ nodes, n.Lexical := by
  induction nodes with
  | nil => simp [AllLexical]
  | cons node rest ih => simp [AllLexical, ih]

theorem optionLexical_iff {node : Option Node} : OptionLexical node ↔ ∀ n ∈ node, n.Lexical := by
  cases node <;> simp [OptionLexical]

theorem optionFits_iff {node : Option Node} :
    OptionFits statement node ↔ ∀ n ∈ node, n.Fits statement := by
  cases node <;> simp [OptionFits]

theorem coreRules_lexical : CoreRules fun _ => Lexical where
  number := trivial
  text := trivial
  ident := trivial
  list h := allLexical_iff.mpr h
  binary _ hl hr := ⟨hl, hr⟩
  unary h := h
  conditional _ hc ht he := ⟨hc, ht, optionLexical_iff.mpr he⟩
  forLoop _ hs hb hf := ⟨hs, hb, optionLexical_iff.mpr hf⟩
  assign _ h := h
  block h := allLexical_iff.mpr h
  whileLoop hc hb := ⟨hc, hb⟩
  stopLoop := trivial
  nextTurn := trivial

theorem coreRules_fits : CoreRules Fits where
  number := trivial
  text := trivial
  ident := trivial
  list h := allFit_iff.mpr h
  binary _ hl hr := ⟨hl, hr⟩
  unary h := h
  conditional hplace hc ht he := ⟨hplace, hc, ht, optionFits_iff.mpr he⟩
  forLoop hplace hs hb hf := ⟨hplace, hs, hb, optionFits_iff.mpr hf⟩
  assign _ h := ⟨rfl, h.of_false⟩
  block h := ⟨rfl, allFit_iff.mpr h⟩
  whileLoop hc hb := ⟨rfl, hc, hb⟩
  stopLoop := rfl
  nextTurn := rfl

/-- What is read of the core computes with data alone. -/
theorem coreRules_data : CoreRules fun _ node => node.Belongs .whole → node.Belongs .data where
  number _ := trivial
  text _ := trivial
  ident _ := trivial
  list h hall := allBelong_iff.mpr fun n hn => h n hn (allBelong_iff.mp hall n hn)
  binary _ hl hr h := ⟨hl h.1, hr h.2⟩
  unary h hwhole := h hwhole
  conditional _ hc ht he h :=
    ⟨hc h.1, ht h.2.1, optionBelongs_iff.mpr fun n hn => he n hn (optionBelongs_iff.mp h.2.2 n hn)⟩
  forLoop _ hs hb hf h :=
    ⟨hs h.1, hb h.2.1, optionBelongs_iff.mpr fun n hn => hf n hn (optionBelongs_iff.mp h.2.2 n hn)⟩
  assign _ h hwhole := h hwhole
  block h hwhole :=
    ⟨hwhole.1, allBelong_iff.mpr fun n hn => h n hn (allBelong_iff.mp hwhole.2 n hn)⟩
  whileLoop hc hb h := ⟨hc h.1, hb h.2⟩
  stopLoop _ := trivial
  nextTurn _ := trivial

theorem hoistAll_of_forall {nodes : List Node} (h : ∀ n ∈ nodes, n.hoist = (n, [])) :
    hoistAll nodes = (nodes, []) := by
  induction nodes with
  | nil => rfl
  | cons node rest ih =>
      rw [hoistAll, h node List.mem_cons_self, ih fun n hn => h n (List.mem_cons_of_mem _ hn)]
      rfl

theorem hoist_assign_of_isCore {span : Span} {name : String} {topLevel : Bool} {value : Node}
    (hcore : value.isCore statement = true) (h : value.hoist = (value, [])) :
    (Node.assign span name topLevel value).hoist = (.assign span name topLevel value, []) := by
  rw [hoist, h]
  rintro _ _ _ _ _ rfl
  cases hcore

/-- There are no functions to declare. -/
theorem coreRules_hoist : CoreRules fun _ node => node.hoist = (node, []) where
  number := rfl
  text := rfl
  ident := rfl
  list _ := rfl
  binary _ _ _ := rfl
  unary _ := rfl
  conditional {_ _ _ _ _ elseBranch} _ _ ht he := by
    cases elseBranch with
    | none => simp only [hoist, ht]
    | some otherwise => simp only [hoist, ht, he otherwise rfl, List.append_nil]
  forLoop _ _ hb _ := by simp only [hoist, hb]
  assign hcore h := hoist_assign_of_isCore hcore h
  block {_ mayDeclare _} h := by
    cases mayDeclare <;> simp only [hoist, hoistAll_of_forall h, List.nil_append]
  whileLoop _ hb := by simp only [hoist, hb]
  stopLoop := rfl
  nextTurn := rfl

/-! ### Declarations of the core -/

section Declarations

variable {node : Node} {nodes : List Node}

theorem fits_of_isCoreDeclaration (h : node.isCoreDeclaration = true) : node.Fits true := by
  obtain ⟨span, name, value, rfl, hcore | ⟨-, hcore⟩⟩ := exists_of_isCoreDeclaration h
  · exact ⟨rfl, (coreRules_fits.of_isCore false value hcore).of_false⟩
  · exact ⟨rfl, coreRules_fits.of_isCore true value hcore⟩

theorem data_of_isCoreDeclaration (h : node.isCoreDeclaration = true)
    (hwhole : node.Belongs .whole) : node.Belongs .data := by
  obtain ⟨span, name, value, rfl, hcore | ⟨-, hcore⟩⟩ := exists_of_isCoreDeclaration h
  · exact coreRules_data.of_isCore false value hcore hwhole
  · exact coreRules_data.of_isCore true value hcore hwhole

theorem hoist_of_isCoreDeclaration (h : node.isCoreDeclaration = true) :
    node.hoist = (node, []) := by
  obtain ⟨span, name, value, rfl, hcore | ⟨-, hcore⟩⟩ := exists_of_isCoreDeclaration h
  · exact hoist_assign_of_isCore hcore (coreRules_hoist.of_isCore false value hcore)
  · exact hoist_assign_of_isCore hcore (coreRules_hoist.of_isCore true value hcore)

mutual

/-- The places of a node do not matter. -/
theorem isCore_bare (statement : Bool) : (node : Node) →
    node.bare.isCore statement = node.isCore statement
  | .number .. | .text .. | .ident .. | .stopLoop _ | .nextTurn _ | .function .. | .declaration ..
  | .call .. | .result .. | .encap .. | .prev .. => rfl
  | .list _ elements => allCore_bareAll false elements
  | .binary _ _ left right => by
      simp only [bare, isCore, isCore_bare false left, isCore_bare false right]
  | .unary _ _ operand => isCore_bare false operand
  | .conditional _ producesValue condition thenBranch elseBranch => by
      simp only [bare, isCore, isCore_bare _ condition, isCore_bare _ thenBranch,
        optionCore_bareOption _ elseBranch]
  | .forLoop _ _ comprehension source body filter => by
      simp only [bare, isCore, isCore_bare _ source, isCore_bare _ body,
        optionCore_bareOption _ filter]
  | .assign _ _ _ value => by simp only [bare, isCore, isCore_bare _ value]
  | .block _ _ body => by simp only [bare, isCore, allCore_bareAll _ body]
  | .whileLoop _ condition body => by
      simp only [bare, isCore, isCore_bare _ condition, isCore_bare _ body]

theorem allCore_bareAll (statement : Bool) : (nodes : List Node) →
    allCore statement (bareAll nodes) = allCore statement nodes
  | [] => rfl
  | node :: rest => by
      simp only [bareAll, allCore, isCore_bare statement node, allCore_bareAll statement rest]

theorem optionCore_bareOption (statement : Bool) : (node : Option Node) →
    optionCore statement (bareOption node) = optionCore statement node
  | none => rfl
  | some node => isCore_bare statement node

end

theorem isCoreDeclaration_bare (node : Node) :
    node.bare.isCoreDeclaration = node.isCoreDeclaration := by
  cases node with
  | assign span name topLevel value =>
      cases topLevel with
      | false => cases value <;> rfl
      | true =>
          have hvalue := isCore_bare false value
          cases value with
          | block _ _ body => exact allCore_bareAll true body
          | _ => exact hvalue
  | _ => rfl

theorem isCoreDeclaration_of_alike {others : List Node} (halike : List.Forall₂ Alike nodes others)
    (h : ∀ n ∈ nodes, n.isCoreDeclaration = true) : ∀ n ∈ others, n.isCoreDeclaration = true := by
  induction halike with
  | nil => exact h
  | @cons node other _ _ hsame _ ih =>
      obtain ⟨hnode, hrest⟩ := List.forall_mem_cons.mp h
      refine List.forall_mem_cons.mpr ⟨?_, ih hrest⟩
      rw [← isCoreDeclaration_bare, hsame, isCoreDeclaration_bare, hnode]

end Declarations

end CapsuleScript.Node
