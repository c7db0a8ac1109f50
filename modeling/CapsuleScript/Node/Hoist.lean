import CapsuleScript.Node.Basic

/-! Functions are known before they are defined. Every block that may declare starts with a
declaration for each function that its statements define; the declarations of a block that may not
are left to the block around it. A function body keeps its own. -/

namespace CapsuleScript.Node

/-- The declaration of the function `name`, whose definition stands at `span`. Until the definition
runs it gives `null`. -/
def declare (name : String) (span : Span) : Node :=
  .declaration span name (.ident span "null")

mutual

/-- The node with the declarations put in, and the declarations left to the block around it. -/
def hoist : Node → Node × List Node
  | .assign span name topLevel (.function fspan fname params autoReturn body) =>
    (.assign span name topLevel (.function fspan fname params autoReturn (hoist body).1),
      [declare name span])
  | .assign span name topLevel value =>
    let (value, found) := hoist value
    (.assign span name topLevel value, found)
  | .function span (some name) params autoReturn body =>
    (.function span (some name) params autoReturn (hoist body).1, [declare name span])
  | .function span none params autoReturn body =>
    (.function span none params autoReturn (hoist body).1, [])
  | .block span true statements =>
    let (statements, found) := hoistAll statements
    (.block span true (found ++ statements), [])
  | .block span false statements =>
    let (statements, found) := hoistAll statements
    (.block span false statements, found)
  | .conditional span producesValue condition thenBranch none =>
    let (thenBranch, found) := hoist thenBranch
    (.conditional span producesValue condition thenBranch none, found)
  | .conditional span producesValue condition thenBranch (some elseBranch) =>
    let (thenBranch, found) := hoist thenBranch
    let (elseBranch, others) := hoist elseBranch
    (.conditional span producesValue condition thenBranch (some elseBranch), found ++ others)
  | .whileLoop span condition body =>
    let (body, found) := hoist body
    (.whileLoop span condition body, found)
  | .forLoop span name comprehension source body filter =>
    let (body, found) := hoist body
    (.forLoop span name comprehension source body filter, found)
  | .encap span typeName strict body parent =>
    let (body, found) := hoist body
    (.encap span typeName strict body parent, found)
  | .prev span inner =>
    let (inner, found) := hoist inner
    (.prev span inner, found)
  | node => (node, [])

/-- The statements of a block with the declarations put in, and those left to the block. -/
def hoistAll : List Node → List Node × List Node
  | [] => ([], [])
  | statement :: rest =>
    let (statement, found) := hoist statement
    let (rest, others) := hoistAll rest
    (statement :: rest, found ++ others)

end

/-- The program with the declarations of its functions put in. -/
def declareFunctions (program : Node) : Node := (hoist program).1

end CapsuleScript.Node
