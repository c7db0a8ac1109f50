import CapsuleScript.Evaluation.Basic
import CapsuleScript.Heap.Splice

/-! Object literals. The body of a literal runs like a block, and the names it binds become the
fields of the object. An object that inherits runs its body on top of the scope of its parent, into
which the scope around the literal is spliced. A strict object is cut off from the scope around it
when its body has run: where its chain of tables came to that scope it comes to the names that every
program starts with. -/

namespace CapsuleScript.Evaluation

/-- The object that a literal inherits from. -/
def parent (sub : Evaluator) (span : Span) (node : Node) (f : FrameId) : Run Capsule := do
  let given ← value sub node f
  match given.value.capsule? with
  | some capsule => return capsule
  | none => .fail .parentIsNoObject span f

/-- The frame on top of which the body of a literal runs, and the table at which the scope around
the literal was spliced in. -/
def base (span : Span) (parent : Option Capsule) (f : FrameId) :
    Run (FrameId × Option TableId) := do
  match parent with
  | none => return (f, none)
  | some capsule =>
    let table ← .read fun heap => (heap.frame capsule.scope).table
    match ← .make fun heap => heap.splice table (heap.frame f).table with
    | some point => return (← .make (·.enterTable "<inherits>" table f span), some point)
    | none => .fail .inheritanceCycle span f

/-- Gives the table `t` the names that every program starts with as its parent, if its parent is
`around`. -/
def cut (heap : Heap) (around t : TableId) : Heap :=
  if (heap.table t).parent = some around then
    let (builtins, heap) := heap.newTable none Heap.builtins
    heap.setParent t (some builtins)
  else heap

/-- Cuts the frames of the body of a strict literal off from the table `around`. There may be no
more than `limit` of them. -/
def cutFrames (span : Span) (around : TableId) : Nat → List FrameId → Run Unit
  | _, [] => return ()
  | 0, f :: _ => .fail .nestingTooDeep span f
  | limit + 1, f :: rest => do
    Run.change fun heap => cut heap around (heap.frame f).table
    cutFrames span around limit rest

/-- The names bound in the given frames, later frames standing before earlier ones. -/
def fields (heap : Heap) (frames : List FrameId) : Bindings Value :=
  frames.reverse.foldl
    (fun bound f => Bindings.override bound (heap.table (heap.frame f).table).bindings) []

/-- The frame in which the members of an object are read, on top of the frame `body` that its body
has left. That of a strict object was entered from nowhere. -/
def objectScope (span : Span) (typeName : Option String) (strict : Bool) (body : FrameId)
    (fields : Bindings Value) (heap : Heap) : FrameId × Heap :=
  let (table, heap) := heap.newTable (some (heap.frame body).table) fields
  let label := typeName.getD "<encap>"
  if strict then heap.detach body label table (some span)
  else heap.enterTable label table body span

/-- An object literal. At most `limit` frames of the body of a strict literal are walked. -/
def encap (sub : Evaluator) (limit : Nat) (span : Span) (typeName : Option String) (strict : Bool)
    (body : Node) (parentNode : Option Node) (f : FrameId) : Run Outcome := do
  let parent ← parentNode.mapM fun node => parent sub span node f
  let (base, point) ← base span parent f
  let around ← .read fun heap => (heap.frame f).table
  let last := (← sub body base).frame
  let frames ← .read fun heap => (heap.ancestry last).takeWhile (· ≠ f)
  if strict then cutFrames span around limit frames
  let fields ← .read fun heap => fields heap (frames.takeWhile (· ≠ base))
  if strict then point.forM fun t => Run.change (cut · around t)
  let scope ← .make (objectScope span typeName strict last fields)
  let inherited := parent.elim [] Capsule.members
  let types := parent.elim [] Capsule.types ++ typeName.toList
  return give (.encap fields inherited types scope) span f

end CapsuleScript.Evaluation
