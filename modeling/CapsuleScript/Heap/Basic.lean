import CapsuleScript.Node.Basic
import CapsuleScript.Value.Render

/-! The world that a program changes. Tables bind names and fall back on a parent table, whose link
may be changed. Frames are the places of execution: each has a table, the frame it was entered from
and the place in the text where that happened. Functions may be declared before they are defined, so
they are shared too. Tables, frames and functions are numbered as they are made and never
removed. -/

namespace CapsuleScript

/-- Names bound in one scope, and the table that is asked for other names. -/
structure Table where
  bindings : Bindings Value := []
  parent : Option TableId := none

/-- A place of execution. -/
structure Frame where
  /-- The name shown in tracebacks. -/
  label : String
  table : TableId
  /-- The frame it was entered from. -/
  parent : Option FrameId
  /-- Where in the text it was entered. -/
  entry : Option Span
  /-- The frame that started the world to which this one belongs. -/
  root : FrameId

/-- A function, or the placeholder of one that is not defined yet. -/
structure Function where
  name : String
  params : List String
  body : Node
  /-- The frame whose names its body sees. -/
  home : FrameId
  /-- Whether the value of the body is the result of a call. -/
  autoReturn : Bool
  /-- Whether it is defined. -/
  initialized : Bool

instance : Inhabited Table := ⟨{}⟩

instance : Inhabited Frame := ⟨⟨"", ⟨0⟩, none, none, ⟨0⟩⟩⟩

instance : Inhabited Function :=
  ⟨⟨"", [], .ident ⟨"", .origin, .origin⟩ "null", ⟨0⟩, true, false⟩⟩

/-- Every table, frame and function. -/
structure Heap where
  tables : Array Table := #[]
  frames : Array Frame := #[]
  functions : Array Function := #[]

namespace Heap

/-! ### Reading -/

/-- The table of the number `t`. -/
def table (heap : Heap) (t : TableId) : Table := heap.tables.getD t.index default

/-- The frame of the number `f`. -/
def frame (heap : Heap) (f : FrameId) : Frame := heap.frames.getD f.index default

/-- The function of the number `g`. -/
def function (heap : Heap) (g : FunctionId) : Function := heap.functions.getD g.index default

/-- The text of a value. -/
def render (heap : Heap) (value : Value) : String :=
  value.render (fun g => (heap.function g).name)

/-! ### Tables -/

/-- A new table. -/
def newTable (heap : Heap) (parent : Option TableId) (bindings : Bindings Value) : TableId × Heap :=
  (⟨heap.tables.size⟩, { heap with tables := heap.tables.push ⟨bindings, parent⟩ })

/-- Binds `name` in the table `t`, in place of what it was bound to. -/
def bind (heap : Heap) (t : TableId) (name : String) (value : Value) : Heap :=
  { heap with
    tables := heap.tables.modify t.index fun table =>
      { table with bindings := table.bindings.insert name value } }

/-- Links the table `t` to another parent. -/
def setParent (heap : Heap) (t : TableId) (parent : Option TableId) : Heap :=
  { heap with tables := heap.tables.modify t.index fun table => { table with parent := parent } }

/-- Removes the bindings and the parent of the table `t`. -/
def clearTable (heap : Heap) (t : TableId) : Heap :=
  { heap with tables := heap.tables.modify t.index fun _ => {} }

/-- The names that every program starts with. -/
def builtins : Bindings Value :=
  [("true", .bool true), ("false", .bool false), ("null", .null)]

/-- Binds the names that every program starts with. -/
def bindBuiltins (heap : Heap) (t : TableId) : Heap :=
  builtins.foldl (fun heap entry => heap.bind t entry.1 entry.2) heap

/-! ### Frames -/

/-- A frame that starts a world of its own. -/
def newRoot (heap : Heap) (label : String) (table : TableId) (entry : Option Span) :
    FrameId × Heap :=
  let f : FrameId := ⟨heap.frames.size⟩
  (f, { heap with frames := heap.frames.push ⟨label, table, none, entry, f⟩ })

/-- A frame with an existing table, entered from `parent`. -/
def enterTable (heap : Heap) (label : String) (table : TableId) (parent : FrameId) (entry : Span) :
    FrameId × Heap :=
  let root := (heap.frame parent).root
  (⟨heap.frames.size⟩,
    { heap with frames := heap.frames.push ⟨label, table, some parent, some entry, root⟩ })

/-- A frame in the world of `near` that was entered from nowhere. Tracebacks end at it. -/
def detach (heap : Heap) (near : FrameId) (label : String) (table : TableId) (entry : Option Span) :
    FrameId × Heap :=
  let root := (heap.frame near).root
  (⟨heap.frames.size⟩, { heap with frames := heap.frames.push ⟨label, table, none, entry, root⟩ })

/-- A frame entered from `parent`, with a new table that falls back on the table of `parent`. -/
def enter (heap : Heap) (label : String) (parent : FrameId) (entry : Span) : FrameId × Heap :=
  let (t, heap) := heap.newTable (some (heap.frame parent).table) []
  heap.enterTable label t parent entry

/-- Binds `name` in the table of the frame `f`. -/
def define (heap : Heap) (f : FrameId) (name : String) (value : Value) : Heap :=
  heap.bind (heap.frame f).table name value

/-- Whether the table of the frame `f` itself binds `name`. -/
def bindsDirectly (heap : Heap) (f : FrameId) (name : String) : Bool :=
  (heap.table (heap.frame f).table).bindings.has name

/-! ### Functions -/

/-- A new function. -/
def newFunction (heap : Heap) (data : Function) : FunctionId × Heap :=
  (⟨heap.functions.size⟩, { heap with functions := heap.functions.push data })

/-- The placeholder of the function `name`, which gives the value of `body`. -/
def newPlaceholder (heap : Heap) (name : String) (body : Node) (home : FrameId) :
    FunctionId × Heap :=
  heap.newFunction ⟨name, [], body, home, true, false⟩

/-- Defines the function `g` as a copy of `source`. It keeps its name. -/
def initializeFrom (heap : Heap) (g source : FunctionId) : Heap :=
  if g = source then heap
  else
    let data := heap.function source
    { heap with
      functions := heap.functions.modify g.index fun old =>
        { data with name := old.name, initialized := true } }

/-- A copy of the function `g` with another home. -/
def withHome (heap : Heap) (g : FunctionId) (home : FrameId) : FunctionId × Heap :=
  heap.newFunction { heap.function g with home := home }

mutual

/-- The value as it is kept when it is bound in the frame `f`: defined functions, also those in
lists, are copied with `f` as their home. Placeholders stay the same function, so that they are
defined wherever they are bound. -/
def rehome (f : FrameId) : Value → Heap → Value × Heap
  | .function g, heap =>
    if (heap.function g).initialized then
      let (copy, heap) := heap.withHome g f
      (.function copy, heap)
    else (.function g, heap)
  | .list elements, heap =>
    let (elements, heap) := rehomeAll f elements heap
    (.list elements, heap)
  | value, heap => (value, heap)

/-- Several values as they are kept when they are bound in the frame `f`. -/
def rehomeAll (f : FrameId) : List Value → Heap → List Value × Heap
  | [], heap => ([], heap)
  | value :: rest, heap =>
    let (value, heap) := rehome f value heap
    let (rest, heap) := rehomeAll f rest heap
    (value :: rest, heap)

end

end Heap

end CapsuleScript
