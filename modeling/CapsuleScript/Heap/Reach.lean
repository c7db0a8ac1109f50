import CapsuleScript.Heap.Basic

/-! What can still be reached from a frame, and clearing the rest. From a frame one comes to the
frame it was entered from and to its table, from a table to its parent and to the frames that its
values hold: the homes of functions and the scopes of objects, also inside lists and objects. A
table does not lead to the frames that use it. -/

namespace CapsuleScript

/-- A table or a frame. -/
inductive Place where
  | table (id : TableId)
  | frame (id : FrameId)
deriving DecidableEq

mutual

/-- The frames that a value holds, put before those in `found`; `homeOf` gives the homes of
functions. -/
def Value.addFrames (homeOf : FunctionId → FrameId) : Value → List FrameId → List FrameId
  | .function g, found => homeOf g :: found
  | .list elements, found => Value.addFramesOfAll homeOf elements found
  | .encap fields inherited _ scope, found =>
    scope :: Value.addFramesOfEntries homeOf fields
      (Value.addFramesOfEntries homeOf inherited found)
  | _, found => found

/-- The frames that several values hold, put before those in `found`. -/
def Value.addFramesOfAll (homeOf : FunctionId → FrameId) :
    List Value → List FrameId → List FrameId
  | [], found => found
  | value :: rest, found =>
    Value.addFrames homeOf value (Value.addFramesOfAll homeOf rest found)

/-- The frames that bound values hold, put before those in `found`. -/
def Value.addFramesOfEntries (homeOf : FunctionId → FrameId) :
    List (String × Value) → List FrameId → List FrameId
  | [], found => found
  | (_, value) :: rest, found =>
    Value.addFrames homeOf value (Value.addFramesOfEntries homeOf rest found)

end

/-- Marks on tables and frames. -/
structure Marks where
  tables : Array Bool
  frames : Array Bool

namespace Marks

/-- Whether a place is marked, or is none that can be. -/
def has (marks : Marks) : Place → Bool
  | .table t => marks.tables.getD t.index true
  | .frame f => marks.frames.getD f.index true

/-- Marks a place. -/
def mark (marks : Marks) : Place → Marks
  | .table t => { marks with tables := marks.tables.setIfInBounds t.index true }
  | .frame f => { marks with frames := marks.frames.setIfInBounds f.index true }

/-- How many places are left to mark. -/
def remaining (marks : Marks) : Nat := marks.tables.count false + marks.frames.count false

theorem count_false_setIfInBounds_lt {a : Array Bool} {i : Nat} (h : a.getD i true = false) :
    (a.setIfInBounds i true).count false < a.count false := by
  by_cases hi : i < a.size
  · have hget : a[i] = false := by simpa [Array.getD, hi] using h
    have hpos : 0 < a.count false := Array.count_pos_iff.2 (hget ▸ Array.getElem_mem hi)
    rw [Array.setIfInBounds, dif_pos hi, Array.count_set, hget, if_pos (by decide),
      if_neg (by decide)]
    omega
  · simp [Array.getD, hi] at h

theorem remaining_mark_lt {marks : Marks} {p : Place} (h : marks.has p = false) :
    (marks.mark p).remaining < marks.remaining := by
  cases p with
  | table t =>
      have := count_false_setIfInBounds_lt (show marks.tables.getD t.index true = false from h)
      simp only [mark, remaining]
      omega
  | frame f =>
      have := count_false_setIfInBounds_lt (show marks.frames.getD f.index true = false from h)
      simp only [mark, remaining]
      omega

end Marks

namespace Heap

/-- The places one comes to from a place. -/
def successors (heap : Heap) : Place → List Place
  | .frame f =>
    let frame := heap.frame f
    .table frame.table :: frame.parent.toList.map .frame
  | .table t =>
    let table := heap.table t
    table.parent.toList.map .table ++
      (Value.addFramesOfEntries (fun g => (heap.function g).home) table.bindings []).map .frame

/-- Marks every place that is reached from the places in `work` by way of unmarked ones. -/
def explore (heap : Heap) (marks : Marks) : List Place → Marks
  | [] => marks
  | p :: work =>
    if marks.has p then explore heap marks work
    else explore heap (marks.mark p) (heap.successors p ++ work)
termination_by work => (marks.remaining, work.length)
decreasing_by
  · exact Prod.Lex.right _ (by simp)
  · rename_i h
    exact Prod.Lex.left _ _ (Marks.remaining_mark_lt (by simpa using h))

/-- Marks what is reached from the frame `f`. -/
def reach (heap : Heap) (f : FrameId) : Marks :=
  heap.explore
    ⟨Array.replicate heap.tables.size false, Array.replicate heap.frames.size false⟩ [.frame f]

/-- How many frames are reached from the frame `f`. -/
def liveFrames (heap : Heap) (f : FrameId) : Nat := (heap.reach f).frames.count true

/-- Clears the tables of the frames in `frames` that pass the test. -/
def clearTables (heap : Heap) (frames : List Frame) (test : Frame → Bool) : Heap :=
  frames.foldl (fun heap frame => if test frame then heap.clearTable frame.table else heap) heap

/-- Clears the tables that are not reached from the frame `f`, of the frames in its world. -/
def collect (heap : Heap) (f : FrameId) : Heap :=
  let marks := heap.reach f
  let root := (heap.frame f).root
  heap.clearTables heap.frames.toList fun frame =>
    frame.root = root && !marks.has (.table frame.table)

/-- Clears the tables of all frames in the world of the frame `f`. -/
def release (heap : Heap) (f : FrameId) : Heap :=
  let root := (heap.frame f).root
  heap.clearTables heap.frames.toList fun frame => frame.root = root

end Heap

end CapsuleScript
