import CapsuleScript.Heap.Describe
import CapsuleScript.Main
import CapsuleScript.Proofs.Heap.Access
import CapsuleScript.Proofs.Heap.Path
import CapsuleScript.Proofs.Heap.Relink
import CapsuleScript.Proofs.Node.Reading
import CapsuleScript.Proofs.Heap.Sound
import CapsuleScript.Proofs.Heap.Step
import CapsuleScript.Proofs.Heap.Growth
import CapsuleScript.Proofs.Evaluation.Evolution
import CapsuleScript.Proofs.Evaluation.Operations
import CapsuleScript.Proofs.Evaluation.Expressions
import CapsuleScript.Proofs.Evaluation.Statements
import CapsuleScript.Proofs.Evaluation.Objects
import CapsuleScript.Proofs.Evaluation.Program
import CapsuleScript.Proofs.Heap.Reach
import CapsuleScript.Proofs.Session.Runs
import CapsuleScript.Proofs.Evaluation.Lookup
import CapsuleScript.Proofs.Session.Visibility
import CapsuleScript.Proofs.Evaluation.Isolation
import CapsuleScript.Proofs.Matching.Values
import CapsuleScript.Proofs.Matching.Heaps
import CapsuleScript.Proofs.Matching.Writes
import CapsuleScript.Proofs.Matching.Operations
import CapsuleScript.Proofs.Matching.Expressions
import CapsuleScript.Proofs.Matching.Program
import CapsuleScript.Proofs.Matching.Reached
import CapsuleScript.Proofs.Session.Atomicity
import CapsuleScript.Proofs.Heap.WriteOnce
import CapsuleScript.Proofs.Evaluation.WriteOnce
import CapsuleScript.Proofs.Heap.Walks
import CapsuleScript.Proofs.Session.Interruption
import CapsuleScript.Proofs.Session.Collection
import CapsuleScript.Proofs.Session.Rebinding
import CapsuleScript.Proofs.Node.RoundTrip
import CapsuleScript.Proofs.Evaluation.LoopSignals
import CapsuleScript.Proofs.Session.LoopResume
import CapsuleScript.Proofs.Node.Writing
import CapsuleScript.Proofs.Sealing.Basic
import CapsuleScript.Proofs.Sealing.Operations
import CapsuleScript.Proofs.Sealing.Expressions
import CapsuleScript.Proofs.Sealing.Statements
import CapsuleScript.Proofs.Sealing.Program
import CapsuleScript.Proofs.Session.Members
import CapsuleScript.Proofs.Mirror.Basic
import CapsuleScript.Proofs.Mirror.Operations
import CapsuleScript.Proofs.Mirror.Expressions
import CapsuleScript.Proofs.Mirror.Statements
import CapsuleScript.Proofs.Mirror.Definitions
import CapsuleScript.Proofs.Mirror.Declaring
import CapsuleScript.Proofs.Mirror.Order
import CapsuleScript.Proofs.Node.Hoisting
import CapsuleScript.Proofs.Node.Erasure
import CapsuleScript.Proofs.Node.Regions
import CapsuleScript.Proofs.Operation.Equality
import CapsuleScript.Proofs.Evaluation.Placeholders
import CapsuleScript.Proofs.Heap.Bodies
import CapsuleScript.Proofs.Scoping.Points
import CapsuleScript.Proofs.Scoping.Constructs
import CapsuleScript.Proofs.Scoping.Sessions
import CapsuleScript.Proofs.Evaluation.Shielding
import CapsuleScript.Proofs.Evaluation.Staying
import CapsuleScript.Proofs.Token.Munch
import CapsuleScript.Proofs.Token.Tiling
import CapsuleScript.Proofs.Heap.Marking
import CapsuleScript.Proofs.Heap.Searching
import CapsuleScript.Proofs.Heap.Splicing
import CapsuleScript.Proofs.Node.Ending
import CapsuleScript.Proofs.Node.Precedence
import CapsuleScript.Proofs.Token.Lexemes
import CapsuleScript.Proofs.Session.Limits
import CapsuleScript.Proofs.Fragment.Sessions
import CapsuleScript.Proofs.Session.Joining
import CapsuleScript.Proofs.Operation.Merging
import CapsuleScript.Proofs.Operation.Sequences
import CapsuleScript.Proofs.Number.Fractions
import CapsuleScript.Proofs.Evaluation.Rehoming
import CapsuleScript.Proofs.Evaluation.Comprehensions
