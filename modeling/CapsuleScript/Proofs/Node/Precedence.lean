import CapsuleScript.Proofs.Node.Phrases
import Mathlib.Data.List.TakeWhile

/-! What a chain of operands with operators between them is read as. The tree that its precedence
demands is defined without a parser: it is divided at the last of its loosest operators, and so are
both sides. Main statement: an expression reads a chain of any length as that tree and takes all of
it, and the tree written in order is the chain again. -/

namespace CapsuleScript

/-- An operand of a single token. -/
inductive Atom where
  | number (value : Float)
  | text (value : String)
  | name (name : String)

namespace Atom

/-- How the operand is written. -/
def token : Atom → Token
  | number value => .number value
  | text value => .text value
  | name word => .name word

/-- The tree of the operand alone. -/
def node : Atom → Node
  | number value => .number Node.bare.nowhere value
  | text value => .text Node.bare.nowhere value
  | name word => .ident Node.bare.nowhere word

end Atom

namespace Chain

variable {op : BinaryOp} {a first : Atom} {level : List BinaryOp}
  {rest before after : List (BinaryOp × Atom)} {looseness : Nat}

/-! ### The tree that precedence demands -/

/-- How a chain goes on: operators, each with its right operand. -/
def linksText (rest : List (BinaryOp × Atom)) : List Token :=
  rest.flatMap fun link => [link.1.token, link.2.token]

/-- How a chain is written. -/
def text (first : Atom) (rest : List (BinaryOp × Atom)) : List Token :=
  first.token :: linksText rest

/-- The operators from the loosest to the tightest. -/
def levels : List (List BinaryOp) :=
  [[.and, .or], [.equal, .notEqual, .less, .greater, .lessEqual, .greaterEqual], [.add, .sub],
    [.mul, .div], [.access]]

/-- A chain divided at one of its operators. -/
structure Division where
  before : List (BinaryOp × Atom)
  op : BinaryOp
  right : Atom
  after : List (BinaryOp × Atom)

/-- Divides a chain at the last operator of a level. -/
def divide (level : List BinaryOp) : List (BinaryOp × Atom) → Option Division
  | [] => none
  | (op, a) :: rest =>
    match divide level rest with
    | some d => some { d with before := (op, a) :: d.before }
    | none => if op ∈ level then some ⟨[], op, a, rest⟩ else none

theorem eq_of_divide {d : Division} (h : divide level rest = some d) :
    rest = d.before ++ (d.op, d.right) :: d.after := by
  induction rest generalizing d with
  | nil => cases h
  | cons link rest ih =>
      obtain ⟨op, a⟩ := link
      cases hrest : divide level rest with
      | some d' =>
          simp only [divide, hrest, Option.some.injEq] at h
          subst h
          exact congrArg ((op, a) :: ·) (ih hrest)
      | none =>
          simp only [divide, hrest] at h
          split at h
          · cases h
            rfl
          · cases h

/-- The tree of a chain: divided at the last of its loosest operators, and so on on both sides. -/
def tree (first : Atom) (rest : List (BinaryOp × Atom)) : Node :=
  match _h : levels.findSome? (divide · rest) with
  | none => first.node
  | some d => .binary Node.bare.nowhere d.op (tree first d.before) (tree d.right d.after)
termination_by rest.length
decreasing_by
  all_goals
    obtain ⟨level, -, hdivide⟩ := List.exists_of_findSome?_eq_some ‹_ = some d›
    have hlength := congrArg List.length (eq_of_divide hdivide)
    rw [List.length_append, List.length_cons] at hlength
    omega

theorem tree_nil (first : Atom) : tree first [] = first.node := by
  rw [tree]
  rfl

theorem tree_of_divide {d : Division} (h : levels.findSome? (divide · rest) = some d) :
    tree first rest =
      .binary Node.bare.nowhere d.op (tree first d.before) (tree d.right d.after) := by
  rw [tree]
  split
  · rename_i hnone
    rw [h] at hnone
    cases hnone
  · rename_i hsome
    rw [h, Option.some.injEq] at hsome
    rw [hsome]

theorem divide_eq_none_iff : divide level rest = none ↔ ∀ link ∈ rest, link.1 ∉ level := by
  induction rest with
  | nil => simp [divide]
  | cons link rest ih =>
      rw [divide, List.forall_mem_cons, ← ih]
      cases divide level rest with
      | some d => simp
      | none => simp

theorem divide_last (hop : op ∈ level) (hafter : ∀ link ∈ after, link.1 ∉ level) :
    divide level (before ++ (op, a) :: after) = some ⟨before, op, a, after⟩ := by
  induction before with
  | nil =>
      rw [List.nil_append, divide, divide_eq_none_iff.mpr hafter]
      exact if_pos hop
  | cons link before ih => rw [List.cons_append, divide, ih]

/-- The levels are those of the looseness of operators. -/
theorem mem_levels_iff (op : BinaryOp) (i : Fin levels.length) :
    op ∈ levels[i] ↔ op.looseness + i = 5 := by
  revert i
  cases op <;> decide

/-- Where an operator stands among the levels: with those that bind as loosely, behind those that
bind more loosely. -/
theorem exists_level (op : BinaryOp) : ∃ looser level tighter,
    levels = looser ++ level :: tighter ∧
    (∀ other, other ∈ level ↔ other.looseness = op.looseness) ∧
    ∀ l ∈ looser, ∀ other ∈ l, op.looseness < other.looseness := by
  have hpos := op.looseness_pos
  have hle := op.looseness_le
  have hi : 5 - op.looseness < levels.length := by
    show 5 - op.looseness < 5
    omega
  refine ⟨levels.take (5 - op.looseness), levels[5 - op.looseness],
    levels.drop (5 - op.looseness + 1), ?_, fun other => ?_, fun l hl other hother => ?_⟩
  · rw [List.getElem_cons_drop, List.take_append_drop]
  · have hmem := mem_levels_iff other ⟨5 - op.looseness, hi⟩
    simp only [Fin.getElem_fin] at hmem
    rw [hmem]
    omega
  · obtain ⟨j, hj, rfl⟩ := List.mem_take_iff_getElem.mp hl
    have hmem := (mem_levels_iff other ⟨j, by omega⟩).mp hother
    simp only at hmem
    omega

/-- A chain is divided at its last operator of a looseness if no other operator binds more
loosely. -/
theorem tree_append (hbefore : ∀ link ∈ before, link.1.looseness ≤ op.looseness)
    (hafter : ∀ link ∈ after, link.1.looseness < op.looseness) :
    tree first (before ++ (op, a) :: after) =
      .binary Node.bare.nowhere op (tree first before) (tree a after) := by
  have hdivide : levels.findSome? (divide · (before ++ (op, a) :: after)) =
      some ⟨before, op, a, after⟩ := by
    obtain ⟨looser, level, tighter, hlevels, hlevel, hlooser⟩ := exists_level op
    have hnone : looser.findSome? (divide · (before ++ (op, a) :: after)) = none := by
      rw [List.findSome?_eq_none_iff]
      intro l hl
      rw [divide_eq_none_iff]
      intro link hlink hmem
      have hlt := hlooser l hl link.1 hmem
      rcases List.mem_append.mp hlink with hlink | hlink
      · exact absurd (hbefore link hlink) (by omega)
      · rcases List.mem_cons.mp hlink with rfl | hlink
        · exact absurd hlt (Nat.lt_irrefl _)
        · exact absurd (hafter link hlink) (by omega)
    have hlast : divide level (before ++ (op, a) :: after) = some ⟨before, op, a, after⟩ := by
      apply divide_last ((hlevel op).mpr rfl)
      intro link hlink hmem
      exact absurd ((hlevel link.1).mp hmem) (Nat.ne_of_lt (hafter link hlink))
    rw [hlevels, List.findSome?_append, hnone, List.findSome?_cons, hlast]
    rfl
  exact tree_of_divide hdivide

/-! ### The tree written in order -/

/-- A tree of operators written in order, without parentheses. -/
def inOrder : Node → List Token
  | .number _ value => [.number value]
  | .text _ value => [.text value]
  | .ident _ name => [.name name]
  | .binary _ op left right => inOrder left ++ op.token :: inOrder right
  | _ => []

/-- A chain with an operator in it is divided at one. -/
theorem eq_nil_of_divide (h : levels.findSome? (divide · rest) = none) : rest = [] := by
  cases rest with
  | nil => rfl
  | cons link rest =>
      obtain ⟨looser, level, tighter, hlevels, hlevel, -⟩ := exists_level link.1
      have hmem : level ∈ levels := hlevels ▸ List.mem_append_right _ List.mem_cons_self
      have hnone := List.findSome?_eq_none_iff.mp h level hmem
      exact absurd ((hlevel link.1).mpr rfl) (divide_eq_none_iff.mp hnone link List.mem_cons_self)

theorem inOrder_node (a : Atom) : inOrder a.node = [a.token] := by
  cases a <;> rfl

/-- The tree of a chain has its operands and operators in their order. -/
theorem inOrder_tree (first : Atom) (rest : List (BinaryOp × Atom)) :
    inOrder (tree first rest) = text first rest := by
  induction first, rest using tree.induct with
  | case1 first rest h =>
      rw [eq_nil_of_divide h, tree_nil, inOrder_node]
      rfl
  | case2 first rest d h ihbefore ihafter =>
      obtain ⟨level, -, hdivide⟩ := List.exists_of_findSome?_eq_some h
      rw [tree_of_divide h, inOrder, ihbefore, ihafter, eq_of_divide hdivide]
      simp [text, linksText]

end Chain

/-! ### Reading a chain -/

namespace Parser

open Chain

variable {operand : Parser Node} {F : List Token → Prop}

theorem starts_link {k : Nat} {op : BinaryOp} (hop : k < op.looseness) (more : List Token) :
    Starts (Looser k) (op.token :: more) := by
  refine starts_cons.mpr fun op' hop' => ?_
  rw [op.binaryOp?_token, Option.some.injEq] at hop'
  rwa [← hop']

/-- What a tighter chain takes, and what it leaves because of a looser operator. -/
theorem exists_segment (k : Nat) (rest : List (BinaryOp × Atom)) : ∃ segment tail,
    rest = segment ++ tail ∧ (∀ link ∈ segment, link.1.looseness ≤ k) ∧
      ∀ link ∈ tail.head?, k < link.1.looseness := by
  refine ⟨rest.takeWhile (fun link => decide (link.1.looseness ≤ k)),
    rest.dropWhile (fun link => decide (link.1.looseness ≤ k)),
    List.takeWhile_append_dropWhile.symm, fun link hlink => ?_, fun link hlink => ?_⟩
  · simpa using List.mem_takeWhile_imp hlink
  · have hhead := List.head?_dropWhile_not (fun link => decide (link.1.looseness ≤ k)) rest
    rw [hlink] at hhead
    simpa using hhead

theorem starts_linksText {k : Nat} {rest : List (BinaryOp × Atom)} {more : List Token}
    (hhead : ∀ link ∈ rest.head?, k < link.1.looseness) (hmore : Starts (Looser (k + 1)) more) :
    Starts (Looser k) (linksText rest ++ more) := by
  cases rest with
  | nil => exact hmore.imp fun t ht => ht.of_le (Nat.le_succ k)
  | cons link rest => exact starts_link (hhead link rfl) _

/-- The operators of one looseness with chains of tighter ones between them: what is read grows to
the tree of all that has been taken. -/
theorem reads_links {k bound : Nat} {first : Atom} {front rest : List (BinaryOp × Atom)}
    {left : Node}
    (hchain : ∀ first rest, (∀ link ∈ rest, link.1.looseness ≤ k) →
      Reads (chain operand k) (fun node => node.bare = tree first rest) (text first rest)
        (Starts (Looser k)))
    (hfront : ∀ link ∈ front, link.1.looseness ≤ k + 1)
    (hrest : ∀ link ∈ rest, link.1.looseness ≤ k + 1)
    (hhead : ∀ link ∈ rest.head?, k < link.1.looseness)
    (hleft : left.bare = tree first front) (hbound : rest.length ≤ bound) :
    Reads (moreOperands (chain operand k) (k + 1) left bound)
      (fun node => node.bare = tree first (front ++ rest)) (linksText rest)
      (Starts (Looser (k + 1))) := by
  induction bound generalizing front rest left with
  | zero =>
      rw [List.length_eq_zero_iff.mp (Nat.le_zero.mp hbound), List.append_nil]
      exact reads_moreOperands_nil (P := fun node => node.bare = tree first front) hleft _ _
  | succ bound ih =>
      cases rest with
      | nil =>
          rw [List.append_nil]
          exact reads_moreOperands_nil (P := fun node => node.bare = tree first front) hleft _ _
      | cons link more =>
          obtain ⟨op, a⟩ := link
          obtain ⟨segment, tail, rfl, hsegment, htail⟩ := exists_segment k more
          obtain ⟨hlink, hmore⟩ := List.forall_mem_cons.mp hrest
          obtain ⟨-, hothers⟩ := List.forall_mem_append.mp hmore
          have hop : op.looseness = k + 1 := Nat.le_antisymm hlink (hhead (op, a) rfl)
          have htext : linksText ((op, a) :: (segment ++ tail)) =
              op.token :: (text a segment ++ linksText tail) := by
            simp [linksText, text]
          have hwhole : front ++ (op, a) :: (segment ++ tail) =
              (front ++ (op, a) :: segment) ++ tail := by simp
          have hjoined : tree first (front ++ (op, a) :: segment) =
              .binary Node.bare.nowhere op (tree first front) (tree a segment) := by
            apply tree_append
            · exact fun link hlink => hop ▸ hfront link hlink
            · intro link hlink
              have hle := hsegment link hlink
              omega
          have hfront' : ∀ link ∈ front ++ (op, a) :: segment, link.1.looseness ≤ k + 1 := by
            refine List.forall_mem_append.mpr ⟨hfront, List.forall_mem_cons.mpr ⟨hlink, ?_⟩⟩
            exact fun link hlink => Nat.le_succ_of_le (hsegment link hlink)
          rw [htext, hwhole]
          refine reads_cons (q := fun _ => chain operand k >>= fun right =>
            moreOperands (chain operand k) (k + 1)
              (.binary (left.span.through right.span) op left right) bound)
            (fun span rest => ?_) fun _ => ?_
          · rw [moreOperands, bind_of_ok (get_apply _)]
            simp only [List.head?_cons, Option.bind_some, op.binaryOp?_token, hop, if_true]
            rfl
          · refine reads_bind (hchain a segment hsegment) (fun right hright => ?_)
              fun rest hrest => starts_linksText htail hrest
            apply ih hfront' hothers htail
            · rw [Node.bare, hleft, hright, hjoined]
            · rw [List.length_cons, List.length_append] at hbound
              omega

theorem length_linksText (rest : List (BinaryOp × Atom)) :
    rest.length ≤ (linksText rest).length := by
  induction rest with
  | nil => exact Nat.zero_le _
  | cons link rest ih =>
      rw [linksText, List.flatMap_cons, List.length_append, List.length_cons] at *
      simp only [List.length_cons, List.length_nil]
      omega

/-- A chain of operators up to a looseness is read as its tree. -/
theorem reads_text {k : Nat}
    (hoperand : ∀ a : Atom, Reads operand (fun node => node.bare = a.node) [a.token] fun _ => True)
    (first : Atom) (rest : List (BinaryOp × Atom)) (hrest : ∀ link ∈ rest, link.1.looseness ≤ k) :
    Reads (chain operand k) (fun node => node.bare = tree first rest) (text first rest)
      (Starts (Looser k)) := by
  induction k generalizing first rest with
  | zero =>
      cases rest with
      | nil =>
          rw [tree_nil]
          exact (hoperand first).imp (fun _ _ => trivial) fun _ h => h
      | cons link rest =>
          exact absurd link.1.looseness_pos (Nat.not_lt_of_le (hrest link List.mem_cons_self))
  | succ k ih =>
      obtain ⟨segment, tail, rfl, hsegment, htail⟩ := exists_segment k rest
      obtain ⟨-, hothers⟩ := List.forall_mem_append.mp hrest
      have htext : text first (segment ++ tail) = text first segment ++ linksText tail := by
        simp [text, linksText]
      rw [htext]
      refine reads_bind (ih first segment hsegment) (fun left hleft => ?_)
        fun rest hrest => starts_linksText htail hrest
      refine reads_get_bind fun tokens htokens => ?_
      refine reads_links ih ?_ hothers htail hleft (Nat.le_trans (length_linksText tail) htokens)
      exact fun link hlink => Nat.le_succ_of_le (hsegment link hlink)

theorem reads_atom (sub : Phrase → Parser Node) (a : Atom) :
    Reads (signed sub) (fun node => node.bare = a.node) [a.token] F := by
  cases a with
  | number value =>
      exact reads_cons (q := fun span => pure (.number span value)) (fun _ _ => rfl)
        fun _ => reads_pure rfl
  | text value =>
      exact reads_cons (q := fun span => pure (.text span value)) (fun _ _ => rfl)
        fun _ => reads_pure rfl
  | name word =>
      exact reads_cons (q := fun span => pure (.ident span word)) (fun _ _ => rfl)
        fun _ => reads_pure rfl

/-- Operator chains get the tree that their precedence demands. An expression takes the whole of a
chain that a line break, a closing parenthesis or the end of the text follows, and reads it as the
tree that is divided at the last of its loosest operators and so on; written in order this tree is
the chain. -/
theorem reads_expression_tree (sub : Phrase → Parser Node) (first : Atom)
    (rest : List (BinaryOp × Atom)) :
    Reads (expression sub) (fun node => node.bare = tree first rest) (text first rest)
      (Starts fun t => t = .newline ∨ t = .mark .closeParen ∨ t = .finish) ∧
    inOrder (tree first rest) = text first rest := by
  have hstop : ∀ more, Starts (fun t => t = .newline ∨ t = .mark .closeParen ∨ t = .finish) more →
      Stops more := by
    intro more hmore
    refine hmore.imp fun t ht => ?_
    rcases ht with rfl | rfl | rfl <;> exact ⟨rfl, rfl, rfl, rfl, rfl⟩
  have hchain := reads_text (k := 5) (reads_atom sub) first rest fun link _ => link.1.looseness_le
  exact ⟨reads_expression_of_chain (hchain.imp (fun more hmore => (hstop more hmore).looser)
    fun _ h => h) hstop, inOrder_tree first rest⟩

end Parser

end CapsuleScript
