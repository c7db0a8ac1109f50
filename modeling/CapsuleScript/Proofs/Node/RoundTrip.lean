import CapsuleScript.Node.Parser.Program
import CapsuleScript.Proofs.Node.Phrases

/-! Reading what was written. A program that is written down with every expression inside it in
parentheses is read as itself; main statement: `exists_ofTokens_programText`. -/

namespace CapsuleScript

namespace Parser

variable {sub : Phrase → Parser Node} {depth : Nat} {F : List Token → Prop}

/-! ### Statements -/

/-- A choice between blocks, from behind its first word. -/
theorem reads_ifStatement (hsub : Reader sub depth) {span : Span} {condition thenBranch : Node}
    {elseBranch : Option Node} {phrase : Phrase} (start : Span)
    (hnormal : (Node.conditional span false condition thenBranch elseBranch).Normal phrase)
    (hlength :
      (Node.conditional span false condition thenBranch elseBranch).written.length ≤ depth + 1) :
    Reads (ifStatement sub start)
      (Node.conditional span false condition thenBranch elseBranch).Alike
      (Token.enclose condition.written ++
        (thenBranch.written ++ Node.writtenAfter [.keyword .elseWord] elseBranch))
      EndsStatement := by
  obtain ⟨-, hcondition, hblock, hthen, hblocks, helse⟩ := hnormal
  simp only [Node.written, List.length_append, List.length_cons, Token.length_enclose] at hlength
  refine reads_bind (hsub.enclosed hcondition (by omega)) (fun test htest => ?_) fun more _ => ?_
  · refine reads_bind (hsub.block hblock hthen (by omega)) (fun branch hbranch => ?_)
      fun _ _ => trivial
    cases elseBranch with
    | none =>
        -- The look past the line breaks finds no other branch and takes none of them.
        intro tokens rest htokens hrest
        rw [List.map_eq_nil_iff.mp htokens, List.nil_append, bind_of_ok (get_apply rest)]
        refine ⟨.conditional (start.through branch.span) false test branch none, ?_, ?_⟩
        · have hnext := hrest.2
          rw [List.dropWhile_map] at hnext
          obtain ⟨t, more, hmore, ht⟩ := hnext
          obtain ⟨⟨t, place⟩, front, hfront, rfl, -⟩ := List.map_eq_cons_iff.mp hmore
          have hdrop : rest.dropWhile (fun t => t.token.isNewline) = ⟨t, place⟩ :: front := hfront
          rw [hdrop]
          cases t with
          | keyword word =>
              cases word with
              | elseWord => cases ht
              | _ => rfl
          | _ => rfl
        · simp only [Node.Alike, Node.bare, Node.bareOption, htest, hbranch]
    | some otherwise =>
        have hblock' : otherwise.IsBlock := hblocks otherwise rfl
        rw [Node.writtenAfter, Node.placed_of_isBlock hblock'] at hlength ⊢
        refine reads_cons (q := fun _ => sub (.statement false) >>= fun other =>
          pure (.conditional (start.through other.span) false test branch (some other)))
          (fun _ _ => rfl) fun _ => ?_
        simp only [List.length_append, List.length_cons, List.length_nil] at hlength
        have hread := hsub.block hblock' (show otherwise.Normal (.statement false) from helse)
          (by omega)
        refine reads_last (hread.imp (fun _ _ => trivial) fun _ h => h) fun other hother => ?_
        simp only [Node.Alike, Node.bare, Node.bareOption, htest, hbranch, hother]
  · obtain ⟨text, htext⟩ := starts_block hblock
    rw [htext]
    exact starts_cons.mpr ⟨rfl, rfl, rfl, rfl, rfl⟩

/-- The result of a function, from behind its first word. -/
theorem reads_returnStatement (hsub : Reader sub depth) {span : Span} {value : Option Node}
    (start : Span) (hnormal : Node.OptionNormal .expression value)
    (hlength : (Node.writtenAfter [] value).length ≤ depth) :
    Reads (returnStatement sub start) (Node.result span value).Alike (Node.writtenAfter [] value)
      EndsStatement := by
  cases value with
  | none =>
      refine Reads.imp (reads_ahead (q := pure (.result start none)) (fun t place rest ht => ?_)
        (reads_pure (show (Node.result span none).Alike _ from rfl))) (fun _ h => h.1) fun _ h => h
      rcases ht with rfl | rfl | rfl <;> rfl
  | some inner =>
      have hinner : inner.Normal .expression := hnormal
      rw [Node.writtenAfter, Node.placed_of_normal hinner, List.nil_append] at hlength ⊢
      refine reads_head (q := sub .expression >>= fun read =>
        pure (.result (start.through read.span) (some read))) (fun _ _ => rfl) ?_
      have hread := hsub.enclosed hinner (by rw [Token.length_enclose] at hlength; omega)
      refine reads_last (hread.imp (fun _ h => h.stops) fun _ h => h) fun read hsame => ?_
      simp only [Node.Alike, Node.bare, Node.bareOption, hsame]

/-- The condition or source of a loop and the block behind it. -/
theorem reads_loop (hsub : Reader sub depth) {head body : Node} {P : Node → Prop}
    {join : Node → Node → Node} (hhead : head.Normal .expression) (hblock : body.IsBlock)
    (hbody : body.Normal (.statement false))
    (hlength : (Token.enclose head.written ++ body.written).length ≤ depth)
    (hjoin : ∀ first second, head.Alike first → body.Alike second → P (join first second)) :
    Reads (sub .expression >>= fun first => sub (.statement false) >>= fun second =>
      pure (join first second)) P (Token.enclose head.written ++ body.written) F := by
  rw [List.length_append, Token.length_enclose] at hlength
  refine reads_bind (hsub.enclosed hhead (by omega)) (fun first hfirst => ?_) fun more _ => ?_
  · have hread := hsub.block hblock hbody (by omega)
    exact reads_last (hread.imp (fun _ _ => trivial) fun _ h => h) fun second hsecond =>
      hjoin first second hfirst hsecond
  · obtain ⟨text, htext⟩ := starts_block hblock
    rw [htext]
    exact starts_cons.mpr ⟨rfl, rfl, rfl, rfl, rfl⟩

end Parser

/-- A statement that is not one alone is an expression. -/
theorem Node.normal_expression {node : Node} {phrase : Phrase} (hnormal : node.Normal phrase)
    (halone : node.standsAlone = false) : node.Normal .expression := by
  cases node with
  | conditional _ producesValue =>
      cases producesValue with
      | true => exact hnormal
      | false => cases halone
  | function _ name _ autoReturn =>
      cases name with
      | none => cases autoReturn <;> exact ⟨(fun h => nomatch h), hnormal.2⟩
      | some => cases halone
  | forLoop _ _ comprehension =>
      cases comprehension with
      | true => exact hnormal
      | false => cases halone
  | number | text | list | binary | unary | ident | call | encap | prev => exact hnormal
  | _ => cases halone

namespace Parser

/-- Every production of statements, up to the end of the statement. -/
theorem reads_statement (hsub : Reader sub depth) {node : Node}
    (hnormal : node.Normal (.statement true))
    (hlength : (node.placed node.written).length ≤ depth + 1) :
    Reads (statement sub true) node.Alike (node.placed node.written) EndsStatement := by
  by_cases halone : node.standsAlone = true
  · rw [Node.placed, if_pos halone] at hlength ⊢
    cases node with
    | assign span name topLevel value =>
        obtain ⟨-, rfl, hvalue⟩ := hnormal
        rw [Node.written, Node.placed_of_normal hvalue] at hlength ⊢
        refine reads_cons (fun _ _ => rfl) fun start => ?_
        refine reads_cons (q := fun _ => sub .expression >>= fun read =>
          pure (.assign (start.through read.span) name false read)) (fun _ _ => rfl) fun _ => ?_
        simp only [List.length_cons, Token.length_enclose] at hlength
        have hread := hsub.enclosed hvalue (by omega)
        refine reads_last (hread.imp (fun _ h => h.stops) fun _ h => h) fun read hsame => ?_
        simp only [Node.Alike, Node.bare, hsame]
    | block span mayDeclare statements =>
        exact reads_head (q := Parser.block sub true) (fun _ _ => rfl)
          (reads_block hsub trivial hnormal hlength)
    | conditional span producesValue condition thenBranch elseBranch =>
        cases producesValue with
        | true => cases halone
        | false =>
            exact reads_cons (q := ifStatement sub) (fun _ _ => rfl) fun start =>
              reads_ifStatement hsub start hnormal hlength
    | function span name params autoReturn body =>
        obtain ⟨word, rfl⟩ := Option.isSome_iff_exists.mp halone
        refine reads_cons (fun _ _ => rfl) fun start => ?_
        refine reads_head (t := .name word) (q := functionLiteral sub start true)
          (fun _ _ => rfl) ?_
        refine Reads.imp (reads_functionLiteral hsub start true (fun _ => rfl) hnormal ?_)
          (fun _ h => h.stops) fun _ h => h
        simp only [Node.written, List.length_cons, List.length_append] at hlength
        omega
    | result span value =>
        refine reads_cons (q := returnStatement sub) (fun _ _ => rfl) fun start => ?_
        exact reads_returnStatement hsub start hnormal.2 (Nat.le_of_succ_le_succ hlength)
    | stopLoop span =>
        exact reads_cons (q := fun place => pure (.stopLoop place)) (fun _ _ => rfl) fun _ =>
          reads_pure rfl
    | nextTurn span =>
        exact reads_cons (q := fun place => pure (.nextTurn place)) (fun _ _ => rfl) fun _ =>
          reads_pure rfl
    | whileLoop span condition body =>
        obtain ⟨-, hcondition, hblock, hbody⟩ := hnormal
        refine reads_cons (q := whileStatement sub) (fun _ _ => rfl) fun start => ?_
        refine reads_loop hsub hcondition hblock hbody (Nat.le_of_succ_le_succ hlength) ?_
        intro test turn htest hturn
        simp only [Node.Alike, Node.bare, htest, hturn]
    | forLoop span name comprehension source body filter =>
        cases comprehension with
        | true => cases halone
        | false =>
            obtain ⟨-, hsource, hblock, hbody, rfl⟩ := hnormal
            rw [Node.written, List.length_cons, List.length_cons, List.length_cons] at hlength
            refine reads_cons (fun _ _ => rfl) fun start => reads_cons (fun _ _ => rfl) fun _ => ?_
            refine reads_cons (q := fun _ => sub .expression >>= fun read =>
              sub (.statement false) >>= fun turn =>
                pure (.forLoop (start.through turn.span) name false read turn none))
              (fun _ _ => rfl) fun _ => ?_
            refine reads_loop hsub hsource hblock hbody (by omega) ?_
            intro read turn hread hturn
            simp only [Node.Alike, Node.bare, Node.bareOption, hread, hturn]
    | declaration => exact hnormal.elim
    | _ => cases halone
  · have hexpression := Node.normal_expression hnormal (Bool.eq_false_iff.mpr halone)
    rw [Node.placed, if_neg halone] at hlength ⊢
    rw [Token.length_enclose] at hlength
    refine reads_head (q := expression sub) (fun _ _ => rfl) ?_
    exact (reads_expression_enclosed hsub hexpression (by omega)).imp (fun _ h => h.stops)
      fun _ h => h

/-! ### Programs -/

/-- Phrases up to any depth are read from texts no longer than the depth. -/
theorem reader_phrase (depth : Nat) : Reader (phrase depth) depth := by
  induction depth with
  | zero =>
      refine ⟨fun _ h => absurd h (by omega), fun _ h => absurd h (by omega),
        fun _ h => absurd h (by omega), fun hblock _ h => ?_, fun hnormal h => ?_⟩
      · obtain ⟨text, htext⟩ := starts_block hblock
        rw [htext] at h
        cases h
      · obtain ⟨t, rest, htext, -⟩ := Node.starts_placed hnormal
        rw [htext] at h
        cases h
  | succ depth ih =>
      refine ⟨fun hnormal h => reads_expression ih hnormal (by omega),
        fun hnormal h => reads_expression_enclosed ih hnormal (by omega),
        fun hnormal h => reads_signed_enclosed ih hnormal (by omega),
        fun {node mayDeclare} hblock hnormal h => ?_, fun hnormal h => reads_statement ih hnormal h⟩
      have hread := reads_block (F := fun _ => True) ih hblock hnormal h
      obtain ⟨text, htext⟩ := starts_block hblock
      rw [htext] at hread ⊢
      exact reads_head (q := Parser.block (phrase depth) mayDeclare) (fun _ _ => rfl) hread

/-- A declaration of the program. -/
theorem reads_declaration (hsub : Reader sub depth) {node : Node} (hnode : node.IsTopLevel)
    (hlength : (node.placed node.written).length ≤ depth) :
    Reads (declaration sub) node.Alike (node.placed node.written) EndsStatement := by
  cases node with
  | assign span word topLevel value =>
      obtain ⟨rfl, hvalue⟩ := hnode
      refine reads_cons (fun _ _ => rfl) fun start => ?_
      refine reads_cons (q := fun _ => sub (.statement true) >>= fun read =>
        pure (.assign (start.through read.span) word true read)) (fun _ _ => rfl) fun _ => ?_
      have hvalueLength : (value.placed value.written).length + 2 ≤ depth := hlength
      refine reads_last (hsub.statement hvalue (by omega)) fun read hsame => ?_
      simp only [Node.Alike, Node.bare, hsame]
  | _ => exact hnode.elim

theorem starts_topLevel {node : Node} (hnode : node.IsTopLevel) :
    Starts (fun t => t.closes = false) (node.placed node.written) := by
  cases node with
  | assign => exact starts_cons.mpr rfl
  | _ => exact hnode.elim

/-- The declarations from some line on, behind the text `lead` that is no declaration. -/
theorem reads_declarations_cons {node : Node} {row : List Node} {lead : List Token} {bound : Nat}
    (hlead : Reads skipNewlines (fun _ => True) lead (Starts fun t => t.isNewline = false))
    (hstart : ∀ other ∈ node :: row,
      Starts (fun t => t.closes = false) (other.placed other.written))
    (hnode : Reads (declaration sub) node.Alike (node.placed node.written) EndsStatement)
    (hrow : Reads (declarations sub bound) (List.Forall₂ Node.Alike row)
      ((row.map fun other => other.placed other.written).flatMap (.newline :: ·))
      (Starts (· = .finish))) :
    Reads (declarations sub (bound + 1)) (List.Forall₂ Node.Alike (node :: row))
      (lead ++ (node.placed node.written ++
        (row.map fun other => other.placed other.written).flatMap (.newline :: ·)))
      (Starts (· = .finish)) := by
  have hopens := hstart node List.mem_cons_self
  refine reads_bind hlead (fun _ _ => ?_) fun rest _ => ?_
  · obtain ⟨t, more, htext, hcloses⟩ := hopens
    rw [htext] at hnode ⊢
    refine reads_head (q := declaration sub >>= fun first =>
      declarations sub bound >>= fun others => pure (first :: others)) (fun span rest => ?_) ?_
    · cases t with
      | finish => cases hcloses
      | _ => rfl
    · refine reads_bind hnode (fun first hfirst => ?_) ?_
      · exact reads_last hrow fun others hothers => .cons hfirst hothers
      · rintro _ ⟨_, rest, rfl, rfl⟩
        exact endsStatement_more (fun other h => hstart other (List.mem_cons_of_mem node h))
          (endsStatement_finish rest)
  · exact starts_not_newline ((hopens.append _).append rest)

theorem reads_declarations_nil {bound : Nat} (hbound : 0 < bound) :
    Reads (declarations sub bound) (List.Forall₂ Node.Alike []) [] (Starts (· = .finish)) := by
  obtain ⟨bound, rfl⟩ : ∃ n, bound = n + 1 := ⟨bound - 1, by omega⟩
  refine reads_ahead (q := pure []) (fun t span rest ht => ?_) (reads_pure .nil)
  subst ht
  rfl

/-- The declarations behind a first one, each on a new line. -/
theorem reads_moreDeclarations {row : List Node} {bound : Nat}
    (hstart : ∀ node ∈ row, Starts (fun t => t.closes = false) (node.placed node.written))
    (hread : ∀ node ∈ row,
      Reads (declaration sub) node.Alike (node.placed node.written) EndsStatement)
    (hbound : row.length < bound) :
    Reads (declarations sub bound) (List.Forall₂ Node.Alike row)
      ((row.map fun node => node.placed node.written).flatMap (.newline :: ·))
      (Starts (· = .finish)) := by
  induction row generalizing bound with
  | nil => exact reads_declarations_nil hbound
  | cons node row ih =>
      obtain ⟨bound, rfl⟩ : ∃ n, bound = n + 1 := ⟨bound - 1, by omega⟩
      have hrow := ih (fun other h => hstart other (List.mem_cons_of_mem node h))
        (fun other h => hread other (List.mem_cons_of_mem node h)) (Nat.lt_of_succ_lt_succ hbound)
      exact reads_declarations_cons reads_skipNewlines_newline hstart
        (hread node List.mem_cons_self) hrow

/-- All declarations of a program. -/
theorem reads_declarations {row : List Node} {bound : Nat}
    (hstart : ∀ node ∈ row, Starts (fun t => t.closes = false) (node.placed node.written))
    (hread : ∀ node ∈ row,
      Reads (declaration sub) node.Alike (node.placed node.written) EndsStatement)
    (hbound : row.length < bound) :
    Reads (declarations sub bound) (List.Forall₂ Node.Alike row)
      (Token.separated .newline (row.map fun node => node.placed node.written))
      (Starts (· = .finish)) := by
  cases row with
  | nil => exact reads_declarations_nil hbound
  | cons node row =>
      obtain ⟨bound, rfl⟩ : ∃ n, bound = n + 1 := ⟨bound - 1, by omega⟩
      have hrow := reads_moreDeclarations
        (fun other h => hstart other (List.mem_cons_of_mem node h))
        (fun other h => hread other (List.mem_cons_of_mem node h)) (Nat.lt_of_succ_lt_succ hbound)
      exact reads_declarations_cons reads_skipNewlines_nil hstart
        (hread node List.mem_cons_self) hrow

end Parser

theorem Node.ofTokens_of_declarations {tokens rest : List Located} {statements : List Node}
    (hread : Parser.declarations (Parser.phrase tokens.length) tokens.length tokens =
      .ok (statements, rest)) :
    ∃ span, Node.ofTokens tokens = .ok (.block span true statements) := by
  cases tokens with
  | nil => cases hread
  | cons first others =>
      have hlast := List.getLast?_eq_some_getLast (List.cons_ne_nil first others)
      refine ⟨first.span.through ((first :: others).getLast (List.cons_ne_nil _ _)).span, ?_⟩
      simp only [Node.ofTokens, List.head?_cons, hlast, StateT.run, hread, bind, Except.bind]
      rfl

/-- Each declaration takes a token at least. -/
theorem length_le_separated_newline {row : List Node} (hrow : ∀ node ∈ row, node.IsTopLevel) :
    row.length ≤
      (Token.separated .newline (row.map fun node => node.placed node.written)).length := by
  cases row with
  | nil => exact Nat.zero_le _
  | cons first rest =>
      obtain ⟨t, more, htext, -⟩ := Parser.starts_topLevel (hrow first List.mem_cons_self)
      have hle := Parser.length_le_flatMap_cons .newline
        (rest.map fun node => node.placed node.written)
      rw [List.length_map] at hle
      rw [List.map_cons, Token.separated, List.length_append, htext, List.length_cons,
        List.length_cons]
      omega

/-- Whatever regions its tokens are given, the text of a program is read as the program. -/
theorem exists_ofTokens_programText {program : Node} (hprogram : program.IsProgram)
    {tokens : List Located}
    (htokens : tokens.map Located.token = program.programText ++ [.finish]) :
    ∃ read, Node.ofTokens tokens = .ok read ∧ read.bare = program.bare := by
  cases program with
  | block span mayDeclare statements =>
      obtain ⟨rfl, hall⟩ := hprogram
      rw [Node.programText, Node.placedAll_eq_map] at htokens
      have hlength := congrArg List.length htokens
      rw [List.length_map, List.length_append, List.length_singleton] at hlength
      have hread : ∀ node ∈ statements, Parser.Reads (Parser.declaration
          (Parser.phrase tokens.length)) node.Alike (node.placed node.written)
          Parser.EndsStatement := by
        intro node hmem
        have hle := Parser.length_le_separated (Parser.placed_mem_of_mem hmem) .newline
        exact Parser.reads_declaration (Parser.reader_phrase _) (hall node hmem) (by omega)
      have hbound : statements.length < tokens.length := by
        have hle := length_le_separated_newline hall
        omega
      obtain ⟨front, back, rfl, hfront, hback⟩ := List.map_eq_append_iff.mp htokens
      obtain ⟨nodes, hnodes, hsame⟩ := Parser.reads_declarations
        (fun node hmem => Parser.starts_topLevel (hall node hmem)) hread hbound front back hfront
        ⟨_, _, hback, rfl⟩
      obtain ⟨place, hprogram⟩ := Node.ofTokens_of_declarations hnodes
      refine ⟨_, hprogram, ?_⟩
      simp only [Node.bare, Node.Alike.bareAll_eq hsame]
  | _ => exact hprogram.elim

/-- A function whose body has a choice followed by statements that could be taken for its other
branch, loops, a function with a name and a block, and an object that inherits. -/
def Node.sampleProgram (s : Span) : Node :=
  .block s true
    [.assign s "total" true (.function s none ["items", "start"] false (.block s true
        [.conditional s false (.ident s "start")
            (.block s false [.result s (some (.unary s .negate (.ident s "start")))]) none,
          .forLoop s "x" false (.ident s "items") (.block s false
            [.assign s "y" false (.conditional s true (.ident s "start") (.ident s "x")
              (some (.binary s .mul (.ident s "x") (.number s 2))))]) none,
          .whileLoop s (.call s (.ident s "start") []) (.block s false [.nextTurn s]),
          .function s (some "last") [] true (.prev s (.ident s "x")),
          .block s true [.result s none]])),
      .assign s "thing" true (.encap s (some "T") true (.block s true
        [.assign s "z" false (.forLoop s "x" true (.list s [.text s "a", .ident s "b"])
          (.call s (.ident s "total") [.ident s "x", .list s []]) (some (.ident s "x")))])
        (some (.ident s "Base")))]

theorem exists_ofTokens_sampleProgram :
    (Node.sampleProgram Node.bare.nowhere).IsProgram ∧ ∃ read,
      Node.ofTokens (((Node.sampleProgram Node.bare.nowhere).programText ++ [Token.finish]).map
        fun t => ⟨t, Node.bare.nowhere⟩) = .ok read ∧
          read.bare = (Node.sampleProgram Node.bare.nowhere).bare := by
  have hprogram : (Node.sampleProgram Node.bare.nowhere).IsProgram := by
    simp [Node.sampleProgram, Node.IsProgram, Node.IsTopLevel, Node.Normal, Node.AllNormal,
      Node.OptionNormal, Node.IsBlock, Node.IsVariable, Phrase.isStatement]
  exact ⟨hprogram, exists_ofTokens_programText hprogram (by simp [Function.comp_def])⟩

end CapsuleScript
