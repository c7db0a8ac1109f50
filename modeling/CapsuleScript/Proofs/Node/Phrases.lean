import CapsuleScript.Proofs.Node.Texts

/-! How the phrases of the grammar are read from their texts: operands, blocks, functions and
expressions. Each production is read with a reader of the phrases inside it, which reads texts up to
some length. -/

namespace CapsuleScript

namespace Parser

/-- The reader of phrases reads every text of at most `depth` tokens, the parentheses around it
among them, as the tree it was written from. -/
structure Reader (sub : Phrase → Parser Node) (depth : Nat) : Prop where
  bare : ∀ {node : Node}, node.Normal .expression → node.written.length < depth →
    Reads (sub .expression) node.Alike node.written (Starts (· = .mark .closeParen))
  enclosed : ∀ {node : Node}, node.Normal .expression → node.written.length + 2 ≤ depth →
    Reads (sub .expression) node.Alike (Token.enclose node.written) Stops
  signed : ∀ {node : Node}, node.Normal .expression → node.written.length + 2 ≤ depth →
    Reads (sub .signed) node.Alike (Token.enclose node.written) fun _ => True
  block : ∀ {node : Node} {mayDeclare : Bool}, node.IsBlock →
    node.Normal (.statement mayDeclare) → node.written.length ≤ depth →
      Reads (sub (.statement mayDeclare)) node.Alike node.written fun _ => True
  statement : ∀ {node : Node}, node.Normal (.statement true) →
    (node.placed node.written).length ≤ depth →
      Reads (sub (.statement true)) node.Alike (node.placed node.written) EndsStatement

variable {sub : Phrase → Parser Node} {depth : Nat} {F : List Token → Prop}

/-! ### Operands -/

theorem reads_operand_enclosed (hsub : Reader sub depth) {node : Node}
    (hnode : node.Normal .expression) (hlength : node.written.length < depth) :
    Reads (operand sub) node.Alike (Token.enclose node.written) F := by
  refine reads_cons (q := fun _ => sub .expression >>= fun inner =>
    expect (Token.isMark .closeParen) .closeParen >>= fun _ => pure inner) (fun _ _ => rfl) ?_
  intro _
  refine reads_bind (hsub.bare hnode hlength) (fun inner hinner => ?_) fun _ _ => ⟨_, _, rfl, rfl⟩
  exact reads_last (reads_expect rfl _) fun _ _ => hinner

theorem reads_signed_enclosed (hsub : Reader sub depth) {node : Node}
    (hnode : node.Normal .expression) (hlength : node.written.length < depth) :
    Reads (signed sub) node.Alike (Token.enclose node.written) F :=
  reads_head (q := operand sub) (fun _ _ => rfl) (reads_operand_enclosed hsub hnode hlength)

theorem length_le_separated {text : List Token} {texts : List (List Token)} (h : text ∈ texts)
    (t : Token) : text.length ≤ (Token.separated t texts).length := by
  cases texts with
  | nil => cases h
  | cons first rest =>
      rw [Token.separated, List.length_append]
      rcases List.mem_cons.mp h with rfl | hmem
      · omega
      · have hmem' : t :: text ∈ rest.map (t :: ·) := List.mem_map_of_mem hmem
        have hle := (List.sublist_flatten_of_mem hmem').length_le
        rw [List.length_cons, ← List.flatMap_def] at hle
        omega

/-- The elements of a list or the arguments of a call. -/
theorem reads_enclosed_of_mem (hsub : Reader sub depth) {nodes : List Node}
    (hnodes : Node.AllNormal .expression nodes)
    (hlength : (Token.separated (.mark .comma) (Node.enclosedAll nodes)).length ≤ depth)
    (node : Node) (hmem : node ∈ nodes) :
    Reads (sub .expression) node.Alike (Token.enclose node.written) Stops := by
  refine hsub.enclosed (Node.allNormal_iff.mp hnodes node hmem) ?_
  have hmem' : Token.enclose node.written ∈ Node.enclosedAll nodes := by
    rw [Node.enclosedAll_eq_map]
    exact List.mem_map_of_mem hmem
  have hle := length_le_separated hmem' (.mark .comma)
  rw [Token.length_enclose] at hle
  omega

theorem stops_comma (rest : List Token) : Stops (.mark .comma :: rest) :=
  starts_cons.mpr ⟨rfl, rfl, rfl, rfl, rfl⟩

theorem reads_operand_list (hsub : Reader sub depth) {span : Span} {elements : List Node}
    (helements : Node.AllNormal .expression elements)
    (hlength : (Token.separated (.mark .comma) (Node.enclosedAll elements)).length ≤ depth) :
    Reads (operand sub) (Node.list span elements).Alike (Node.list span elements).written F := by
  have hread := reads_enclosed_of_mem hsub helements hlength
  rw [Node.written, Node.enclosedAll_eq_map]
  cases elements with
  | nil =>
      refine reads_cons (fun _ _ => rfl) fun start => ?_
      exact reads_cons (q := fun stop => pure (.list (start.through stop) [])) (fun _ _ => rfl)
        fun _ => reads_pure rfl
  | cons first rest =>
      refine reads_cons (fun _ _ => rfl) fun start => ?_
      refine reads_head (t := .mark .openParen) (q := get >>= fun tokens =>
        Parser.elements (sub .expression) tokens.length >>= fun read =>
          pure (.list (start.through read.2) read.1)) (fun _ _ => rfl) ?_
      refine reads_get_bind fun tokens htokens => ?_
      have hbound : rest.length < tokens.length := by
        have hle := length_le_flatMap_cons (.mark .comma)
          (rest.map fun node => Token.enclose node.written)
        have htext : (Token.separated (.mark .comma) ((first :: rest).map fun node : Node =>
            Token.enclose node.written) ++ [Token.mark .closeBracket]).length ≤ tokens.length :=
          htokens
        simp only [Token.separated, List.map_cons, List.length_append, List.length_cons,
          List.length_map] at hle htext
        omega
      refine reads_last (reads_elements hread stops_comma (fun _ => ?_) tokens.length hbound) ?_
      · exact starts_cons.mpr ⟨rfl, rfl, rfl, rfl, rfl⟩
      · intro read hparts
        simp only [Node.Alike, Node.bare, Node.Alike.bareAll_eq hparts]

/-! ### Blocks and functions -/

theorem placed_mem_of_mem {node : Node} {nodes : List Node} (hmem : node ∈ nodes) :
    node.placed node.written ∈ nodes.map fun other => other.placed other.written :=
  List.mem_map_of_mem hmem

/-- Statements in braces, read without a look at what follows. -/
theorem reads_block (hsub : Reader sub depth) {node : Node} {mayDeclare : Bool}
    (hblock : node.IsBlock) (hnormal : node.Normal (.statement mayDeclare))
    (hlength : node.written.length ≤ depth + 1) :
    Reads (block sub mayDeclare) node.Alike node.written F := by
  cases node with
  | block span flag statements =>
      obtain ⟨hflag, hne, hall⟩ := hnormal
      cases hflag
      have hnormal := Node.allNormal_iff.mp hall
      rw [Node.written, Node.placedAll_eq_map] at hlength ⊢
      have hread : ∀ node ∈ statements,
          Reads (sub (.statement true)) node.Alike (node.placed node.written) EndsStatement := by
        intro node hmem
        have hle := length_le_separated (placed_mem_of_mem hmem) .newline
        rw [List.length_cons, List.length_append] at hlength
        exact hsub.statement (hnormal node hmem) (by omega)
      obtain ⟨first, rest, rfl⟩ := List.exists_cons_of_ne_nil hne
      have hstart := first.starts_placed (hnormal first List.mem_cons_self)
      have hrest : ∀ node ∈ rest, node ∈ first :: rest := fun node h => List.mem_cons_of_mem first h
      have hstarts : ∀ node ∈ rest, Starts (fun t => t.closes = false) (node.placed node.written) :=
        fun node h => node.starts_placed (hnormal node (hrest node h))
      rw [List.map_cons, Token.separated, List.append_assoc]
      refine reads_cons (q := fun start => skipNewlines >>= fun _ =>
        sub (.statement true) >>= fun head => get >>= fun tokens =>
          moreStatements (sub (.statement true)) tokens.length >>= fun others =>
            expect (Token.isMark .closeBrace) .closeBrace >>= fun stop =>
              pure (.block (start.through stop) mayDeclare (head :: others))) (fun _ _ => rfl) ?_
      intro start
      refine reads_look reads_skipNewlines_nil (fun _ _ => ?_) fun more _ =>
        starts_not_newline ((hstart.append _).append more)
      refine reads_bind (hread first List.mem_cons_self) (fun head hhead => ?_) fun more _ => ?_
      · refine reads_get_bind fun tokens htokens => ?_
        have hbound : rest.length ≤ tokens.length := by
          have hle := length_le_flatMap_cons .newline
            (rest.map fun node => node.placed node.written)
          rw [List.length_append] at htokens
          rw [List.length_map] at hle
          omega
        refine reads_bind (reads_moreStatements hstarts (fun node h => hread node (hrest node h))
          tokens.length hbound) (fun others hothers => ?_) fun _ _ => starts_cons.mpr rfl
        refine reads_last (reads_expect rfl _) fun stop _ => ?_
        simp only [Node.Alike, Node.bare, Node.Alike.bareAll_eq (.cons hhead hothers)]
      · rw [List.append_assoc]
        exact endsStatement_more hstarts (endsStatement_closeBrace more)
  | _ => exact hblock.elim

theorem starts_block {node : Node} (hblock : node.IsBlock) :
    ∃ rest, node.written = .mark .openBrace :: rest := by
  cases node with
  | block => exact ⟨_, rfl⟩
  | _ => exact hblock.elim


theorem reads_parameters (params : List String) :
    Reads parameters (· = params) (Node.writtenParams params)
      (Starts fun t => t.isMark .colon = false ∧ t.isMark .comma = false) := by
  cases params with
  | nil =>
      refine reads_look reads_not_accept ?_ fun rest hrest => hrest.imp fun t ht => ht.1
      rintro _ rfl
      exact reads_pure rfl
  | cons first rest =>
      have hcolon : Reads (accept (Token.isMark .colon)) (· = true) [.mark .colon] fun _ => True :=
        reads_accept rfl
      refine reads_bind hcolon ?_ fun _ _ => trivial
      rintro _ rfl
      have hitem : ∀ word ∈ first :: rest,
          Reads (Prod.fst <$> name) (word = ·) [.name word] fun _ => True :=
        fun word _ => reads_cons (q := fun _ => pure word) (fun _ _ => rfl) fun _ => reads_pure rfl
      refine (reads_items hitem (fun _ => trivial) (fun _ _ => trivial) fun rest hrest => ?_).imp
        (fun _ h => h) fun words hwords => ?_
      · exact hrest.imp fun t ht => ht.2
      · exact (List.forall₂_eq_eq_eq ▸ hwords : _ = _).symm

/-- A body that is written as an expression behind an arrow or as a block. -/
theorem reads_functionBody (hsub : Reader sub depth) {span : Span} {name : Option String}
    {params : List String} {autoReturn : Bool} {body : Node} {phrase : Phrase} (hasParams : Bool)
    (hnormal : (Node.function span name params autoReturn body).Normal phrase)
    (hlength : (if autoReturn then .mark .arrow :: Token.enclose body.written
      else body.written).length ≤ depth) :
    Reads (functionBody sub hasParams) (fun read => body.Alike read.1 ∧ read.2 = autoReturn)
      (if autoReturn then .mark .arrow :: Token.enclose body.written else body.written) Stops := by
  cases autoReturn with
  | true =>
      refine reads_cons (q := fun _ => sub .expression >>= fun inner => pure (inner, true))
        (fun _ _ => rfl) fun _ => ?_
      rw [if_pos rfl, List.length_cons, Token.length_enclose] at hlength
      exact reads_last (hsub.enclosed hnormal.2 (by omega)) fun inner hinner => ⟨hinner, rfl⟩
  | false =>
      rw [if_neg Bool.false_ne_true] at hlength ⊢
      obtain ⟨-, hblock, hbody⟩ := hnormal
      have hread := reads_block (F := Stops) hsub hblock hbody (by omega)
      obtain ⟨text, htext⟩ := starts_block hblock
      rw [htext] at hread ⊢
      refine reads_head (q := block sub true >>= fun read => pure (read, false))
        (fun _ _ => rfl) ?_
      exact reads_last hread fun read hsame => ⟨hsame, rfl⟩

/-- The word behind which a function starts is taken already. -/
theorem reads_functionLiteral (hsub : Reader sub depth) {span : Span} {name : Option String}
    {params : List String} {autoReturn : Bool} {body : Node} {phrase : Phrase} (start : Span)
    (named : Bool) (hnamed : name.isSome → named = true)
    (hnormal : (Node.function span name params autoReturn body).Normal phrase)
    (hlength : (if autoReturn then .mark .arrow :: Token.enclose body.written
      else body.written).length ≤ depth) :
    Reads (functionLiteral sub start named)
      (Node.function span name params autoReturn body).Alike
      (name.elim [] (fun word => [.name word]) ++ (Node.writtenParams params ++
        if autoReturn then .mark .arrow :: Token.enclose body.written else body.written))
      Stops := by
  have hbody : ∀ more, Starts (fun t => t = .mark .arrow ∨ t = .mark .openBrace)
      ((if autoReturn then .mark .arrow :: Token.enclose body.written else body.written) ++
        more) := by
    intro more
    cases autoReturn with
    | true => exact starts_cons.mpr (.inl rfl)
    | false =>
        obtain ⟨text, htext⟩ := starts_block hnormal.2.1
        rw [if_neg Bool.false_ne_true, htext]
        exact starts_cons.mpr (.inr rfl)
  have hname : Reads (functionName named) (· = name) (name.elim [] fun word => [.name word])
      (Starts fun t => ∀ word, t ≠ .name word) := by
    cases name with
    | none =>
        refine reads_ahead (q := pure none) (fun t span rest htest => ?_) (reads_pure rfl)
        cases t with
        | name word => exact absurd rfl (htest word)
        | _ => rfl
    | some word =>
        cases hnamed rfl
        exact reads_cons (q := fun _ => pure (some word)) (fun _ _ => rfl) fun _ => reads_pure rfl
  refine reads_bind hname ?_ fun more _ => ?_
  · rintro _ rfl
    refine reads_bind (reads_parameters params) ?_ fun more _ => ?_
    · rintro _ rfl
      exact reads_last (reads_functionBody hsub _ hnormal hlength) fun read hread => by
        obtain ⟨hsame, rfl⟩ := hread
        show Node.bare _ = Node.bare _
        simp only [Node.bare, hsame]
    · refine (hbody more).imp fun t ht => ?_
      rcases ht with rfl | rfl <;> exact ⟨rfl, rfl⟩
  · cases params with
    | nil =>
        refine (hbody more).imp fun t ht => ?_
        rcases ht with rfl | rfl <;> exact fun _ heq => Token.noConfusion heq
    | cons => exact starts_cons.mpr fun _ heq => Token.noConfusion heq

/-! ### Expressions -/

/-- An expression in parentheses ends. -/
abbrev Closed : List Token → Prop := Starts (· = .mark .closeParen)

theorem Closed.stops {more : List Token} (h : Closed more) : Stops more :=
  h.imp fun t ht => by
    subst ht
    exact ⟨rfl, rfl, rfl, rfl, rfl⟩

theorem Reads.closed {p : Parser Node} {P : Node → Prop} {text : List Token}
    (h : Reads p P text Stops) : Reads p P text Closed :=
  h.imp (fun _ hmore => hmore.stops) fun _ hread => hread

/-- An object literal from behind its first word. -/
theorem reads_encapLiteral (hsub : Reader sub depth) {span : Span} {typeName : Option String}
    {strict : Bool} {body : Node} {parent : Option Node} (start : Span)
    (hnormal : (Node.encap span typeName strict body parent).Normal .expression)
    (hlength : (body.written ++ Node.writtenType typeName parent).length ≤ depth) :
    Reads (encapLiteral sub start strict) (Node.encap span typeName strict body parent).Alike
      (body.written ++ Node.writtenType typeName parent) Closed := by
  obtain ⟨hblock, hbody, hnameless, hparent⟩ := hnormal
  rw [List.length_append] at hlength
  refine reads_bind (reads_block (F := fun _ => True) hsub hblock hbody (by omega))
    (fun read hread => ?_) fun _ _ => trivial
  cases typeName with
  | none =>
      cases hnameless rfl
      refine reads_ahead (q := pure (.encap (start.through read.span) none strict read none))
        (fun t span rest ht => ?_) (reads_pure ?_)
      · subst ht
        rfl
      · simp only [Node.Alike, Node.bare, hread]
  | some word =>
      refine reads_cons (fun _ _ => rfl) fun _ => reads_cons (fun _ _ => rfl) fun typeSpan => ?_
      cases parent with
      | none =>
          refine reads_ahead
            (q := pure (.encap (start.through typeSpan) (some word) strict read none))
            (fun t span rest ht => ?_) (reads_pure ?_)
          · subst ht
            rfl
          · simp only [Node.Alike, Node.bare, hread]
      | some object =>
          cases object with
          | ident place word' =>
              refine reads_cons (fun _ _ => rfl) fun _ => ?_
              refine reads_head (q := sub .expression >>= fun object =>
                pure (.encap (start.through object.span) (some word) strict read (some object)))
                (fun _ _ => rfl) ?_
              have hvariable : (Node.ident place word').written.length < depth := by
                simp only [Node.writtenType, Node.written, List.length_append, List.length_cons,
                  List.length_nil] at hlength ⊢
                omega
              refine reads_last (hsub.bare (by trivial) hvariable) fun object hobject => ?_
              simp only [Node.Alike, Node.bare, Node.bareOption, hread, hobject]
          | _ => exact (hparent _ rfl).elim

/-- An expression that goes no further than its chain of operands. -/
theorem reads_expression_of_chain {P : Node → Prop} {text : List Token}
    (hchain : Reads (chain (signed sub) 5) P text F) (hstop : ∀ more, F more → Stops more) :
    Reads (expression sub) P text F := by
  rw [← List.append_nil text]
  refine reads_bind hchain (fun left hleft => ?_) fun _ h => h
  refine Reads.imp (reads_ahead (q := pure left) (fun t span rest ht => ?_) (reads_pure hleft))
    hstop fun _ h => h
  obtain ⟨hop, hif, hcolon, hbang, hfor⟩ := ht
  cases t with
  | keyword word =>
      cases word with
      | ifWord => cases hif
      | forWord => cases hfor
      | _ => rfl
  | mark sign =>
      cases sign with
      | colon => cases hcolon
      | bang => cases hbang
      | _ => rfl
  | _ => rfl

theorem reads_expression_of_signed {P : Node → Prop} {text : List Token}
    (hsigned : Reads (signed sub) P text F) (hstop : ∀ more, F more → Stops more) :
    Reads (expression sub) P text F :=
  reads_expression_of_chain
    (reads_chain hsigned 5 fun more hmore => (hstop more hmore).looser) hstop

/-- An expression in parentheses. -/
theorem reads_expression_enclosed (hsub : Reader sub depth) {node : Node}
    (hnormal : node.Normal .expression) (hlength : node.written.length < depth) :
    Reads (expression sub) node.Alike (Token.enclose node.written) Stops :=
  reads_expression_of_signed (reads_signed_enclosed hsub hnormal hlength) fun _ h => h

/-- The first part of an expression that goes on behind its chain of operands. -/
theorem reads_chain_enclosed (hsub : Reader sub depth) {node : Node}
    (hnormal : node.Normal .expression) (hlength : node.written.length < depth) :
    Reads (chain (signed sub) 5) node.Alike (Token.enclose node.written)
      (Starts fun t => t.binaryOp? = none) :=
  reads_chain (reads_signed_enclosed hsub hnormal hlength) 5 fun _ hmore =>
    hmore.imp fun t ht op hop => by simp [ht] at hop

theorem reads_expression_conditional (hsub : Reader sub depth) {span : Span}
    {condition thenBranch : Node} {elseBranch : Option Node}
    (hnormal : (Node.conditional span true condition thenBranch elseBranch).Normal .expression)
    (hlength :
      (Node.conditional span true condition thenBranch elseBranch).written.length ≤ depth + 1) :
    Reads (expression sub) (Node.conditional span true condition thenBranch elseBranch).Alike
      (Node.conditional span true condition thenBranch elseBranch).written Closed := by
  obtain ⟨hcondition, hthen, hsome, helse⟩ := hnormal
  cases elseBranch with
  | none => cases hsome
  | some otherwise =>
      have helse : otherwise.Normal .expression := helse
      simp only [Node.written, Node.writtenAfter, Node.placed_of_normal helse, List.length_append,
        List.length_cons, List.length_nil, Token.length_enclose] at hlength ⊢
      refine reads_bind (reads_chain_enclosed hsub hthen (by omega)) (fun left hleft => ?_)
        fun _ _ => starts_cons.mpr rfl
      refine reads_cons (q := fun _ => sub .expression >>= fun read =>
        expect (Token.isKeyword .elseWord) .elseWord >>= fun _ => sub .expression >>= fun other =>
          pure (.conditional (left.span.through other.span) true read left (some other)))
        (fun _ _ => rfl) fun _ => ?_
      refine reads_bind (hsub.enclosed hcondition (by omega)) (fun read hread => ?_)
        fun _ _ => starts_cons.mpr ⟨rfl, rfl, rfl, rfl, rfl⟩
      refine reads_bind (F := fun _ => True) (reads_expect rfl _) (fun _ _ => ?_) fun _ _ => trivial
      refine Reads.closed (reads_last (hsub.enclosed helse (by omega)) fun other hother => ?_)
      simp only [Node.Alike, Node.bare, Node.bareOption, hleft, hread, hother]

theorem reads_expression_call (hsub : Reader sub depth) {span : Span} {callee : Node}
    {arguments : List Node} (hnormal : (Node.call span callee arguments).Normal .expression)
    (hlength : (Node.call span callee arguments).written.length ≤ depth + 1) :
    Reads (expression sub) (Node.call span callee arguments).Alike
      (Node.call span callee arguments).written Closed := by
  obtain ⟨hcallee, harguments⟩ := hnormal
  rw [Node.written, List.length_append, Token.length_enclose] at hlength
  rw [Node.written]
  refine reads_bind (reads_chain_enclosed hsub hcallee (by omega)) (fun left hleft => ?_)
    fun more _ => ?_
  · cases arguments with
    | nil =>
        refine reads_cons (q := fun stop => pure (.call (left.span.through stop) left []))
          (fun _ _ => rfl) fun _ => reads_pure ?_
        simp only [Node.Alike, Node.bare, hleft]
    | cons first rest =>
        rw [List.isEmpty_cons, if_neg Bool.false_ne_true] at hlength ⊢
        have hread := reads_enclosed_of_mem hsub harguments (by
          rw [List.length_cons] at hlength
          omega)
        rw [Node.enclosedAll_eq_map]
        refine reads_cons (q := fun _ => items (sub .expression) >>= fun read =>
          pure (.call (left.span.through (read.getLast?.elim left.span Node.span)) left read))
          (fun _ _ => rfl) fun _ => ?_
        refine reads_last (reads_items hread stops_comma (fun _ h => h.stops) fun more hmore => ?_)
          fun read hsame => ?_
        · exact hmore.imp fun t ht => ht ▸ rfl
        · simp only [Node.Alike, Node.bare, hleft, Node.Alike.bareAll_eq hsame]
  · cases arguments with
    | nil => exact starts_cons.mpr rfl
    | cons => exact starts_cons.mpr rfl

theorem reads_expression_comprehension (hsub : Reader sub depth) {span : Span} {word : String}
    {source body : Node} {filter : Option Node}
    (hnormal : (Node.forLoop span word true source body filter).Normal .expression)
    (hlength : (Node.forLoop span word true source body filter).written.length ≤ depth + 1) :
    Reads (expression sub) (Node.forLoop span word true source body filter).Alike
      (Node.forLoop span word true source body filter).written Closed := by
  obtain ⟨hsource, hbody, hfilter⟩ := hnormal
  simp only [Node.written, List.length_append, List.length_cons, Token.length_enclose] at hlength
  rw [Node.written]
  refine reads_bind (reads_chain_enclosed hsub hbody (by omega)) (fun left hleft => ?_)
    fun _ _ => starts_cons.mpr rfl
  refine reads_cons (fun _ _ => rfl) fun _ => reads_cons (fun _ _ => rfl) fun _ => ?_
  refine reads_cons (q := fun _ => sub .expression >>= fun read =>
    accept (Token.isMark .arrow) >>= fun filtered =>
      if filtered then
        expect (Token.isKeyword .ifWord) .ifWord >>= fun _ => sub .expression >>= fun test =>
          pure (.forLoop (left.span.through test.span) word true read left (some test))
      else pure (.forLoop (left.span.through read.span) word true read left none))
    (fun _ _ => rfl) fun _ => ?_
  refine reads_bind (hsub.enclosed hsource (by omega)) (fun read hread => ?_) fun more hmore => ?_
  · cases filter with
    | none =>
        refine reads_look reads_not_accept ?_ fun more hmore => hmore.imp fun t ht => ht ▸ rfl
        rintro _ rfl
        refine reads_pure ?_
        simp only [Node.Alike, Node.bare, Node.bareOption, hleft, hread]
    | some test =>
        have hfilter : test.Normal .expression := hfilter
        rw [Node.writtenAfter, Node.placed_of_normal hfilter] at hlength ⊢
        refine reads_cons (fun _ _ => rfl) fun _ => ?_
        refine reads_cons (q := fun _ => sub .expression >>= fun test =>
          pure (.forLoop (left.span.through test.span) word true read left (some test)))
          (fun _ _ => rfl) fun _ => ?_
        simp only [List.length_append, List.length_cons, Token.length_enclose] at hlength
        refine Reads.closed (reads_last (hsub.enclosed hfilter (by omega)) fun other hother => ?_)
        simp only [Node.Alike, Node.bare, Node.bareOption, hleft, hread, hother]
  · cases filter with
    | none => exact hmore.stops
    | some test => exact starts_cons.mpr ⟨rfl, rfl, rfl, rfl, rfl⟩

/-- Every production of expressions, up to the parenthesis behind it. -/
theorem reads_expression (hsub : Reader sub depth) {node : Node} (hnormal : node.Normal .expression)
    (hlength : node.written.length ≤ depth + 1) :
    Reads (expression sub) node.Alike node.written Closed := by
  cases node with
  | number span value =>
      refine reads_expression_of_signed ?_ fun _ h => h.stops
      exact reads_cons (q := fun place => pure (.number place value)) (fun _ _ => rfl) fun _ =>
        reads_pure rfl
  | text span value =>
      refine reads_expression_of_signed ?_ fun _ h => h.stops
      exact reads_cons (q := fun place => pure (.text place value)) (fun _ _ => rfl) fun _ =>
        reads_pure rfl
  | ident span value =>
      refine reads_expression_of_signed ?_ fun _ h => h.stops
      exact reads_cons (q := fun place => pure (.ident place value)) (fun _ _ => rfl) fun _ =>
        reads_pure rfl
  | list span elements =>
      refine reads_expression_of_signed ?_ fun _ h => h.stops
      refine reads_head (q := operand sub) (fun _ _ => rfl) ?_
      refine reads_operand_list hsub hnormal ?_
      rw [Node.written, List.length_cons, List.length_append] at hlength
      omega
  | binary span op left right =>
      simp only [Node.written, List.length_append, List.length_cons, Token.length_enclose]
        at hlength
      have hleft := reads_signed_enclosed (F := fun _ => True) hsub hnormal.1 (by omega)
      have hright := reads_signed_enclosed (F := fun _ => True) hsub hnormal.2 (by omega)
      refine reads_expression_of_chain (reads_chain_binary hleft hright ?_ 5 op.looseness_le
        fun _ h => h.stops.looser) fun _ h => h.stops
      intro place first second hfirst hsecond
      simp only [Node.Alike, Node.bare, hfirst, hsecond]
  | unary span op inner =>
      simp only [Node.written, List.length_cons, Token.length_enclose] at hlength
      refine reads_expression_of_signed ?_ fun _ h => h.stops
      refine reads_cons (q := fun place => sub .signed >>= fun read =>
        pure (.unary (place.through read.span) op read)) (fun _ _ => ?_) fun _ => ?_
      · cases op <;> rfl
      · have hread := hsub.signed (show inner.Normal .expression from hnormal) (by omega)
        refine reads_last (hread.imp (fun _ _ => trivial) fun _ h => h) fun read hsame => ?_
        simp only [Node.Alike, Node.bare, hsame]
  | conditional span producesValue =>
      cases producesValue with
      | true => exact reads_expression_conditional hsub hnormal hlength
      | false => cases hnormal.1
  | function span name params autoReturn body =>
      have hname : name = none := by
        cases name with
        | none => rfl
        | some word => cases autoReturn <;> cases hnormal.1 rfl
      subst hname
      refine reads_expression_of_signed ?_ fun _ h => h.stops
      refine reads_cons (q := fun place => functionLiteral sub place false) (fun _ _ => rfl)
        fun place => ?_
      refine Reads.closed (reads_functionLiteral hsub place false (by simp) hnormal ?_)
      simp only [Node.written, List.length_cons, List.length_append] at hlength
      omega
  | call span callee arguments => exact reads_expression_call hsub hnormal hlength
  | forLoop span word comprehension source body filter =>
      cases comprehension with
      | true => exact reads_expression_comprehension hsub hnormal hlength
      | false => cases hnormal.1
  | encap span typeName strict body parent =>
      rw [Node.written, List.length_cons] at hlength
      refine reads_expression_of_signed ?_ fun _ h => h.stops
      refine reads_cons (q := fun place => encapLiteral sub place strict) (fun _ _ => ?_)
        fun place => reads_encapLiteral hsub place hnormal (by omega)
      cases strict <;> rfl
  | prev span inner =>
      simp only [Node.written, List.length_cons, Token.length_enclose] at hlength
      refine reads_expression_of_signed ?_ fun _ h => h.stops
      refine reads_cons (q := fun place => sub .expression >>= fun read =>
        pure (.prev (place.through read.span) read)) (fun _ _ => rfl) fun _ => ?_
      have hread := hsub.enclosed (show inner.Normal .expression from hnormal) (by omega)
      refine Reads.closed (reads_last hread fun read hsame => ?_)
      simp only [Node.Alike, Node.bare, hsame]
  | assign => cases hnormal.1
  | block => cases hnormal.1
  | declaration => exact hnormal.elim
  | result => cases hnormal.1
  | stopLoop => cases hnormal
  | nextTurn => cases hnormal
  | whileLoop => cases hnormal.1

end Parser

end CapsuleScript
