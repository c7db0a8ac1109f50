import CapsuleScript.Node.Parser.Program
import CapsuleScript.Proofs.Node.Shape

/-! What is read has every property that the ways of reading a node hand on from its parts. So every
tree that is read has the shape of the grammar: what is read as an expression is an expression, what
is read as a statement a statement, and a program is a row of statements. Nothing that is read has
declarations put in. -/

namespace CapsuleScript

namespace Parser

variable {α β : Type}

/-- Whatever the parser reads passes the test. -/
def Gives (p : Parser α) (P : α → Prop) : Prop := ∀ tokens a rest, p tokens = .ok (a, rest) → P a

theorem Gives.imp {p : Parser α} {P Q : α → Prop} (hp : p.Gives Q) (himp : ∀ a, Q a → P a) :
    p.Gives P :=
  fun tokens a rest h => himp a (hp tokens a rest h)

theorem gives_pure {P : α → Prop} {a : α} (ha : P a) : Gives (pure a) P := by
  intro tokens b rest h
  cases h
  exact ha

theorem gives_throw {P : α → Prop} (e : SourceError) : Gives (throw e) P := by
  intro tokens a rest h
  cases h

theorem gives_bind {P : β → Prop} {Q : α → Prop} {p : Parser α} {next : α → Parser β}
    (hp : p.Gives Q) (hnext : ∀ a, Q a → (next a).Gives P) : (p >>= next).Gives P := by
  intro tokens b rest h
  cases hread : p tokens with
  | error e =>
      have hfail : (p >>= next) tokens = .error e := by
        simp only [bind, StateT.bind, hread, Except.bind]
      rw [hfail] at h
      cases h
  | ok result =>
      obtain ⟨a, tokens'⟩ := result
      have hgo : (p >>= next) tokens = next a tokens' := by
        simp only [bind, StateT.bind, hread, Except.bind]
      rw [hgo] at h
      exact hnext a (hp tokens a tokens' hread) tokens' b rest h

/-- What the first part reads does not matter. -/
theorem gives_after {P : β → Prop} {p : Parser α} {next : α → Parser β}
    (hnext : ∀ a, (next a).Gives P) : (p >>= next).Gives P :=
  gives_bind (Q := fun _ => True) (fun _ _ _ _ => trivial) fun a _ => hnext a

theorem gives_ite {P : α → Prop} {c : Prop} [Decidable c] {p q : Parser α} (hp : p.Gives P)
    (hq : q.Gives P) : (if c then p else q).Gives P := by
  split
  · exact hp
  · exact hq

end Parser

/-- A property of expressions (`P false`) and of statements (`P true`) that a node has, however it is
read, if its parts have it. -/
structure Node.Grammar (P : Bool → Node → Prop) : Prop where
  of_false : ∀ {n}, P false n → P true n
  number : ∀ {span x}, P false (.number span x)
  text : ∀ {span s}, P false (.text span s)
  ident : ∀ {span name}, P false (.ident span name)
  list : ∀ {span elements}, (∀ n ∈ elements, P false n) → P false (.list span elements)
  binary : ∀ {span op left right}, P false left → P false right →
    P false (.binary span op left right)
  unary : ∀ {span op operand}, P false operand → P false (.unary span op operand)
  choice : ∀ {span condition thenBranch otherwise}, P false condition → P false thenBranch →
    P false otherwise → P false (.conditional span true condition thenBranch (some otherwise))
  call : ∀ {span callee arguments}, P false callee → (∀ n ∈ arguments, P false n) →
    P false (.call span callee arguments)
  comprehension : ∀ {span name source body filter}, P false source → P false body →
    (∀ n ∈ filter, P false n) → P false (.forLoop span name true source body filter)
  function : ∀ {span name params autoReturn body statement}, (name.isSome → statement = true) →
    P true body → P statement (.function span name params autoReturn body)
  encap : ∀ {span typeName strict bodySpan body parent}, P true (.block bodySpan true body) →
    (∀ n ∈ parent, P false n) → P false (.encap span typeName strict (.block bodySpan true body) parent)
  prev : ∀ {span expression}, P false expression → P false (.prev span expression)
  assign : ∀ {span name topLevel value}, P true value → P true (.assign span name topLevel value)
  block : ∀ {span mayDeclare body}, body ≠ [] → (∀ n ∈ body, P true n) →
    P true (.block span mayDeclare body)
  conditional : ∀ {span condition thenBranch elseBranch}, P false condition → P true thenBranch →
    (∀ n ∈ elseBranch, P true n) → P true (.conditional span false condition thenBranch elseBranch)
  whileLoop : ∀ {span condition body}, P false condition → P true body →
    P true (.whileLoop span condition body)
  forLoop : ∀ {span name source body}, P false source → P true body →
    P true (.forLoop span name false source body none)
  result : ∀ {span value}, (∀ n ∈ value, P false n) → P true (.result span value)
  stopLoop : ∀ {span}, P true (.stopLoop span)
  nextTurn : ∀ {span}, P true (.nextTurn span)

namespace Parser

variable {P : Bool → Node → Prop} {sub : Phrase → Parser Node}

theorem gives_moreItems {Q : Node → Prop} {item : Parser Node} (hitem : item.Gives Q)
    (bound : Nat) : (moreItems item bound).Gives fun nodes => ∀ n ∈ nodes, Q n := by
  induction bound with
  | zero => exact gives_pure (by simp)
  | succ bound ih =>
      refine gives_after fun _ => gives_ite ?_ (gives_pure (by simp))
      exact gives_bind hitem fun _ hfirst => gives_bind ih fun _ hrest =>
        gives_pure (List.forall_mem_cons.mpr ⟨hfirst, hrest⟩)

theorem gives_items {Q : Node → Prop} {item : Parser Node} (hitem : item.Gives Q) :
    (items item).Gives fun nodes => ∀ n ∈ nodes, Q n :=
  gives_bind hitem fun _ hfirst => gives_after fun _ =>
    gives_bind (gives_moreItems hitem _) fun _ hrest =>
      gives_pure (List.forall_mem_cons.mpr ⟨hfirst, hrest⟩)

theorem gives_elements {Q : Node → Prop} {item : Parser Node} (hitem : item.Gives Q)
    (bound : Nat) : (elements item bound).Gives fun read => ∀ n ∈ read.1, Q n := by
  induction bound with
  | zero => exact gives_throw _
  | succ bound ih =>
      refine gives_bind hitem fun _ hfirst => gives_after fun _ => gives_ite ?_ (gives_ite ?_ ?_)
      · exact gives_after fun _ => gives_bind ih fun _ hrest =>
          gives_pure (List.forall_mem_cons.mpr ⟨hfirst, hrest⟩)
      · exact gives_after fun _ => gives_pure (by simpa using hfirst)
      · exact gives_throw _

theorem gives_moreStatements {Q : Node → Prop} {statement : Parser Node}
    (hstatement : statement.Gives Q) (bound : Nat) :
    (moreStatements statement bound).Gives fun nodes => ∀ n ∈ nodes, Q n := by
  induction bound with
  | zero => exact gives_pure (by simp)
  | succ bound ih =>
      refine gives_after fun _ => gives_ite ?_ (gives_pure (by simp))
      refine gives_after fun _ => gives_after fun _ => gives_ite (gives_pure (by simp)) ?_
      exact gives_bind hstatement fun _ hfirst => gives_bind ih fun _ hrest =>
        gives_pure (List.forall_mem_cons.mpr ⟨hfirst, hrest⟩)

theorem gives_moreOperands (hP : Node.Grammar P) {operand : Parser Node}
    (hoperand : operand.Gives (P false)) (looseness bound : Nat) {left : Node}
    (hleft : P false left) : (moreOperands operand looseness left bound).Gives (P false) := by
  induction bound generalizing left with
  | zero => exact gives_pure hleft
  | succ bound ih =>
      refine gives_after fun tokens => ?_
      split
      · refine gives_ite ?_ (gives_pure hleft)
        exact gives_after fun _ => gives_bind hoperand fun _ hright => ih (hP.binary hleft hright)
      · exact gives_pure hleft

theorem gives_chain (hP : Node.Grammar P) {operand : Parser Node}
    (hoperand : operand.Gives (P false)) (looseness : Nat) :
    (chain operand looseness).Gives (P false) := by
  induction looseness with
  | zero => exact hoperand
  | succ looseness ih =>
      exact gives_bind ih fun _ hleft => gives_after fun _ => gives_moreOperands hP ih _ _ hleft

/-- What is read as a block is one, with a first statement. -/
theorem gives_block (hP : Node.Grammar P) (hsub : ∀ phrase, (sub phrase).Gives (P phrase.isStatement))
    (mayDeclare : Bool) : (block sub mayDeclare).Gives fun node =>
      ∃ span body, node = .block span mayDeclare body ∧ P true node :=
  gives_after fun _ => gives_after fun _ => gives_bind (hsub (.statement true)) fun _ hfirst =>
    gives_after fun _ => gives_bind (gives_moreStatements (hsub (.statement true)) _) fun _ hrest =>
      gives_after fun _ => gives_pure ⟨_, _, rfl,
        hP.block (List.cons_ne_nil _ _) (List.forall_mem_cons.mpr ⟨hfirst, hrest⟩)⟩

theorem gives_functionName (named : Bool) :
    (functionName named).Gives fun name => name.isSome → named = true := by
  refine gives_after fun t => ?_
  split
  · cases named with
    | true => exact gives_after fun _ => gives_pure fun _ => rfl
    | false => exact gives_throw _
  · exact gives_pure fun h => absurd h Bool.false_ne_true

theorem gives_functionBody (hP : Node.Grammar P)
    (hsub : ∀ phrase, (sub phrase).Gives (P phrase.isStatement)) (hasParams : Bool) :
    (functionBody sub hasParams).Gives fun read => P true read.1 := by
  refine gives_after fun t => gives_ite ?_ (gives_ite ?_ (gives_ite ?_ ?_))
  · exact gives_after fun _ => gives_bind (hsub .expression) fun _ hbody =>
      gives_pure (hP.of_false hbody)
  · exact gives_bind (gives_block hP hsub true) fun _ ⟨_, _, _, hbody⟩ => gives_pure hbody
  · exact gives_bind (hsub (.statement true)) fun _ hbody => gives_pure hbody
  · exact gives_pure (hP.of_false hP.ident)

theorem gives_functionLiteral (hP : Node.Grammar P)
    (hsub : ∀ phrase, (sub phrase).Gives (P phrase.isStatement)) (start : Span) (named : Bool) :
    (functionLiteral sub start named).Gives (P named) :=
  gives_bind (gives_functionName named) fun _ hname => gives_after fun _ =>
    gives_bind (gives_functionBody hP hsub _) fun _ hbody => gives_pure (hP.function hname hbody)

theorem gives_encapLiteral (hP : Node.Grammar P)
    (hsub : ∀ phrase, (sub phrase).Gives (P phrase.isStatement)) (start : Span) (strict : Bool) :
    (encapLiteral sub start strict).Gives (P false) := by
  refine gives_bind (gives_block hP hsub true) ?_
  rintro _ ⟨bodySpan, body, rfl, hbody⟩
  refine gives_after fun _ => gives_ite ?_ (gives_pure (hP.encap hbody (by simp)))
  refine gives_after fun _ => gives_after fun _ =>
    gives_ite ?_ (gives_pure (hP.encap hbody (by simp)))
  refine gives_bind (Q := P false) ?_ fun _ hparent =>
    gives_pure (hP.encap hbody (by simpa using hparent))
  refine gives_after fun t => ?_
  split
  · exact hsub .expression
  · exact gives_throw _

theorem gives_operand (hP : Node.Grammar P)
    (hsub : ∀ phrase, (sub phrase).Gives (P phrase.isStatement)) :
    (operand sub).Gives (P false) := by
  refine gives_after fun t => ?_
  split
  · exact gives_after fun _ => gives_pure hP.number
  · exact gives_after fun _ => gives_pure hP.text
  · exact gives_after fun _ => gives_pure hP.ident
  · exact gives_after fun _ => gives_bind (hsub .expression) fun _ hinner =>
      gives_after fun _ => gives_pure hinner
  · refine gives_after fun _ => gives_after fun _ => gives_ite ?_ ?_
    · exact gives_after fun _ => gives_pure (hP.list (by simp))
    · exact gives_after fun _ => gives_bind (gives_elements (hsub .expression) _) fun _ hparts =>
        gives_pure (hP.list hparts)
  · exact gives_after fun _ => gives_functionLiteral hP hsub _ false
  · exact gives_after fun _ => gives_bind (hsub .expression) fun _ hinner =>
      gives_pure (hP.prev hinner)
  · exact gives_after fun _ => gives_encapLiteral hP hsub _ false
  · exact gives_after fun _ => gives_encapLiteral hP hsub _ true
  · exact gives_throw _

theorem gives_signed (hP : Node.Grammar P)
    (hsub : ∀ phrase, (sub phrase).Gives (P phrase.isStatement)) : (signed sub).Gives (P false) := by
  refine gives_after fun t => ?_
  split
  · exact gives_after fun _ => gives_bind (hsub .signed) fun _ hinner => gives_pure (hP.unary hinner)
  · exact gives_operand hP hsub

theorem gives_comprehension (hP : Node.Grammar P)
    (hsub : ∀ phrase, (sub phrase).Gives (P phrase.isStatement)) {body : Node}
    (hbody : P false body) : (comprehension sub body).Gives (P false) := by
  refine gives_after fun _ => gives_after fun _ => gives_bind (hsub .expression) fun _ hsource =>
    gives_after fun _ => gives_ite ?_ (gives_pure (hP.comprehension hsource hbody (by simp)))
  exact gives_after fun _ => gives_bind (hsub .expression) fun _ hfilter =>
    gives_pure (hP.comprehension hsource hbody (by simpa [Phrase.isStatement] using hfilter))

theorem gives_expression (hP : Node.Grammar P)
    (hsub : ∀ phrase, (sub phrase).Gives (P phrase.isStatement)) :
    (expression sub).Gives (P false) := by
  refine gives_bind (gives_chain hP (gives_signed hP hsub) 5) fun left hleft =>
    gives_after fun t => ?_
  split
  · exact gives_after fun _ => gives_bind (hsub .expression) fun _ hcondition =>
      gives_after fun _ => gives_bind (hsub .expression) fun _ helse =>
        gives_pure (hP.choice hcondition hleft helse)
  · exact gives_after fun _ => gives_bind (gives_items (hsub .expression)) fun _ harguments =>
      gives_pure (hP.call hleft harguments)
  · exact gives_after fun _ => gives_pure (hP.call hleft (by simp))
  · exact gives_after fun _ => gives_comprehension hP hsub hleft
  · exact gives_pure hleft

theorem gives_ifStatement (hP : Node.Grammar P)
    (hsub : ∀ phrase, (sub phrase).Gives (P phrase.isStatement)) (start : Span) :
    (ifStatement sub start).Gives (P true) := by
  refine gives_bind (hsub .expression) fun _ hcondition =>
    gives_bind (hsub (.statement false)) fun _ hbranch => gives_after fun tokens => ?_
  split
  · exact gives_after fun _ => gives_bind (hsub (.statement false)) fun _ helse =>
      gives_pure (hP.conditional hcondition hbranch (by simpa [Phrase.isStatement] using helse))
  · exact gives_pure (hP.conditional hcondition hbranch (by simp))

theorem gives_statement (hP : Node.Grammar P)
    (hsub : ∀ phrase, (sub phrase).Gives (P phrase.isStatement)) (mayDeclare : Bool) :
    (statement sub mayDeclare).Gives (P true) := by
  refine gives_after fun tokens => ?_
  split
  · exact gives_after fun _ => gives_bind (hsub .expression) fun _ hvalue =>
      gives_pure (hP.assign (hP.of_false hvalue))
  · exact gives_after fun _ => gives_ifStatement hP hsub _
  · exact gives_after fun _ => gives_bind (hsub .expression) fun _ hcondition =>
      gives_bind (hsub (.statement false)) fun _ hbody => gives_pure (hP.whileLoop hcondition hbody)
  · exact gives_after fun _ => gives_after fun _ => gives_after fun _ =>
      gives_bind (hsub .expression) fun _ hsource => gives_bind (hsub (.statement false))
        fun _ hbody => gives_pure (hP.forLoop hsource hbody)
  · exact (gives_block hP hsub mayDeclare).imp fun _ ⟨_, _, _, hblock⟩ => hblock
  · exact gives_after fun _ => gives_after fun _ => gives_after fun _ =>
      gives_bind (hsub .expression) fun _ hbody =>
        gives_pure (hP.function (fun _ => rfl) (hP.of_false hbody))
  · exact gives_after fun _ => gives_functionLiteral hP hsub _ true
  · refine gives_after fun _ => gives_after fun t => gives_ite (gives_pure (hP.result (by simp))) ?_
    exact gives_bind (hsub .expression) fun _ hvalue =>
      gives_pure (hP.result (by simpa [Phrase.isStatement] using hvalue))
  · exact gives_after fun _ => gives_pure hP.stopLoop
  · exact gives_after fun _ => gives_pure hP.nextTurn
  · exact (gives_expression hP hsub).imp fun _ hexpression => hP.of_false hexpression

theorem gives_phrase_of_grammar (hP : Node.Grammar P) (depth : Nat) (p : Phrase) :
    (phrase depth p).Gives (P p.isStatement) := by
  induction depth generalizing p with
  | zero => exact gives_throw _
  | succ depth ih =>
      cases p with
      | expression => exact gives_expression hP ih
      | statement mayDeclare => exact gives_statement hP ih mayDeclare
      | signed => exact gives_signed hP ih

theorem gives_declarations (hP : Node.Grammar P) (depth bound : Nat) :
    (declarations (phrase depth) bound).Gives fun nodes => ∀ n ∈ nodes, P true n := by
  induction bound with
  | zero => exact gives_throw _
  | succ bound ih =>
      refine gives_after fun _ => gives_after fun _ => gives_ite (gives_pure (by simp)) ?_
      refine gives_bind (Q := P true) ?_ fun _ hfirst => gives_bind ih fun _ hrest =>
        gives_pure (List.forall_mem_cons.mpr ⟨hfirst, hrest⟩)
      exact gives_after fun _ => gives_after fun _ =>
        gives_bind (gives_phrase_of_grammar hP depth (.statement true)) fun _ hvalue =>
          gives_pure (hP.assign hvalue)

end Parser

/-- A program is a row of declarations. -/
theorem Node.Grammar.exists_declarations {P : Bool → Node → Prop} (hP : Node.Grammar P)
    {tokens : List Located} {program : Node} (h : Node.ofTokens tokens = .ok program) :
    ∃ span declarations, program = .block span true declarations ∧
      ∀ n ∈ declarations, P true n := by
  obtain ⟨_, _, declarations, rest, -, -, hread, rfl⟩ := Node.eq_block_of_ofTokens h
  exact ⟨_, declarations, rfl, Parser.gives_declarations hP _ _ tokens declarations rest hread⟩

/-- What is read has the shape of what it is read as. -/
theorem Node.grammar_parsed : Node.Grammar Node.Parsed where
  of_false h := h.of_false
  number := trivial
  text := trivial
  ident := trivial
  list h := Node.allParsed_iff.mpr h
  binary hl hr := ⟨hl, hr⟩
  unary h := h
  choice hc ht he := ⟨fun h => absurd h.symm Bool.false_ne_true, hc, ht, he⟩
  call hc ha := ⟨hc, Node.allParsed_iff.mpr ha⟩
  comprehension hs hb hf :=
    ⟨fun h => absurd h.symm Bool.false_ne_true, hs, hb, Node.optionParsed_iff.mpr hf⟩
  function hname hbody := ⟨hname, hbody⟩
  encap hbody hparent := ⟨rfl, hbody, Node.optionParsed_iff.mpr hparent⟩
  prev h := h
  assign h := ⟨rfl, h⟩
  block _ h := ⟨rfl, Node.allParsed_iff.mpr h⟩
  conditional hc ht he := ⟨fun _ => rfl, hc, ht, Node.optionParsed_iff.mpr he⟩
  whileLoop hc hb := ⟨rfl, hc, hb⟩
  forLoop hs hb := ⟨fun _ => rfl, hs, hb, trivial⟩
  result h := ⟨rfl, Node.optionParsed_iff.mpr h⟩
  stopLoop := rfl
  nextTurn := rfl

/-- What is read for a phrase has the shape of the phrase. -/
theorem Parser.gives_phrase (depth : Nat) (p : Phrase) :
    (phrase depth p).Gives (Node.Parsed p.isStatement) :=
  gives_phrase_of_grammar Node.grammar_parsed depth p

/-- A program is a block of statements as they are read. -/
theorem Node.exists_parsed_ofTokens {tokens : List Located} {program : Node}
    (h : Node.ofTokens tokens = .ok program) :
    ∃ span statements, program = .block span true statements ∧ program.Parsed true := by
  obtain ⟨span, statements, rfl, hparsed⟩ := Node.grammar_parsed.exists_declarations h
  exact ⟨span, statements, rfl, rfl, Node.allParsed_iff.mpr hparsed⟩

/-- A program is a block of statements. -/
theorem Node.shape_ofTokens {tokens : List Located} {program : Node}
    (h : Node.ofTokens tokens = .ok program) : program.IsBlock ∧ program.IsStatement := by
  obtain ⟨span, statements, rfl, hparsed⟩ := Node.exists_parsed_ofTokens h
  exact ⟨trivial, hparsed.fits⟩

end CapsuleScript
