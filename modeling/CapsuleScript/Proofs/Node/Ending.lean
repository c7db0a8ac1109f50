import CapsuleScript.Proofs.Node.Progress

/-! Reading comes to an end. Each phrase calls for the phrases inside it only after it has taken a
token, so the equations of the grammar have exactly one solution, and reading to a depth of as many
phrases as there are tokens is that solution. Main statement: the grammar has one reader; no depth
and no bound on a loop matters from the number of tokens on; every rule takes a token when it
succeeds and never the end of a text; and a text that has an end is refused only at one of its
tokens. -/

namespace CapsuleScript

open Token

namespace Parser

variable {n : Nat} {tokens : List Located} {sub sub' : Phrase → Parser Node}

/-! ### The rules of the grammar -/

/-- The readers of the phrases concur on every list of fewer tokens. -/
def Inside (n : Nat) (sub sub' : Phrase → Parser Node) : Prop :=
  ∀ p more, more.length < n → Concur 1 (sub p) (sub' p) more

section Rules

variable (hsub : Inside n sub sub')

include hsub

theorem concur_block (mayDeclare : Bool) (hn : tokens.length ≤ n) :
    Concur 1 (block sub mayDeclare) (block sub' mayDeclare) tokens := by
  refine concur_bind (concur_expect .openBrace rfl) ?_
  intro opened more hmore
  refine concur_bind concur_skipNewlines ?_
  intro _ inside hinside
  refine concur_seq (hsub (.statement true) inside (by omega)) ?_
  intro first rest hrest
  refine concur_get (concur_bind (concur_moreStatements (n := rest.length) ?_ (Nat.le_refl _)
    (Nat.le_refl _) (Nat.le_refl _)) ?_)
  · exact fun more hmore => hsub (.statement true) more (by omega)
  · intro others last _
    refine concur_seq (concur_expect .closeBrace rfl) ?_
    intro closed after _
    exact concur_pure _

omit hsub in
theorem concur_functionName (named : Bool) :
    Concur 0 (functionName named) (functionName named) tokens := by
  apply concur_peek
  rintro ⟨token, span⟩ more -
  cases token with
  | name word =>
      cases named with
      | true => exact (concur_advance (by simp) (concur_pure _)).weaken
      | false => exact concur_unexpected .namelessFunction (t := ⟨_, span⟩) List.mem_cons_self
  | _ => exact concur_pure none

omit hsub in
theorem concur_parameters : Concur 0 parameters parameters tokens := by
  refine concur_accept rfl ?_ (concur_pure [])
  intro more _
  refine (concur_items (n := more.length) ?_ (Nat.le_refl _)).weaken
  intro more _
  exact concur_bind concur_name fun word rest _ => concur_pure _

theorem concur_functionBody (hasParams : Bool) (hn : tokens.length < n) :
    Concur 0 (functionBody sub hasParams) (functionBody sub' hasParams) tokens := by
  apply concur_peek
  rintro ⟨token, span⟩ more hmore
  by_cases harrow : token.isMark .arrow || token.isMark .fatArrow
  · simp only [harrow, if_true]
    have hne : token ≠ .finish :=
      ne_finish (fun t => t.isMark .arrow || t.isMark .fatArrow) rfl harrow
    refine (concur_advance hne (concur_seq (hsub .expression more (by omega)) ?_)).weaken
    intro value rest _
    exact concur_pure _
  · by_cases hbrace : token.isMark .openBrace
    · simp only [harrow, hbrace, if_true]
      refine concur_seq (concur_block hsub true ?_) ?_
      · rw [List.length_cons]
        omega
      · intro body rest _
        exact concur_pure _
    · by_cases hstatement : hasParams && !token.closes
      · simp only [harrow, hbrace, hstatement, if_true]
        refine concur_seq (hsub (.statement true) _ ?_) ?_
        · rw [List.length_cons]
          omega
        · intro body rest _
          exact concur_pure _
      · simp only [harrow, hbrace, hstatement]
        exact concur_pure _

theorem concur_functionLiteral (start : Span) (named : Bool) (hn : tokens.length < n) :
    Concur 0 (functionLiteral sub start named) (functionLiteral sub' start named) tokens := by
  refine concur_bind (concur_functionName named) ?_
  intro word more hmore
  refine concur_bind concur_parameters ?_
  intro params rest hrest
  refine concur_bind (concur_functionBody hsub (!params.isEmpty) (by omega)) ?_
  intro body last _
  exact concur_pure _

theorem concur_encapParent (hn : tokens.length < n) :
    Concur 1 (encapParent sub) (encapParent sub') tokens := by
  apply concur_peek
  rintro ⟨token, span⟩ more hmore
  cases token with
  | name word => exact hsub .expression _ (by rw [List.length_cons]; omega)
  | _ => exact concur_unexpected .name (t := ⟨_, span⟩) List.mem_cons_self

theorem concur_encapLiteral (start : Span) (strict : Bool) (hn : tokens.length ≤ n) :
    Concur 1 (encapLiteral sub start strict) (encapLiteral sub' start strict) tokens := by
  refine concur_bind (concur_block hsub true hn) ?_
  intro body more hmore
  refine concur_accept rfl ?_ (concur_pure _)
  intro named hnamed
  refine concur_seq concur_name ?_
  intro word rest hrest
  refine concur_accept rfl ?_ (concur_pure _)
  intro inside hinside
  refine concur_seq (concur_encapParent hsub (by omega)) ?_
  intro parent last _
  exact concur_pure _

theorem concur_operand (hn : tokens.length ≤ n) :
    Concur 1 (operand sub) (operand sub') tokens := by
  apply concur_peek
  rintro ⟨token, span⟩ more hmore
  have hunexpected : Concur 1 (throw (.unexpected .operand span) : Parser Node)
      (throw (.unexpected .operand span)) (⟨token, span⟩ :: more) :=
    concur_unexpected .operand (t := ⟨_, span⟩) List.mem_cons_self
  cases token with
  | number value => exact concur_advance (by simp) (concur_pure _)
  | text value => exact concur_advance (by simp) (concur_pure _)
  | name word => exact concur_advance (by simp) (concur_pure _)
  | newline => exact hunexpected
  | finish => exact hunexpected
  | mark sign =>
      cases sign with
      | openParen =>
          refine concur_advance (by simp) (concur_seq (hsub .expression more (by omega)) ?_)
          intro inner rest _
          refine concur_seq (concur_expect .closeParen rfl) ?_
          intro _ last _
          exact concur_pure inner
      | openBracket =>
          refine concur_advance (by simp) (concur_peek ?_)
          intro next rest hrest
          by_cases hclose : next.token.isMark .closeBracket
          · simp only [hclose, if_true]
            exact (concur_advance (ne_finish (isMark .closeBracket) rfl hclose) (concur_pure _)).weaken
          · simp only [hclose]
            refine concur_get (concur_seq (concur_elements (n := (next :: rest).length) ?_
              (Nat.le_refl _) (Nat.le_refl _) (Nat.le_refl _)) ?_)
            · intro inside hinside
              rw [List.length_cons] at hinside
              exact hsub .expression inside (by omega)
            · intro parts last _
              exact concur_pure _
      | _ => exact hunexpected
  | keyword word =>
      cases word with
      | funWord => exact concur_advance (by simp) (concur_functionLiteral hsub span false (by omega))
      | prevWord =>
          refine concur_advance (by simp) (concur_seq (hsub .expression more (by omega)) ?_)
          intro inner rest _
          exact concur_pure _
      | encapWord =>
          exact concur_advance (by simp) (concur_encapLiteral hsub span false (by omega)).weaken
      | sencapWord =>
          exact concur_advance (by simp) (concur_encapLiteral hsub span true (by omega)).weaken
      | _ => exact hunexpected

theorem concur_signed (hn : tokens.length ≤ n) : Concur 1 (signed sub) (signed sub') tokens := by
  apply concur_peek
  rintro ⟨token, span⟩ more hmore
  cases hop : token.unaryOp? with
  | none => exact concur_operand hsub (by rw [List.length_cons]; omega)
  | some op =>
      have hne : token ≠ .finish := by
        rintro rfl
        cases hop
      refine concur_advance hne (concur_seq (hsub .signed more (by omega)) ?_)
      intro inner rest _
      exact concur_pure _

theorem concur_comprehension (body : Node) (hn : tokens.length < n) :
    Concur 1 (comprehension sub body) (comprehension sub' body) tokens := by
  refine concur_bind concur_name ?_
  intro word more hmore
  refine concur_seq (concur_expect .inWord rfl) ?_
  intro _ inside hinside
  refine concur_seq (hsub .expression inside (by omega)) ?_
  intro source rest hrest
  refine concur_accept rfl ?_ (concur_pure _)
  intro behind hbehind
  refine concur_seq (concur_expect .ifWord rfl) ?_
  intro _ last hlast
  refine concur_seq (hsub .expression last (by omega)) ?_
  intro filter after _
  exact concur_pure _

theorem concur_expression (hn : tokens.length ≤ n) :
    Concur 1 (expression sub) (expression sub') tokens := by
  refine concur_bind (concur_chain (n := n) (fun more hmore => concur_signed hsub hmore) 5 hn) ?_
  intro left rest hrest
  apply concur_peek
  rintro ⟨token, span⟩ more hmore
  have hplain : Concur 0 (pure left) (pure left) (⟨token, span⟩ :: more) := concur_pure left
  cases token with
  | mark sign =>
      cases sign with
      | colon =>
          refine (concur_advance (by simp) (concur_seq (concur_items (n := more.length) ?_
            (Nat.le_refl _)) ?_)).weaken
          · exact fun inside hinside => hsub .expression inside (by omega)
          · intro arguments last _
            exact concur_pure _
      | bang => exact (concur_advance (by simp) (concur_pure _)).weaken
      | _ => exact hplain
  | keyword word =>
      cases word with
      | ifWord =>
          refine (concur_advance (by simp)
            (concur_seq (hsub .expression more (by omega)) ?_)).weaken
          intro condition inside hinside
          refine concur_seq (concur_expect .elseWord rfl) ?_
          intro _ behind hbehind
          refine concur_seq (hsub .expression behind (by omega)) ?_
          intro otherwise last _
          exact concur_pure _
      | forWord =>
          exact (concur_advance (by simp) (concur_comprehension hsub left (by omega)).weaken).weaken
      | _ => exact hplain
  | _ => exact hplain

theorem concur_ifStatement (start : Span) (hn : tokens.length < n) :
    Concur 1 (ifStatement sub start) (ifStatement sub' start) tokens := by
  refine concur_bind (hsub .expression tokens hn) ?_
  intro condition more hmore
  refine concur_seq (hsub (.statement false) more (by omega)) ?_
  intro branch rest hrest
  let alone := Node.conditional (start.through branch.span) false condition branch none
  have hnone : Concur 0 (pure alone) (pure alone) rest := concur_pure alone
  have hdropped := takes_dropWhile_newlines rest
  refine concur_get ?_
  cases hdrop : rest.dropWhile (fun t => t.token.isNewline) with
  | nil => exact hnone
  | cons l after =>
      obtain ⟨token, span⟩ := l
      cases token with
      | keyword word =>
          cases word with
          | elseWord =>
              rw [hdrop] at hdropped
              have htakes : Takes 0 rest after :=
                hdropped.trans (takes_cons (by simp) (takes_refl after)).weaken
              have hafter := htakes.length_le
              refine concur_set htakes
                (concur_seq (hsub (.statement false) after (by omega)) ?_)
              intro otherwise last _
              exact concur_pure _
          | _ => exact hnone
      | _ => exact hnone

theorem concur_whileStatement (start : Span) (hn : tokens.length < n) :
    Concur 1 (whileStatement sub start) (whileStatement sub' start) tokens := by
  refine concur_bind (hsub .expression tokens hn) ?_
  intro condition more hmore
  refine concur_seq (hsub (.statement false) more (by omega)) ?_
  intro body rest _
  exact concur_pure _

theorem concur_forStatement (start : Span) (hn : tokens.length < n) :
    Concur 1 (forStatement sub start) (forStatement sub' start) tokens := by
  refine concur_bind concur_name ?_
  intro word more hmore
  refine concur_seq (concur_expect .inWord rfl) ?_
  intro _ inside hinside
  refine concur_seq (hsub .expression inside (by omega)) ?_
  intro source rest hrest
  refine concur_seq (hsub (.statement false) rest (by omega)) ?_
  intro body last _
  exact concur_pure _

theorem concur_defineStatement (start : Span) (hn : tokens.length < n) :
    Concur 1 (defineStatement sub start) (defineStatement sub' start) tokens := by
  refine concur_bind concur_name ?_
  intro word more hmore
  refine concur_seq (concur_expect .equals rfl) ?_
  intro _ inside hinside
  refine concur_seq (hsub .expression inside (by omega)) ?_
  intro body rest _
  exact concur_pure _

theorem concur_returnStatement (start : Span) (hn : tokens.length < n) :
    Concur 0 (returnStatement sub start) (returnStatement sub' start) tokens := by
  apply concur_peek
  intro l more hmore
  by_cases hcloses : l.token.closes
  · simp only [hcloses, if_true]
    exact concur_pure _
  · simp only [hcloses]
    refine concur_seq (hsub .expression _ (by rw [List.length_cons]; omega)) ?_
    intro value rest _
    exact concur_pure _

theorem concur_statement (mayDeclare : Bool) (hn : tokens.length ≤ n) :
    Concur 1 (statement sub mayDeclare) (statement sub' mayDeclare) tokens := by
  have hexpression := concur_expression hsub hn
  refine concur_get ?_
  cases tokens with
  | nil => exact hexpression
  | cons l more =>
      obtain ⟨token, span⟩ := l
      have hlt : more.length < n := hn
      cases token with
      | name word =>
          cases more with
          | nil => exact hexpression
          | cons l' rest =>
              obtain ⟨token, span'⟩ := l'
              cases token with
              | mark sign =>
                  cases sign with
                  | equals =>
                      have htakes : Takes 1 (⟨.name word, span⟩ :: ⟨.mark .equals, span'⟩ :: rest)
                          rest :=
                        takes_cons (by simp) (takes_cons (by simp) (takes_refl rest)).weaken
                      rw [List.length_cons] at hlt
                      refine concur_set htakes
                        (concur_seq (hsub .expression rest (by omega)) ?_)
                      intro value last _
                      exact concur_pure _
                  | _ => exact hexpression
              | _ => exact hexpression
      | keyword word =>
          have htakes : Takes 1 (⟨.keyword word, span⟩ :: more) more :=
            takes_cons (by simp) (takes_refl more)
          cases word with
          | ifWord => exact concur_set htakes (concur_ifStatement hsub span hlt).weaken
          | whileWord => exact concur_set htakes (concur_whileStatement hsub span hlt).weaken
          | forWord => exact concur_set htakes (concur_forStatement hsub span hlt).weaken
          | defineWord => exact concur_set htakes (concur_defineStatement hsub span hlt).weaken
          | returnWord => exact concur_set htakes (concur_returnStatement hsub span hlt)
          | breakWord => exact concur_set htakes (concur_pure _)
          | continueWord => exact concur_set htakes (concur_pure _)
          | funWord =>
              cases more with
              | nil => exact hexpression
              | cons l' rest =>
                  obtain ⟨token, span'⟩ := l'
                  cases token with
                  | name word =>
                      exact concur_set htakes (concur_functionLiteral hsub span true hlt)
                  | _ => exact hexpression
          | _ => exact hexpression
      | mark sign =>
          cases sign with
          | openBrace => exact concur_block hsub mayDeclare hn
          | _ => exact hexpression
      | _ => exact hexpression

theorem concur_declaration (hn : tokens.length ≤ n) :
    Concur 1 (declaration sub) (declaration sub') tokens := by
  refine concur_bind concur_name ?_
  intro word more hmore
  refine concur_seq (concur_expect .equals rfl) ?_
  intro _ inside hinside
  refine concur_seq (hsub (.statement true) inside (by omega)) ?_
  intro value rest _
  exact concur_pure _

omit hsub in
theorem declarations_nil (bound : Nat) : declarations sub bound [] = .error .endOfTokens := by
  cases bound <;> rfl

/-- The declarations of a program, under any bounds. -/
theorem concur_declarations {bound bound' : Nat} (hn : tokens.length ≤ n)
    (hbound : tokens.length ≤ bound) (hbound' : tokens.length ≤ bound') :
    Concur 0 (declarations sub bound) (declarations sub' bound') tokens := by
  refine concur_loop (fun _ : Unit => declarations sub) (fun _ => declarations sub') ?_ ?_ () hn
    hbound hbound'
  · exact fun _ bound bound' =>
      concur_of_endOfTokens (declarations_nil bound) (declarations_nil bound')
  · intro _ bound bound' tokens hn hmore
    refine concur_bind concur_skipNewlines ?_
    intro _ inside hinside
    apply concur_peek
    intro l rest hrest
    have hlength : (l :: rest).length ≤ n := by
      rw [List.length_cons]
      omega
    by_cases hfinish : l.token.isFinish
    · simp only [hfinish, if_true]
      exact concur_pure _
    · simp only [hfinish]
      refine concur_seq (concur_declaration hsub hlength) ?_
      intro first after hafter
      rw [List.length_cons] at hafter
      refine concur_bind (hmore () after (by omega)) ?_
      intro others last _
      exact concur_pure _

end Rules

/-- The rules of the grammar. -/
inductive Rule where
  | declaration
  | statement (mayDeclare : Bool)
  | block (mayDeclare : Bool)
  | expression
  /-- Operands joined by operators up to a looseness. -/
  | level (looseness : Nat)
  | signed
  | operand

/-- The reader of a rule. -/
def Rule.parser (sub : Phrase → Parser Node) : Rule → Parser Node
  | .declaration => Parser.declaration sub
  | .statement mayDeclare => Parser.statement sub mayDeclare
  | .block mayDeclare => Parser.block sub mayDeclare
  | .expression => Parser.expression sub
  | .level looseness => chain (Parser.signed sub) looseness
  | .signed => Parser.signed sub
  | .operand => Parser.operand sub

theorem concur_rule (hsub : Inside n sub sub') (rule : Rule) (hn : tokens.length ≤ n) :
    Concur 1 (rule.parser sub) (rule.parser sub') tokens := by
  cases rule with
  | declaration => exact concur_declaration hsub hn
  | statement mayDeclare => exact concur_statement hsub mayDeclare hn
  | block mayDeclare => exact concur_block hsub mayDeclare hn
  | expression => exact concur_expression hsub hn
  | level looseness => exact concur_chain (fun more hmore => concur_signed hsub hmore) looseness hn
  | signed => exact concur_signed hsub hn
  | operand => exact concur_operand hsub hn

/-! ### The reader of the grammar -/

/-- The rule of a phrase. -/
def Rule.ofPhrase : Phrase → Rule
  | .expression => .expression
  | .statement mayDeclare => .statement mayDeclare
  | .signed => .signed

/-- The readers solve the equations of the grammar: a phrase is read by its rule, with the readers
themselves for the phrases inside it. -/
def Solves (sub : Phrase → Parser Node) : Prop :=
  ∀ p, sub p = (Rule.ofPhrase p).parser sub

theorem phrase_succ (depth : Nat) (p : Phrase) :
    phrase (depth + 1) p = (Rule.ofPhrase p).parser (phrase depth) := by
  cases p <;> rfl

theorem phrase_nil (depth : Nat) (p : Phrase) : phrase depth p [] = .error .endOfTokens := by
  cases depth with
  | zero => rfl
  | succ depth =>
      have hsub : Inside 0 (phrase depth) (phrase depth) := fun _ _ h => absurd h (Nat.not_lt_zero _)
      rw [phrase_succ]
      have hempty : ([] : List Located).length ≤ 0 := Nat.le_refl 0
      exact (concur_rule hsub _ hempty).eq_of_nil.1

/-- Two depths that are not below the number of tokens. -/
theorem inside_phrase {depth depth' : Nat} (hdepth : n ≤ depth) (hdepth' : n ≤ depth') :
    Inside (n + 1) (phrase depth) (phrase depth') := by
  induction n generalizing depth depth' with
  | zero =>
      intro p more hmore
      rw [List.length_eq_zero_iff.mp (Nat.lt_one_iff.mp hmore)]
      exact concur_of_endOfTokens (phrase_nil depth p) (phrase_nil depth' p)
  | succ n ih =>
      obtain ⟨depth, rfl⟩ := Nat.exists_eq_add_of_le' (Nat.le_trans (Nat.succ_pos n) hdepth)
      obtain ⟨depth', rfl⟩ := Nat.exists_eq_add_of_le' (Nat.le_trans (Nat.succ_pos n) hdepth')
      intro p more hmore
      rw [phrase_succ, phrase_succ]
      exact concur_rule (ih (by omega) (by omega)) _ (by omega)

/-- Reads a phrase, to whatever depth. -/
def reader (p : Phrase) : Parser Node := fun tokens => phrase tokens.length p tokens

theorem phrase_eq_reader {depth : Nat} (hdepth : tokens.length ≤ depth) (p : Phrase) :
    phrase depth p tokens = reader p tokens :=
  (inside_phrase (Nat.le_refl _) hdepth p tokens (Nat.lt_succ_self _)).1

theorem inside_phrase_reader {depth : Nat} (hdepth : n ≤ depth) :
    Inside (n + 1) (phrase depth) reader := by
  intro p more hmore
  obtain ⟨-, horderly⟩ := inside_phrase hdepth hdepth p more hmore
  exact ⟨(phrase_eq_reader (by omega) p).symm, horderly⟩

theorem solves_reader : Solves reader := by
  intro p
  funext tokens
  have hinside : Inside (tokens.length + 1) (phrase tokens.length) reader :=
    inside_phrase_reader (Nat.le_refl _)
  calc reader p tokens
      _ = phrase (tokens.length + 1) p tokens := (phrase_eq_reader (Nat.le_succ _) p).symm
      _ = (Rule.ofPhrase p).parser (phrase tokens.length) tokens := by rw [phrase_succ]
      _ = (Rule.ofPhrase p).parser reader tokens :=
        (concur_rule hinside _ (Nat.le_succ _)).1.symm

/-- Two solutions concur on more and more tokens. -/
theorem Solves.inside (hsub : Solves sub) (hsub' : Solves sub') (n : Nat) : Inside n sub sub' := by
  induction n with
  | zero => exact fun _ _ h => absurd h (Nat.not_lt_zero _)
  | succ n ih =>
      intro p more hmore
      rw [hsub p, hsub' p]
      exact concur_rule ih _ (Nat.le_of_lt_succ hmore)

theorem Solves.unique (hsub : Solves sub) (hsub' : Solves sub') : sub = sub' := by
  funext p tokens
  exact (hsub.inside hsub' (tokens.length + 1) p tokens (Nat.lt_succ_self _)).1.symm

theorem concur_rule_reader (rule : Rule) (tokens : List Located) :
    Concur 1 (rule.parser reader) (rule.parser reader) tokens :=
  concur_rule (solves_reader.inside solves_reader _) rule (Nat.le_refl _)

/-- Bounds on a loop do not matter from the number of tokens on. -/
def Unbounded {α : Type} (loop : Nat → Parser α) : Prop :=
  ∀ bound tokens, tokens.length ≤ bound → loop bound tokens = loop tokens.length tokens

/-- The loops over items that take a token each. -/
theorem unbounded_loops {item : Parser Node} (hitem : ∀ tokens, Concur 1 item item tokens) :
    Unbounded (moreItems item) ∧ Unbounded (elements item) ∧
      (∀ looseness left, Unbounded (moreOperands item looseness left)) ∧
      Unbounded (moreStatements item) := by
  have hmore : ∀ {n : Nat} (more : List Located), more.length ≤ n → Concur 1 item item more :=
    fun more _ => hitem more
  refine ⟨?_, ?_, ?_, ?_⟩
  · intro bound tokens hbound
    exact (concur_moreItems hmore (Nat.le_refl _) (Nat.le_refl _) hbound).1
  · intro bound tokens hbound
    exact (concur_elements hmore (Nat.le_refl _) (Nat.le_refl _) hbound).1
  · intro looseness left bound tokens hbound
    exact (concur_moreOperands looseness left hmore (Nat.le_refl _) (Nat.le_refl _) hbound).1
  · intro bound tokens hbound
    exact (concur_moreStatements hmore (Nat.le_refl _) (Nat.le_refl _) hbound).1

theorem declarations_phrase {depth bound : Nat} (hdepth : tokens.length ≤ depth)
    (hbound : tokens.length ≤ bound) :
    declarations (phrase depth) bound tokens = declarations reader tokens.length tokens :=
  (concur_declarations (inside_phrase_reader hdepth) (Nat.le_succ _) hbound (Nat.le_refl _)).1.symm

theorem orderly_of_ofTokens {e : SourceError} (h : Node.ofTokens tokens = .error e) :
    Orderly 0 tokens (.error e : Except SourceError (Node × List Located)) := by
  have horderly := (concur_declarations (solves_reader.inside solves_reader _) (Nat.le_refl _)
    (Nat.le_refl tokens.length) (Nat.le_refl _)).2
  rw [← declarations_phrase (Nat.le_refl _) (Nat.le_refl _)] at horderly
  unfold Node.ofTokens at h
  split at h
  · cases hread : declarations (phrase tokens.length) tokens.length tokens with
    | error e' =>
        rw [hread] at horderly
        simp only [StateT.run, hread, bind, Except.bind] at h
        cases h
        cases e <;> exact horderly
    | ok result =>
        simp only [StateT.run, hread, bind, Except.bind] at h
        cases h
  · rename_i hempty
    cases h
    cases tokens with
    | nil => exact fun t ht => absurd ht List.not_mem_nil
    | cons l more =>
        exact (hempty _ _ rfl (List.getLast?_eq_some_getLast (List.cons_ne_nil l more))).elim

/-- Reading comes to an end and stays within the text. The equations of the grammar have exactly one
solution, which is what reading to a depth comes to, and no depth and no bound on a loop matters from
the number of tokens on. A rule that succeeds takes at least one token from the head, and never the
end of a text; it fails at one of the tokens, or none of them is the end of a text. So a program
whose tokens have an end is refused at one of them only. -/
theorem reading_ends :
    (Solves reader ∧ ∀ sub, Solves sub → sub = reader) ∧
    (∀ p depth tokens, tokens.length ≤ depth → phrase depth p tokens = reader p tokens) ∧
    (∀ rule : Rule, Unbounded (moreItems (rule.parser reader)) ∧
      Unbounded (elements (rule.parser reader)) ∧
      (∀ looseness left, Unbounded (moreOperands (rule.parser reader) looseness left)) ∧
      Unbounded (moreStatements (rule.parser reader))) ∧
    Unbounded (moreItems (Prod.fst <$> name)) ∧
    (∀ depth bound tokens, tokens.length ≤ depth → tokens.length ≤ bound →
      declarations (phrase depth) bound tokens = declarations reader tokens.length tokens) ∧
    (∀ (rule : Rule) tokens, Orderly 1 tokens (rule.parser reader tokens)) ∧
    ∀ tokens e, Node.ofTokens tokens = .error e → (∃ t ∈ tokens, t.token = .finish) →
      ∃ x, ∃ t ∈ tokens, e = .unexpected x t.span := by
  refine ⟨⟨solves_reader, fun sub hsub => hsub.unique solves_reader⟩,
    fun p depth tokens hdepth => phrase_eq_reader hdepth p,
    fun rule => unbounded_loops (concur_rule_reader rule), ?_,
    fun depth bound tokens hdepth hbound => declarations_phrase hdepth hbound,
    fun rule tokens => (concur_rule_reader rule tokens).2, ?_⟩
  · intro bound tokens hbound
    have hname : ∀ more, more.length ≤ tokens.length →
        Concur 1 (Prod.fst <$> name) (Prod.fst <$> name) more := by
      intro more _
      exact concur_bind concur_name fun word rest _ => concur_pure _
    exact (concur_moreItems hname (Nat.le_refl _) (Nat.le_refl _) hbound).1
  · intro tokens e herror ⟨t, ht, hfinish⟩
    have horderly := orderly_of_ofTokens herror
    cases e with
    | illegalText text span => exact horderly.elim
    | unexpected x span =>
        obtain ⟨u, hu, rfl⟩ := horderly
        exact ⟨x, u, hu, rfl⟩
    | endOfTokens => exact absurd hfinish (horderly t ht)

/-- A bracket that is not closed is missed at the end of the text. -/
example (s last : Span) :
    Node.ofTokens [⟨.name "a", s⟩, ⟨.mark .equals, s⟩, ⟨.mark .openParen, s⟩, ⟨.name "b", s⟩,
      ⟨.finish, last⟩] = .error (.unexpected .closeParen last) := rfl

end Parser

end CapsuleScript
