import CapsuleScript.Proofs.Node.Following

/-! Programs that go on. A phrase that is read at the end of a text is read in the same way when the
text goes on with a new line: what closes a phrase is its end as well as a line break. Only the other
branch of a choice is looked for on a later line, and no program starts with it. Main statement: the
declarations of two texts with a line break between them are those of the first text and then those
of the second. -/

namespace CapsuleScript

open Token

namespace Parser

variable {β : Type} {rest tokens tokens' : List Located}

/-! ### Phrases -/

/-- The second reader of phrases reads a text that goes on as the first reads it at its end, where
no phrase starts. -/
structure Extends (rest : List Located) (sub sub' : Phrase → Parser Node) : Prop where
  follows : ∀ phrase {tokens tokens'}, Continues rest tokens tokens' →
    Follows rest (sub phrase) (sub' phrase) Node.Alike tokens tokens'
  stops : ∀ phrase span, ∃ e, sub phrase [⟨.finish, span⟩] = .error e

section Phrases

variable {sub sub' : Phrase → Parser Node}

theorem follows_skipNewlines {next next' : Parser β} {Q : β → β → Prop}
    (htokens : Continues rest tokens tokens')
    (hend : ∀ span, ∃ e, next [⟨.finish, span⟩] = .error e)
    (hnext : ∀ {tokens tokens'}, Continues rest tokens tokens' →
      Follows rest next next' Q tokens tokens') :
    Follows rest (skipNewlines >>= fun _ => next) (skipNewlines >>= fun _ => next') Q tokens
      tokens' := by
  rcases htokens.dropWhile with
    ⟨t, s, s', after, after', hfinish, hdrop, hdrop', hlt, hafter⟩ | ⟨s, hdrop, -⟩
  · exact follows_of_eq (congrArg next hdrop) (congrArg next' hdrop') hlt
      (hnext (.cons s s' hfinish hafter))
  · obtain ⟨e, he⟩ := hend s
    exact follows_of_error ((congrArg next hdrop).trans he)

theorem follows_block (hrest : Resumes rest) (hsub : Extends rest sub sub') (mayDeclare : Bool)
    (htokens : Continues rest tokens tokens') :
    Follows rest (block sub mayDeclare) (block sub' mayDeclare) Node.Alike tokens tokens' := by
  refine follows_bind (follows_expect hrest rfl htokens) ?_
  intro opened opened' left left' _ hleft _
  refine follows_skipNewlines hleft ?_ ?_
  · intro span
    obtain ⟨e, he⟩ := hsub.stops (.statement true) span
    exact ⟨e, bind_of_error he⟩
  intro tokens tokens' htokens
  refine follows_bind (hsub.follows _ htokens) ?_
  intro first first' more more' _ hmore hfirst
  refine follows_get ?_
  refine follows_moreStatements (hsub.follows _) (hsub.stops _) ?_ (fun _ _ => ⟨_, rfl⟩) hmore
    (Nat.le_refl _) (hmore.length_le hrest)
  intro nodes others last last' hlast hothers
  refine follows_bind (follows_expect hrest rfl hlast) ?_
  intro closed closed' after after' _ hafter _
  refine follows_pure hafter ?_
  simp only [Node.Alike, Node.bare, Node.bareAll, Node.Alike.bareAll_eq hothers, hfirst]

theorem follows_functionName (hrest : Resumes rest) (named : Bool)
    (htokens : Continues rest tokens tokens') :
    Follows rest (functionName named) (functionName named) (fun a a' => a' = a) tokens tokens' := by
  refine follows_peek hrest htokens ?_ ?_
  · intro token span span' hends
    rcases hends with rfl | rfl <;> exact follows_pure htokens rfl
  · intro token span span' more more' hne _ hmore
    cases token with
    | name word =>
        cases named with
        | true => exact follows_advance (follows_pure hmore rfl)
        | false => exact follows_of_error rfl
    | _ => exact follows_pure (.cons span span' hne hmore) rfl

theorem follows_parameters (hrest : Resumes rest) (htokens : Continues rest tokens tokens') :
    Follows rest parameters parameters (fun a a' => a' = a) tokens tokens' := by
  refine follows_accept hrest rfl rfl htokens ?_ (follows_pure htokens rfl)
  intro more more' _ hmore
  have hword : ∀ {tokens tokens'}, Continues rest tokens tokens' →
      Follows rest (Prod.fst <$> name) (Prod.fst <$> name) Eq tokens tokens' := by
    intro tokens tokens' htokens
    rw [map_eq_pure_bind]
    exact follows_bind (follows_name hrest htokens) fun _ hleft hsame => follows_pure hleft hsame.symm
  exact (follows_items hrest hword hmore).imp fun _ _ h => (List.forall₂_eq_eq_eq ▸ h : _ = _).symm

theorem follows_functionBody (hrest : Resumes rest) (hsub : Extends rest sub sub')
    (hasParams : Bool) (htokens : Continues rest tokens tokens') :
    Follows rest (functionBody sub hasParams) (functionBody sub' hasParams)
      (fun a a' => a.1.Alike a'.1 ∧ a'.2 = a.2) tokens tokens' := by
  refine follows_peek hrest htokens ?_ ?_
  · intro token span span' hends
    rcases hends with rfl | rfl <;> cases hasParams <;> exact follows_pure htokens ⟨rfl, rfl⟩
  · intro token span span' more more' hne _ hmore
    have hwhole := Continues.cons span span' hne hmore
    cases token.isMark .arrow || token.isMark .fatArrow with
    | true =>
        refine follows_advance (follows_bind (hsub.follows _ hmore) ?_)
        exact fun _ hlast hbody => follows_pure hlast ⟨hbody, rfl⟩
    | false =>
        cases token.isMark .openBrace with
        | true =>
            refine follows_bind (follows_block hrest hsub true hwhole) ?_
            exact fun _ hlast hbody => follows_pure hlast ⟨hbody, rfl⟩
        | false =>
            cases hasParams && !token.closes with
            | true =>
                refine follows_bind (hsub.follows _ hwhole) ?_
                exact fun _ hlast hbody => follows_pure hlast ⟨hbody, rfl⟩
            | false => exact follows_pure hwhole ⟨rfl, rfl⟩

theorem follows_functionLiteral (hrest : Resumes rest) (hsub : Extends rest sub sub')
    (start start' : Span) (named : Bool) (htokens : Continues rest tokens tokens') :
    Follows rest (functionLiteral sub start named) (functionLiteral sub' start' named) Node.Alike
      tokens tokens' := by
  refine follows_bind (follows_functionName hrest named htokens) ?_
  rintro name _ left left' - hleft rfl
  refine follows_bind (follows_parameters hrest hleft) ?_
  rintro params _ more more' - hmore rfl
  refine follows_bind (follows_functionBody hrest hsub _ hmore) ?_
  rintro ⟨body, autoReturn⟩ ⟨body', _⟩ last last' - hlast ⟨hbody, rfl⟩
  refine follows_pure hlast ?_
  simp only [Node.Alike, Node.bare]
  rw [hbody]

theorem follows_encapParent (hrest : Resumes rest) (hsub : Extends rest sub sub')
    (htokens : Continues rest tokens tokens') :
    Follows rest (encapParent sub) (encapParent sub') Node.Alike tokens tokens' := by
  refine follows_peek hrest htokens (fun _ => follows_of_error rfl) ?_
  intro token span span' more more' hne _ hmore
  cases token with
  | name word => exact hsub.follows _ (.cons span span' hne hmore)
  | _ => exact follows_of_error rfl

theorem follows_encapLiteral (hrest : Resumes rest) (hsub : Extends rest sub sub')
    (start start' : Span) (strict : Bool) (htokens : Continues rest tokens tokens') :
    Follows rest (encapLiteral sub start strict) (encapLiteral sub' start' strict) Node.Alike
      tokens tokens' := by
  refine follows_bind (follows_block hrest hsub true htokens) ?_
  intro body body' left left' _ hleft hbody
  refine follows_accept hrest rfl rfl hleft ?_ (follows_pure hleft ?_)
  · intro more more' _ hmore
    refine follows_bind (follows_name hrest hmore) ?_
    rintro ⟨typeName, typeSpan⟩ ⟨_, typeSpan'⟩ more more' - hmore rfl
    refine follows_accept hrest rfl rfl hmore ?_ (follows_pure hmore ?_)
    · intro more more' _ hmore
      refine follows_bind (follows_encapParent hrest hsub hmore) ?_
      intro parent parent' last last' _ hlast hparent
      refine follows_pure hlast ?_
      simp only [Node.Alike, Node.bare, Node.bareOption]
      rw [hbody, hparent]
    · simp only [Node.Alike, Node.bare, Node.bareOption]
      rw [hbody]
  · simp only [Node.Alike, Node.bare, Node.bareOption]
    rw [hbody]

theorem follows_list (hrest : Resumes rest) (hsub : Extends rest sub sub') (start start' : Span)
    (htokens : Continues rest tokens tokens') :
    Follows rest
      (get >>= fun ts => elements (sub .expression) ts.length >>= fun read =>
        pure (.list (start.through read.2) read.1))
      (get >>= fun ts => elements (sub' .expression) ts.length >>= fun read =>
        pure (.list (start'.through read.2) read.1)) Node.Alike tokens tokens' := by
  refine follows_get (follows_bind (follows_elements hrest (hsub.follows _) htokens (Nat.le_refl _)
    (htokens.length_le hrest)) ?_)
  rintro ⟨parts, close⟩ ⟨parts', close'⟩ last last' - hlast hparts
  refine follows_pure hlast ?_
  simp only [Node.Alike, Node.bare]
  rw [Node.Alike.bareAll_eq hparts]

theorem follows_operand (hrest : Resumes rest) (hsub : Extends rest sub sub')
    (htokens : Continues rest tokens tokens') :
    Follows rest (operand sub) (operand sub') Node.Alike tokens tokens' := by
  refine follows_peek hrest htokens (fun _ => follows_of_error rfl) ?_
  intro token span span' more more' hne _ hmore
  cases token with
  | number value => exact follows_advance (follows_pure hmore rfl)
  | text value => exact follows_advance (follows_pure hmore rfl)
  | name word => exact follows_advance (follows_pure hmore rfl)
  | mark sign =>
      cases sign with
      | openParen =>
          refine follows_advance (follows_bind (hsub.follows _ hmore) ?_)
          intro inner inner' left left' _ hleft hinner
          refine follows_bind (follows_expect hrest rfl hleft) ?_
          exact fun _ hlast _ => follows_pure hlast hinner
      | openBracket =>
          refine follows_advance (follows_peek hrest hmore ?_ ?_)
          · intro token _ _ hends
            rcases hends with rfl | rfl <;> exact follows_list hrest hsub span span' hmore
          · intro token _ _ more more' hne _ hmore
            cases token.isMark .closeBracket with
            | true => exact follows_advance (follows_pure hmore rfl)
            | false => exact follows_list hrest hsub span span' (.cons _ _ hne hmore)
      | _ => exact follows_of_error rfl
  | keyword word =>
      cases word with
      | funWord => exact follows_advance (follows_functionLiteral hrest hsub _ _ false hmore)
      | prevWord =>
          refine follows_advance (follows_bind (hsub.follows _ hmore) ?_)
          intro inner inner' left left' _ hleft hinner
          refine follows_pure hleft ?_
          simp only [Node.Alike, Node.bare]
          rw [hinner]
      | encapWord => exact follows_advance (follows_encapLiteral hrest hsub _ _ false hmore)
      | sencapWord => exact follows_advance (follows_encapLiteral hrest hsub _ _ true hmore)
      | _ => exact follows_of_error rfl
  | _ => exact follows_of_error rfl

theorem follows_signed (hrest : Resumes rest) (hsub : Extends rest sub sub')
    (htokens : Continues rest tokens tokens') :
    Follows rest (signed sub) (signed sub') Node.Alike tokens tokens' := by
  refine follows_peek hrest htokens ?_ ?_
  · intro token span span' hends
    rcases hends with rfl | rfl <;> exact follows_operand hrest hsub htokens
  · intro token span span' more more' hne _ hmore
    cases token.unaryOp? with
    | none => exact follows_operand hrest hsub (.cons span span' hne hmore)
    | some op =>
        refine follows_advance (follows_bind (hsub.follows _ hmore) ?_)
        intro inner inner' left left' _ hleft hinner
        refine follows_pure hleft ?_
        simp only [Node.Alike, Node.bare]
        rw [hinner]

theorem follows_comprehension (hrest : Resumes rest) (hsub : Extends rest sub sub')
    {body body' : Node} (hbody : body.Alike body') (htokens : Continues rest tokens tokens') :
    Follows rest (comprehension sub body) (comprehension sub' body') Node.Alike tokens tokens' := by
  refine follows_bind (follows_name hrest htokens) ?_
  rintro ⟨word, _⟩ ⟨_, _⟩ left left' - hleft rfl
  refine follows_bind (follows_expect hrest rfl hleft) ?_
  intro _ _ left left' _ hleft _
  refine follows_bind (hsub.follows _ hleft) ?_
  intro source source' more more' _ hmore hsource
  refine follows_accept hrest rfl rfl hmore ?_ (follows_pure hmore ?_)
  · intro more more' _ hmore
    refine follows_bind (follows_expect hrest rfl hmore) ?_
    intro _ _ more more' _ hmore _
    refine follows_bind (hsub.follows _ hmore) ?_
    intro filter filter' last last' _ hlast hfilter
    refine follows_pure hlast ?_
    simp only [Node.Alike, Node.bare, Node.bareOption]
    rw [hbody, hsource, hfilter]
  · simp only [Node.Alike, Node.bare, Node.bareOption]
    rw [hbody, hsource]

theorem follows_expression (hrest : Resumes rest) (hsub : Extends rest sub sub')
    (htokens : Continues rest tokens tokens') :
    Follows rest (expression sub) (expression sub') Node.Alike tokens tokens' := by
  refine follows_bind (follows_chain hrest (follows_signed hrest hsub) 5 htokens) ?_
  intro left left' more more' _ hmore hleft
  refine follows_peek hrest hmore ?_ ?_
  · intro token span span' hends
    rcases hends with rfl | rfl <;> exact follows_pure hmore hleft
  intro token span span' more more' hne _ hmore
  have hwhole := Continues.cons span span' hne hmore
  cases token with
  | keyword word =>
      cases word with
      | ifWord =>
          refine follows_advance (follows_bind (hsub.follows _ hmore) ?_)
          intro condition condition' more more' _ hmore hcondition
          refine follows_bind (follows_expect hrest rfl hmore) ?_
          intro _ _ more more' _ hmore _
          refine follows_bind (hsub.follows _ hmore) ?_
          intro other other' last last' _ hlast hother
          refine follows_pure hlast ?_
          simp only [Node.Alike, Node.bare, Node.bareOption]
          rw [hleft, hcondition, hother]
      | forWord => exact follows_advance (follows_comprehension hrest hsub hleft hmore)
      | _ => exact follows_pure hwhole hleft
  | mark sign =>
      cases sign with
      | colon =>
          refine follows_advance (follows_bind (follows_items hrest (hsub.follows _) hmore) ?_)
          intro arguments arguments' last last' _ hlast harguments
          refine follows_pure hlast ?_
          simp only [Node.Alike, Node.bare]
          rw [hleft, Node.Alike.bareAll_eq harguments]
      | bang =>
          refine follows_advance (follows_pure hmore ?_)
          simp only [Node.Alike, Node.bare]
          rw [hleft]
      | _ => exact follows_pure hwhole hleft
  | _ => exact follows_pure hwhole hleft

/-- The other branch of a choice is looked for behind the line breaks: the text goes on with none. -/
theorem follows_ifStatement (hrest : Resumes rest) (hsub : Extends rest sub sub')
    (start start' : Span) (htokens : Continues rest tokens tokens') :
    Follows rest (ifStatement sub start) (ifStatement sub' start') Node.Alike tokens tokens' := by
  refine follows_bind (hsub.follows _ htokens) ?_
  intro condition condition' more more' _ hmore hcondition
  refine follows_bind (hsub.follows _ hmore) ?_
  intro branch branch' left left' _ hleft hbranch
  have hnone : Follows rest (pure (.conditional (start.through branch.span) false condition branch none))
      (pure (.conditional (start'.through branch'.span) false condition' branch' none)) Node.Alike
      left left' := by
    refine follows_pure hleft ?_
    simp only [Node.Alike, Node.bare, Node.bareOption]
    rw [hcondition, hbranch]
  refine follows_get ?_
  rcases hleft.dropWhile with
    ⟨t, s, s', after, after', -, hdrop, hdrop', hlt, hafter⟩ | ⟨s, hdrop, hdrop'⟩
  · rw [hdrop, hdrop']
    cases t with
    | keyword word =>
        cases word with
        | elseWord =>
            refine follows_set hlt (follows_bind (hsub.follows _ hafter) ?_)
            intro other other' last last' _ hlast hother
            refine follows_pure hlast ?_
            simp only [Node.Alike, Node.bare, Node.bareOption]
            rw [hcondition, hbranch, hother]
        | _ => exact hnone
    | _ => exact hnone
  · rw [hdrop, hdrop']
    have hnot := hrest.not_else
    cases hlater : rest.dropWhile (fun t => t.token.isNewline) with
    | nil => exact hnone
    | cons l later =>
        obtain ⟨token, span⟩ := l
        cases token with
        | keyword word =>
            cases word with
            | elseWord => exact absurd hlater (hnot span later)
            | _ => exact hnone
        | _ => exact hnone

theorem follows_whileStatement (hsub : Extends rest sub sub')
    (start start' : Span) (htokens : Continues rest tokens tokens') :
    Follows rest (whileStatement sub start) (whileStatement sub' start') Node.Alike tokens
      tokens' := by
  refine follows_bind (hsub.follows _ htokens) ?_
  intro condition condition' more more' _ hmore hcondition
  refine follows_bind (hsub.follows _ hmore) ?_
  intro body body' last last' _ hlast hbody
  refine follows_pure hlast ?_
  simp only [Node.Alike, Node.bare]
  rw [hcondition, hbody]

theorem follows_forStatement (hrest : Resumes rest) (hsub : Extends rest sub sub')
    (start start' : Span) (htokens : Continues rest tokens tokens') :
    Follows rest (forStatement sub start) (forStatement sub' start') Node.Alike tokens
      tokens' := by
  refine follows_bind (follows_name hrest htokens) ?_
  rintro ⟨word, _⟩ ⟨_, _⟩ left left' - hleft rfl
  refine follows_bind (follows_expect hrest rfl hleft) ?_
  intro _ _ left left' _ hleft _
  refine follows_bind (hsub.follows _ hleft) ?_
  intro source source' more more' _ hmore hsource
  refine follows_bind (hsub.follows _ hmore) ?_
  intro body body' last last' _ hlast hbody
  refine follows_pure hlast ?_
  simp only [Node.Alike, Node.bare, Node.bareOption]
  rw [hsource, hbody]

theorem follows_defineStatement (hrest : Resumes rest) (hsub : Extends rest sub sub')
    (start start' : Span) (htokens : Continues rest tokens tokens') :
    Follows rest (defineStatement sub start) (defineStatement sub' start') Node.Alike tokens
      tokens' := by
  refine follows_bind (follows_name hrest htokens) ?_
  rintro ⟨word, _⟩ ⟨_, _⟩ left left' - hleft rfl
  refine follows_bind (follows_expect hrest rfl hleft) ?_
  intro _ _ left left' _ hleft _
  refine follows_bind (hsub.follows _ hleft) ?_
  intro body body' last last' _ hlast hbody
  refine follows_pure hlast ?_
  simp only [Node.Alike, Node.bare]
  rw [hbody]

theorem follows_returnStatement (hrest : Resumes rest) (hsub : Extends rest sub sub')
    (start start' : Span) (htokens : Continues rest tokens tokens') :
    Follows rest (returnStatement sub start) (returnStatement sub' start') Node.Alike tokens
      tokens' := by
  refine follows_peek hrest htokens ?_ ?_
  · intro token span span' hends
    rcases hends with rfl | rfl <;> exact follows_pure htokens rfl
  intro token span span' more more' hne _ hmore
  have hwhole := Continues.cons span span' hne hmore
  cases token.closes with
  | true => exact follows_pure hwhole rfl
  | false =>
      refine follows_bind (hsub.follows _ hwhole) ?_
      intro value value' last last' _ hlast hvalue
      refine follows_pure hlast ?_
      simp only [Node.Alike, Node.bare, Node.bareOption]
      rw [hvalue]

theorem follows_statement (hrest : Resumes rest) (hsub : Extends rest sub sub')
    (mayDeclare : Bool) (htokens : Continues rest tokens tokens') :
    Follows rest (statement sub mayDeclare) (statement sub' mayDeclare) Node.Alike tokens
      tokens' := by
  have hexpression := follows_expression hrest hsub htokens
  refine follows_get ?_
  cases htokens with
  | finish span =>
      obtain ⟨token, span', more, rfl, hends⟩ := hrest.head
      rcases hends with rfl | rfl <;> exact hexpression
  | @cons token more more' span span' hne hmore =>
      have hlt : more.length < (⟨token, span⟩ :: more : List Located).length := Nat.lt_succ_self _
      cases token with
      | name word =>
          cases hmore with
          | finish _ =>
              obtain ⟨token, _, _, rfl, hends⟩ := hrest.head
              rcases hends with rfl | rfl <;> exact hexpression
          | @cons token after after' _ _ _ hafter =>
              cases token with
              | mark sign =>
                  cases sign with
                  | equals =>
                      refine follows_set (Nat.lt_succ_of_lt (Nat.lt_succ_self _))
                        (follows_bind (hsub.follows _ hafter) ?_)
                      intro value value' last last' _ hlast hvalue
                      refine follows_pure hlast ?_
                      simp only [Node.Alike, Node.bare]
                      rw [hvalue]
                  | _ => exact hexpression
              | _ => exact hexpression
      | keyword word =>
          cases word with
          | ifWord => exact follows_set hlt (follows_ifStatement hrest hsub span span' hmore)
          | whileWord => exact follows_set hlt (follows_whileStatement hsub span span' hmore)
          | forWord => exact follows_set hlt (follows_forStatement hrest hsub span span' hmore)
          | defineWord => exact follows_set hlt (follows_defineStatement hrest hsub span span' hmore)
          | returnWord => exact follows_set hlt (follows_returnStatement hrest hsub span span' hmore)
          | breakWord => exact follows_set hlt (follows_pure hmore rfl)
          | continueWord => exact follows_set hlt (follows_pure hmore rfl)
          | funWord =>
              cases hmore with
              | finish _ =>
                  obtain ⟨token, _, _, rfl, hends⟩ := hrest.head
                  rcases hends with rfl | rfl <;> exact hexpression
              | @cons token after after' s s' hname hafter =>
                  cases token with
                  | name word =>
                      exact follows_set hlt (follows_functionLiteral hrest hsub span span' true
                        (.cons s s' hname hafter))
                  | _ => exact hexpression
          | _ => exact hexpression
      | mark sign =>
          cases sign with
          | openBrace => exact follows_block hrest hsub mayDeclare (.cons span span' hne hmore)
          | _ => exact hexpression
      | _ => exact hexpression

/-- Reading to some depth, and to that depth or a greater one where the text goes on. -/
theorem extends_phrase (hrest : Resumes rest) {depth depth' : Nat} (hle : depth ≤ depth') :
    Extends rest (phrase depth) (phrase depth') := by
  induction depth generalizing depth' with
  | zero => exact ⟨fun _ _ _ _ => follows_of_error rfl, fun _ _ => ⟨_, rfl⟩⟩
  | succ depth ih =>
      obtain ⟨depth', rfl⟩ : ∃ n, depth' = n + 1 := ⟨depth' - 1, by omega⟩
      have hsub := ih (Nat.le_of_succ_le_succ hle)
      constructor
      · intro phrase tokens tokens' htokens
        cases phrase with
        | expression => exact follows_expression hrest hsub htokens
        | statement mayDeclare => exact follows_statement hrest hsub mayDeclare htokens
        | signed => exact follows_signed hrest hsub htokens
      · intro phrase span
        cases phrase <;> exact ⟨_, rfl⟩

end Phrases

/-! ### Programs -/

section Declarations

variable {sub sub' : Phrase → Parser Node} {node : Node} {nodes later : List Node}
  {left : List Located} {bound bound' : Nat}

/-- A declaration starts with a name, so it takes a token at least. -/
theorem follows_declaration (hrest : Resumes rest) (hsub : Extends rest sub sub')
    (htokens : Continues rest tokens tokens') (h : declaration sub tokens = .ok (node, left)) :
    (∃ word span more, tokens = ⟨.name word, span⟩ :: more) ∧ left.length < tokens.length ∧
      ∃ node' left', declaration sub' tokens' = .ok (node', left') ∧ node.Alike node' ∧
        Continues rest left left' := by
  cases htokens with
  | finish span => cases h
  | @cons token more more' span span' _ hmore =>
      cases token with
      | name word =>
          have hbehind : Follows rest
              (expect (Token.isMark .equals) .equals >>= fun _ => sub (.statement true) >>= fun v =>
                pure (.assign (span.through v.span) word true v))
              (expect (Token.isMark .equals) .equals >>= fun _ => sub' (.statement true) >>= fun v =>
                pure (.assign (span'.through v.span) word true v)) Node.Alike more more' := by
            refine follows_bind (follows_expect hrest rfl hmore) ?_
            intro _ _ more more' _ hmore _
            refine follows_bind (hsub.follows _ hmore) ?_
            intro value value' last last' _ hlast hvalue
            refine follows_pure hlast ?_
            simp only [Node.Alike, Node.bare]
            rw [hvalue]
          obtain ⟨hle, hread⟩ := hbehind node left h
          exact ⟨⟨word, span, more, rfl⟩, Nat.lt_succ_of_le hle, hread⟩
      | _ => cases h

/-- Line breaks in front of a declaration are skipped. -/
theorem declarations_succ (sub : Phrase → Parser Node) (bound : Nat) (tokens : List Located) :
    declarations sub (bound + 1) tokens =
      (peek >>= fun t => if t.token.isFinish then pure []
        else declaration sub >>= fun first => declarations sub bound >>= fun others =>
          pure (first :: others)) (tokens.dropWhile fun t => t.token.isNewline) := rfl

theorem declarations_succ_of_not_finish {t : Located} {after : List Located}
    (ht : t.token ≠ .finish) (hdrop : tokens.dropWhile (fun t => t.token.isNewline) = t :: after) :
    declarations sub (bound + 1) tokens =
      (declaration sub >>= fun first => declarations sub bound >>= fun others =>
        pure (first :: others)) (t :: after) := by
  have hfinish : t.token.isFinish = false := by
    cases htoken : t.token with
    | finish => exact absurd htoken ht
    | _ => rfl
  rw [declarations_succ, hdrop, bind_of_ok (peek_cons ..), hfinish]
  rfl

/-- The declarations of a text that goes on are its own and those of what it goes on with. -/
theorem exists_declarations_of_continues (hrest : Resumes rest) (hsub : Extends rest sub sub')
    (hlater : ∀ {bound' : Nat}, rest.length ≤ bound' → ∃ others left',
      declarations sub' bound' rest = .ok (others, left') ∧ List.Forall₂ Node.Alike later others)
    (htokens : Continues rest tokens tokens') (hbound' : tokens'.length ≤ bound')
    (h : declarations sub bound tokens = .ok (nodes, left)) : ∃ others left',
      declarations sub' bound' tokens' = .ok (others, left') ∧
        List.Forall₂ Node.Alike (nodes ++ later) others := by
  induction bound generalizing bound' tokens tokens' nodes left with
  | zero => cases h
  | succ bound ih =>
      have hlength := htokens.length_eq
      have hpos := htokens.length_pos
      have hpos' := htokens.length_le hrest
      rcases htokens.dropWhile with
        ⟨t, s, s', after, after', hfinish, hdrop, hdrop', hlt, hafter⟩ | ⟨s, hdrop, hdrop'⟩
      · obtain ⟨bound', rfl⟩ : ∃ n, bound' = n + 1 := ⟨bound' - 1, by omega⟩
        have hinside := Continues.cons s s' hfinish hafter
        have hlength' := hinside.length_eq
        rw [declarations_succ_of_not_finish hfinish hdrop] at h
        rw [declarations_succ_of_not_finish hfinish hdrop']
        cases hfirst : declaration sub (⟨t, s⟩ :: after) with
        | error e =>
            rw [bind_of_error hfirst] at h
            cases h
        | ok result =>
            obtain ⟨first, more⟩ := result
            obtain ⟨-, hmore, first', more', hfirst', halike, hcontinues⟩ :=
              follows_declaration hrest hsub hinside hfirst
            have hmorelength := hcontinues.length_eq
            rw [bind_of_ok hfirst] at h
            rw [bind_of_ok hfirst']
            cases hothers : declarations sub bound more with
            | error e =>
                rw [bind_of_error hothers] at h
                cases h
            | ok result =>
                obtain ⟨nodes, last⟩ := result
                rw [List.length_cons] at hmore
                obtain ⟨others, last', hothers', hnodes⟩ :=
                  ih hcontinues (show more'.length ≤ bound' by omega) hothers
                rw [bind_of_ok hothers] at h
                rw [bind_of_ok hothers']
                cases h
                exact ⟨_, _, rfl, .cons halike hnodes⟩
      · obtain ⟨others, left', hothers, hnodes⟩ := hlater (show rest.length ≤ bound' by omega)
        obtain ⟨bound', rfl⟩ : ∃ n, bound' = n + 1 := ⟨bound' - 1, by omega⟩
        rw [declarations_succ, hdrop] at h
        cases h
        rw [declarations_succ] at hothers
        rw [declarations_succ, hdrop']
        exact ⟨others, left', hothers, hnodes⟩

end Declarations

end Parser

namespace Node

variable {tokens more rest joined : List Located} {nodes others : List Node} {span : Span}

theorem declarations_of_ofTokens {flag : Bool}
    (h : ofTokens tokens = .ok (.block span flag nodes)) : ∃ left,
      Parser.declarations (Parser.phrase tokens.length) tokens.length tokens = .ok (nodes, left) := by
  obtain ⟨first, last, statements, rest, -, -, hread, heq⟩ := eq_block_of_ofTokens h
  cases heq
  exact ⟨rest, hread⟩

theorem resumes_finish (last : Span) : Resumes [⟨.finish, last⟩] :=
  ⟨⟨.finish, last, [], rfl, .inr rfl⟩, fun span more h => by cases h⟩

/-- No program starts with the other branch of a choice. -/
theorem resumes_newline {last : Span} {sub : Phrase → Parser Node} {bound : Nat}
    {left : List Located} (hrest : Continues [⟨.finish, last⟩] more rest)
    (hread : Parser.declarations sub bound more = .ok (others, left)) (line : Span) :
    Resumes (⟨.newline, line⟩ :: rest) := by
  refine ⟨⟨.newline, line, rest, rfl, .inl rfl⟩, fun span after hafter => ?_⟩
  have hafter : rest.dropWhile (fun t => t.token.isNewline) = ⟨.keyword .elseWord, span⟩ :: after :=
    hafter
  cases bound with
  | zero => cases hread
  | succ bound =>
      rcases hrest.dropWhile with ⟨t, s, s', first, first', hne, hdrop, hdrop', -, -⟩ | ⟨s, -, hdrop⟩
      · rw [hafter] at hdrop'
        cases hdrop'
        rw [Parser.declarations_succ_of_not_finish hne hdrop] at hread
        cases hread
      · rw [hafter] at hdrop
        cases hdrop

/-- The declarations of two texts with a line break between them are those of the first and then
those of the second. -/
theorem exists_ofTokens_join {last line span' : Span} {flag flag' : Bool}
    (hfirst : Continues (⟨.newline, line⟩ :: rest) tokens joined)
    (hsecond : Continues [⟨.finish, last⟩] more rest)
    (hread : ofTokens tokens = .ok (.block span flag nodes))
    (hmore : ofTokens more = .ok (.block span' flag' others)) :
    ∃ whole all, ofTokens joined = .ok (.block whole true all) ∧
      List.Forall₂ Alike (nodes ++ others) all := by
  obtain ⟨left, hnodes⟩ := declarations_of_ofTokens hread
  obtain ⟨left', hothers⟩ := declarations_of_ofTokens hmore
  have hnewline := resumes_newline hsecond hothers line
  have hpos := hfirst.length_pos
  have hlength := hfirst.length_eq
  have hlength' := hsecond.length_eq
  rw [List.length_cons] at hlength
  rw [List.length_singleton] at hlength'
  -- the second text, which ends where both end
  have hlater : ∀ {bound : Nat}, (⟨.newline, line⟩ :: rest : List Located).length ≤ bound →
      ∃ all last', Parser.declarations (Parser.phrase joined.length) bound
        (⟨.newline, line⟩ :: rest) = .ok (all, last') ∧ List.Forall₂ Alike others all := by
    intro bound hbound
    obtain ⟨bound, rfl⟩ : ∃ n, bound = n + 1 := ⟨bound - 1, by rw [List.length_cons] at hbound; omega⟩
    have hend : ∀ {bound : Nat}, [(⟨.finish, last⟩ : Located)].length ≤ bound →
        ∃ all last', Parser.declarations (Parser.phrase joined.length) bound [⟨.finish, last⟩] =
          .ok (all, last') ∧ List.Forall₂ Alike [] all := by
      intro bound hbound
      obtain ⟨bound, rfl⟩ : ∃ n, bound = n + 1 := ⟨bound - 1, (Nat.sub_add_cancel hbound).symm⟩
      exact ⟨_, _, rfl, .nil⟩
    obtain ⟨all, last', hall, halike⟩ := Parser.exists_declarations_of_continues
      (resumes_finish last) (Parser.extends_phrase (resumes_finish last)
        (show more.length ≤ joined.length by omega)) hend hsecond
      (show rest.length ≤ bound + 1 by rw [List.length_cons] at hbound; omega) hothers
    rw [List.append_nil] at halike
    exact ⟨all, last', hall, halike⟩
  obtain ⟨all, last', hall, halike⟩ := Parser.exists_declarations_of_continues hnewline
    (Parser.extends_phrase hnewline (show tokens.length ≤ joined.length by omega)) hlater hfirst
    (Nat.le_refl _) hnodes
  obtain ⟨whole, hwhole⟩ := ofTokens_of_declarations hall
  exact ⟨whole, all, hwhole, halike⟩

end Node

end CapsuleScript
