import CapsuleScript.Proofs.Node.Following

/-! Readers that get on. A reader takes tokens from the head of a list and never the end of a text;
where it refuses, it points at one of the tokens, or there was no end of a text among them. Two
readers concur on a list of tokens if they do the same there and get on in this way. Rows and chains
of items that concur do so too, whatever the bounds on their rounds, as long as there are no more
tokens than that. -/

namespace CapsuleScript

open Token

namespace Parser

variable {α β : Type} {least bound bound' n : Nat} {tokens more rest : List Located}

/-! ### What a reader may do -/

/-- At least so many tokens are gone from the head, and the end of a text is none of them. -/
def Takes (least : Nat) (tokens rest : List Located) : Prop :=
  ∃ taken, tokens = taken ++ rest ∧ least ≤ taken.length ∧ ∀ t ∈ taken, t.token ≠ .finish

theorem takes_refl (tokens : List Located) : Takes 0 tokens tokens :=
  ⟨[], rfl, Nat.le_refl _, by simp⟩

theorem takes_cons {l : Located} (hl : l.token ≠ .finish) (h : Takes 0 more rest) :
    Takes 1 (l :: more) rest := by
  obtain ⟨taken, rfl, -, hne⟩ := h
  refine ⟨l :: taken, rfl, ?_, List.forall_mem_cons.mpr ⟨hl, hne⟩⟩
  rw [List.length_cons]
  omega

theorem Takes.trans (h : Takes least tokens more) (h' : Takes 0 more rest) :
    Takes least tokens rest := by
  obtain ⟨taken, rfl, hleast, hne⟩ := h
  obtain ⟨others, rfl, -, hne'⟩ := h'
  refine ⟨taken ++ others, (List.append_assoc ..).symm, ?_, List.forall_mem_append.mpr ⟨hne, hne'⟩⟩
  rw [List.length_append]
  omega

theorem Takes.length_le (h : Takes least tokens rest) : rest.length + least ≤ tokens.length := by
  obtain ⟨taken, rfl, hleast, -⟩ := h
  rw [List.length_append]
  omega

theorem Takes.weaken (h : Takes least tokens rest) : Takes 0 tokens rest := by
  obtain ⟨taken, htokens, -, hne⟩ := h
  exact ⟨taken, htokens, Nat.zero_le _, hne⟩

/-- What reading the tokens may come to: at least so many of them are taken, and never the end of a
text; or one of them is pointed at; or they ended, and no end of a text was among them. -/
def Orderly (least : Nat) (tokens : List Located) : Except SourceError (α × List Located) → Prop
  | .ok (_, rest) => Takes least tokens rest
  | .error (.unexpected _ span) => ∃ t ∈ tokens, t.span = span
  | .error .endOfTokens => ∀ t ∈ tokens, t.token ≠ .finish
  | .error (.illegalText _ _) => False

/-- What is read after some tokens have been taken. -/
theorem Orderly.before {outcome : Except SourceError (α × List Located)}
    (h : Orderly 0 more outcome) (htakes : Takes least tokens more) :
    Orderly least tokens outcome := by
  match outcome with
  | .ok (_, _) => exact htakes.trans h
  | .error (.unexpected _ _) =>
      obtain ⟨taken, rfl, -, -⟩ := htakes
      obtain ⟨t, ht, hspan⟩ := h
      exact ⟨t, List.mem_append_right _ ht, hspan⟩
  | .error .endOfTokens =>
      obtain ⟨taken, rfl, -, hne⟩ := htakes
      exact List.forall_mem_append.mpr ⟨hne, h⟩

theorem Orderly.weaken {outcome : Except SourceError (α × List Located)}
    (h : Orderly least tokens outcome) : Orderly 0 tokens outcome := by
  match outcome with
  | .ok (_, _) => exact Takes.weaken h
  | .error (.unexpected _ _) => exact h
  | .error .endOfTokens => exact h

/-- Both readers do the same with the tokens, and they get on. -/
def Concur (least : Nat) (p p' : Parser α) (tokens : List Located) : Prop :=
  p' tokens = p tokens ∧ Orderly least tokens (p tokens)

section Combinators

variable {p p' : Parser α} {q q' : Parser β} {next next' : α → Parser β}

theorem Concur.weaken (h : Concur least p p' tokens) : Concur 0 p p' tokens := ⟨h.1, h.2.weaken⟩

/-- Readers that have to take something find that the tokens have ended. -/
theorem Concur.eq_of_nil (h : Concur 1 p p' []) :
    p [] = .error .endOfTokens ∧ p' [] = .error .endOfTokens := by
  obtain ⟨heq, horderly⟩ := h
  rw [heq, and_self]
  cases hread : p [] with
  | ok result =>
      rw [hread] at horderly
      exact absurd (Takes.length_le horderly) (by simp)
  | error e =>
      rw [hread] at horderly
      cases e with
      | endOfTokens => rfl
      | unexpected _ _ => exact absurd horderly (by simp [Orderly])
      | illegalText _ _ => exact horderly.elim

theorem concur_pure (a : α) : Concur 0 (pure a) (pure a) tokens := ⟨rfl, takes_refl tokens⟩

/-- Readers that take nothing and give the same. -/
theorem concur_of_ok {a : α} (h : p tokens = .ok (a, tokens)) (h' : p' tokens = .ok (a, tokens)) :
    Concur 0 p p' tokens := by
  rw [Concur, h, h']
  exact ⟨rfl, takes_refl tokens⟩

/-- Readers that find that the tokens have ended. -/
theorem concur_of_endOfTokens (h : p [] = .error .endOfTokens) (h' : p' [] = .error .endOfTokens) :
    Concur least p p' [] := by
  rw [Concur, h, h']
  exact ⟨rfl, fun t ht => absurd ht List.not_mem_nil⟩

theorem concur_unexpected {t : Located} (x : Expectation) (ht : t ∈ tokens) :
    Concur least (throw (.unexpected x t.span) : Parser α) (throw (.unexpected x t.span)) tokens :=
  ⟨rfl, t, ht, rfl⟩

theorem concur_bind (hp : Concur least p p' tokens)
    (hnext : ∀ a rest, rest.length + least ≤ tokens.length → Concur 0 (next a) (next' a) rest) :
    Concur least (p >>= next) (p' >>= next') tokens := by
  obtain ⟨heq, horderly⟩ := hp
  cases hread : p tokens with
  | error e =>
      rw [hread] at heq horderly
      rw [Concur, bind_of_error hread, bind_of_error heq]
      refine ⟨rfl, ?_⟩
      cases e <;> exact horderly
  | ok result =>
      obtain ⟨a, rest⟩ := result
      rw [hread] at heq horderly
      have htakes : Takes least tokens rest := horderly
      obtain ⟨heq', horderly'⟩ := hnext a rest htakes.length_le
      rw [Concur, bind_of_ok hread, bind_of_ok heq]
      exact ⟨heq', horderly'.before htakes⟩

/-- The same where it does not matter what the first reader takes. -/
theorem concur_seq (hp : Concur least p p' tokens)
    (hnext : ∀ a rest, rest.length + least ≤ tokens.length → Concur 0 (next a) (next' a) rest) :
    Concur 0 (p >>= next) (p' >>= next') tokens := (concur_bind hp hnext).weaken

/-- Readers that look at the next token. -/
theorem concur_peek {next next' : Located → Parser β}
    (h : ∀ l more, more.length < tokens.length → Concur least (next l) (next' l) (l :: more)) :
    Concur least (peek >>= next) (peek >>= next') tokens := by
  cases tokens with
  | nil => exact ⟨rfl, fun t ht => absurd ht List.not_mem_nil⟩
  | cons l more => exact h l more (Nat.lt_succ_self _)

/-- Readers that take the next token, which is not the end of a text. -/
theorem concur_advance {l : Located} (hl : l.token ≠ .finish) (hq : Concur 0 q q' more) :
    Concur 1 (advance >>= fun _ => q) (advance >>= fun _ => q') (l :: more) :=
  ⟨hq.1, hq.2.before (takes_cons hl (takes_refl more))⟩

theorem concur_get {next next' : List Located → Parser β}
    (h : Concur least (next tokens) (next' tokens) tokens) :
    Concur least (get >>= next) (get >>= next') tokens := h

/-- Readers that skip some tokens. -/
theorem concur_set (htakes : Takes least tokens more) (hq : Concur 0 q q' more) :
    Concur least (set more >>= fun _ => q) (set more >>= fun _ => q') tokens :=
  ⟨hq.1, hq.2.before htakes⟩

theorem ne_finish (test : Token → Bool) {token : Token} (hfinish : test .finish = false)
    (htest : test token = true) : token ≠ .finish := by
  rintro rfl
  rw [hfinish] at htest
  cases htest

theorem concur_expect {test : Token → Bool} (x : Expectation) (hfinish : test .finish = false) :
    Concur 1 (expect test x) (expect test x) tokens := by
  apply concur_peek
  intro l more _
  cases htest : test l.token with
  | true => exact concur_advance (ne_finish test hfinish htest) (concur_pure l.span)
  | false => exact concur_unexpected x List.mem_cons_self

theorem concur_accept {test : Token → Bool} {yes yes' no no' : Parser β}
    (hfinish : test .finish = false)
    (hyes : ∀ more, more.length < tokens.length → Concur 0 yes yes' more)
    (hno : Concur 0 no no' tokens) :
    Concur 0 (accept test >>= fun b => if b then yes else no)
      (accept test >>= fun b => if b then yes' else no') tokens := by
  cases tokens with
  | nil => exact hno
  | cons l more =>
      obtain ⟨token, span⟩ := l
      cases htest : test token with
      | true =>
          have hl : token ≠ .finish := ne_finish test hfinish htest
          rw [Concur, bind_of_ok (accept_of_pos htest), bind_of_ok (accept_of_pos htest)]
          have hq := hyes more (Nat.lt_succ_self _)
          exact ⟨hq.1, (hq.2.before (takes_cons hl (takes_refl more))).weaken⟩
      | false =>
          rw [Concur, bind_of_ok (accept_of_neg htest), bind_of_ok (accept_of_neg htest)]
          exact hno

/-- Readers that go one of two ways after a look at the next token. -/
theorem concur_nextIs {test : Token → Bool} {yes yes' no no' : Parser β}
    (hyes : Concur 0 yes yes' tokens) (hno : Concur 0 no no' tokens) :
    Concur 0 (nextIs test >>= fun b => if b then yes else no)
      (nextIs test >>= fun b => if b then yes' else no') tokens := by
  have hlook : nextIs test tokens = .ok (tokens.head?.any (fun t => test t.token), tokens) := rfl
  rw [Concur, bind_of_ok hlook, bind_of_ok hlook]
  cases tokens.head?.any (fun t => test t.token) with
  | true => exact hyes
  | false => exact hno

theorem concur_name : Concur 1 name name tokens := by
  apply concur_peek
  rintro ⟨token, span⟩ more -
  cases token with
  | name word => exact concur_advance (by simp) (concur_pure _)
  | _ => exact concur_unexpected .name (t := ⟨_, span⟩) List.mem_cons_self

theorem takes_dropWhile_newlines (tokens : List Located) :
    Takes 0 tokens (tokens.dropWhile (fun t => t.token.isNewline)) := by
  refine ⟨_, List.takeWhile_append_dropWhile.symm, Nat.zero_le _, fun t ht hfinish => ?_⟩
  have hnewline := List.mem_takeWhile_imp ht
  rw [hfinish] at hnewline
  cases hnewline

theorem concur_skipNewlines : Concur 0 skipNewlines skipNewlines tokens :=
  ⟨rfl, takes_dropWhile_newlines tokens⟩

end Combinators

/-! ### Rows and chains -/

section Repetitions

/-- A loop each of whose rounds takes a token does the same under every bound that is not below the
number of tokens. -/
theorem concur_loop {σ : Type} (loop loop' : σ → Nat → Parser α)
    (hnil : ∀ s bound bound', Concur least (loop s bound) (loop' s bound') [])
    (hround : ∀ s bound bound' tokens, tokens.length ≤ n →
      (∀ s more, more.length < tokens.length → Concur least (loop s bound) (loop' s bound') more) →
      Concur least (loop s (bound + 1)) (loop' s (bound' + 1)) tokens)
    (s : σ) (hn : tokens.length ≤ n) (hbound : tokens.length ≤ bound)
    (hbound' : tokens.length ≤ bound') : Concur least (loop s bound) (loop' s bound') tokens := by
  induction bound generalizing bound' tokens s with
  | zero =>
      rw [List.length_eq_zero_iff.mp (Nat.le_zero.mp hbound)]
      exact hnil s 0 bound'
  | succ bound ih =>
      cases bound' with
      | zero =>
          rw [List.length_eq_zero_iff.mp (Nat.le_zero.mp hbound')]
          exact hnil s (bound + 1) 0
      | succ bound' =>
          apply hround s bound bound' tokens hn
          intro s more hmore
          exact ih s (by omega) (by omega) (by omega)

variable {operand operand' : Parser Node}

theorem moreItems_nil {item : Parser α} (bound : Nat) : moreItems item bound [] = .ok ([], []) := by
  cases bound <;> rfl

theorem concur_moreItems {item item' : Parser α}
    (hitem : ∀ more, more.length ≤ n → Concur 1 item item' more) (hn : tokens.length ≤ n)
    (hbound : tokens.length ≤ bound) (hbound' : tokens.length ≤ bound') :
    Concur 0 (moreItems item bound) (moreItems item' bound') tokens := by
  refine concur_loop (fun _ : Unit => moreItems item) (fun _ => moreItems item') ?_ ?_ () hn hbound
    hbound'
  · exact fun _ bound bound' => concur_of_ok (moreItems_nil bound) (moreItems_nil bound')
  · intro _ bound bound' tokens hn hmore
    refine concur_accept rfl ?_ (concur_pure [])
    intro more hlt
    refine concur_seq (hitem more (by omega)) ?_
    intro first rest hrest
    refine concur_bind (hmore () rest (by omega)) ?_
    intro others last _
    exact concur_pure _

theorem concur_items {item item' : Parser α}
    (hitem : ∀ more, more.length ≤ n → Concur 1 item item' more) (hn : tokens.length ≤ n) :
    Concur 1 (items item) (items item') tokens := by
  refine concur_bind (hitem tokens hn) ?_
  intro first rest hrest
  refine concur_get ?_
  refine concur_bind (concur_moreItems hitem (by omega) (Nat.le_refl _) (Nat.le_refl _)) ?_
  intro others last _
  exact concur_pure _

theorem elements_nil (h : operand [] = .error .endOfTokens) (bound : Nat) :
    elements operand bound [] = .error .endOfTokens := by
  cases bound with
  | zero => rfl
  | succ bound => exact bind_of_error h

theorem concur_elements (hitem : ∀ more, more.length ≤ n → Concur 1 operand operand' more)
    (hn : tokens.length ≤ n) (hbound : tokens.length ≤ bound) (hbound' : tokens.length ≤ bound') :
    Concur 1 (elements operand bound) (elements operand' bound') tokens := by
  have hempty := (hitem [] (Nat.zero_le n)).eq_of_nil
  refine concur_loop (fun _ : Unit => elements operand) (fun _ => elements operand') ?_ ?_ () hn
    hbound hbound'
  · exact fun _ bound bound' =>
      concur_of_endOfTokens (elements_nil hempty.1 bound) (elements_nil hempty.2 bound')
  · intro _ bound bound' tokens hn hmore
    refine concur_bind (hitem tokens hn) ?_
    intro first rest hrest
    apply concur_peek
    rintro ⟨token, span⟩ more hlt
    by_cases hcomma : token.isMark .comma
    · simp only [hcomma, if_true]
      refine (concur_advance (ne_finish (isMark .comma) rfl hcomma) ?_).weaken
      refine concur_seq (hmore () more (by omega)) ?_
      intro others last _
      exact concur_pure _
    · by_cases hclose : token.isMark .closeBracket
      · simp only [hcomma, hclose, if_true]
        exact (concur_advance (ne_finish (isMark .closeBracket) rfl hclose) (concur_pure _)).weaken
      · simp only [hcomma, hclose]
        exact concur_unexpected .listEnd (t := ⟨token, span⟩) List.mem_cons_self

theorem moreOperands_nil (looseness : Nat) (left : Node) (bound : Nat) :
    moreOperands operand looseness left bound [] = .ok (left, []) := by
  cases bound <;> rfl

theorem concur_moreOperands (looseness : Nat) (left : Node)
    (hoperand : ∀ more, more.length ≤ n → Concur 1 operand operand' more)
    (hn : tokens.length ≤ n) (hbound : tokens.length ≤ bound) (hbound' : tokens.length ≤ bound') :
    Concur 0 (moreOperands operand looseness left bound)
      (moreOperands operand' looseness left bound') tokens := by
  refine concur_loop (moreOperands operand looseness) (moreOperands operand' looseness) ?_ ?_ left
    hn hbound hbound'
  · exact fun left bound bound' =>
      concur_of_ok (moreOperands_nil looseness left bound) (moreOperands_nil looseness left bound')
  · intro left bound bound' tokens hn hmore
    refine concur_get ?_
    cases tokens with
    | nil => exact concur_pure left
    | cons l more =>
        simp only [List.head?_cons, Option.bind_some]
        cases hop : l.token.binaryOp? with
        | none => exact concur_pure left
        | some op =>
            by_cases hlooseness : op.looseness = looseness
            · simp only [hlooseness, if_true]
              have hl : l.token ≠ .finish := by
                intro heq
                rw [heq] at hop
                cases hop
              rw [List.length_cons] at hn
              refine (concur_advance hl ?_).weaken
              refine concur_seq (hoperand more (by omega)) ?_
              intro right rest hrest
              exact hmore _ rest (by rw [List.length_cons]; omega)
            · simp only [hlooseness, if_false]
              exact concur_pure left

theorem concur_chain (hoperand : ∀ more, more.length ≤ n → Concur 1 operand operand' more)
    (looseness : Nat) (hn : tokens.length ≤ n) :
    Concur 1 (chain operand looseness) (chain operand' looseness) tokens := by
  induction looseness generalizing tokens with
  | zero => exact hoperand tokens hn
  | succ looseness ih =>
      refine concur_bind (ih hn) ?_
      intro left rest hrest
      exact concur_get (concur_moreOperands (looseness + 1) left (fun more hmore => ih hmore)
        (by omega) (Nat.le_refl _) (Nat.le_refl _))

theorem moreStatements_nil (bound : Nat) : moreStatements operand bound [] = .ok ([], []) := by
  cases bound <;> rfl

theorem concur_moreStatements (hitem : ∀ more, more.length ≤ n → Concur 1 operand operand' more)
    (hn : tokens.length ≤ n) (hbound : tokens.length ≤ bound) (hbound' : tokens.length ≤ bound') :
    Concur 0 (moreStatements operand bound) (moreStatements operand' bound') tokens := by
  refine concur_loop (fun _ : Unit => moreStatements operand) (fun _ => moreStatements operand') ?_
    ?_ () hn hbound hbound'
  · exact fun _ bound bound' => concur_of_ok (moreStatements_nil bound) (moreStatements_nil bound')
  · intro _ bound bound' tokens hn hmore
    refine concur_nextIs ?_ (concur_pure [])
    refine concur_bind concur_skipNewlines ?_
    intro _ rest hrest
    refine concur_nextIs (concur_pure []) ?_
    refine concur_seq (hitem rest (by omega)) ?_
    intro first after hafter
    refine concur_bind (hmore () after (by omega)) ?_
    intro others last _
    exact concur_pure _

end Repetitions

end Parser

end CapsuleScript
