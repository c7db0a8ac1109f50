import CapsuleScript.Proofs.Node.Writing

/-! Taking a text from the head of a list of tokens. A parser that reads a text leaves what follows
it, provided that what follows starts as it should; the regions of the tokens do not matter. -/

namespace CapsuleScript

namespace Parser

variable {α β : Type}

/-! ### Reading a text and leaving what follows -/

/-- From the text, followed by tokens that pass the test `F`, the parser takes just the text,
and what it reads passes the test `P`. -/
def Reads (p : Parser α) (P : α → Prop) (text : List Token) (F : List Token → Prop) : Prop :=
  ∀ tokens rest : List Located, tokens.map Located.token = text →
    F (rest.map Located.token) → ∃ a, p (tokens ++ rest) = .ok (a, rest) ∧ P a

/-- There is a next token and it passes the test. -/
def Starts (test : Token → Prop) (more : List Token) : Prop :=
  ∃ t rest, more = t :: rest ∧ test t

theorem starts_cons {test : Token → Prop} {t : Token} {rest : List Token} :
    Starts test (t :: rest) ↔ test t := by
  constructor
  · rintro ⟨_, _, heq, htest⟩
    cases heq
    exact htest
  · exact fun htest => ⟨t, rest, rfl, htest⟩

theorem Starts.imp {test other : Token → Prop} {more : List Token} (h : Starts test more)
    (himp : ∀ t, test t → other t) : Starts other more := by
  obtain ⟨t, rest, rfl, htest⟩ := h
  exact ⟨t, rest, rfl, himp t htest⟩

section Combinators

variable {P : β → Prop} {Q : α → Prop} {text more : List Token} {F G : List Token → Prop}

theorem Reads.imp {p : Parser α} {R : α → Prop} (hp : Reads p Q text F)
    (hahead : ∀ rest, G rest → F rest) (himp : ∀ a, Q a → R a) :
    Reads p R text G := by
  intro tokens rest htokens hrest
  obtain ⟨a, hread, ha⟩ := hp tokens rest htokens (hahead _ hrest)
  exact ⟨a, hread, himp a ha⟩

theorem reads_pure {a : α} (ha : Q a) : Reads (pure a) Q [] F := by
  intro tokens rest htokens _
  rw [List.map_eq_nil_iff.mp htokens]
  exact ⟨a, rfl, ha⟩

theorem bind_of_ok {p : Parser α} {next : α → Parser β} {tokens rest : List Located} {a : α}
    (h : p tokens = .ok (a, rest)) : (p >>= next) tokens = next a rest := by
  simp only [bind, StateT.bind, h, Except.bind]

theorem reads_bind {p : Parser α} {next : α → Parser β} (hp : Reads p Q text F)
    (hnext : ∀ a, Q a → Reads (next a) P more G)
    (hahead : ∀ rest, G rest → F (more ++ rest)) :
    Reads (p >>= next) P (text ++ more) G := by
  intro tokens rest htokens hrest
  obtain ⟨front, back, rfl, hfront, hback⟩ := List.map_eq_append_iff.mp htokens
  have hfollows : F ((back ++ rest).map Located.token) := by
    rw [List.map_append, hback]
    exact hahead _ hrest
  obtain ⟨a, hread, ha⟩ := hp front (back ++ rest) hfront hfollows
  obtain ⟨b, hread', hb⟩ := hnext a ha back rest hback hrest
  rw [List.append_assoc, bind_of_ok hread]
  exact ⟨b, hread', hb⟩

/-- A parser that only looks at what follows before it goes on. -/
theorem reads_look {p : Parser α} {next : α → Parser β} (hp : Reads p Q [] F)
    (hnext : ∀ a, Q a → Reads (next a) P more G)
    (hahead : ∀ rest, G rest → F (more ++ rest)) :
    Reads (p >>= next) P more G :=
  reads_bind hp hnext hahead

/-- The last part of a phrase: what is left to do takes no token. -/
theorem reads_last {p : Parser α} {f : α → β} (hp : Reads p Q text F)
    (hlast : ∀ a, Q a → P (f a)) : Reads (p >>= fun a => pure (f a)) P text F := by
  intro tokens rest htokens hrest
  obtain ⟨a, hread, ha⟩ := hp tokens rest htokens hrest
  exact ⟨f a, bind_of_ok hread, hlast a ha⟩

/-- A parser that takes the first token of the text goes on with the rest of it. -/
theorem reads_cons {p : Parser β} {q : Span → Parser β} {t : Token}
    (hstep : ∀ span rest, p (⟨t, span⟩ :: rest) = q span rest)
    (hnext : ∀ span, Reads (q span) P text F) : Reads p P (t :: text) F := by
  intro tokens rest htokens hrest
  obtain ⟨l, front, rfl, rfl, hfront⟩ := List.map_eq_cons_iff.mp htokens
  rw [List.cons_append, show l = ⟨l.token, l.span⟩ from rfl, hstep]
  exact hnext l.span front rest hfront hrest

/-- A parser that goes on as another one once it has seen the token that follows. -/
theorem reads_ahead {p q : Parser β} {test : Token → Prop}
    (hstep : ∀ t span rest, test t → p (⟨t, span⟩ :: rest) = q (⟨t, span⟩ :: rest))
    (hq : Reads q P [] (Starts test)) : Reads p P [] (Starts test) := by
  intro tokens rest htokens hrest
  obtain ⟨b, hread, hb⟩ := hq tokens rest htokens hrest
  obtain ⟨t, more, hmore, htest⟩ := hrest
  obtain ⟨l, front, rfl, rfl, -⟩ := List.map_eq_cons_iff.mp hmore
  refine ⟨b, ?_, hb⟩
  rw [List.map_eq_nil_iff.mp htokens] at hread ⊢
  exact (hstep l.token l.span front htest).trans hread

/-- A parser that goes on as another one once it has seen the first token of the text. -/
theorem reads_head {p q : Parser β} {t : Token}
    (hstep : ∀ span rest, p (⟨t, span⟩ :: rest) = q (⟨t, span⟩ :: rest))
    (hq : Reads q P (t :: text) F) : Reads p P (t :: text) F := by
  intro tokens rest htokens hrest
  obtain ⟨b, hread, hb⟩ := hq tokens rest htokens hrest
  obtain ⟨l, front, rfl, rfl, -⟩ := List.map_eq_cons_iff.mp htokens
  exact ⟨b, (hstep l.span (front ++ rest)).trans hread, hb⟩

theorem reads_get_bind {next : List Located → Parser β}
    (hnext : ∀ tokens, text.length ≤ tokens.length → Reads (next tokens) P text F) :
    Reads (get >>= next) P text F := by
  intro tokens rest htokens hrest
  refine hnext (tokens ++ rest) ?_ tokens rest htokens hrest
  rw [← htokens, List.length_map, List.length_append]
  omega

theorem peek_cons (l : Located) (rest : List Located) :
    peek (l :: rest) = .ok (l, l :: rest) := rfl

theorem get_apply (tokens : List Located) : (get : Parser _) tokens = .ok (tokens, tokens) := rfl

theorem nextIs_cons (test : Token → Bool) (l : Located) (rest : List Located) :
    nextIs test (l :: rest) = .ok (test l.token, l :: rest) := rfl

theorem reads_expect {test : Token → Bool} {t : Token} (htest : test t = true)
    (expectation : Expectation) : Reads (expect test expectation) (fun _ => True) [t] F := by
  refine reads_cons (q := fun span => pure span) (fun span rest => ?_) fun span =>
    reads_pure trivial
  rw [expect, bind_of_ok (peek_cons _ rest), if_pos htest]
  rfl

theorem reads_accept {test : Token → Bool} {t : Token} (htest : test t = true) :
    Reads (accept test) (· = true) [t] F := by
  refine reads_cons (q := fun _ => pure true) (fun span rest => ?_) fun span => reads_pure rfl
  rw [accept, bind_of_ok (nextIs_cons test _ rest), if_pos htest]
  rfl

theorem reads_not_accept {test : Token → Bool} :
    Reads (accept test) (· = false) [] (Starts fun t => test t = false) := by
  refine reads_ahead (q := pure false) (fun t span rest htest => ?_) (reads_pure rfl)
  rw [accept, bind_of_ok (nextIs_cons test _ rest), if_neg (by simp [htest])]

theorem reads_nextIs {test : Token → Bool} {b : Bool} :
    Reads (nextIs test) (· = b) [] (Starts fun t => test t = b) := by
  refine reads_ahead (q := pure b) (fun t span rest htest => ?_) (reads_pure rfl)
  rw [nextIs_cons, htest]
  rfl

theorem reads_skipNewlines_nil :
    Reads skipNewlines (fun _ => True) [] (Starts fun t => t.isNewline = false) := by
  refine reads_ahead (q := pure ()) (fun t span rest htest => ?_) (reads_pure trivial)
  have hdrop : (⟨t, span⟩ :: rest).dropWhile (fun l : Located => l.token.isNewline) =
      ⟨t, span⟩ :: rest := List.dropWhile_cons_of_neg (by simp [htest])
  exact congrArg (fun tokens => Except.ok ((), tokens)) hdrop

theorem reads_skipNewlines_newline :
    Reads skipNewlines (fun _ => True) [.newline] (Starts fun t => t.isNewline = false) :=
  reads_cons (q := fun _ => skipNewlines) (fun _ _ => rfl) fun _ => reads_skipNewlines_nil

end Combinators

/-! ### Rows of items -/

section Rows

variable {item : Parser α} {R : α → α → Prop} {write : α → List Token}
  {F inside : List Token → Prop}

/-- Further items of a row, each behind a comma. -/
theorem reads_moreItems {row : List α} (hitem : ∀ a ∈ row, Reads item (R a) (write a) inside)
    (hcomma : ∀ rest, inside (.mark .comma :: rest)) (hlast : ∀ rest, F rest → inside rest)
    (hstop : ∀ rest, F rest → Starts (fun t => t.isMark .comma = false) rest) (bound : Nat)
    (hbound : row.length ≤ bound) :
    Reads (moreItems item bound) (List.Forall₂ R row)
      ((row.map write).flatMap (.mark .comma :: ·)) F := by
  induction row generalizing bound with
  | nil =>
      cases bound with
      | zero => exact reads_pure .nil
      | succ bound =>
          refine reads_look reads_not_accept ?_ hstop
          rintro _ rfl
          exact reads_pure .nil
  | cons a row ih =>
      obtain ⟨bound, rfl⟩ : ∃ n, bound = n + 1 := ⟨bound - 1, by simp at hbound; omega⟩
      have hrow := ih (fun b hb => hitem b (List.mem_cons_of_mem a hb)) bound
        (Nat.le_of_succ_le_succ hbound)
      rw [List.map_cons, List.flatMap_cons, List.cons_append, ← List.singleton_append]
      refine reads_bind (reads_accept (F := fun _ => True) rfl) ?_ fun _ _ => trivial
      rintro _ rfl
      refine reads_bind (hitem a List.mem_cons_self) (fun b hb => ?_) ?_
      · exact reads_last hrow fun bs hbs => .cons hb hbs
      · intro rest hrest
        cases row with
        | nil => exact hlast rest hrest
        | cons b row => exact hcomma _

theorem length_le_flatMap_cons (t : Token) (texts : List (List Token)) :
    texts.length ≤ (texts.flatMap (t :: ·)).length := by
  induction texts with
  | nil => exact Nat.zero_le _
  | cons text texts ih =>
      rw [List.flatMap_cons, List.length_append, List.length_cons, List.length_cons]
      omega

/-- A row of at least one item. -/
theorem reads_items {a : α} {row : List α}
    (hitem : ∀ b ∈ a :: row, Reads item (R b) (write b) inside)
    (hcomma : ∀ rest, inside (.mark .comma :: rest)) (hlast : ∀ rest, F rest → inside rest)
    (hstop : ∀ rest, F rest → Starts (fun t => t.isMark .comma = false) rest) :
    Reads (items item) (List.Forall₂ R (a :: row))
      (Token.separated (.mark .comma) ((a :: row).map write)) F := by
  refine reads_bind (hitem a List.mem_cons_self) (fun b hb => ?_) ?_
  · refine reads_get_bind fun tokens htokens => ?_
    have hlength : row.length ≤ tokens.length := by
      have hle := length_le_flatMap_cons (.mark .comma) (row.map write)
      rw [List.length_map] at hle
      omega
    refine reads_last (reads_moreItems ?_ hcomma hlast hstop tokens.length hlength) fun bs hbs =>
      .cons hb hbs
    exact fun b hmem => hitem b (List.mem_cons_of_mem a hmem)
  · intro rest hrest
    cases row with
    | nil => exact hlast rest hrest
    | cons b row => exact hcomma _

/-- The elements of a list and the bracket behind them. -/
theorem reads_elements {item : Parser Node} {R : Node → Node → Prop} {write : Node → List Token}
    {a : Node} {row : List Node} (hitem : ∀ b ∈ a :: row, Reads item (R b) (write b) inside)
    (hcomma : ∀ rest, inside (.mark .comma :: rest))
    (hclose : ∀ rest, inside (.mark .closeBracket :: rest)) (bound : Nat)
    (hbound : row.length < bound) :
    Reads (elements item bound) (fun read => List.Forall₂ R (a :: row) read.1)
      (Token.separated (.mark .comma) ((a :: row).map write) ++ [.mark .closeBracket]) F := by
  induction row generalizing a bound with
  | nil =>
      obtain ⟨bound, rfl⟩ : ∃ n, bound = n + 1 := ⟨bound - 1, by omega⟩
      have htext : Token.separated (.mark .comma) ([a].map write) = write a := by
        simp [Token.separated]
      rw [htext]
      refine reads_bind (hitem a List.mem_cons_self) (fun first hfirst => ?_) fun rest _ => hclose _
      exact reads_cons (fun _ _ => rfl) fun _ => reads_pure (.cons hfirst .nil)
  | cons b row ih =>
      obtain ⟨bound, rfl⟩ : ∃ n, bound = n + 1 := ⟨bound - 1, by omega⟩
      have htext : Token.separated (.mark .comma) ((a :: b :: row).map write) ++
          [.mark .closeBracket] = write a ++ .mark .comma ::
            (Token.separated (.mark .comma) ((b :: row).map write) ++ [.mark .closeBracket]) := by
        simp [Token.separated]
      rw [htext]
      refine reads_bind (hitem a List.mem_cons_self) (fun first hfirst => ?_) fun rest _ => hcomma _
      refine reads_cons (q := fun _ => elements item bound >>= fun read =>
        pure (first :: read.1, read.2)) (fun _ _ => rfl) fun _ => ?_
      exact reads_last (ih (fun c hc => hitem c (List.mem_cons_of_mem a hc)) bound (by
        rw [List.length_cons] at hbound
        omega)) fun read hread => .cons hfirst hread

end Rows

/-! ### Chains of operands -/

section Chains

variable {operand : Parser Node} {P : Node → Prop} {F : List Token → Prop}

/-- The token is no operator that binds as tightly as `looseness`. -/
def Looser (looseness : Nat) (t : Token) : Prop :=
  ∀ op, t.binaryOp? = some op → looseness < op.looseness

theorem Looser.of_le {looseness other : Nat} {t : Token} (h : Looser looseness t)
    (hle : other ≤ looseness) : Looser other t :=
  fun op hop => Nat.lt_of_le_of_lt hle (h op hop)

/-- A chain ends before a looser operator. -/
theorem reads_moreOperands_nil {left : Node} (hleft : P left) (looseness bound : Nat) :
    Reads (moreOperands operand looseness left bound) P [] (Starts (Looser looseness)) := by
  cases bound with
  | zero => exact reads_pure hleft
  | succ bound =>
      refine reads_ahead (q := pure left) (fun t span rest hloose => ?_) (reads_pure hleft)
      rw [moreOperands, bind_of_ok (get_apply _)]
      cases hop : t.binaryOp? with
      | none => simp only [List.head?_cons, Option.bind_some, hop]
      | some op =>
          simp only [List.head?_cons, Option.bind_some, hop]
          rw [if_neg (Nat.ne_of_gt (hloose op hop))]

/-- A chain of one operand. -/
theorem reads_chain {text : List Token} (hoperand : Reads operand P text F) (looseness : Nat)
    (hloose : ∀ rest, F rest → Starts (Looser looseness) rest) :
    Reads (chain operand looseness) P text F := by
  induction looseness with
  | zero => exact hoperand
  | succ looseness ih =>
      have hle := Nat.le_succ looseness
      have hchain := ih fun rest hrest => (hloose rest hrest).imp fun t ht => ht.of_le hle
      rw [← List.append_nil text]
      refine reads_bind hchain (fun left hleft => reads_get_bind fun tokens _ => ?_) fun _ h => h
      exact (reads_moreOperands_nil hleft _ _).imp hloose fun _ h => h

/-- A chain of two operands with an operator between them. -/
theorem reads_chain_binary {text other : List Token} {Q R : Node → Prop} {op : BinaryOp}
    (hleft : Reads operand Q text fun _ => True) (hright : Reads operand R other fun _ => True)
    (hjoin : ∀ span left right, Q left → R right → P (.binary span op left right))
    (looseness : Nat) (hop : op.looseness ≤ looseness)
    (hloose : ∀ rest, F rest → Starts (Looser looseness) rest) :
    Reads (chain operand looseness) P (text ++ op.token :: other) F := by
  induction looseness with
  | zero => exact absurd op.looseness_pos (by omega)
  | succ looseness ih =>
      by_cases hlast : op.looseness = looseness + 1
      · have hahead : ∀ rest, Starts (Looser looseness) (op.token :: (other ++ rest)) := by
          intro rest
          refine starts_cons.mpr fun op' hop' => ?_
          rw [op.binaryOp?_token] at hop'
          cases hop'
          omega
        have hoperand := reads_chain (hleft.imp (fun _ _ => trivial) fun _ h => h) looseness
          fun _ h => h
        refine reads_bind hoperand (fun left hl => reads_get_bind fun tokens htokens => ?_)
          fun rest _ => hahead rest
        obtain ⟨bound, hbound⟩ : ∃ n, tokens.length = n + 1 :=
          ⟨tokens.length - 1, by simp at htokens; omega⟩
        rw [hbound]
        refine reads_cons (q := fun _ => chain operand looseness >>= fun right =>
          moreOperands (chain operand looseness) (looseness + 1)
            (.binary (left.span.through right.span) op left right) bound)
          (fun span rest => ?_) fun _ => ?_
        · rw [moreOperands, bind_of_ok (get_apply _)]
          simp only [List.head?_cons, Option.bind_some, op.binaryOp?_token, hlast, if_true]
          rfl
        · have hoperand' := reads_chain (hright.imp (fun _ _ => trivial) fun _ h => h) looseness
            fun rest hrest => (hloose rest hrest).imp fun t ht => ht.of_le (Nat.le_succ _)
          rw [← List.append_nil other]
          refine reads_bind hoperand' (fun right hr => ?_) fun _ h => h
          exact (reads_moreOperands_nil (hjoin _ _ _ hl hr) _ _).imp hloose fun _ h => h
      · have hchain := ih (by omega) fun rest hrest =>
          (hloose rest hrest).imp fun t ht => ht.of_le (Nat.le_succ _)
        rw [← List.append_nil (text ++ _)]
        refine reads_bind hchain (fun left hl => reads_get_bind fun tokens _ => ?_) fun _ h => h
        exact (reads_moreOperands_nil hl _ _).imp hloose fun _ h => h

end Chains

/-! ### Blocks -/

theorem Starts.append {test : Token → Prop} {text : List Token} (h : Starts test text)
    (rest : List Token) : Starts test (text ++ rest) := by
  obtain ⟨t, more, rfl, htest⟩ := h
  exact ⟨t, more ++ rest, rfl, htest⟩

/-- No choice, call or loop goes on behind an expression, nor does its chain of operands. -/
def Stops : List Token → Prop :=
  Starts fun t => t.binaryOp? = none ∧ t.isKeyword .ifWord = false ∧ t.isMark .colon = false ∧
    t.isMark .bang = false ∧ t.isKeyword .forWord = false

/-- A statement ends, and no other branch follows it. -/
def EndsStatement (more : List Token) : Prop :=
  Starts (fun t => t = .newline ∨ t = .mark .closeBrace ∨ t = .finish) more ∧
    Starts (fun t => t.isKeyword .elseWord = false) (more.dropWhile Token.isNewline)

theorem Stops.looser {more : List Token} (h : Stops more) : Starts (Looser 5) more :=
  h.imp fun t ht op hop => by simp [ht.1] at hop

theorem EndsStatement.stops {more : List Token} (h : EndsStatement more) : Stops more := by
  refine h.1.imp fun t ht => ?_
  rcases ht with rfl | rfl | rfl <;> exact ⟨rfl, rfl, rfl, rfl, rfl⟩

theorem endsStatement_closeBrace (more : List Token) :
    EndsStatement (.mark .closeBrace :: more) :=
  ⟨starts_cons.mpr (.inr (.inl rfl)), starts_cons.mpr rfl⟩

theorem endsStatement_finish (more : List Token) : EndsStatement (.finish :: more) :=
  ⟨starts_cons.mpr (.inr (.inr rfl)), starts_cons.mpr rfl⟩

theorem endsStatement_newline {more : List Token} (h : Starts (fun t => t.closes = false) more) :
    EndsStatement (.newline :: more) := by
  obtain ⟨t, rest, rfl, hopens⟩ := h
  refine ⟨starts_cons.mpr (.inl rfl), ?_⟩
  have hdrop : (Token.newline :: t :: rest).dropWhile Token.isNewline = t :: rest := by
    cases t with
    | newline => cases hopens
    | _ => rfl
  rw [hdrop, starts_cons]
  cases t with
  | keyword word =>
      cases word with
      | elseWord => cases hopens
      | _ => rfl
  | _ => rfl

end Parser

/-- The text of a statement starts with no token that closes anything. -/
theorem Node.starts_placed {node : Node} {phrase : Phrase} (h : node.Normal phrase) :
    Parser.Starts (fun t => t.closes = false) (node.placed node.written) := by
  by_cases halone : node.standsAlone
  · rw [placed, if_pos halone]
    cases node with
    | conditional _ producesValue =>
        cases producesValue with
        | true => cases halone
        | false => exact Parser.starts_cons.mpr rfl
    | forLoop _ _ comprehension =>
        cases comprehension with
        | true => cases halone
        | false => exact Parser.starts_cons.mpr rfl
    | assign | block | function | result | stopLoop | nextTurn | whileLoop =>
        exact Parser.starts_cons.mpr rfl
    | declaration => exact h.elim
    | _ => cases halone
  · rw [placed, if_neg halone]
    exact Parser.starts_cons.mpr rfl

namespace Parser

theorem starts_not_newline {more : List Token} (h : Starts (fun t => t.closes = false) more) :
    Starts (fun t => t.isNewline = false) more :=
  h.imp fun t ht => by
    cases t with
    | newline => cases ht
    | _ => rfl

theorem starts_not_closeBrace {more : List Token} (h : Starts (fun t => t.closes = false) more) :
    Starts (fun t => t.isMark .closeBrace = false) more :=
  h.imp fun t ht => by
    cases t with
    | mark sign =>
        cases sign with
        | closeBrace => cases ht
        | _ => rfl
    | _ => rfl

/-- The text of further statements goes on where a statement may end. -/
theorem endsStatement_more {row : List Node}
    (hstart : ∀ node ∈ row, Starts (fun t => t.closes = false) (node.placed node.written))
    {more : List Token} (hmore : EndsStatement more) :
    EndsStatement
      ((row.map fun node => node.placed node.written).flatMap (.newline :: ·) ++ more) := by
  cases row with
  | nil => exact hmore
  | cons node row =>
      have hnode := (hstart node List.mem_cons_self).append
        ((row.map fun node => node.placed node.written).flatMap (.newline :: ·) ++ more)
      rw [List.map_cons, List.flatMap_cons, List.append_assoc]
      exact endsStatement_newline hnode

/-- Further statements of a block, each behind a line break. -/
theorem reads_moreStatements {statement : Parser Node} {row : List Node}
    (hstart : ∀ node ∈ row, Starts (fun t => t.closes = false) (node.placed node.written))
    (hstatement : ∀ node ∈ row,
      Reads statement node.Alike (node.placed node.written) EndsStatement)
    (bound : Nat) (hbound : row.length ≤ bound) :
    Reads (moreStatements statement bound) (List.Forall₂ Node.Alike row)
      ((row.map fun node => node.placed node.written).flatMap (.newline :: ·))
      (Starts (· = .mark .closeBrace)) := by
  induction row generalizing bound with
  | nil =>
      cases bound with
      | zero => exact reads_pure .nil
      | succ bound =>
          refine reads_look (reads_nextIs (b := false)) ?_ fun rest hrest =>
            hrest.imp fun t ht => ht ▸ rfl
          rintro _ rfl
          exact reads_pure .nil
  | cons node row ih =>
      obtain ⟨bound, rfl⟩ : ∃ n, bound = n + 1 := ⟨bound - 1, by simp at hbound; omega⟩
      have hnode := hstart node List.mem_cons_self
      have hothers := fun other h => hstart other (List.mem_cons_of_mem node h)
      have hrow := ih hothers (fun other h => hstatement other (List.mem_cons_of_mem node h)) bound
        (Nat.le_of_succ_le_succ hbound)
      rw [List.map_cons, List.flatMap_cons, List.cons_append]
      refine reads_look (reads_nextIs (b := true)) ?_ fun rest _ => starts_cons.mpr rfl
      rintro _ rfl
      rw [← List.singleton_append]
      refine reads_bind reads_skipNewlines_newline (fun _ _ => ?_) fun rest _ => ?_
      · refine reads_look (reads_nextIs (b := false)) ?_ fun rest _ => ?_
        · rintro _ rfl
          refine reads_bind (hstatement node List.mem_cons_self) (fun first hfirst => ?_) ?_
          · exact reads_last hrow fun others hsame => .cons hfirst hsame
          · rintro _ ⟨t, rest, rfl, rfl⟩
            exact endsStatement_more hothers (endsStatement_closeBrace rest)
        · exact starts_not_closeBrace ((hnode.append _).append rest)
      · exact starts_not_newline ((hnode.append _).append rest)

end Parser

end CapsuleScript
