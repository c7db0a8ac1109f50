import CapsuleScript.Proofs.Node.RoundTrip
import CapsuleScript.Proofs.Token.Joining

/-! Reading a text that goes on. A text that ends where a line may end can be followed by a new line
with more of it; then there are more tokens where its last one was. A reader that takes something
from the shorter text takes the same from the longer one, if each part of it does and if it does not
take the end of a text and the end of a line for different things. -/

namespace CapsuleScript

open Token

/-! ### Tokens that go on -/

/-- What may stand where a text ends: its end or a new line, which does not go on with the other
branch of a choice. -/
structure Token.Resumes (rest : List Located) : Prop where
  head : ∃ token span more, rest = ⟨token, span⟩ :: more ∧ (token = .newline ∨ token = .finish)
  not_else : ∀ span more,
    rest.dropWhile (fun t => t.token.isNewline) ≠ ⟨.keyword .elseWord, span⟩ :: more

namespace Token.Continues

variable {rest tokens tokens' : List Located}

theorem length_eq (h : Continues rest tokens tokens') :
    tokens'.length + 1 = tokens.length + rest.length := by
  induction h with
  | finish span => simp only [List.length_cons, List.length_nil]; omega
  | cons _ _ _ _ ih => simp only [List.length_cons]; omega

theorem length_le (h : Continues rest tokens tokens') (hrest : Resumes rest) :
    tokens.length ≤ tokens'.length := by
  obtain ⟨token, span, more, rfl, -⟩ := hrest.head
  have hlength := h.length_eq
  rw [List.length_cons] at hlength
  omega

theorem length_pos (h : Continues rest tokens tokens') : 0 < tokens.length := by
  cases h with
  | finish span => exact Nat.zero_lt_one
  | cons => exact Nat.succ_pos _

/-- There is a token at least, so a bound on their number is not used up. -/
theorem exists_eq_succ (h : Continues rest tokens tokens') {bound : Nat}
    (hbound : tokens.length ≤ bound) : ∃ n, bound = n + 1 :=
  Nat.exists_eq_add_of_le' (Nat.le_trans h.length_pos hbound)

/-- Behind the next line breaks there is the same token, or the end of the first text. -/
theorem dropWhile (h : Continues rest tokens tokens') :
    (∃ token span span' more more', token ≠ .finish ∧
      tokens.dropWhile (fun t => t.token.isNewline) = ⟨token, span⟩ :: more ∧
      tokens'.dropWhile (fun t => t.token.isNewline) = ⟨token, span'⟩ :: more' ∧
      more.length < tokens.length ∧ Continues rest more more') ∨
    ∃ span, tokens.dropWhile (fun t => t.token.isNewline) = [⟨.finish, span⟩] ∧
      tokens'.dropWhile (fun t => t.token.isNewline) =
        rest.dropWhile (fun t => t.token.isNewline) := by
  induction h with
  | finish span => exact .inr ⟨span, rfl, rfl⟩
  | @cons token more more' span span' hfinish hmore ih =>
      cases hnewline : token.isNewline with
      | true =>
          simp only [List.dropWhile_cons, hnewline, if_true, List.length_cons]
          rcases ih with ⟨t, s, s', after, after', hne, hdrop, hdrop', hlt, hafter⟩ | hend
          · exact .inl ⟨t, s, s', after, after', hne, hdrop, hdrop', Nat.lt_succ_of_lt hlt, hafter⟩
          · exact .inr hend
      | false =>
          simp only [List.dropWhile_cons, hnewline]
          exact .inl ⟨token, span, span', more, more', hfinish, rfl, rfl, Nat.lt_succ_self _, hmore⟩

end Token.Continues

namespace Parser

variable {α β : Type} {rest tokens tokens' : List Located}

/-! ### Readers that do the same on a longer text -/

/-- If the first reader takes something from the tokens, the second takes from the others what is the
same to `R`, and both are left with tokens of which the others go on with `rest`. -/
def Follows (rest : List Located) (p p' : Parser α) (R : α → α → Prop)
    (tokens tokens' : List Located) : Prop :=
  ∀ a left, p tokens = .ok (a, left) → left.length ≤ tokens.length ∧
    ∃ a' left', p' tokens' = .ok (a', left') ∧ R a a' ∧ Continues rest left left'

section Combinators

variable {p p' : Parser α} {q q' : Parser β} {next next' : α → Parser β} {R : α → α → Prop}
  {Q : β → β → Prop}

theorem follows_pure {a a' : α} (htokens : Continues rest tokens tokens') (ha : R a a') :
    Follows rest (pure a) (pure a') R tokens tokens' := by
  intro b left h
  cases h
  exact ⟨Nat.le_refl _, a', tokens', rfl, ha, htokens⟩

theorem follows_of_error {e : SourceError} (h : p tokens = .error e) :
    Follows rest p p' R tokens tokens' := by
  intro a left hread
  rw [h] at hread
  cases hread

theorem Follows.imp {R' : α → α → Prop} (hp : Follows rest p p' R tokens tokens')
    (himp : ∀ a a', R a a' → R' a a') : Follows rest p p' R' tokens tokens' := by
  intro a left h
  obtain ⟨hle, a', left', hread, ha, hleft⟩ := hp a left h
  exact ⟨hle, a', left', hread, himp a a' ha, hleft⟩

theorem bind_of_error {e : SourceError} (h : p tokens = .error e) :
    (p >>= next) tokens = .error e := by
  simp only [bind, StateT.bind, h, Except.bind]

theorem follows_bind (hp : Follows rest p p' R tokens tokens')
    (hnext : ∀ {a a' left left'}, left.length ≤ tokens.length → Continues rest left left' → R a a' →
      Follows rest (next a) (next' a') Q left left') :
    Follows rest (p >>= next) (p' >>= next') Q tokens tokens' := by
  intro b last h
  cases hread : p tokens with
  | error e =>
      rw [bind_of_error hread] at h
      cases h
  | ok result =>
      obtain ⟨a, left⟩ := result
      obtain ⟨hle, a', left', hread', ha, hleft⟩ := hp a left hread
      rw [bind_of_ok hread] at h
      obtain ⟨hle', hlast⟩ := hnext hle hleft ha b last h
      rw [bind_of_ok hread']
      exact ⟨Nat.le_trans hle' hle, hlast⟩

/-- Both readers skip some tokens and go on as others do. -/
theorem follows_of_eq {p p' : Parser β} {more more' : List Located} (hp : p tokens = q more)
    (hp' : p' tokens' = q' more') (hle : more.length ≤ tokens.length)
    (hq : Follows rest q q' Q more more') : Follows rest p p' Q tokens tokens' := by
  intro b left h
  rw [hp] at h
  obtain ⟨hleft, hread⟩ := hq b left h
  rw [hp']
  exact ⟨Nat.le_trans hleft hle, hread⟩

/-- Readers that look at the next token: it is the same on both sides, or the first text is at its
end. -/
theorem follows_peek {next next' : Located → Parser β} (hrest : Resumes rest)
    (htokens : Continues rest tokens tokens')
    (hfinish : ∀ {token span span'}, token = .newline ∨ token = .finish →
      Follows rest (next ⟨.finish, span⟩) (next' ⟨token, span'⟩) Q tokens tokens')
    (htoken : ∀ {token span span' more more'}, token ≠ .finish → more.length < tokens.length →
      Continues rest more more' → Follows rest (next ⟨token, span⟩) (next' ⟨token, span'⟩) Q
        (⟨token, span⟩ :: more) (⟨token, span'⟩ :: more')) :
    Follows rest (peek >>= next) (peek >>= next') Q tokens tokens' := by
  cases htokens with
  | finish span =>
      obtain ⟨token, span', more, rfl, hends⟩ := hrest.head
      exact fun b left h => hfinish hends b left h
  | cons span span' hne hmore => exact fun b left h => htoken hne (Nat.lt_succ_self _) hmore b left h

/-- Both readers take the next token. -/
theorem follows_advance {more more' : List Located} {l l' : Located}
    (hq : Follows rest q q' Q more more') :
    Follows rest (advance >>= fun _ => q) (advance >>= fun _ => q') Q (l :: more) (l' :: more') := by
  intro b left h
  obtain ⟨hle, hread⟩ := hq b left h
  exact ⟨Nat.le_succ_of_le hle, hread⟩

theorem follows_get {next next' : List Located → Parser β}
    (h : Follows rest (next tokens) (next' tokens') Q tokens tokens') :
    Follows rest (get >>= next) (get >>= next') Q tokens tokens' :=
  fun b left hread => h b left hread

/-- Both readers skip the tokens up to some later ones. -/
theorem follows_set {more more' : List Located} (hlt : more.length < tokens.length)
    (hq : Follows rest q q' Q more more') :
    Follows rest (set more >>= fun _ => q) (set more' >>= fun _ => q') Q tokens tokens' := by
  have hset : ∀ {q : Parser β} {tokens more : List Located},
      (set more >>= fun _ => q) tokens = q more := rfl
  exact follows_of_eq hset hset (Nat.le_of_lt hlt) hq

theorem follows_expect {test : Token → Bool} {expectation : Expectation} (hrest : Resumes rest)
    (hfinish : test .finish = false) (htokens : Continues rest tokens tokens') :
    Follows rest (expect test expectation) (expect test expectation) (fun _ _ => True) tokens
      tokens' := by
  refine follows_peek hrest htokens ?_ ?_
  · intro token span span' _
    rw [hfinish]
    exact follows_of_error rfl
  · intro token span span' more more' _ _ hmore
    cases test token with
    | true => exact follows_advance (follows_pure hmore trivial)
    | false => exact follows_of_error rfl

theorem accept_of_pos {test : Token → Bool} {token : Token} {span : Span} {more : List Located}
    (h : test token = true) : accept test (⟨token, span⟩ :: more) = .ok (true, more) := by
  rw [accept, bind_of_ok (nextIs_cons ..), h]
  rfl

theorem accept_of_neg {test : Token → Bool} {token : Token} {span : Span} {more : List Located}
    (h : test token = false) :
    accept test (⟨token, span⟩ :: more) = .ok (false, ⟨token, span⟩ :: more) := by
  rw [accept, bind_of_ok (nextIs_cons ..), h]
  rfl

/-- A token that may be left out, which is none of those at the end of a line. -/
theorem follows_accept {test : Token → Bool} {yes yes' no no' : Parser β} (hrest : Resumes rest)
    (hnewline : test .newline = false) (hfinish : test .finish = false)
    (htokens : Continues rest tokens tokens')
    (hyes : ∀ {more more'}, more.length < tokens.length → Continues rest more more' →
      Follows rest yes yes' Q more more')
    (hno : Follows rest no no' Q tokens tokens') :
    Follows rest (accept test >>= fun b => if b then yes else no)
      (accept test >>= fun b => if b then yes' else no') Q tokens tokens' := by
  cases htokens with
  | finish span =>
      obtain ⟨token, span', more, rfl, hends⟩ := hrest.head
      have htest : test token = false := by rcases hends with rfl | rfl <;> assumption
      intro b left h
      rw [bind_of_ok (accept_of_neg hfinish)] at h
      rw [bind_of_ok (accept_of_neg htest)]
      exact hno b left h
  | @cons token more more' span span' hne hmore =>
      intro b left h
      cases htest : test token with
      | true =>
          rw [bind_of_ok (accept_of_pos htest)] at h
          rw [bind_of_ok (accept_of_pos htest)]
          obtain ⟨hle, hread⟩ := hyes (Nat.lt_succ_self _) hmore b left h
          exact ⟨Nat.le_succ_of_le hle, hread⟩
      | false =>
          rw [bind_of_ok (accept_of_neg htest)] at h
          rw [bind_of_ok (accept_of_neg htest)]
          exact hno b left h

theorem follows_name (hrest : Resumes rest) (htokens : Continues rest tokens tokens') :
    Follows rest name name (fun a a' => a'.1 = a.1) tokens tokens' := by
  refine follows_peek hrest htokens (fun _ => follows_of_error rfl) ?_
  intro token span span' more more' _ _ hmore
  cases token with
  | name word => exact follows_advance (follows_pure hmore rfl)
  | _ => exact follows_of_error rfl

end Combinators

/-! ### Rows and chains -/

section Repetitions

variable {bound bound' : Nat}

theorem follows_moreItems {item item' : Parser α} {R : α → α → Prop} (hrest : Resumes rest)
    (hitem : ∀ {tokens tokens'}, Continues rest tokens tokens' →
      Follows rest item item' R tokens tokens')
    (htokens : Continues rest tokens tokens') (hbound : tokens.length ≤ bound)
    (hbound' : tokens.length ≤ bound') :
    Follows rest (moreItems item bound) (moreItems item' bound') (List.Forall₂ R) tokens
      tokens' := by
  induction bound generalizing bound' tokens tokens' with
  | zero => exact absurd htokens.length_pos (by omega)
  | succ bound ih =>
      obtain ⟨bound', rfl⟩ := htokens.exists_eq_succ hbound'
      refine follows_accept hrest rfl rfl htokens ?_ (follows_pure htokens .nil)
      intro more more' hlt hmore
      refine follows_bind (hitem hmore) ?_
      intro first first' left left' hle hleft hfirst
      refine follows_bind (ih hleft (by omega) (by omega)) ?_
      intro others others' last last' _ hlast hothers
      exact follows_pure hlast (.cons hfirst hothers)

theorem follows_items {item item' : Parser α} {R : α → α → Prop} (hrest : Resumes rest)
    (hitem : ∀ {tokens tokens'}, Continues rest tokens tokens' →
      Follows rest item item' R tokens tokens')
    (htokens : Continues rest tokens tokens') :
    Follows rest (items item) (items item') (List.Forall₂ R) tokens tokens' := by
  refine follows_bind (hitem htokens) ?_
  intro first first' left left' _ hleft hfirst
  refine follows_get ?_
  refine follows_bind (follows_moreItems hrest hitem hleft (Nat.le_refl _) (hleft.length_le hrest)) ?_
  intro others others' last last' _ hlast hothers
  exact follows_pure hlast (.cons hfirst hothers)

theorem follows_elements {item item' : Parser Node} (hrest : Resumes rest)
    (hitem : ∀ {tokens tokens'}, Continues rest tokens tokens' →
      Follows rest item item' Node.Alike tokens tokens')
    (htokens : Continues rest tokens tokens') (hbound : tokens.length ≤ bound)
    (hbound' : tokens.length ≤ bound') :
    Follows rest (elements item bound) (elements item' bound')
      (fun a a' => List.Forall₂ Node.Alike a.1 a'.1) tokens tokens' := by
  induction bound generalizing bound' tokens tokens' with
  | zero => exact absurd htokens.length_pos (by omega)
  | succ bound ih =>
      obtain ⟨bound', rfl⟩ := htokens.exists_eq_succ hbound'
      refine follows_bind (hitem htokens) ?_
      intro first first' left left' hle hleft hfirst
      refine follows_peek hrest hleft (fun _ => follows_of_error rfl) ?_
      intro token span span' more more' _ hlt hmore
      cases token.isMark .comma with
      | true =>
          refine follows_advance (follows_bind (ih hmore (by omega) (by omega)) ?_)
          intro others others' last last' _ hlast hothers
          exact follows_pure hlast (.cons hfirst hothers)
      | false =>
          cases token.isMark .closeBracket with
          | true => exact follows_advance (follows_pure hmore (.cons hfirst .nil))
          | false => exact follows_of_error rfl

theorem follows_moreOperands {operand operand' : Parser Node} {looseness : Nat} {left left' : Node}
    (hrest : Resumes rest)
    (hoperand : ∀ {tokens tokens'}, Continues rest tokens tokens' →
      Follows rest operand operand' Node.Alike tokens tokens')
    (hleft : left.Alike left')
    (htokens : Continues rest tokens tokens') (hbound : tokens.length ≤ bound)
    (hbound' : tokens.length ≤ bound') :
    Follows rest (moreOperands operand looseness left bound)
      (moreOperands operand' looseness left' bound') Node.Alike tokens tokens' := by
  induction bound generalizing bound' tokens tokens' left left' with
  | zero => exact absurd htokens.length_pos (by omega)
  | succ bound ih =>
      obtain ⟨bound', rfl⟩ := htokens.exists_eq_succ hbound'
      refine follows_get ?_
      cases htokens with
      | finish span =>
          obtain ⟨token, span', more, rfl, hends⟩ := hrest.head
          have hop : token.binaryOp? = none := by rcases hends with rfl | rfl <;> rfl
          simp only [List.head?_cons, Option.bind_some, hop]
          exact follows_pure (.finish span) hleft
      | @cons token more more' span span' hne hmore =>
          simp only [List.head?_cons, Option.bind_some]
          cases token.binaryOp? with
          | none => exact follows_pure (.cons span span' hne hmore) hleft
          | some op =>
              by_cases hlooseness : op.looseness = looseness
              · simp only [hlooseness, if_true]
                refine follows_advance ?_
                refine follows_bind (hoperand hmore) ?_
                intro right right' last last' hle hlast hright
                rw [List.length_cons] at hbound hbound'
                refine ih ?_ hlast (by omega) (by omega)
                simp only [Node.Alike, Node.bare] at hleft hright ⊢
                rw [hleft, hright]
              · simp only [hlooseness, if_false]
                exact follows_pure (.cons span span' hne hmore) hleft

theorem follows_chain {operand operand' : Parser Node} (hrest : Resumes rest)
    (hoperand : ∀ {tokens tokens'}, Continues rest tokens tokens' →
      Follows rest operand operand' Node.Alike tokens tokens') (looseness : Nat)
    (htokens : Continues rest tokens tokens') :
    Follows rest (chain operand looseness) (chain operand' looseness) Node.Alike tokens
      tokens' := by
  induction looseness generalizing tokens tokens' with
  | zero => exact hoperand htokens
  | succ looseness ih =>
      refine follows_bind (ih htokens) ?_
      intro left left' more more' _ hmore hleft
      exact follows_get (follows_moreOperands hrest ih hleft hmore (Nat.le_refl _)
        (hmore.length_le hrest))

theorem moreStatements_of_not_newline {item : Parser Node} {l : Located} {more : List Located}
    (h : l.token.isNewline = false) :
    moreStatements item (bound + 1) (l :: more) = .ok ([], l :: more) := by
  rw [moreStatements, bind_of_ok (nextIs_cons ..), h]
  rfl

theorem moreStatements_bind_of_newline {item : Parser Node} {next : List Node → Parser β}
    {l t : Located} {more after : List Located} (h : l.token.isNewline = true)
    (hdrop : more.dropWhile (fun t => t.token.isNewline) = t :: after) :
    (moreStatements item (bound + 1) >>= next) (l :: more) =
      (if t.token.isMark .closeBrace then next []
      else item >>= fun first => moreStatements item bound >>= fun others =>
        next (first :: others)) (t :: after) := by
  have hskip : skipNewlines (l :: more) = .ok ((), t :: after) := by
    have hwhole : (l :: more).dropWhile (fun t => t.token.isNewline) = t :: after := by
      simp only [List.dropWhile_cons, h, if_true, hdrop]
    rw [← hwhole]
    rfl
  rw [moreStatements, bind_assoc, bind_of_ok (nextIs_cons ..), h, if_pos rfl, bind_assoc,
    bind_of_ok hskip, bind_assoc, bind_of_ok (nextIs_cons ..)]
  cases t.token.isMark .closeBrace with
  | true => rfl
  | false => simp only [Bool.false_eq_true, if_false, bind_assoc, pure_bind]

/-- The statements of a block up to the brace that closes it. Without one the first text would be
read no further, so what reads on has to fail at its end. -/
theorem follows_moreStatements {item item' : Parser Node} {next next' : List Node → Parser β}
    {Q : β → β → Prop}
    (hitem : ∀ {tokens tokens'}, Continues rest tokens tokens' →
      Follows rest item item' Node.Alike tokens tokens')
    (hstop : ∀ span, ∃ e, item [⟨.finish, span⟩] = .error e)
    (hnext : ∀ {nodes others tokens tokens'}, Continues rest tokens tokens' →
      List.Forall₂ Node.Alike nodes others →
      Follows rest (next nodes) (next' others) Q tokens tokens')
    (hend : ∀ nodes span, ∃ e, next nodes [⟨.finish, span⟩] = .error e)
    (htokens : Continues rest tokens tokens') (hbound : tokens.length ≤ bound)
    (hbound' : tokens.length ≤ bound') :
    Follows rest (moreStatements item bound >>= next) (moreStatements item' bound' >>= next') Q
      tokens tokens' := by
  induction bound generalizing bound' tokens tokens' next next' with
  | zero => exact absurd htokens.length_pos (by omega)
  | succ bound ih =>
      obtain ⟨bound', rfl⟩ := htokens.exists_eq_succ hbound'
      cases htokens with
      | finish span =>
          intro b left h
          obtain ⟨e, he⟩ := hend [] span
          rw [bind_of_ok (moreStatements_of_not_newline rfl), he] at h
          cases h
      | @cons token more more' span span' hne hmore =>
          cases hnewline : token.isNewline with
          | false =>
              intro b left h
              rw [bind_of_ok (moreStatements_of_not_newline hnewline)] at h
              rw [bind_of_ok (moreStatements_of_not_newline hnewline)]
              exact hnext (.cons span span' hne hmore) .nil b left h
          | true =>
              rcases hmore.dropWhile with
                ⟨t, s, s', after, after', hfinish, hdrop, hdrop', hlt, hafter⟩ | ⟨s, hdrop, -⟩
              · have hinside := Continues.cons s s' hfinish hafter
                refine follows_of_eq (moreStatements_bind_of_newline hnewline hdrop)
                  (moreStatements_bind_of_newline hnewline hdrop') (Nat.le_succ_of_le hlt) ?_
                cases t.isMark .closeBrace with
                | true => exact hnext hinside .nil
                | false =>
                    refine follows_bind (hitem hinside) ?_
                    intro first first' left left' hle hleft hfirst
                    rw [List.length_cons] at hle hbound hbound'
                    refine ih ?_ (fun nodes => hend (first :: nodes)) hleft (by omega) (by omega)
                    exact fun hlast hothers => hnext hlast (.cons hfirst hothers)
              · obtain ⟨e, he⟩ := hstop s
                exact follows_of_error
                  ((moreStatements_bind_of_newline hnewline hdrop).trans (bind_of_error he))

end Repetitions

end Parser

end CapsuleScript
