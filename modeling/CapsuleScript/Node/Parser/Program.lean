import CapsuleScript.Node.Parser.Phrase

/-! Programs. Phrases call for others only after they have taken a token, so a text of `n` tokens
never nests phrases deeper than `n`; reading to that depth is reading to any depth. -/

namespace CapsuleScript

namespace Parser

/-- Reads a phrase with at most `depth` phrases inside each other. Without any depth left there is
no token left. -/
def phrase : Nat → Phrase → Parser Node
  | 0, _ => throw .endOfTokens
  | depth + 1, .expression => expression (phrase depth)
  | depth + 1, .statement mayDeclare => statement (phrase depth) mayDeclare
  | depth + 1, .signed => signed (phrase depth)

/-- A name of the program and the statement whose value it is bound to. -/
def declaration (sub : Phrase → Parser Node) : Parser Node := do
  let (name, start) ← name
  let _ ← expect (Token.isMark .equals) .equals
  let value ← sub (.statement true)
  return .assign (start.through value.span) name true value

/-- The declarations up to the end of the text. -/
def declarations (sub : Phrase → Parser Node) : Nat → Parser (List Node)
  | 0 => throw .endOfTokens
  | bound + 1 => do
    skipNewlines
    let t ← peek
    if t.token.isFinish then return []
    else
      let first ← declaration sub
      return first :: (← declarations sub bound)

end Parser

/-- The program that a list of tokens is: declarations up to the token at the end of the text. -/
def Node.ofTokens (tokens : List Located) : Except SourceError Node :=
  match tokens.head?, tokens.getLast? with
  | some first, some last => do
    let (statements, _) ←
      (Parser.declarations (Parser.phrase tokens.length) tokens.length).run tokens
    return .block (first.span.through last.span) true statements
  | _, _ => .error .endOfTokens

/-- A program goes from its first token to its last one. -/
theorem Node.eq_block_of_ofTokens {tokens : List Located} {program : Node}
    (h : Node.ofTokens tokens = .ok program) : ∃ first last statements rest,
      tokens.head? = some first ∧ tokens.getLast? = some last ∧
      Parser.declarations (Parser.phrase tokens.length) tokens.length tokens =
        .ok (statements, rest) ∧
      program = .block (first.span.through last.span) true statements := by
  unfold ofTokens at h
  split at h
  case h_1 first last hfirst hlast =>
    cases hread : (Parser.declarations (Parser.phrase tokens.length) tokens.length).run tokens with
    | error e =>
        rw [hread] at h
        cases h
    | ok result =>
        rw [hread] at h
        cases h
        exact ⟨first, last, result.1, result.2, hfirst, hlast, hread, rfl⟩
  case h_2 => cases h

end CapsuleScript
