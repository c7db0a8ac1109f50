import CapsuleScript.Proofs.Node.Following
import CapsuleScript.Proofs.Node.Subtrees
import Mathlib

/-! Where the nodes of a program stand in its text. Tokens lie one behind the other, so what is read
from them lies behind the tokens that were taken before it, and goes no further than the first token
that is left: a function without a body goes as far as that. Main statement: every node of a program
that is read covers all that stands in it, and lies in the text. -/

namespace CapsuleScript

namespace Token

/-! ### Tokens one behind the other -/

/-- The tokens lie one behind the other in the text `source`, from byte `past` to byte `limit`. -/
inductive Lined (source : String) (limit : Nat) : Nat → List Located → Prop
  | nil {past : Nat} : past ≤ limit → Lined source limit past []
  | cons {past : Nat} {l : Located} {more : List Located} : l.span.source = source →
      past ≤ l.span.start.index → l.span.start.index ≤ l.span.stop.index →
      Lined source limit l.span.stop.index more → Lined source limit past (l :: more)

/-- Where the next token ends, or the text if there is none. -/
def reach (limit : Nat) (tokens : List Located) : Nat :=
  tokens.head?.elim limit fun l => l.span.stop.index

/-- The next token stands at `span`, and `more` are those behind it. -/
structure Taken (source : String) (limit past : Nat) (tokens : List Located) (span : Span)
    (more : List Located) : Prop where
  eq_cons : ∃ token, tokens = ⟨token, span⟩ :: more
  source_eq : span.source = source
  lined : Lined source limit span.stop.index more
  bounds : past ≤ span.start.index ∧ span.start.index ≤ span.stop.index ∧
    span.stop.index = reach limit tokens ∧ span.stop.index ≤ reach limit more

variable {source : String} {limit past : Nat} {tokens more : List Located} {span : Span}

theorem Lined.mono {least : Nat} (h : Lined source limit past tokens) (hle : least ≤ past) :
    Lined source limit least tokens := by
  cases h with
  | nil hlimit => exact .nil (Nat.le_trans hle hlimit)
  | cons hsource hpast hspan hmore => exact .cons hsource (Nat.le_trans hle hpast) hspan hmore

theorem Lined.le_reach (h : Lined source limit past tokens) : past ≤ reach limit tokens := by
  cases h with
  | nil hlimit => exact hlimit
  | cons _ hpast hspan _ => exact Nat.le_trans hpast hspan

theorem Lined.reach_le (h : Lined source limit past tokens) : reach limit tokens ≤ limit := by
  induction h with
  | nil => exact Nat.le_refl limit
  | cons _ _ _ hmore ih => exact Nat.le_trans hmore.le_reach ih

theorem Lined.dropWhile (h : Lined source limit past tokens) (test : Located → Bool) :
    Lined source limit past (tokens.dropWhile test) ∧
      reach limit tokens ≤ reach limit (tokens.dropWhile test) := by
  induction h with
  | nil hlimit => exact ⟨.nil hlimit, Nat.le_refl _⟩
  | @cons past l more hsource hpast hspan hmore ih =>
      cases htest : test l with
      | false =>
          rw [List.dropWhile_cons_of_neg (by simp [htest])]
          exact ⟨.cons hsource hpast hspan hmore, Nat.le_refl _⟩
      | true =>
          rw [List.dropWhile_cons_of_pos htest]
          exact ⟨ih.1.mono (Nat.le_trans hpast hspan), Nat.le_trans hmore.le_reach ih.2⟩

theorem Lined.taken {l : Located} (h : Lined source limit past (l :: more)) :
    Taken source limit past (l :: more) l.span more := by
  cases h with
  | cons hsource hpast hspan hmore =>
      exact ⟨⟨l.token, rfl⟩, hsource, hmore, hpast, hspan, rfl, hmore.le_reach⟩

theorem lined_of_pairwise
    (hpairwise : tokens.Pairwise fun l m => l.span.stop.index ≤ m.span.start.index)
    (hpast : past ≤ limit) (hall : ∀ l ∈ tokens, l.span.source = source ∧
      past ≤ l.span.start.index ∧ l.span.start.index ≤ l.span.stop.index ∧
      l.span.stop.index ≤ limit) : Lined source limit past tokens := by
  induction tokens generalizing past with
  | nil => exact .nil hpast
  | cons l more ih =>
      obtain ⟨hl, hmore⟩ := List.forall_mem_cons.mp hall
      obtain ⟨hhead, htail⟩ := List.pairwise_cons.mp hpairwise
      refine .cons hl.1 hl.2.1 hl.2.2.1 (ih htail hl.2.2.2 fun m hm => ?_)
      exact ⟨(hmore m hm).1, hhead m hm, (hmore m hm).2.2⟩

/-- The tokens of a text lie one behind the other. -/
theorem Tiles.lined {program : String} (h : Tiles source program tokens) :
    Lined source program.utf8ByteSize 0 tokens := by
  obtain ⟨p, hlast, hp, -⟩ := h.last
  obtain ⟨front, rfl⟩ := List.getLast?_eq_some_iff.mp hlast
  have hwords := h.words
  rw [List.dropLast_concat] at hwords
  refine lined_of_pairwise (h.ordered.imp fun hlm => hlm.2) (Nat.zero_le _) fun l hl => ?_
  rcases List.mem_append.mp hl with hl | hl
  · obtain ⟨-, -, -, -, -, hsource, -⟩ := hwords l hl
    obtain ⟨hlt, hle⟩ := (List.pairwise_append.mp h.ordered).2.2 l hl _ (List.mem_singleton_self _)
    exact ⟨hsource, Nat.zero_le _, Nat.le_of_lt hlt, Nat.le_trans hle (Nat.le_of_eq hp)⟩
  · cases List.mem_singleton.mp hl
    exact ⟨rfl, Nat.zero_le _, Nat.le_refl _, Nat.le_of_eq hp⟩

end Token

open Token

/-! ### Nodes that cover their parts -/

namespace Node

/-- Every node in the tree is in the text `source`, and covers its children. -/
inductive Nested (source : String) : Node → Prop
  | intro {n : Node} : n.span.source = source → n.span.start.index ≤ n.span.stop.index →
      (∀ c ∈ n.children, n.span.start.index ≤ c.span.start.index ∧
        c.span.stop.index ≤ n.span.stop.index) →
      (∀ c ∈ n.children, Nested source c) → Nested source n

/-- The tree lies between two bytes of the text `source`. -/
structure Lies (source : String) (first last : Nat) (n : Node) : Prop where
  nested : n.Nested source
  le_start : first ≤ n.span.start.index
  stop_le : n.span.stop.index ≤ last

/-- The node is read from the tokens, of which `rest` are left: it ends no earlier than the first
token, and no later than the first one that is left. -/
structure ReadFrom (source : String) (limit past : Nat) (tokens : List Located) (n : Node)
    (rest : List Located) : Prop where
  nested : n.Nested source
  lined : Lined source limit (reach limit tokens) rest
  bounds : past ≤ n.span.start.index ∧ n.span.start.index ≤ n.span.stop.index ∧
    reach limit tokens ≤ n.span.stop.index ∧ n.span.stop.index ≤ reach limit rest ∧
    past ≤ reach limit tokens

variable {source : String} {limit past first last : Nat} {tokens rest : List Located} {n : Node}

theorem Nested.source_eq (h : n.Nested source) : n.span.source = source := by
  cases h with
  | intro hsource => exact hsource

theorem Nested.start_le_stop (h : n.Nested source) :
    n.span.start.index ≤ n.span.stop.index := by
  cases h with
  | intro _ hle => exact hle

theorem Nested.lies {c : Node} (h : n.Nested source) (hc : c ∈ n.children) :
    c.Lies source n.span.start.index n.span.stop.index := by
  cases h with
  | intro _ _ hcover hnested => exact ⟨hnested c hc, (hcover c hc).1, (hcover c hc).2⟩

theorem ReadFrom.lies (h : n.ReadFrom source limit past tokens rest)
    (hfirst : first ≤ n.span.start.index) (hlast : n.span.stop.index ≤ last) :
    n.Lies source first last := ⟨h.nested, hfirst, hlast⟩

theorem Lies.mono {first' last' : Nat} (h : n.Lies source first last) (hfirst : first' ≤ first)
    (hlast : last ≤ last') : n.Lies source first' last' :=
  ⟨h.nested, Nat.le_trans hfirst h.le_start, Nat.le_trans h.stop_le hlast⟩

/-- A node from the start of one region to the end of another one covers what lies between. -/
theorem ReadFrom.of_through {s t : Span} (hspan : n.span = s.through t)
    (hsource : s.source = source) (hlined : Lined source limit last rest)
    (hbounds : past ≤ s.start.index ∧ s.start.index ≤ t.stop.index ∧
      reach limit tokens ≤ t.stop.index ∧ t.stop.index ≤ reach limit rest ∧
      past ≤ reach limit tokens ∧ reach limit tokens ≤ last)
    (hchildren : ∀ c ∈ n.children, c.Lies source s.start.index t.stop.index) :
    n.ReadFrom source limit past tokens rest := by
  obtain ⟨hpast, hle, hreach, hrest, hlow, hlast⟩ := hbounds
  have hstart : n.span.start = s.start := by rw [hspan]; rfl
  have hstop : n.span.stop = t.stop := by rw [hspan]; rfl
  refine ⟨.intro ?_ ?_ (fun c hc => ?_) fun c hc => (hchildren c hc).nested, hlined.mono hlast, ?_⟩
  · rw [hspan]
    exact hsource
  · rw [hstart, hstop]
    exact hle
  · rw [hstart, hstop]
    exact ⟨(hchildren c hc).le_start, (hchildren c hc).stop_le⟩
  · rw [hstart, hstop]
    exact ⟨hpast, hle, hreach, hrest, hlow⟩

/-- A node that is a single token. -/
theorem ReadFrom.of_taken {span : Span} (htaken : Taken source limit past tokens span rest)
    (hspan : n.span = span) (hchildren : n.children = []) :
    n.ReadFrom source limit past tokens rest := by
  have hbounds := htaken.bounds
  refine .of_through (s := span) (t := span) hspan htaken.source_eq htaken.lined (by omega) ?_
  rw [hchildren]
  exact fun c hc => absurd hc List.not_mem_nil

end Node

namespace Parser

open Node

variable {α β : Type} {source : String} {limit past : Nat} {tokens more rest : List Located}
  {span : Span}

/-! ### What a reader leaves -/

/-- Whatever the parser reads from the tokens passes the test, together with what it leaves. -/
def Yields (p : Parser α) (tokens : List Located) (Q : α → List Located → Prop) : Prop :=
  ∀ a rest, p tokens = .ok (a, rest) → Q a rest

section Rules

variable {p q : Parser α} {Q : β → List Located → Prop} {P : α → List Located → Prop}

theorem Yields.imp {P' : α → List Located → Prop} (hp : p.Yields tokens P)
    (himp : ∀ a rest, P a rest → P' a rest) : p.Yields tokens P' :=
  fun a rest h => himp a rest (hp a rest h)

theorem yields_pure {a : α} (h : P a tokens) : Yields (pure a) tokens P := by
  intro b rest hread
  cases hread
  exact h

theorem yields_throw (e : SourceError) : Yields (throw e) tokens P := by
  intro a rest h
  cases h

theorem yields_bind {next : α → Parser β}
    (h : p.Yields tokens fun a rest => (next a).Yields rest Q) : (p >>= next).Yields tokens Q := by
  intro b rest hread
  cases hp : p tokens with
  | error e =>
      rw [bind_of_error hp] at hread
      cases hread
  | ok result =>
      obtain ⟨a, left⟩ := result
      rw [bind_of_ok hp] at hread
      exact h a left hp b rest hread

theorem yields_ite {c : Prop} [Decidable c] (hp : p.Yields tokens P) (hq : q.Yields tokens P) :
    (if c then p else q).Yields tokens P := by
  split
  · exact hp
  · exact hq

theorem yields_get {next : List Located → Parser β} (h : (next tokens).Yields tokens Q) :
    (get >>= next).Yields tokens Q := h

theorem yields_set {q : Parser β} (h : q.Yields more Q) :
    (set more >>= fun _ => q).Yields tokens Q := h

theorem yields_advance {q : Parser β} (htaken : Taken source limit past tokens span more)
    (h : q.Yields more Q) : (advance >>= fun _ => q).Yields tokens Q := by
  obtain ⟨token, rfl⟩ := htaken.eq_cons
  exact h

theorem yields_skipNewlines {q : Parser β} (htokens : Lined source limit past tokens)
    (h : ∀ rest, Lined source limit past rest → reach limit tokens ≤ reach limit rest →
      q.Yields rest Q) : (skipNewlines >>= fun _ => q).Yields tokens Q := by
  obtain ⟨hrest, hreach⟩ := htokens.dropWhile fun t => t.token.isNewline
  exact h _ hrest hreach

theorem yields_peek {next : Located → Parser β} (htokens : Lined source limit past tokens)
    (h : ∀ t more, Taken source limit past tokens t.span more → (next t).Yields tokens Q) :
    (peek >>= next).Yields tokens Q := by
  cases tokens with
  | nil =>
      intro b rest hread
      cases hread
  | cons t more => exact h t more (Lined.taken htokens)

theorem yields_expect {test : Token → Bool} {x : Expectation} {next : Span → Parser β}
    (htokens : Lined source limit past tokens)
    (h : ∀ span more, Taken source limit past tokens span more → (next span).Yields more Q) :
    (expect test x >>= next).Yields tokens Q := by
  refine yields_bind (yields_peek htokens fun t more htaken => yields_ite ?_ (yields_throw _))
  exact yields_advance htaken (yields_pure (h t.span more htaken))

theorem yields_accept {test : Token → Bool} {yes no : Parser β}
    (htokens : Lined source limit past tokens)
    (hyes : ∀ span more, Taken source limit past tokens span more → yes.Yields more Q)
    (hno : no.Yields tokens Q) :
    (accept test >>= fun b => if b then yes else no).Yields tokens Q := by
  cases tokens with
  | nil => exact hno
  | cons t more =>
      intro b rest hread
      cases htest : test t.token with
      | true =>
          rw [bind_of_ok (accept_of_pos htest)] at hread
          exact hyes t.span more htokens.taken b rest hread
      | false =>
          rw [bind_of_ok (accept_of_neg htest)] at hread
          exact hno b rest hread

theorem yields_name {next : String × Span → Parser β} (htokens : Lined source limit past tokens)
    (h : ∀ word span more, Taken source limit past tokens span more →
      (next (word, span)).Yields more Q) : (name >>= next).Yields tokens Q := by
  refine yields_bind (yields_peek htokens fun t more htaken => ?_)
  split
  · exact yields_advance htaken (yields_pure (h _ t.span more htaken))
  · exact yields_throw _

end Rules

/-! ### Rows and chains -/

/-- The reader of nodes reads from every list of tokens that lie one behind the other a node that
lies where they do. -/
def Places (source : String) (limit : Nat) (p : Parser Node) : Prop :=
  ∀ past tokens, Lined source limit past tokens →
    p.Yields tokens (ReadFrom source limit past tokens)

theorem yields_read {p : Parser Node} {next : Node → Parser β} {Q : β → List Located → Prop}
    (hp : Places source limit p) (htokens : Lined source limit past tokens)
    (h : ∀ n rest, n.ReadFrom source limit past tokens rest → (next n).Yields rest Q) :
    (p >>= next).Yields tokens Q :=
  yields_bind ((hp past tokens htokens).imp h)

/-- Where the last of the nodes ends, or `start` if there is none. -/
def rowStop (start : Nat) (nodes : List Node) : Nat :=
  nodes.getLast?.elim start fun n => n.span.stop.index

theorem rowStop_cons (start : Nat) (n : Node) (nodes : List Node) :
    rowStop start (n :: nodes) = rowStop n.span.stop.index nodes := by
  rw [rowStop, rowStop, List.getLast?_cons]
  cases nodes.getLast? <;> rfl

section Rows

variable {item : Parser Node} (hitem : Places source limit item)

include hitem

theorem yields_moreItems (bound : Nat) {start : Nat} (htokens : Lined source limit past tokens)
    (hstart : start ≤ reach limit tokens) :
    (moreItems item bound).Yields tokens fun nodes rest => Lined source limit past rest ∧
      start ≤ rowStop start nodes ∧ rowStop start nodes ≤ reach limit rest ∧
      ∀ n ∈ nodes, n.Lies source past (rowStop start nodes) := by
  induction bound generalizing past tokens start with
  | zero => exact yields_pure ⟨htokens, Nat.le_refl _, hstart, by simp⟩
  | succ bound ih =>
      refine yields_accept htokens (fun comma more hcomma => ?_)
        (yields_pure ⟨htokens, Nat.le_refl _, hstart, by simp⟩)
      refine yields_read hitem hcomma.lined fun first rest hfirst => yields_bind ?_
      refine (ih hfirst.lined hfirst.bounds.2.2.2.1).imp fun nodes last hnodes => yields_pure ?_
      obtain ⟨hlined, hle, hreach, hlies⟩ := hnodes
      have hc := hcomma.bounds
      have hf := hfirst.bounds
      rw [rowStop_cons]
      refine ⟨hlined.mono (by omega), by omega, hreach,
        List.forall_mem_cons.mpr ⟨?_, fun n hn => ?_⟩⟩
      · exact hfirst.lies (by omega) hle
      · exact (hlies n hn).mono (by omega) (Nat.le_refl _)

theorem yields_items (htokens : Lined source limit past tokens) :
    (items item).Yields tokens fun nodes rest => Lined source limit (reach limit tokens) rest ∧
      ∀ start, reach limit tokens ≤ rowStop start nodes ∧
        rowStop start nodes ≤ reach limit rest ∧
        ∀ n ∈ nodes, n.Lies source past (rowStop start nodes) := by
  refine yields_read hitem htokens fun first rest hfirst => yields_get (yields_bind ?_)
  refine (yields_moreItems hitem _ hfirst.lined hfirst.bounds.2.2.2.1).imp
    fun nodes last hnodes => yields_pure ?_
  obtain ⟨hlined, hle, hreach, hlies⟩ := hnodes
  have hf := hfirst.bounds
  refine ⟨hlined, fun start => ?_⟩
  rw [rowStop_cons]
  refine ⟨by omega, hreach, List.forall_mem_cons.mpr ⟨?_, fun n hn => ?_⟩⟩
  · exact hfirst.lies (by omega) hle
  · exact (hlies n hn).mono (by omega) (Nat.le_refl _)

theorem yields_elements (bound : Nat) (htokens : Lined source limit past tokens) :
    (elements item bound).Yields tokens fun read rest => Lined source limit read.2.stop.index rest ∧
      reach limit tokens ≤ read.2.stop.index ∧
      ∀ n ∈ read.1, n.Lies source past read.2.stop.index := by
  induction bound generalizing past tokens with
  | zero => exact yields_throw _
  | succ bound ih =>
      refine yields_read hitem htokens fun first rest hfirst =>
        yields_peek hfirst.lined fun t more htaken => yields_ite ?_ (yields_ite ?_ (yields_throw _))
      · refine yields_advance htaken (yields_bind ((ih htaken.lined).imp fun read last hread =>
          yields_pure ?_))
        obtain ⟨hlined, hreach, hlies⟩ := hread
        have hf := hfirst.bounds
        have ht := htaken.bounds
        dsimp only
        refine ⟨hlined, by omega, List.forall_mem_cons.mpr ⟨?_, fun n hn => ?_⟩⟩
        · exact hfirst.lies (by omega) (by omega)
        · exact (hlies n hn).mono (by omega) (Nat.le_refl _)
      · refine yields_advance htaken (yields_pure ?_)
        have hf := hfirst.bounds
        have ht := htaken.bounds
        dsimp only
        refine ⟨htaken.lined, by omega, List.forall_mem_singleton.mpr ?_⟩
        exact hfirst.lies (by omega) (by omega)

theorem yields_moreOperands (looseness bound : Nat) {left : Node}
    (hleft : left.ReadFrom source limit past tokens rest) :
    (moreOperands item looseness left bound).Yields rest (ReadFrom source limit past tokens) := by
  induction bound generalizing left rest with
  | zero => exact yields_pure hleft
  | succ bound ih =>
      have hlined := hleft.lined
      refine yields_get ?_
      cases rest with
      | nil => exact yields_pure hleft
      | cons t more =>
          have ht := hlined.taken
          simp only [List.head?_cons, Option.bind_some]
          split
          · refine yields_ite ?_ (yields_pure hleft)
            refine yields_advance ht (yields_read hitem ht.lined fun right last hright => ih ?_)
            have hl := hleft.bounds
            have ht := ht.bounds
            have hr := hright.bounds
            refine .of_through rfl hleft.nested.source_eq hright.lined (by omega) ?_
            exact List.forall_mem_cons.mpr ⟨hleft.lies (Nat.le_refl _) (by omega),
              List.forall_mem_singleton.mpr (hright.lies (by omega) (Nat.le_refl _))⟩
          · exact yields_pure hleft

theorem places_chain (looseness : Nat) : Places source limit (chain item looseness) := by
  induction looseness with
  | zero => exact hitem
  | succ looseness ih =>
      intro past tokens htokens
      refine yields_read ih htokens fun left rest hleft => yields_get ?_
      exact yields_moreOperands ih _ _ hleft

theorem yields_moreStatements (bound : Nat) (htokens : Lined source limit past tokens) :
    (moreStatements item bound).Yields tokens fun nodes rest => Lined source limit past rest ∧
      reach limit tokens ≤ reach limit rest ∧
      ∀ n ∈ nodes, n.Lies source past (reach limit rest) := by
  induction bound generalizing past tokens with
  | zero => exact yields_pure ⟨htokens, Nat.le_refl _, by simp⟩
  | succ bound ih =>
      refine yields_get (yields_ite ?_ (yields_pure ⟨htokens, Nat.le_refl _, by simp⟩))
      refine yields_skipNewlines htokens fun rest hrest hle => yields_get (yields_ite ?_ ?_)
      · exact yields_pure ⟨hrest, hle, by simp⟩
      · refine yields_read hitem hrest fun first left hfirst => yields_bind ?_
        refine (ih hfirst.lined).imp fun nodes last hnodes => yields_pure ?_
        obtain ⟨hlined, hreach, hlies⟩ := hnodes
        have hf := hfirst.bounds
        refine ⟨hlined.mono (by omega), by omega,
          List.forall_mem_cons.mpr ⟨?_, fun n hn => ?_⟩⟩
        · exact hfirst.lies (by omega) (by omega)
        · exact (hlies n hn).mono (by omega) (Nat.le_refl _)

end Rows

/-! ### The productions -/

/-- What the reader leaves lies where the tokens lay that it was given. -/
def Keeps (source : String) (limit : Nat) (p : Parser α) : Prop :=
  ∀ past tokens, Lined source limit past tokens →
    p.Yields tokens fun _ rest => Lined source limit past rest

theorem keeps_name : Keeps source limit (Prod.fst <$> name) := by
  intro past tokens htokens
  have hread : (name >>= fun read => pure read.1).Yields tokens fun _ rest =>
      Lined source limit past rest := by
    refine yields_name htokens fun word span more htaken => yields_pure ?_
    have ht := htaken.bounds
    exact htaken.lined.mono (by omega)
  exact hread

theorem keeps_moreItems {item : Parser α} (hitem : Keeps source limit item) (bound : Nat) :
    Keeps source limit (moreItems item bound) := by
  induction bound with
  | zero => exact fun _ _ htokens => yields_pure htokens
  | succ bound ih =>
      intro past tokens htokens
      refine yields_accept htokens (fun comma more hcomma => ?_) (yields_pure htokens)
      have hc := hcomma.bounds
      have hmore : Lined source limit past more := hcomma.lined.mono (by omega)
      refine yields_bind ((hitem past more hmore).imp fun _ rest hrest => ?_)
      exact yields_bind ((ih past rest hrest).imp fun _ last hlast => yields_pure hlast)

theorem keeps_parameters : Keeps source limit parameters := by
  intro past tokens htokens
  refine yields_accept htokens (fun colon more hcolon => ?_) (yields_pure htokens)
  have hc := hcolon.bounds
  have hmore : Lined source limit past more := hcolon.lined.mono (by omega)
  refine yields_bind ((keeps_name past more hmore).imp fun _ rest hrest => yields_get ?_)
  refine yields_bind ((keeps_moreItems keeps_name _ past rest hrest).imp fun _ last hlast => ?_)
  exact yields_pure hlast

theorem keeps_functionName (named : Bool) : Keeps source limit (functionName named) := by
  intro past tokens htokens
  refine yields_peek htokens fun t more htaken => ?_
  split
  · refine yields_ite (yields_advance htaken (yields_pure ?_)) (yields_throw _)
    have ht := htaken.bounds
    exact htaken.lined.mono (by omega)
  · exact yields_pure htokens

section Productions

variable {sub : Phrase → Parser Node} (hsub : ∀ phrase, Places source limit (sub phrase))

include hsub

theorem places_block (mayDeclare : Bool) : Places source limit (block sub mayDeclare) := by
  intro past tokens htokens
  refine yields_expect htokens fun opened more hopened => ?_
  refine yields_skipNewlines hopened.lined fun inside hinside hskipped => ?_
  refine yields_read (hsub _) hinside fun first left hfirst => yields_get (yields_bind ?_)
  refine (yields_moreStatements (hsub _) _ hfirst.lined).imp fun nodes rest hnodes => ?_
  obtain ⟨hrest, hreach, hlies⟩ := hnodes
  refine yields_expect hrest fun closed last hclosed => yields_pure ?_
  have ho := hopened.bounds
  have hf := hfirst.bounds
  have hc := hclosed.bounds
  refine .of_through rfl hopened.source_eq hclosed.lined (by omega) ?_
  refine List.forall_mem_cons.mpr ⟨hfirst.lies (by omega) (by omega), fun n hn => ?_⟩
  exact (hlies n hn).mono (by omega) (by omega)

/-- The body of a function lies behind what was read before. It need not take a token. -/
theorem yields_functionBody (hasParams : Bool) (htokens : Lined source limit past tokens) :
    (functionBody sub hasParams).Yields tokens fun read rest => Lined source limit past rest ∧
      read.1.Lies source past (reach limit rest) ∧ reach limit tokens ≤ read.1.span.stop.index := by
  have hread : ∀ {n : Node} {rest}, n.ReadFrom source limit past tokens rest →
      Lined source limit past rest ∧ n.Lies source past (reach limit rest) ∧
        reach limit tokens ≤ n.span.stop.index := by
    intro n rest hn
    have hb := hn.bounds
    exact ⟨hn.lined.mono (by omega), hn.lies (by omega) (by omega), by omega⟩
  refine yields_peek htokens fun t more htaken => yields_ite ?_ (yields_ite ?_ (yields_ite ?_ ?_))
  · refine yields_advance htaken ?_
    refine yields_read (hsub .expression) htaken.lined fun value rest hvalue => yields_pure ?_
    have ht := htaken.bounds
    have hv := hvalue.bounds
    exact ⟨hvalue.lined.mono (by omega), hvalue.lies (by omega) (by omega), by dsimp only; omega⟩
  · exact yields_read (places_block hsub true) htokens fun body rest hbody =>
      yields_pure (hread hbody)
  · exact yields_read (hsub _) htokens fun body rest hbody => yields_pure (hread hbody)
  · have hnull : (Node.ident t.span "null").ReadFrom source limit past tokens more :=
      .of_taken htaken rfl rfl
    obtain ⟨hpast, -, hreach, -⟩ := hnull.bounds
    exact yields_pure ⟨htokens, hnull.lies hpast (Nat.le_of_eq htaken.bounds.2.2.1), hreach⟩

variable {start : Span}

theorem yields_functionLiteral (named : Bool) (hstart : Taken source limit past tokens start more) :
    (functionLiteral sub start named).Yields more (ReadFrom source limit past tokens) := by
  refine yields_bind ((keeps_functionName named _ _ hstart.lined).imp fun word rest hrest => ?_)
  refine yields_bind ((keeps_parameters _ _ hrest).imp fun params left hleft => yields_bind ?_)
  refine (yields_functionBody hsub (!params.isEmpty) hleft).imp fun read last hread =>
    yields_pure ?_
  obtain ⟨hlast, hbody, hreach⟩ := hread
  have hs := hstart.bounds
  have hlow := hbody.le_start
  have hhigh := hbody.stop_le
  have hle := hbody.nested.start_le_stop
  refine .of_through rfl hstart.source_eq hlast (by omega) ?_
  exact List.forall_mem_singleton.mpr ⟨hbody.nested, by omega, Nat.le_refl _⟩

theorem places_encapParent : Places source limit (encapParent sub) := by
  intro past tokens htokens
  refine yields_peek htokens fun t more htaken => ?_
  split
  · exact hsub .expression past tokens htokens
  · exact yields_throw _

theorem yields_encapLiteral (strict : Bool) (hstart : Taken source limit past tokens start more) :
    (encapLiteral sub start strict).Yields more (ReadFrom source limit past tokens) := by
  refine yields_read (places_block hsub true) hstart.lined fun body rest hbody => ?_
  have hs := hstart.bounds
  have hb := hbody.bounds
  refine yields_accept hbody.lined (fun word left hword => ?_) (yields_pure ?_)
  · have hw := hword.bounds
    refine yields_name hword.lined fun typeName span behind hspan => ?_
    have ht := hspan.bounds
    refine yields_accept hspan.lined (fun colon inside hcolon => ?_) (yields_pure ?_)
    · have hc := hcolon.bounds
      refine yields_read (places_encapParent hsub) hcolon.lined fun parent last hparent =>
        yields_pure ?_
      have hp := hparent.bounds
      refine .of_through rfl hstart.source_eq hparent.lined (by omega) ?_
      exact List.forall_mem_cons.mpr ⟨hbody.lies (by omega) (by omega),
        List.forall_mem_singleton.mpr (hparent.lies (by omega) (by omega))⟩
    · refine .of_through rfl hstart.source_eq hspan.lined (by omega) ?_
      exact List.forall_mem_singleton.mpr (hbody.lies (by omega) (by omega))
  · refine .of_through rfl hstart.source_eq hbody.lined (by omega) ?_
    exact List.forall_mem_singleton.mpr (hbody.lies (by omega) (by omega))

theorem places_operand : Places source limit (operand sub) := by
  intro past tokens htokens
  refine yields_peek htokens fun t more htaken => ?_
  have ht := htaken.bounds
  split
  · exact yields_advance htaken (yields_pure (.of_taken htaken rfl rfl))
  · exact yields_advance htaken (yields_pure (.of_taken htaken rfl rfl))
  · exact yields_advance htaken (yields_pure (.of_taken htaken rfl rfl))
  · -- the region of an operand in parentheses is that of what stands in them
    refine yields_advance htaken ?_
    refine yields_read (hsub .expression) htaken.lined fun inner rest hinner => ?_
    refine yields_expect hinner.lined fun closed last hclosed => yields_pure ?_
    have hi := hinner.bounds
    have hc := hclosed.bounds
    exact ⟨hinner.nested, hclosed.lined.mono (by omega), by omega⟩
  · refine yields_advance htaken (yields_peek htaken.lined fun next rest hnext => yields_ite ?_ ?_)
    · have hn := hnext.bounds
      refine yields_advance hnext (yields_pure (.of_through rfl htaken.source_eq hnext.lined ?_ ?_))
      · omega
      · exact fun c hc => absurd hc List.not_mem_nil
    · refine yields_get (yields_bind ?_)
      refine (yields_elements (hsub .expression) _ htaken.lined).imp fun read last hread =>
        yields_pure ?_
      obtain ⟨hlined, hreach, hlies⟩ := hread
      have hl := hlined.le_reach
      refine .of_through rfl htaken.source_eq hlined (by omega) fun c hc => ?_
      exact (hlies c hc).mono (by omega) (Nat.le_refl _)
  · exact yields_advance htaken (yields_functionLiteral hsub false htaken)
  · refine yields_advance htaken ?_
    refine yields_read (hsub .expression) htaken.lined fun inner rest hinner => yields_pure ?_
    have hi := hinner.bounds
    refine .of_through rfl htaken.source_eq hinner.lined (by omega) ?_
    exact List.forall_mem_singleton.mpr (hinner.lies (by omega) (Nat.le_refl _))
  · exact yields_advance htaken (yields_encapLiteral hsub false htaken)
  · exact yields_advance htaken (yields_encapLiteral hsub true htaken)
  · exact yields_throw _

theorem places_signed : Places source limit (signed sub) := by
  intro past tokens htokens
  refine yields_peek htokens fun t more htaken => ?_
  split
  · refine yields_advance htaken ?_
    refine yields_read (hsub .signed) htaken.lined fun inner rest hinner => yields_pure ?_
    have ht := htaken.bounds
    have hi := hinner.bounds
    refine .of_through rfl htaken.source_eq hinner.lined (by omega) ?_
    exact List.forall_mem_singleton.mpr (hinner.lies (by omega) (Nat.le_refl _))
  · exact places_operand hsub past tokens htokens

theorem yields_comprehension {body : Node} (hbody : body.ReadFrom source limit past tokens rest)
    (hword : Taken source limit (reach limit tokens) rest span more) :
    (comprehension sub body).Yields more (ReadFrom source limit past tokens) := by
  have hb := hbody.bounds
  have hw := hword.bounds
  refine yields_name hword.lined fun loopName _ left hname => ?_
  refine yields_expect hname.lined fun _ behind hin => ?_
  refine yields_read (hsub .expression) hin.lined fun list inside hlist => ?_
  have hn := hname.bounds
  have hi := hin.bounds
  have hl := hlist.bounds
  refine yields_accept hlist.lined (fun arrow after harrow => ?_) (yields_pure ?_)
  · refine yields_expect harrow.lined fun _ condition hif => ?_
    refine yields_read (hsub .expression) hif.lined fun filter last hfilter => yields_pure ?_
    have ha := harrow.bounds
    have hc := hif.bounds
    have hf := hfilter.bounds
    refine .of_through rfl hbody.nested.source_eq hfilter.lined (by omega) ?_
    exact List.forall_mem_cons.mpr ⟨hlist.lies (by omega) (by omega),
      List.forall_mem_cons.mpr ⟨hbody.lies (by omega) (by omega),
        List.forall_mem_singleton.mpr (hfilter.lies (by omega) (by omega))⟩⟩
  · refine .of_through rfl hbody.nested.source_eq hlist.lined (by omega) ?_
    exact List.forall_mem_cons.mpr ⟨hlist.lies (by omega) (by omega),
      List.forall_mem_singleton.mpr (hbody.lies (by omega) (by omega))⟩

theorem places_expression : Places source limit (expression sub) := by
  intro past tokens htokens
  refine yields_read (places_chain (places_signed hsub) 5) htokens fun left rest hleft => ?_
  refine yields_peek hleft.lined fun t more htaken => ?_
  have hl := hleft.bounds
  have ht := htaken.bounds
  split
  · refine yields_advance htaken ?_
    refine yields_read (hsub .expression) htaken.lined fun condition behind hcondition => ?_
    refine yields_expect hcondition.lined fun _ after helse => ?_
    refine yields_read (hsub .expression) helse.lined fun otherwise last hotherwise =>
      yields_pure ?_
    have hc := hcondition.bounds
    have he := helse.bounds
    have ho := hotherwise.bounds
    refine .of_through rfl hleft.nested.source_eq hotherwise.lined (by omega) ?_
    exact List.forall_mem_cons.mpr ⟨hcondition.lies (by omega) (by omega),
      List.forall_mem_cons.mpr ⟨hleft.lies (by omega) (by omega),
        List.forall_mem_singleton.mpr (hotherwise.lies (by omega) (by omega))⟩⟩
  · refine yields_advance htaken (yields_bind ?_)
    refine (yields_items (hsub .expression) htaken.lined).imp fun arguments last hall =>
      yields_pure ?_
    obtain ⟨hlined, hrow⟩ := hall
    obtain ⟨hreach, hlast, hlies⟩ := hrow left.span.stop.index
    have hstop : (arguments.getLast?.elim left.span Node.span).stop.index =
        rowStop left.span.stop.index arguments := by
      rw [rowStop]
      cases arguments.getLast? <;> rfl
    refine .of_through (t := arguments.getLast?.elim left.span Node.span) rfl
      hleft.nested.source_eq hlined (by omega) ?_
    rw [hstop]
    refine List.forall_mem_cons.mpr ⟨hleft.lies (by omega) (by omega), fun n hn => ?_⟩
    exact (hlies n hn).mono (by omega) (Nat.le_refl _)
  · refine yields_advance htaken (yields_pure ?_)
    refine .of_through rfl hleft.nested.source_eq htaken.lined (by omega) ?_
    exact List.forall_mem_singleton.mpr (hleft.lies (by omega) (by omega))
  · exact yields_advance htaken (yields_comprehension hsub hleft htaken)
  · exact yields_pure hleft

theorem yields_ifStatement (hstart : Taken source limit past tokens start more) :
    (ifStatement sub start).Yields more (ReadFrom source limit past tokens) := by
  refine yields_read (hsub .expression) hstart.lined fun condition rest hcondition => ?_
  refine yields_read (hsub _) hcondition.lined fun branch left hbranch => yields_get ?_
  obtain ⟨hdropped, hreach⟩ := hbranch.lined.dropWhile fun t => t.token.isNewline
  have hs := hstart.bounds
  have hc := hcondition.bounds
  have hb := hbranch.bounds
  split
  case h_1 heq =>
    rw [heq] at hdropped hreach
    have helse := hdropped.taken
    have he := helse.bounds
    refine yields_set (yields_read (hsub _) helse.lined fun otherwise last hotherwise =>
      yields_pure ?_)
    have ho := hotherwise.bounds
    refine .of_through rfl hstart.source_eq hotherwise.lined (by omega) ?_
    exact List.forall_mem_cons.mpr ⟨hcondition.lies (by omega) (by omega),
      List.forall_mem_cons.mpr ⟨hbranch.lies (by omega) (by omega),
        List.forall_mem_singleton.mpr (hotherwise.lies (by omega) (by omega))⟩⟩
  case h_2 =>
    refine yields_pure (.of_through rfl hstart.source_eq hbranch.lined (by omega) ?_)
    exact List.forall_mem_cons.mpr ⟨hcondition.lies (by omega) (by omega),
      List.forall_mem_singleton.mpr (hbranch.lies (by omega) (by omega))⟩

theorem yields_whileStatement (hstart : Taken source limit past tokens start more) :
    (whileStatement sub start).Yields more (ReadFrom source limit past tokens) := by
  refine yields_read (hsub .expression) hstart.lined fun condition rest hcondition => ?_
  refine yields_read (hsub _) hcondition.lined fun body last hbody => yields_pure ?_
  have hs := hstart.bounds
  have hc := hcondition.bounds
  have hb := hbody.bounds
  refine .of_through rfl hstart.source_eq hbody.lined (by omega) ?_
  exact List.forall_mem_cons.mpr ⟨hcondition.lies (by omega) (by omega),
    List.forall_mem_singleton.mpr (hbody.lies (by omega) (by omega))⟩

theorem yields_forStatement (hstart : Taken source limit past tokens start more) :
    (forStatement sub start).Yields more (ReadFrom source limit past tokens) := by
  refine yields_name hstart.lined fun loopName _ left hname => ?_
  refine yields_expect hname.lined fun _ behind hin => ?_
  refine yields_read (hsub .expression) hin.lined fun list rest hlist => ?_
  refine yields_read (hsub _) hlist.lined fun body last hbody => yields_pure ?_
  have hs := hstart.bounds
  have hn := hname.bounds
  have hi := hin.bounds
  have hl := hlist.bounds
  have hb := hbody.bounds
  refine .of_through rfl hstart.source_eq hbody.lined (by omega) ?_
  exact List.forall_mem_cons.mpr ⟨hlist.lies (by omega) (by omega),
    List.forall_mem_singleton.mpr (hbody.lies (by omega) (by omega))⟩

theorem yields_defineStatement (hstart : Taken source limit past tokens start more) :
    (defineStatement sub start).Yields more (ReadFrom source limit past tokens) := by
  refine yields_name hstart.lined fun word _ left hname => ?_
  refine yields_expect hname.lined fun _ behind hequals => ?_
  refine yields_read (hsub .expression) hequals.lined fun body last hbody => yields_pure ?_
  have hs := hstart.bounds
  have hn := hname.bounds
  have he := hequals.bounds
  have hb := hbody.bounds
  refine .of_through rfl hstart.source_eq hbody.lined (by omega) ?_
  exact List.forall_mem_singleton.mpr (hbody.lies (by omega) (by omega))

theorem yields_returnStatement (hstart : Taken source limit past tokens start more) :
    (returnStatement sub start).Yields more (ReadFrom source limit past tokens) := by
  refine yields_peek hstart.lined fun t rest htaken => yields_ite ?_ ?_
  · exact yields_pure (.of_taken hstart rfl rfl)
  · refine yields_read (hsub .expression) hstart.lined fun value last hvalue => yields_pure ?_
    have hs := hstart.bounds
    have hv := hvalue.bounds
    refine .of_through rfl hstart.source_eq hvalue.lined (by omega) ?_
    exact List.forall_mem_singleton.mpr (hvalue.lies (by omega) (by omega))

theorem places_statement (mayDeclare : Bool) : Places source limit (statement sub mayDeclare) := by
  intro past tokens htokens
  refine yields_get ?_
  split
  case h_1 word start sign rest =>
    have hname : Taken source limit past _ start _ := htokens.taken
    have hequals : Taken source limit start.stop.index _ sign rest := hname.lined.taken
    have hn := hname.bounds
    have he := hequals.bounds
    refine yields_set (yields_read (hsub .expression) hequals.lined fun value last hvalue =>
      yields_pure ?_)
    have hv := hvalue.bounds
    refine .of_through rfl hname.source_eq hvalue.lined (by omega) ?_
    exact List.forall_mem_singleton.mpr (hvalue.lies (by omega) (by omega))
  · exact yields_set (yields_ifStatement hsub htokens.taken)
  · exact yields_set (yields_whileStatement hsub htokens.taken)
  · exact yields_set (yields_forStatement hsub htokens.taken)
  · exact places_block hsub mayDeclare _ _ htokens
  · exact yields_set (yields_defineStatement hsub htokens.taken)
  · exact yields_set (yields_functionLiteral hsub true htokens.taken)
  · exact yields_set (yields_returnStatement hsub htokens.taken)
  · exact yields_set (yields_pure (.of_taken htokens.taken rfl rfl))
  · exact yields_set (yields_pure (.of_taken htokens.taken rfl rfl))
  · exact places_expression hsub past tokens htokens

theorem places_declaration : Places source limit (declaration sub) := by
  intro past tokens htokens
  refine yields_name htokens fun word start left hname => ?_
  refine yields_expect hname.lined fun _ behind hequals => ?_
  refine yields_read (hsub _) hequals.lined fun value last hvalue => yields_pure ?_
  have hn := hname.bounds
  have he := hequals.bounds
  have hv := hvalue.bounds
  refine .of_through rfl hname.source_eq hvalue.lined (by omega) ?_
  exact List.forall_mem_singleton.mpr (hvalue.lies (by omega) (by omega))

theorem yields_declarations (bound : Nat) (htokens : Lined source limit past tokens) :
    (declarations sub bound).Yields tokens fun nodes _ =>
      ∀ n ∈ nodes, n.Lies source past limit := by
  induction bound generalizing past tokens with
  | zero => exact yields_throw _
  | succ bound ih =>
      refine yields_skipNewlines htokens fun rest hrest _ => ?_
      refine yields_peek hrest fun t more htaken => yields_ite (yields_pure (by simp)) ?_
      refine yields_read (places_declaration hsub) hrest fun first left hfirst => yields_bind ?_
      refine (ih hfirst.lined).imp fun nodes last hnodes => yields_pure ?_
      have hf := hfirst.bounds
      have hl := hfirst.lined.reach_le
      refine List.forall_mem_cons.mpr ⟨hfirst.lies (by omega) (by omega), fun n hn => ?_⟩
      exact (hnodes n hn).mono (by omega) (Nat.le_refl _)

end Productions

/-- However deep the phrases may nest, by induction on the depth. -/
theorem places_phrase (depth : Nat) (p : Phrase) : Places source limit (phrase depth p) := by
  induction depth generalizing p with
  | zero => exact fun _ _ _ => yields_throw _
  | succ depth ih =>
      cases p with
      | expression => exact places_expression ih
      | statement mayDeclare => exact places_statement ih mayDeclare
      | signed => exact places_signed ih

end Parser

/-! ### Main statement -/

namespace Node

variable {source text : String} {tokens : List Located} {program node : Node}

/-- The tree of a program lies in its text. -/
theorem lies_ofTokens (htokens : Token.readAll source text = .ok tokens)
    (hprogram : ofTokens tokens = .ok program) :
    program.Lies source 0 text.utf8ByteSize := by
  have htiles := segmented_readAll source text
  rw [htokens] at htiles
  have hlined := Tiles.lined htiles
  obtain ⟨p, hend, hp, -⟩ := Tiles.last htiles
  obtain ⟨first, last, statements, rest, hfirst, hlast, hread, rfl⟩ := eq_block_of_ofTokens hprogram
  cases hend.symm.trans hlast
  obtain ⟨more, rfl⟩ := List.head?_eq_some_iff.mp hfirst
  have htaken := hlined.taken
  have hb := htaken.bounds
  have hreach := hlined.reach_le
  have hall := Parser.yields_declarations (Parser.places_phrase _) _
    (Lined.cons htaken.source_eq (Nat.le_refl _) hb.2.1 htaken.lined) statements rest hread
  have hroot : (Node.block (first.span.through ⟨source, p, p⟩) true statements).ReadFrom source
      text.utf8ByteSize 0 (first :: more) [] := by
    refine .of_through rfl htaken.source_eq (.nil hreach) ?_ fun n hn => ?_
    · have hend : reach text.utf8ByteSize [] = text.utf8ByteSize := rfl
      dsimp only
      omega
    · exact (hall n hn).mono (Nat.le_refl _) (Nat.le_of_eq hp.symm)
  exact hroot.lies (Nat.zero_le _) (Nat.le_of_eq hp)

/-- Every node of a program that is read from a text is in that text, ends there no earlier than it
starts, and covers the nodes that stand in it. -/
theorem nested_spans_of_ofTokens (htokens : Token.readAll source text = .ok tokens)
    (hprogram : ofTokens tokens = .ok program) (hnode : node.Occurs program) :
    node.span.source = source ∧ node.span.start.index ≤ node.span.stop.index ∧
      node.span.stop.index ≤ text.utf8ByteSize ∧
      ∀ child ∈ node.children, node.span.start.index ≤ child.span.start.index ∧
        child.span.stop.index ≤ node.span.stop.index := by
  have hlies : node.Lies source 0 text.utf8ByteSize :=
    hnode.closed (C := Lies source 0 text.utf8ByteSize)
      (fun hn hc => (hn.nested.lies hc).mono hn.le_start hn.stop_le)
      (lies_ofTokens htokens hprogram)
  refine ⟨hlies.nested.source_eq, hlies.nested.start_le_stop, hlies.stop_le, fun child hchild => ?_⟩
  have hinner := hlies.nested.lies hchild
  exact ⟨hinner.le_start, hinner.stop_le⟩

/-- A function without a body, which goes as far as the parenthesis behind it. -/
def closedOff : Node :=
  .function ⟨"a", ⟨5, 0, 5⟩, ⟨9, 0, 9⟩⟩ none [] true (.ident ⟨"a", ⟨8, 0, 8⟩, ⟨9, 0, 9⟩⟩ "null")

theorem nested_spans_of_ofTokens_closedOff : ∃ tokens program,
    Token.readAll "a" "f = (fun)" = .ok tokens ∧ ofTokens tokens = .ok program ∧
    closedOff.Occurs program ∧ closedOff.span.source = "a" ∧
    closedOff.span.start.index ≤ closedOff.span.stop.index ∧ closedOff.span.stop.index ≤ 9 ∧
    ∀ child ∈ closedOff.children, closedOff.span.start.index ≤ child.span.start.index ∧
      child.span.stop.index ≤ closedOff.span.stop.index := by
  let program : Node := .block ⟨"a", ⟨0, 0, 0⟩, ⟨9, 0, 9⟩⟩ true
    [.assign ⟨"a", ⟨0, 0, 0⟩, ⟨9, 0, 9⟩⟩ "f" true closedOff]
  have hread : (Token.readAll "a" "f = (fun)" >>= ofTokens) = .ok program := by cbv
  have hnode : closedOff.Occurs program := .child (.head _) (.child (.head _) (.self _))
  cases htokens : Token.readAll "a" "f = (fun)" with
  | error e =>
      rw [htokens] at hread
      cases hread
  | ok tokens =>
      rw [htokens] at hread
      exact ⟨tokens, program, rfl, hread, hnode, nested_spans_of_ofTokens htokens hread hnode⟩

end Node

end CapsuleScript
