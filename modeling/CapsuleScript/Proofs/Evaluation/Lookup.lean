import CapsuleScript.Proofs.Session.Runs
import Mathlib

/-! What a name means while an expression is evaluated. An evaluation binds nothing in the tables it
finds, so a name changes its meaning only by new links: when a table that binds it comes in front of
the one in which it was found, or when that one is cut off. The scope of a called function can come
in front, as the body of an object that inherits from an object of the caller, and then the name does
change its meaning. -/

namespace CapsuleScript

open Evaluation

variable {h k : Heap} {c : FrameId} {name : String} {t : TableId} {v : Value}

namespace Heap

/-- The tables in which a name of the frame `c` is looked up. -/
def scopes (h : Heap) (c : FrameId) : List TableId := h.chain (h.frame c).table

/-- The table in which `name` is found from the frame `c`. -/
def holder? (h : Heap) (c : FrameId) (name : String) : Option TableId :=
  (h.scopes c).find? fun t => (h.table t).bindings.has name

/-- The tables that are asked before `t` when a name is looked up in the frame `c`. -/
def before (h : Heap) (c : FrameId) (t : TableId) : List TableId :=
  (h.scopes c).takeWhile (· ≠ t)

theorem find?_eq_some_iff_takeWhile {α : Type} [DecidableEq α] {p : α → Bool} {l : List α} {a : α} :
    l.find? p = some a ↔ a ∈ l ∧ p a = true ∧ ∀ b ∈ l.takeWhile (· ≠ a), p b = false := by
  induction l with
  | nil => simp
  | cons b rest ih =>
      by_cases hba : b = a
      · subst hba
        cases hb : p b with
        | true => simp [hb]
        | false =>
            simp only [List.find?_cons, hb, Bool.false_eq_true, false_and, and_false, iff_false]
            intro hfound
            rw [List.find?_some hfound] at hb
            cases hb
      · have hab : a ≠ b := fun heq => hba heq.symm
        cases hb : p b with
        | true => simp [hb, hba]
        | false => simp [hb, hba, hab, ih]

/-- A name means what the table in which it is found binds it to. -/
theorem lookup_of_holder? (ht : h.holder? c name = some t) :
    h.lookup c name = (h.table t).bindings.get? name := by
  rw [lookup, get?_eq_findSome?]
  unfold holder? scopes at ht
  generalize h.chain (h.frame c).table = l at ht ⊢
  induction l with
  | nil => cases ht
  | cons u rest ih =>
      rw [List.find?_cons] at ht
      rw [List.findSome?_cons]
      cases hu : (h.table u).bindings.get? name with
      | none =>
          rw [Bindings.has, hu] at ht
          exact ih ht
      | some w =>
          rw [Bindings.has, hu] at ht
          cases ht
          exact hu.symm

end Heap

open Heap

/-- The expression at the start of a text. -/
def Node.expression? (source text : String) : Option Node :=
  match Token.readAll source text with
  | .ok tokens =>
    match (Parser.phrase tokens.length .expression).run tokens with
    | .ok (e, _) => some e
    | .error _ => none
  | .error _ => none

theorem Node.exists_of_expression? {e : Node} {source text : String}
    (he : Node.expression? source text = some e) : ∃ tokens rest,
      Parser.phrase tokens.length .expression tokens = .ok (e, rest) := by
  unfold Node.expression? at he
  split at he
  · rename_i tokens _
    split at he
    · rename_i rest hrun
      cases he
      exact ⟨tokens, rest, hrun⟩
    · cases he
  · cases he

theorem Node.isExpression_of_expression? {e : Node} {source text : String}
    (he : Node.expression? source text = some e) : e.IsExpression := by
  obtain ⟨tokens, rest, hread⟩ := Node.exists_of_expression? he
  exact (Parser.gives_phrase tokens.length .expression tokens e rest hread).fits

/-- Whether a computation ends with a result that passes the test. -/
def Ending.passes {α : Type} (test : α → Heap → Bool) : Ending α → Bool
  | .done a heap => test a heap
  | _ => false

theorem Ending.exists_of_passes {α : Type} {test : α → Heap → Bool} {ending : Ending α}
    (hpasses : ending.passes test) : ∃ a k, ending = .done a k ∧ test a k := by
  cases ending with
  | done a k => exact ⟨a, k, rfl, hpasses⟩
  | raised => cases hpasses
  | outOfFuel => cases hpasses

/-- The meaning of a name while an expression is evaluated in the frame `c`, on any heap that a
session can have: it is found in the table `t` as before exactly if `t` still is on the chain and no
table that came in front of it binds the name. It leaves the chain only where a strict object is cut
off. Found in the same table it means the same. -/
theorem holder?_eval_iff {limits : Limits} {fuel : Nat} {e : Node} {out : Outcome}
    (hh : h.Reachable) (hc : h.HasFrame c) (he : e.IsExpression)
    (hend : eval limits fuel e c h = .done out k) (ht : h.holder? c name = some t) :
    (k.holder? c name = some t ↔ t ∈ k.scopes c ∧
      ∀ x ∈ k.before c t, x ∈ h.before c t ∨ (k.table x).bindings.has name = false) ∧
    (t ∈ k.scopes c ∨ ∃ x ∈ k.scopes c, ¬ h.HasTable x ∧ ¬ k.Owned x) ∧
    (k.holder? c name = some t → k.lookup c name = h.lookup c name) := by
  have hsound := hh.sound
  have hr : h.Ready h.tables.size c := ⟨hsound, Nat.le_refl _, hc⟩
  have hevolves := evolves_eval limits fuel hr he fun hst => absurd hst Bool.false_ne_true
  have hsteps := (hevolves.done_of hend).1
  have hkeeps := hsteps.keeps
  have hframe := hkeeps.frame hc
  have hscopes : ∀ u ∈ h.scopes c, h.HasTable u := fun u hu =>
    hsound.rooted.hasTable_of_mem_chain (hsound.hasTable hc) hu
  have hbindings : ∀ u ∈ h.scopes c, (k.table u).bindings = (h.table u).bindings := fun u hu =>
    hkeeps.bindings (hscopes u hu) (hscopes u hu)
  obtain ⟨hmem, hbinds, hfront⟩ := find?_eq_some_iff_takeWhile.mp ht
  refine ⟨?_, ?_, fun hk => ?_⟩
  · unfold holder?
    rw [find?_eq_some_iff_takeWhile, hbindings t hmem]
    refine and_congr_right fun _ => ⟨fun hall x hx => .inr (hall.2 x hx), fun hall => ⟨hbinds, ?_⟩⟩
    intro x hx
    rcases hall x hx with hold | hnot
    · rw [hbindings x (List.takeWhile_subset _ hold)]
      exact hfront x hold
    · exact hnot
  · unfold scopes
    rw [hframe]
    rcases Steps.grows hsound hsteps _ (hsound.hasTable hc) with hsub | ⟨x, hx, hnew, howned⟩
    · exact .inl (hsub.subset hmem)
    · exact .inr ⟨x, hx, Nat.not_lt.mpr hnew, howned⟩
  · calc k.lookup c name = (k.table t).bindings.get? name := lookup_of_holder? hk
      _ = (h.table t).bindings.get? name := by rw [hbindings t hmem]
      _ = h.lookup c name := (lookup_of_holder? ht).symm

/-- A session in which `f` makes an object that inherits from its argument, and `o` is an object. -/
def inheritingCall : Session :=
  ((Session.start {}).submitAll
    [⟨"<stdin>", "x = \"a\"\nf = fun: p, x -> (encap \x7b z = x \x7d as C: p)", 20⟩,
      ⟨"<stdin>", "o = encap \x7b y = x \x7d", 20⟩]).2

theorem reachable_inheritingCall : inheritingCall.Reachable :=
  (Session.Reachable.start {}).submitAll _

/-- An object literal is evaluated, and `x` is found where it was, so it means what it meant. -/
theorem holder?_eval_object : ∃ e out k t,
    Node.expression? "<stdin>" "encap \x7b z = x \x7d as D" = some e ∧
    eval {} 20 e inheritingCall.frame inheritingCall.heap = .done out k ∧
    inheritingCall.heap.holder? inheritingCall.frame "x" = some t ∧
    (∀ x ∈ k.before inheritingCall.frame t, x ∈ inheritingCall.heap.before inheritingCall.frame t ∨
      (k.table x).bindings.has "x" = false) ∧
    k.lookup inheritingCall.frame "x" = inheritingCall.heap.lookup inheritingCall.frame "x" := by
  have hrun : (Node.expression? "<stdin>" "encap \x7b z = x \x7d as D").any (fun e =>
      (eval {} 20 e inheritingCall.frame inheritingCall.heap).passes fun _ k =>
        (inheritingCall.heap.holder? inheritingCall.frame "x").any fun t =>
          k.holder? inheritingCall.frame "x" == some t) = true := by
    cbv
  obtain ⟨e, he, hrun⟩ := (Option.any_eq_true _ _).mp hrun
  obtain ⟨out, k, hend, htest⟩ := Ending.exists_of_passes hrun
  obtain ⟨t, ht, hfound⟩ := (Option.any_eq_true _ _).mp htest
  have hfound := eq_of_beq hfound
  obtain ⟨hiff, -, hsame⟩ := holder?_eval_iff reachable_inheritingCall.heap
    reachable_inheritingCall.sound.hasFrame (Node.isExpression_of_expression? he) hend ht
  exact ⟨e, out, k, t, he, hend, ht, (hiff.mp hfound).2, hsame hfound⟩

/-- Whether two values are the given texts. -/
def areTexts (s t : String) : Option Value → Option Value → Bool
  | some (.text u), some (.text v) => u == s && v == t
  | _, _ => false

theorem eq_of_areTexts {s t : String} {v w : Option Value} (hvw : areTexts s t v w) :
    v = some (.text s) ∧ w = some (.text t) := by
  unfold areTexts at hvw
  split at hvw
  · simp only [Bool.and_eq_true, beq_iff_eq] at hvw
    rw [hvw.1, hvw.2]
    exact ⟨rfl, rfl⟩
  · cases hvw

/-- Names do change their meaning: a call of `f` with the object `o` and the text `b` leaves `x`
meaning `b` where it meant `a`. -/
theorem exists_lookup_eval_ne : ¬ ∀ (limits : Limits) (fuel : Nat) (source text : String) (e : Node)
    (h k : Heap) (c : FrameId) (out : Outcome) (name : String) (v : Value),
    h.Reachable → h.HasFrame c → Node.expression? source text = some e →
    eval limits fuel e c h = .done out k → h.lookup c name = some v →
    (∀ g, v = .function g → (h.function g).initialized = true) → k.lookup c name = some v := by
  intro hclaim
  have hrun : (Node.expression? "<stdin>" "f: o, \"b\"").any (fun e =>
      (eval {} 20 e inheritingCall.frame inheritingCall.heap).passes fun _ k =>
        areTexts "a" "b" (inheritingCall.heap.lookup inheritingCall.frame "x")
          (k.lookup inheritingCall.frame "x")) = true := by
    cbv
  obtain ⟨e, he, hrun⟩ := (Option.any_eq_true _ _).mp hrun
  obtain ⟨out, k, hend, htest⟩ := Ending.exists_of_passes hrun
  obtain ⟨hbefore, hafter⟩ := eq_of_areTexts htest
  have hsame := hclaim {} 20 _ _ e _ k _ out "x" _ reachable_inheritingCall.heap
    reachable_inheritingCall.sound.hasFrame he hend hbefore (by simp)
  rw [hafter] at hsame
  simp at hsame

end CapsuleScript
