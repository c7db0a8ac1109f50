import CapsuleScript.Proofs.Evaluation.Lookup
import CapsuleScript.Proofs.Evaluation.Shielding
import CapsuleScript.Proofs.Evaluation.WriteOnce
import Mathlib

/-! Expressions neither bind names nor move on. Main statement: what is read as an expression,
evaluated on any heap and in any frame, leaves the current frame as it is, stamps its value with
this frame and binds nothing in the tables that were there before it, however it ends. -/

namespace CapsuleScript

open Heap

/-- What some tokens are read as where an expression stands, with or without the declarations of
functions put in. -/
def Node.ReadAsExpression (e : Node) : Prop :=
  ∃ depth tokens parsed rest, Parser.phrase depth .expression tokens = .ok (parsed, rest) ∧
    (e = parsed ∨ e = parsed.declareFunctions)

theorem Node.ReadAsExpression.isExpression {e : Node} (he : e.ReadAsExpression) :
    e.IsExpression := by
  obtain ⟨depth, tokens, parsed, rest, hread, rfl | rfl⟩ := he
  · exact (Parser.gives_phrase depth .expression tokens _ rest hread).fits
  · exact (Parser.gives_phrase depth .expression tokens _ rest hread).fits.hoist.1

theorem Node.readAsExpression_of_expression? {e : Node} {source text : String}
    (he : Node.expression? source text = some e) : e.ReadAsExpression := by
  obtain ⟨tokens, rest, hread⟩ := Node.exists_of_expression? he
  exact ⟨tokens.length, tokens, e, rest, hread, .inl rfl⟩

namespace Heap

variable {h k : Heap}

/-- From the heap `h` to the heap `k` no table that was there got a binding or lost one, no frame
was changed, and of the functions only those that were not defined. The links between tables may
have changed. -/
structure BindsNothing (h k : Heap) : Prop where
  bindings : ∀ t, h.HasTable t → (k.table t).bindings = (h.table t).bindings
  frame : ∀ f, h.HasFrame f → k.frame f = h.frame f
  name : ∀ g, h.HasFunction g → (k.function g).name = (h.function g).name
  defined : ∀ g, h.HasFunction g → (h.function g).initialized → k.function g = h.function g

/-- The bodies of the functions of a sound heap are statements. -/
theorem Sound.bodies (hh : h.Sound) : h.Bodies Node.IsStatement := by
  intro g
  by_cases hg : h.HasFunction g
  · exact hh.body hg
  · have hdefault : h.function g = default := by
      have hlt : ¬ g.index < h.functions.size := hg
      simp [function, Array.getD_eq_getD_getElem?, hlt]
    rw [hdefault]
    trivial

end Heap

namespace Evaluation

variable {h k l : Heap} {limits : Limits} {fuel : Nat} {e : Node} {c : FrameId}

theorem shields_eval_expression (he : e.IsExpression) (hbodies : h.Bodies Node.IsStatement) :
    (eval limits fuel e c).Shields h.tables.size h (Outcome.Stays h.tables.size false c) :=
  shields_eval limits fuel ⟨Nat.le_refl _, hbodies⟩ he fun hst => absurd hst Bool.false_ne_true

theorem bindsNothing_eval (he : e.IsExpression) (hbodies : h.Bodies Node.IsStatement)
    (hend : (eval limits fuel e c h).heap? = some k) :
    h.BindsNothing k ∧ k.Bodies Node.IsStatement := by
  have hshields := (shields_eval_expression he hbodies).of_heap? hend
  have honce := writesOnce_eval limits fuel e c h k hend
  exact ⟨⟨fun t ht => hshields.bindings ht, fun f hf => hshields.frame hf,
    fun g hg => honce.name hg, fun g hg => honce.defined hg⟩, hshields.bodies⟩

theorem heap?_value (sub : Evaluator) (n : Node) (f : FrameId) :
    (value sub n f h).heap? = (sub n f h).heap? := by
  rw [value, Run.bind_apply]
  cases sub n f h <;> rfl

/-- When the object on the left is there, an access leaves the heap that the right side leaves. -/
theorem heap?_access {o : Node} {span : Span} {v : Stamped} {fields inherited : Bindings Value}
    {types : List String} {scope : FrameId} (hleft : value (eval limits fuel) o c h = .done v k)
    (hvalue : v.value = .encap fields inherited types scope) :
    (eval limits (fuel + 1) (.binary span .access o e) c h).heap? =
      (eval limits fuel e scope k).heap? := by
  have haccess : eval limits (fuel + 1) (.binary span .access o e) c h =
      (value (eval limits fuel) e scope >>= fun right => pure (give right.value span c)) k := by
    show (value (eval limits fuel) o c >>= _) h = _
    rw [Run.bind_apply, hleft]
    simp only [hvalue]
  rw [haccess, Run.bind_apply, ← heap?_value]
  cases value (eval limits fuel) e scope k <;> rfl

/-- What is read as an expression is evaluated in the frame `c`, on a heap in which the bodies of
functions are statements and of which nothing else is asked. If it has a value, the current frame is
still `c` and the value is stamped with `c`. However it ends, it has bound nothing in the tables
that were there. So has the right side of an access to an object, from the moment when the object is
there: nothing is bound in its scope. -/
theorem stays_eval (limits : Limits) (fuel : Nat) (c : FrameId) (he : e.ReadAsExpression)
    (hbodies : h.Bodies Node.IsStatement) :
    (∀ out k, eval limits fuel e c h = .done out k →
      out.frame = c ∧ out.result.owner = some c) ∧
    (∀ k, (eval limits fuel e c h).heap? = some k →
      h.BindsNothing k ∧ k.Bodies Node.IsStatement) ∧
    ∀ (o : Node) (span : Span) (v : Stamped) (k l : Heap) (fields inherited : Bindings Value)
      (types : List String) (scope : FrameId), o.ReadAsExpression →
      value (eval limits fuel) o c h = .done v k → v.value = .encap fields inherited types scope →
      (eval limits (fuel + 1) (.binary span .access o e) c h).heap? = some l →
      k.BindsNothing l := by
  refine ⟨fun out k hend => ?_, fun k hend => bindsNothing_eval he.isExpression hbodies hend, ?_⟩
  · have hout := (shields_eval_expression he.isExpression hbodies).of_done hend
    exact ⟨hout.frame rfl, hout.owner rfl⟩
  · intro o span v k l fields inherited types scope ho hleft hvalue hend
    have hheap : (eval limits fuel o c h).heap? = some k := by
      rw [← heap?_value, hleft]
      rfl
    have hk := (bindsNothing_eval ho.isExpression hbodies hheap).2
    rw [heap?_access hleft hvalue] at hend
    exact (bindsNothing_eval he.isExpression hk hend).1

/-- A session with an object `o` and a function `f` that binds a name. -/
def bindingCall : Session :=
  ((Session.start {}).submitAll [⟨"<stdin>",
    "o = encap \x7b x = \"a\" \x7d\nf = fun: y \x7b z = y\nreturn [z] \x7d", 20⟩]).2

theorem reachable_bindingCall : bindingCall.Reachable := (Session.Reachable.start {}).submitAll _

/-- A list of a field of the object and a call of the function is evaluated, and nothing is bound in
the tables of the session. -/
theorem stays_eval_call : ∃ e out k,
    Node.expression? "<stdin>" "[o => x, (f: \"b\")]" = some e ∧
    eval {} 20 e bindingCall.frame bindingCall.heap = .done out k ∧
    bindingCall.heap.tables.size < k.tables.size ∧
    out.frame = bindingCall.frame ∧ out.result.owner = some bindingCall.frame ∧
    bindingCall.heap.BindsNothing k := by
  have hrun : (Node.expression? "<stdin>" "[o => x, (f: \"b\")]").any (fun e =>
      (eval {} 20 e bindingCall.frame bindingCall.heap).passes fun _ k =>
        Nat.blt bindingCall.heap.tables.size k.tables.size) = true := by
    cbv
  obtain ⟨e, he, hrun⟩ := (Option.any_eq_true _ _).mp hrun
  obtain ⟨out, k, hend, hsize⟩ := Ending.exists_of_passes hrun
  obtain ⟨hdone, hheap, -⟩ := stays_eval {} 20 bindingCall.frame
    (Node.readAsExpression_of_expression? he) reachable_bindingCall.sound.heap.bodies
  have hout := hdone out k hend
  refine ⟨e, out, k, he, hend, Nat.blt_eq.mp hsize, hout.1, hout.2, (hheap k ?_).1⟩
  rw [hend]
  rfl

end Evaluation

end CapsuleScript
