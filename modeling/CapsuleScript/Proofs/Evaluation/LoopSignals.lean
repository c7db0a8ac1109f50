import CapsuleScript.Proofs.Evaluation.Program

/-! Where the signals come from that loops take up. The statement that raises a signal stands in what
is evaluated or in the body of a function that is called meanwhile; the frame it was raised in was
entered from the frame of the evaluation or from that of the call, unless the statement stands in an
object literal that is evaluated in the frame of another scope. -/

namespace CapsuleScript

open Heap

/-! ### Statements that leave a loop -/

namespace Node

mutual

/-- The statement at `s` that leaves a loop stands in the node, outside of functions and of the
bodies of loops; with `away` it stands in what is evaluated in the frame of another scope. -/
def Exits : Node → (away : Bool) → LoopExit → Span → Prop
  | .number .., _, _, _ => False
  | .text .., _, _, _ => False
  | .list _ elements, away, exit, s => AnyExits elements away exit s
  | .binary _ op left right, away, exit, s =>
    left.Exits away exit s ∨ op ≠ .access ∧ right.Exits away exit s ∨
      op = .access ∧ away = true ∧ ∃ deeper, right.Exits deeper exit s
  | .unary _ _ operand, away, exit, s => operand.Exits away exit s
  | .assign _ _ _ value, away, exit, s => value.Exits away exit s
  | .ident .., _, _, _ => False
  | .block _ _ statements, away, exit, s => AnyExits statements away exit s
  | .conditional _ _ condition thenBranch elseBranch, away, exit, s =>
    condition.Exits away exit s ∨ thenBranch.Exits away exit s ∨
      OptionExits elseBranch away exit s
  | .function .., _, _, _ => False
  | .declaration .., _, _, _ => False
  | .call _ callee arguments, away, exit, s =>
    callee.Exits away exit s ∨ AnyExits arguments away exit s
  | .result _ value, away, exit, s => OptionExits value away exit s
  | .stopLoop span, away, exit, s => away = false ∧ exit = .stop ∧ s = span
  | .nextTurn span, away, exit, s => away = false ∧ exit = .next ∧ s = span
  | .whileLoop _ condition _, away, exit, s => condition.Exits away exit s
  | .forLoop _ _ _ source _ filter, away, exit, s =>
    source.Exits away exit s ∨ OptionExits filter away exit s
  | .encap _ _ _ body parent, away, exit, s =>
    body.Exits away exit s ∨ OptionExits parent away exit s
  | .prev _ expression, away, exit, s => away = true ∧ ∃ deeper, expression.Exits deeper exit s

/-- The statement stands in one of the nodes. -/
def AnyExits : List Node → (away : Bool) → LoopExit → Span → Prop
  | [], _, _, _ => False
  | node :: rest, away, exit, s => node.Exits away exit s ∨ AnyExits rest away exit s

/-- The statement stands in the node, if there is one. -/
def OptionExits : Option Node → (away : Bool) → LoopExit → Span → Prop
  | none, _, _, _ => False
  | some node, away, exit, s => node.Exits away exit s

end

end Node

/-! ### Frames of calls -/

theorem Heap.Ready.writable {h : Heap} {f : FrameId} (hr : h.Ready 0 f) : h.Writable 0 f :=
  ⟨hr.hasFrame, Nat.zero_le _⟩

variable {α β : Type} {h k l : Heap} {f r : FrameId} {exit : LoopExit} {s : Span}

/-- Between the heaps `h` and `l` the function `callee` is called, and its body runs in `frame`. -/
def Heap.Called (h l : Heap) (callee : Function) (frame : FrameId) : Prop :=
  ∃ (k : Heap) (g : FunctionId) (arguments : List Value) (span : Span), Steps 0 h k ∧
    k.HasFunction g ∧ callee = k.function g ∧
    frame = (Evaluation.callFrame callee arguments span k).1 ∧
    Steps 0 (Evaluation.callFrame callee arguments span k).2 l

theorem Heap.Called.earlier {callee : Function} {frame : FrameId} (hcall : k.Called l callee frame)
    (hs : Steps 0 h k) : h.Called l callee frame := by
  obtain ⟨m, g, arguments, span, hsm, hcalled⟩ := hcall
  exact ⟨m, g, arguments, span, hs.trans hsm, hcalled⟩

/-- Where a loop signal was raised that leaves the evaluation of something in the frame `f`, between
the heaps `h` and `l`: by a statement that passes the test `own`, in a frame entered from `f` unless
it is away; or in the body of a called function, in a frame entered from that of the call unless it
is away. -/
inductive Whence (h l : Heap) (own : Bool → LoopExit → Span → Prop) (f : FrameId)
    (exit : LoopExit) (s : Span) (r : FrameId) : Prop where
  | here : own false exit s → l.Descends f r → Whence h l own f exit s r
  | away : own true exit s → Whence h l own f exit s r
  | called {callee : Function} {frame : FrameId} : h.Called l callee frame →
      callee.body.Exits false exit s → l.Descends frame r → Whence h l own f exit s r
  | calledAway {callee : Function} {frame : FrameId} : h.Called l callee frame →
      callee.body.Exits true exit s → Whence h l own f exit s r

/-- The heap `l` comes from `h` by steps, and the signal was raised where the evaluation in the frame
`f` can raise one. -/
def Comes (h : Heap) (own : Bool → LoopExit → Span → Prop) (f : FrameId) (exit : LoopExit)
    (s : Span) (r : FrameId) (l : Heap) : Prop :=
  Steps 0 h l ∧ Whence h l own f exit s r

namespace Comes

variable {own other : Bool → LoopExit → Span → Prop}

theorem imp (hcomes : Comes h own f exit s r l)
    (himp : ∀ away exit s, own away exit s → other away exit s) : Comes h other f exit s r l := by
  refine ⟨hcomes.1, ?_⟩
  cases hcomes.2 with
  | here hown hd => exact .here (himp _ _ _ hown) hd
  | away hown => exact .away (himp _ _ _ hown)
  | called hcall hexits hd => exact .called hcall hexits hd
  | calledAway hcall hexits => exact .calledAway hcall hexits

/-- What comes from a later part of an evaluation, which may run in a frame entered from `f`. -/
theorem before {g : FrameId} (hcomes : Comes k own g exit s r l) (hs : Steps 0 h k)
    (hk : k.Sound) (hg : k.HasFrame g) (hd : k.Descends f g) : Comes h own f exit s r l := by
  refine ⟨hs.trans hcomes.1, ?_⟩
  cases hcomes.2 with
  | here hown hdr => exact .here hown (hdr.trans (hd.keeps hk hcomes.1.keeps hg))
  | away hown => exact .away hown
  | called hcall hexits hdr => exact .called (hcall.earlier hs) hexits hdr
  | calledAway hcall hexits => exact .calledAway (hcall.earlier hs) hexits

/-- What comes from a later part that runs in the same frame. -/
theorem later (hcomes : Comes k own f exit s r l) (hr : h.Ready 0 f) (hs : Steps 0 h k)
    (himp : ∀ away exit s, own away exit s → other away exit s) : Comes h other f exit s r l :=
  (hcomes.before hs (hr.steps hs).sound (hr.steps hs).hasFrame .refl).imp himp

/-- What comes from a part that runs in the frame of another scope. -/
theorem visited {scope : FrameId} (hcomes : Comes k own scope exit s r l) (hs : Steps 0 h k)
    (himp : ∀ deeper, own deeper exit s → other true exit s) : Comes h other f exit s r l := by
  refine ⟨hs.trans hcomes.1, ?_⟩
  cases hcomes.2 with
  | here hown _ => exact .away (himp false hown)
  | away hown => exact .away (himp true hown)
  | called hcall hexits hdr => exact .called (hcall.earlier hs) hexits hdr
  | calledAway hcall hexits => exact .calledAway (hcall.earlier hs) hexits

end Comes

/-! ### Computations that end with a loop signal -/

/-- Every loop signal with which the computation ends on the heap `h` passes the test. -/
def Run.Signals (run : Run α) (h : Heap)
    (E : LoopExit → Span → FrameId → Heap → Prop) : Prop :=
  ∀ exit s r l, run h = .raised (.exited exit s r) l → E exit s r l

namespace Run.Signals

variable {E F : LoopExit → Span → FrameId → Heap → Prop} {run : Run α} {next : α → Run β}

theorem imp (hrun : run.Signals h F) (himp : ∀ exit s r l, F exit s r l → E exit s r l) :
    run.Signals h E :=
  fun exit s r l hend => himp exit s r l (hrun exit s r l hend)

theorem pure {a : α} : (Pure.pure a : Run α).Signals h E := by
  intro exit s r l hend
  cases hend

theorem fail {kind : FaultKind} {span : Span} : (Run.fail kind span f : Run α).Signals h E := by
  intro exit s r l hend
  cases hend

theorem exhausted : (Run.exhausted : Run α).Signals h E := by
  intro exit s r l hend
  cases hend

/-- A signal that is no loop signal. -/
theorem raise {signal : Signal} (hnot : ∀ exit s r, signal ≠ .exited exit s r) :
    (Run.raise signal : Run α).Signals h E := by
  intro exit s r l hend
  cases hend
  exact absurd rfl (hnot exit s r)

theorem bind (hrun : run.Signals h E)
    (hnext : ∀ a k, run h = .done a k → (next a).Signals k E) :
    (run >>= next).Signals h E := by
  intro exit s r l hend
  rw [Run.bind_apply] at hend
  cases hrunh : run h with
  | done a k =>
      rw [hrunh] at hend
      exact hnext a k hrunh exit s r l hend
  | raised signal k =>
      rw [hrunh] at hend
      cases hend
      exact hrun exit s r l hrunh
  | outOfFuel =>
      rw [hrunh] at hend
      cases hend

theorem read_bind {g : Heap → α} (hnext : (next (g h)).Signals h E) :
    (Run.read g >>= next).Signals h E := hnext

theorem make_bind {g : Heap → α × Heap} (hnext : (next (g h).1).Signals (g h).2 E) :
    (Run.make g >>= next).Signals h E := hnext

theorem change_bind {g : Heap → Heap} {next : Unit → Run β} (hnext : (next ()).Signals (g h) E) :
    (Run.change g >>= next).Signals h E := hnext

/-- A signal that is taken up ends nothing. -/
theorem attempt : run.attempt.Signals h E := by
  intro exit s r l hend
  unfold Run.attempt at hend
  cases hrunh : run h <;> rw [hrunh] at hend <;> cases hend

theorem of_attempt {signal : Signal} (hend : run.attempt h = .done (.error signal) k) :
    run h = .raised signal k := by
  unfold Run.attempt at hend
  cases hrunh : run h <;> rw [hrunh] at hend <;> cases hend
  rfl

end Run.Signals

/-- Every loop signal that leaves an evaluation was raised where the node can raise one. -/
def Evaluator.Tells (sub : Evaluator) : Prop :=
  ∀ {h n f statement}, h.Ready 0 f → n.Fits statement →
    (sub n f).Signals h (Comes h n.Exits f)

/-! ### Operators and bindings raise no loop signals -/

section Quiet

variable {E : LoopExit → Span → FrameId → Heap → Prop}

namespace Operation

theorem signals_settle {left right : Stamped} {result : Except FaultKind Value} :
    (settle left right result).Signals h E := by
  cases result with
  | ok v => exact .pure
  | error kind => exact .raise fun _ _ _ hexit => Signal.noConfusion hexit

theorem signals_object {op : BinaryOp} {c : Capsule} {left right : Stamped} :
    (object op c left right).Signals h E := by
  unfold object
  split
  · exact .make_bind .pure
  · exact .pure
  · exact .pure
  · exact .pure
  · exact signals_settle

theorem signals_binary {op : BinaryOp} {left right : Stamped} :
    (binary op left right).Signals h E := by
  have htyped : (typed op left right).Signals h E := by
    unfold typed
    split
    · exact signals_settle
    · exact signals_settle
    · exact signals_settle
    · exact signals_settle
    · exact .read_bind signals_settle
    · exact signals_object
    · exact signals_settle
    · exact signals_settle
  unfold binary
  split
  · exact .pure
  · exact .pure
  · exact htyped

end Operation

namespace Evaluation

theorem signals_bindingTarget {name label : String} {span : Span} :
    (bindingTarget name label span f).Signals h E := by
  refine .read_bind ?_
  split
  · intro exit s r l hend
    cases hend
  · exact .pure

theorem signals_bindKept {span : Span} {name : String} {kept : Value} :
    (bindKept span name f kept).Signals h E := by
  unfold bindKept
  split
  · exact .make_bind (.make_bind (.change_bind .pure))
  · exact .bind signals_bindingTarget fun _ _ _ => .make_bind (.change_bind .pure)

theorem signals_function {span : Span} {name : Option String} {params : List String}
    {autoReturn : Bool} {body : Node} :
    (function span name params autoReturn body f).Signals h E := by
  refine .make_bind ?_
  cases name with
  | none => exact .pure
  | some name =>
      refine .read_bind ?_
      split
      · exact .change_bind (.bind .pure fun _ _ _ => .make_bind (.change_bind .pure))
      · exact .bind signals_bindingTarget fun _ _ _ => .make_bind (.change_bind .pure)

theorem signals_turn {sub : Evaluator} {body : Node} : (turn sub body f).Signals h E := by
  refine .bind .attempt fun ending k _ => ?_
  split
  · exact .pure
  · exact .read_bind .pure
  · rename_i signal hnot _
    exact .raise fun exit s r hexit => hnot exit s r hexit

theorem signals_cutFrames {span : Span} {around : TableId} {limit : Nat} {frames : List FrameId} :
    (cutFrames span around limit frames).Signals h E := by
  induction frames generalizing h limit with
  | nil => cases limit <;> exact .pure
  | cons frame rest ih =>
      cases limit with
      | zero => exact .fail
      | succ limit => exact .change_bind ih

theorem signals_sealed {limit : Nat} {span : Span} {typeName : Option String} {strict : Bool}
    {b : Built} : (sealed limit span typeName strict f b).Signals h E := by
  refine .read_bind ?_
  split
  · refine .bind signals_cutFrames fun _ k _ => .read_bind ?_
    cases b.point with
    | none => exact .bind .pure fun _ _ _ => .make_bind .pure
    | some t => exact .change_bind (.make_bind .pure)
  · exact .read_bind (.make_bind .pure)

theorem signals_base {span : Span} {parent : Option Capsule} :
    (base span parent f).Signals h E := by
  cases parent with
  | none => exact .pure
  | some c =>
      refine .read_bind (.make_bind ?_)
      split
      · exact .make_bind .pure
      · exact .fail

end Evaluation

end Quiet

/-! ### The constructs -/

namespace Evaluation

variable {sub : Evaluator} {statement : Bool}

/-- The evaluator evolves the heap and tells where its loop signals come from. -/
structure Traced (sub : Evaluator) : Prop where
  evolves : sub.Evolves
  tells : sub.Tells

theorem tells_value (hsub : Traced sub) (hr : h.Ready 0 f) {n : Node} (hn : n.Fits statement) :
    (value sub n f).Signals h (Comes h n.Exits f) :=
  .bind (hsub.tells hr hn) fun _ _ _ => .pure

/-- After the value of a node the heap is still ready. -/
theorem steps_value (hsub : Traced sub) (hr : h.Ready 0 f) {n : Node} (hn : n.Fits statement)
    {v : Stamped} (hend : value sub n f h = .done v k) : Steps 0 h k ∧ v.value.Lives k :=
  (evolves_value hsub.evolves hr hn fun _ => hr.writable).done_of hend

theorem tells_values (hsub : Traced sub) (hr : h.Ready 0 f) {nodes : List Node}
    (hn : Node.AllFit false nodes) :
    (values sub f nodes).Signals h (Comes h (Node.AnyExits nodes) f) := by
  induction nodes generalizing h with
  | nil => exact .pure
  | cons n rest ih =>
      refine .bind ((tells_value hsub hr hn.1).imp fun _ _ _ _ hcomes =>
        hcomes.imp fun _ _ _ => .inl) fun v k hend => ?_
      have hs := (steps_value hsub hr hn.1 hend).1
      have hr' := hr.steps hs
      exact .bind ((ih hr' hn.2).imp fun _ _ _ _ hcomes => hcomes.later hr hs fun _ _ _ => .inr)
        fun _ _ _ => .pure

theorem tells_binary (hsub : Traced sub) (hr : h.Ready 0 f) {span : Span} {op : BinaryOp}
    {left right : Node} (hl : left.IsExpression) (hri : right.IsExpression) :
    (binary sub span op left right f).Signals h
      (Comes h (Node.binary span op left right).Exits f) := by
  refine .bind ((tells_value hsub hr hl).imp fun _ _ _ _ hcomes =>
    hcomes.imp fun _ _ _ => .inl) fun v k hend => ?_
  obtain ⟨hs, hlive⟩ := steps_value hsub hr hl hend
  have hr' := hr.steps hs
  split
  · split
    · rename_i fields inherited types scope hvalue
      rw [hvalue] at hlive
      have hscope : k.Ready 0 scope := ⟨hr'.sound, hr'.le, hlive.2.2⟩
      exact .bind ((tells_value hsub hscope hri).imp fun _ _ _ _ hcomes =>
        hcomes.visited hs fun deeper hexits => .inr (.inr ⟨rfl, rfl, deeper, hexits⟩))
          fun _ _ _ => .pure
    · exact .raise fun _ _ _ hexit => Signal.noConfusion hexit
  · rename_i hop
    refine .bind ((tells_value hsub hr' hri).imp fun _ _ _ _ hcomes =>
      hcomes.later hr hs fun _ _ _ hexits => .inr (.inl ⟨hop, hexits⟩)) fun _ _ _ => ?_
    exact .bind Operation.signals_binary fun _ _ _ => .pure

theorem tells_unary (hsub : Traced sub) (hr : h.Ready 0 f) {span : Span} {op : UnaryOp}
    {operand : Node} (hn : operand.IsExpression) :
    (unary sub span op operand f).Signals h (Comes h operand.Exits f) := by
  refine .bind (tells_value hsub hr hn) fun v k _ => ?_
  cases op with
  | plus => exact .bind Operation.signals_binary fun _ _ _ => .pure
  | negate => exact .bind Operation.signals_binary fun _ _ _ => .pure
  | not => exact .pure

theorem tells_assign (hsub : Traced sub) (hr : h.Ready 0 f) {span : Span} {name : String}
    {topLevel : Bool} {node : Node} (hn : node.IsStatement) :
    (assign sub span name topLevel node f).Signals h
      (Comes h node.Exits f) := by
  rw [assign_eq_bindKept]
  refine .bind (tells_value hsub hr hn) fun v k _ => .read_bind ?_
  split
  · exact .change_bind signals_bindKept
  · refine .read_bind ?_
    split
    · exact .fail
    · exact signals_bindKept

theorem tells_conditional (hsub : Traced sub) (hr : h.Ready 0 f) {span : Span}
    {producesValue : Bool} {condition thenBranch : Node} {elseBranch : Option Node}
    (hn : (Node.conditional span producesValue condition thenBranch elseBranch).Fits statement) :
    (conditional sub span producesValue condition thenBranch elseBranch f).Signals h
      (Comes h (Node.conditional span producesValue condition thenBranch elseBranch).Exits f) := by
  obtain ⟨-, hcondition, hthen, helse⟩ := hn
  refine .bind ((tells_value hsub hr hcondition).imp fun _ _ _ _ hcomes =>
    hcomes.imp fun _ _ _ => .inl) fun v k hend => ?_
  have hs := (steps_value hsub hr hcondition hend).1
  have hbranch : ∀ branch, branch.Fits (!producesValue) → (∀ away exit s,
      branch.Exits away exit s →
        thenBranch.Exits away exit s ∨ Node.OptionExits elseBranch away exit s) →
      (do
        let outcome ← sub branch f
        if producesValue then return outcome
        else return ⟨.of (.bool false) span f, outcome.frame⟩ : Run Outcome).Signals k
          (Comes h (Node.conditional span producesValue condition thenBranch elseBranch).Exits f) := by
    intro branch hfits himp
    refine .bind ((hsub.tells (hr.steps hs) hfits).imp fun _ _ _ _ hcomes =>
      hcomes.later hr hs fun away exit s hexits => .inr (himp away exit s hexits)) fun _ _ _ => ?_
    split <;> exact .pure
  split
  · exact .pure
  · rename_i branch hchosen
    split at hchosen
    · cases hchosen
      exact hbranch _ hthen fun _ _ _ => .inl
    · subst hchosen
      exact hbranch _ helse fun _ _ _ => .inr

/-- The signals of a call: those of the callee and the arguments stand in the node, those of the
body in the body of a called function. -/
theorem tells_call (hsub : Traced sub) (hr : h.Ready 0 f) {span : Span} {callee : Node}
    {arguments : List Node} (hcallee : callee.IsExpression)
    (harguments : Node.AllFit false arguments) :
    (call sub span callee arguments f).Signals h
      (Comes h (Node.call span callee arguments).Exits f) := by
  refine .bind ((tells_value hsub hr hcallee).imp fun _ _ _ _ hcomes =>
    hcomes.imp fun _ _ _ => .inl) fun v k hend => ?_
  obtain ⟨hs, hlive⟩ := steps_value hsub hr hcallee hend
  have hr' := hr.steps hs
  refine .bind ((tells_values hsub hr' harguments).imp fun _ _ _ _ hcomes =>
    hcomes.later hr hs fun _ _ _ => .inr) fun vs l hends => ?_
  obtain ⟨hs', hlives⟩ := (evolves_values hsub.evolves hr' harguments).done_of hends
  split
  · rename_i g hvalue
    rw [hvalue] at hlive
    have hg : l.HasFunction g := hs'.keeps.hasFunction hlive
    have hl := (hr'.steps hs').sound
    refine .read_bind ?_
    unfold apply
    split
    · exact .fail
    split
    · exact .fail
    have hstep : Step 0 l (callFrame (l.function g) vs span l).2 :=
      hl.step_callFrame (hl.home hg) hlives span
    refine .make_bind ?_
    have hcalled : (callFrame (l.function g) vs span l).2.Ready 0
        (callFrame (l.function g) vs span l).1 :=
      ⟨hstep.sound hl, Nat.zero_le _, hasFrame_callFrame (l.function g) vs span⟩
    refine .bind .attempt fun ending m hending => ?_
    split
    · exact .pure
    · exact .pure
    · intro exit s r m' hraised
      cases hraised
      have hs'' : Steps 0 h l := hs.trans hs'
      obtain ⟨hsm, hcomes⟩ := hsub.tells hcalled (hl.body hg) exit s r m
        (Run.Signals.of_attempt hending)
      have hcalled : h.Called m (l.function g) (callFrame (l.function g) vs span l).1 :=
        ⟨l, g, vs, span, hs'', hg, rfl, rfl, hsm⟩
      refine ⟨hs''.trans (.head hstep hsm), ?_⟩
      cases hcomes with
      | here hexits hd => exact .called hcalled hexits hd
      | away hexits => exact .calledAway hcalled hexits
      | called hcall hexits hd => exact .called (hcall.earlier (hs''.tail hstep)) hexits hd
      | calledAway hcall hexits => exact .calledAway (hcall.earlier (hs''.tail hstep)) hexits
  · exact .fail

theorem tells_prev (hsub : Traced sub) (hr : h.Ready 0 f) {span : Span} {expression : Node}
    (hn : expression.IsExpression) :
    (prev sub span expression f).Signals h
      (Comes h (Node.prev span expression).Exits f) := by
  refine .read_bind ?_
  split
  · rename_i p hp
    have hparent : h.Ready 0 p := ⟨hr.sound, hr.le, hr.sound.hasFrame_parent hr.hasFrame hp⟩
    exact .bind ((tells_value hsub hparent hn).imp fun _ _ _ _ hcomes =>
      hcomes.visited .refl fun deeper hexits => ⟨rfl, deeper, hexits⟩) fun _ _ _ => .pure
  · exact .fail

/-- A place from which an evaluation that started in the frame `f` of the heap `h` goes on. -/
structure Onward (h : Heap) (f : FrameId) (k : Heap) (g : FrameId) : Prop where
  steps : Steps 0 h k
  ready : k.Ready 0 g
  descends : k.Descends f g

namespace Onward

variable {g : FrameId}

theorem refl (hr : h.Ready 0 f) : Onward h f h f := ⟨.refl, hr, .refl⟩

/-- After further steps the evaluation may go on where it was. -/
theorem tail (ho : Onward h f k g) (hs : Steps 0 k l) : Onward h f l g :=
  ⟨ho.steps.trans hs, ho.ready.steps hs,
    ho.descends.keeps ho.ready.sound hs.keeps ho.ready.hasFrame⟩

/-- After further steps the evaluation may go on in a frame entered from where it was. -/
theorem move {e : FrameId} (ho : Onward h f k g) (hs : Steps 0 k l) (he : l.HasFrame e)
    (hd : l.Descends g e) : Onward h f l e :=
  ⟨ho.steps.trans hs, ⟨(ho.tail hs).ready.sound, Nat.zero_le _, he⟩,
    hd.trans (ho.tail hs).descends⟩

theorem comes {own other : Bool → LoopExit → Span → Prop} (ho : Onward h f k g)
    (hcomes : Comes k own g exit s r l)
    (himp : ∀ away exit s, own away exit s → other away exit s) :
    Comes h other f exit s r l :=
  (hcomes.before ho.steps ho.ready.sound ho.ready.hasFrame ho.descends).imp himp

end Onward

theorem tells_whileTurns (hsub : Traced sub) {condition body : Node}
    (hcondition : condition.IsExpression) (hbody : body.IsStatement) {bound : Nat}
    {outcome : Outcome} (ho : Onward h f k outcome.frame) :
    (whileTurns sub condition body bound outcome).Signals k
      (Comes h condition.Exits f) := by
  induction bound generalizing k outcome with
  | zero => exact .exhausted
  | succ bound ih =>
      refine .bind ((tells_value hsub ho.ready hcondition).imp fun _ _ _ _ hcomes =>
        ho.comes hcomes fun _ _ _ => id) fun v l hend => ?_
      have ho' := ho.tail (steps_value hsub ho.ready hcondition hend).1
      split
      · refine .bind signals_turn fun done m hdone => ?_
        obtain ⟨hs, hgoes⟩ := (evolves_turn hsub.evolves ho'.ready ho'.ready.writable
          hbody).done_of hdone
        split
        · exact ih (ho'.move hs hgoes.writable.1 hgoes.descends)
        · exact .pure
      · exact .pure

theorem tells_forTurns (hsub : Traced sub) {span : Span} {name : String} {body : Node}
    {filter : Option Node} (hbody : body.Fits statement) (hfilter : Node.OptionFits false filter)
    {elements : List Value} {progress : Progress} (hlive : Value.AllLive k elements)
    (ho : Onward h f k progress.frame) :
    (forTurns sub span name body filter elements progress).Signals k
      (Comes h (Node.OptionExits filter) f) := by
  induction elements generalizing k progress with
  | nil => exact .pure
  | cons element rest ih =>
      have henter : Step 0 k (k.enter "<for>" progress.frame span).2 :=
        ho.ready.sound.step_enter "<for>" ho.ready.hasFrame span
      refine .make_bind (.change_bind ?_)
      have hw := writable_enter (Nat.zero_le k.tables.size) "<for>" progress.frame span
      have hdefine : Step 0 (k.enter "<for>" progress.frame span).2
          ((k.enter "<for>" progress.frame span).2.define
            (k.enter "<for>" progress.frame span).1 name element) := by
        refine (henter.sound ho.ready.sound).step_define hw (henter.keeps.lives hlive.1) ?_
        rw [bindings_enter]
        rfl
      have ho' := (ho.move (.single henter) hw.1 (descends_enter _ _ _)).tail (.single hdefine)
      have hlive' := hlive.2.mono (henter.keeps.trans hdefine.keeps).frames
        (henter.keeps.trans hdefine.keeps).functions
      generalize (k.enter "<for>" progress.frame span).2.define _ name element = l at *
      generalize (k.enter "<for>" progress.frame span).1 = frame at *
      refine .bind ?_ fun passed m hpassed => ?_
      · cases filter with
        | none => exact .pure
        | some filter =>
            exact .bind ((tells_value hsub ho'.ready hfilter).imp fun _ _ _ _ hcomes =>
              ho'.comes hcomes fun _ _ _ => id) fun _ _ _ => .pure
      · have hs := ((evolves_admitted hsub.evolves ho'.ready hfilter).done_of hpassed).1
        have hom := ho'.tail hs
        have hlivem := hlive'.mono hs.keeps.frames hs.keeps.functions
        split
        · refine .bind signals_turn fun done n hdone => ?_
          obtain ⟨hs', hgoes⟩ := (evolves_turn hsub.evolves hom.ready hom.ready.writable
            hbody).done_of hdone
          have hon := hom.move hs' hgoes.writable.1 hgoes.descends
          have hliven := hlivem.mono hs'.keeps.frames hs'.keeps.functions
          split <;> split
          · exact ih hliven hon
          · exact .pure
          · exact ih hliven hon
          · exact .pure
        · exact ih hlivem hom

theorem tells_forLoop (hsub : Traced sub) (hr : h.Ready 0 f) {span : Span} {name : String}
    {comprehension : Bool} {source body : Node} {filter : Option Node}
    (hn : (Node.forLoop span name comprehension source body filter).Fits statement) :
    (forLoop sub span name comprehension source body filter f).Signals h
      (Comes h (Node.forLoop span name comprehension source body filter).Exits f) := by
  obtain ⟨-, hsource, hbody, hfilter⟩ := hn
  refine .bind ((tells_value hsub hr hsource).imp fun _ _ _ _ hcomes =>
    hcomes.imp fun _ _ _ => .inl) fun v k hend => ?_
  obtain ⟨hs, hlive⟩ := steps_value hsub hr hsource hend
  split
  · rename_i elements hvalue
    rw [hvalue] at hlive
    refine .bind (.imp (tells_forTurns hsub hbody hfilter hlive ((Onward.refl hr).tail hs))
      fun _ _ _ _ hcomes => hcomes.imp fun _ _ _ => .inr) fun _ _ _ => ?_
    split <;> exact .pure
  · exact .read_bind .fail

theorem tells_statements (hsub : Traced sub) {body : List Node} (hbody : Node.AllFit true body)
    {outcome : Outcome} (ho : Onward h f k outcome.frame) :
    (statements sub body outcome).Signals k
      (Comes h (Node.AnyExits body) f) := by
  induction body generalizing k outcome with
  | nil => exact .pure
  | cons statement rest ih =>
      refine .bind ((hsub.tells ho.ready hbody.1).imp fun _ _ _ _ hcomes =>
        ho.comes hcomes fun _ _ _ => .inl) fun next l hend => ?_
      obtain ⟨hs, hnext⟩ := (hsub.evolves ho.ready hbody.1 fun _ =>
        .inr ho.ready.writable).done_of hend
      have hrest : ∀ frame, Onward h f l frame → (statements sub rest ⟨next.result, frame⟩).Signals l
          (Comes h (Node.AnyExits (statement :: rest)) f) := fun frame ho' =>
        (ih hbody.2 ho').imp fun _ _ _ _ hcomes => hcomes.imp fun _ _ _ => .inr
      split
      · exact hrest _ (ho.tail hs)
      · exact hrest _ (ho.move hs hnext.hasFrame hnext.descends)

theorem tells_block (hsub : Traced sub) (hr : h.Ready 0 f) {span : Span} {body : List Node}
    (hbody : Node.AllFit true body) :
    (block sub span body f).Signals h (Comes h (Node.AnyExits body) f) := by
  have henter : Step 0 h (h.enter "<block>" f span).2 :=
    hr.sound.step_enter "<block>" hr.hasFrame span
  refine .make_bind (tells_statements hsub hbody ?_)
  exact (Onward.refl hr).move (.single henter) (hasFrame_enter _ _ _) (descends_enter _ _ _)

theorem tells_result (hsub : Traced sub) (hr : h.Ready 0 f) {span : Span} {node : Option Node}
    (hn : Node.OptionFits false node) :
    (result sub span node f).Signals h
      (Comes h (Node.OptionExits node) f) := by
  cases node with
  | none => exact .raise fun _ _ _ hexit => Signal.noConfusion hexit
  | some node =>
      exact .bind (tells_value hsub hr hn) fun _ _ _ =>
        .raise fun _ _ _ hexit => Signal.noConfusion hexit

/-- The frame under the body of an object literal is the frame around it or was entered from it. -/
theorem onward_base (hr : h.Ready 0 f) {span : Span} {parent : Option Capsule}
    (hparent : ∀ c, parent = some c → c.Lives h) {made : FrameId × Option TableId}
    (hend : base span parent f h = .done made k) : Onward h f k made.1 := by
  obtain ⟨hs, hmade⟩ := (evolves_base hr hparent).done_of hend
  refine (Onward.refl hr).move hs hmade ?_
  cases parent with
  | none =>
      cases hend
      exact .refl
  | some c =>
      simp only [base, Run.bind_apply, Run.read, Run.make] at hend
      cases hpoint : (h.splice (h.frame c.scope).table (h.frame f).table).1 with
      | none =>
          rw [hpoint] at hend
          cases hend
      | some point =>
          rw [hpoint] at hend
          cases hend
          have hself := frame_addFrame_self
            (h := (h.splice (h.frame c.scope).table (h.frame f).table).2)
            ⟨"<inherits>", (h.frame c.scope).table, some f, some span,
              ((h.splice (h.frame c.scope).table (h.frame f).table).2.frame f).root⟩
          exact .entered (congrArg Frame.parent hself) .refl

theorem tells_encap (hsub : Traced sub) (hr : h.Ready 0 f) {limit : Nat} {span : Span}
    {typeName : Option String} {strict : Bool} {body : Node} {parentNode : Option Node}
    (hbody : body.IsStatement) (hparent : Node.OptionFits false parentNode) :
    (encap sub limit span typeName strict body parentNode f).Signals h
      (Comes h (Node.encap span typeName strict body parentNode).Exits f) := by
  rw [encap_eq_built_sealed]
  refine .bind ?_ fun b k _ => signals_sealed
  refine .bind ?_ fun parent k hend => ?_
  · cases parentNode with
    | none => exact .pure
    | some node =>
        refine .bind (.bind ((tells_value hsub hr hparent).imp fun _ _ _ _ hcomes =>
          hcomes.imp fun _ _ _ => .inr) fun v k _ => ?_) fun _ _ _ => .pure
        split
        · exact .pure
        · exact .fail
  · obtain ⟨hs, hlives⟩ := (evolves_parents hsub.evolves hr hparent).done_of hend
    refine .bind signals_base fun made l hmade => .read_bind ?_
    have hbase := onward_base (hr.steps hs) hlives hmade
    have ho := ((Onward.refl hr).tail hs).move hbase.steps hbase.ready.hasFrame hbase.descends
    exact .bind ((hsub.tells ho.ready hbody).imp fun _ _ _ _ hcomes =>
      ho.comes hcomes fun _ _ _ => .inl) fun _ _ _ => .pure

/-! ### All nodes -/

theorem tells_node (limits : Limits) (bound : Nat) (hsub : Traced sub) :
    Evaluator.Tells (node limits bound sub) := by
  intro h n f statement hr hn
  cases n with
  | number => exact .pure
  | text => exact .pure
  | list span elements => exact .bind (tells_values hsub hr hn) fun _ _ _ => .pure
  | binary span op left right => exact tells_binary hsub hr hn.1 hn.2
  | unary span op operand => exact tells_unary hsub hr hn
  | assign span name topLevel value => exact tells_assign hsub hr hn.2
  | ident span name =>
      refine .read_bind ?_
      split
      · exact .pure
      · exact .fail
  | block span mayDeclare body => exact tells_block hsub hr hn.2
  | conditional span producesValue condition thenBranch elseBranch =>
      exact tells_conditional hsub hr hn
  | function span name params autoReturn body => exact signals_function
  | declaration span name placeholder =>
      exact .bind signals_bindingTarget fun _ _ _ => .make_bind (.change_bind .pure)
  | call span callee arguments => exact tells_call hsub hr hn.1 hn.2
  | result span value => exact tells_result hsub hr hn.2
  | stopLoop span =>
      intro exit s r l hend
      cases hend
      exact ⟨.refl, .here ⟨rfl, rfl, rfl⟩ .refl⟩
  | nextTurn span =>
      intro exit s r l hend
      cases hend
      exact ⟨.refl, .here ⟨rfl, rfl, rfl⟩ .refl⟩
  | whileLoop span condition body => exact tells_whileTurns hsub hn.2.1 hn.2.2 (.refl hr)
  | forLoop span name comprehension source body filter => exact tells_forLoop hsub hr hn
  | encap span typeName strict body parent => exact tells_encap hsub hr hn.2.1 hn.2.2
  | prev span expression => exact tells_prev hsub hr hn

/-- Every loop signal that leaves an evaluation comes from the node, from the body of a called
function or from another scope. -/
theorem tells_eval (limits : Limits) (fuel : Nat) : Evaluator.Tells (eval limits fuel) := by
  induction fuel with
  | zero => exact fun _ _ => .exhausted
  | succ fuel ih => exact tells_node limits fuel ⟨evolves_eval limits fuel, ih⟩

end Evaluation

end CapsuleScript
