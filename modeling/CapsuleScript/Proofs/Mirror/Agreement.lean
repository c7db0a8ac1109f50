import CapsuleScript.Proofs.Fragment.Constructs
import CapsuleScript.Proofs.Fragment.Core
import CapsuleScript.Proofs.Mirror.Declaring
import CapsuleScript.Proofs.Mirror.Statements
import CapsuleScript.Proofs.Session.Rebinding

/-! Frames that see the same data. Two frames, each in a heap of its own, may lie at the ends of
chains that have nothing in common. If the names mean the same data in both, a declaration of the
core gives its name the same value in both, or fails in both. Main statement: so do declarations one
after the other, also if more of them follow on one side. -/

namespace CapsuleScript

open Heap

variable {W : Matching} {h h' k k' : Heap} {f f' e : FrameId} {v v' : Value} {name : String}

/-! ### Data -/

namespace Value

mutual

/-- Data has no numbers of a heap in it. -/
theorem Belongs.match_self : {v : Value} → v.Belongs .data → v.Match W v
  | .number x, _ => .number x
  | .bool b, _ => .bool b
  | .null, _ => .null
  | .text s, _ => .text s
  | .list elements, hv =>
      have helements : AllBelong .data elements := hv
      .list helements.match_self
  | .function _, hv => hv.elim
  | .encap .., hv => hv.1.elim
  | .empty, hv => hv.elim

theorem AllBelong.match_self : {vs : List Value} → AllBelong .data vs → AllMatch W vs vs
  | [], _ => .nil
  | _ :: _, hvs => .cons hvs.1.match_self hvs.2.match_self

end

mutual

theorem Match.eq_of_data : {v v' : Value} → v.Match W v' → v.Belongs .data → v' = v
  | _, _, .number _, _ | _, _, .bool _, _ | _, _, .null, _ | _, _, .text _, _
  | _, _, .empty, _ => rfl
  | _, _, .list hvs, hv => congrArg Value.list (hvs.eq_of_data hv)
  | _, _, .function _, hv => hv.elim
  | _, _, .encap .., hv => hv.1.elim

theorem AllMatch.eq_of_data : {vs vs' : List Value} → AllMatch W vs vs' → AllBelong .data vs →
    vs' = vs
  | _, _, .nil, _ => rfl
  | _, _, .cons hv hrest, hvs => congrArg₂ List.cons (hv.eq_of_data hvs.1) (hrest.eq_of_data hvs.2)

end

mutual

theorem Belongs.rehome_eq (f : FrameId) : {v : Value} → {h : Heap} → v.Belongs .data →
    Heap.rehome f v h = (v, h)
  | .number _, _, _ | .bool _, _, _ | .null, _, _ | .text _, _, _ => rfl
  | .list elements, h, hv => by
      have helements : AllBelong .data elements := hv
      rw [Heap.rehome, helements.rehomeAll_eq f]
  | .function _, _, hv => hv.elim
  | .encap .., _, hv => hv.1.elim
  | .empty, _, hv => hv.elim

theorem AllBelong.rehomeAll_eq (f : FrameId) : {vs : List Value} → {h : Heap} →
    AllBelong .data vs → Heap.rehomeAll f vs h = (vs, h)
  | [], _, _ => rfl
  | v :: rest, h, hvs => by
      simp only [Heap.rehomeAll, hvs.1.rehome_eq f, hvs.2.rehomeAll_eq f]

end

theorem Belongs.function?_eq_none (hv : v.Belongs .data) : v.function? = none := by
  cases v with
  | function => exact hv.elim
  | _ => rfl

theorem Belongs.capsule?_eq_none (hv : v.Belongs .data) : v.capsule? = none := by
  cases v with
  | encap => exact hv.1.elim
  | _ => rfl

theorem eq_of_rel {o o' : Option Value} (hrel : Option.Rel (Match W) o o')
    (hdata : ∀ v ∈ o, v.Belongs .data) : o = o' := by
  cases hrel with
  | none => rfl
  | some hmatch => rw [hmatch.eq_of_data (hdata _ rfl)]

/-- The text of data is the same in all heaps. -/
theorem Belongs.render_eq (hv : v.Belongs .data) (h h' : Heap) : h.render v = h'.render v := by
  have hmatch : v.Match ⟨fun _ _ => False, fun _ _ => False, fun _ _ => False⟩ v := hv.match_self
  exact hmatch.render_eq fun hg => False.elim hg

end Value

/-! ### Frames that agree -/

/-- The frame lies in a sound heap in which everything is data. -/
structure Heap.Plain (h : Heap) (f : FrameId) : Prop where
  sound : h.Sound
  hasFrame : h.HasFrame f
  data : h.Belongs .data

/-- The frames lie in heaps of data and see the same. -/
structure Heap.Agrees (h : Heap) (f : FrameId) (h' : Heap) (f' : FrameId) : Prop where
  left : h.Plain f
  right : h'.Plain f'
  lookup : ∀ name, h.lookup f name = h'.lookup f' name

theorem Heap.Plain.agrees (hh : h.Plain f) : h.Agrees f h f := ⟨hh, hh, fun _ => rfl⟩

theorem Heap.Agrees.trans (hagree : h.Agrees f h' f') (hagree' : h'.Agrees f' k e) :
    h.Agrees f k e :=
  ⟨hagree.left, hagree'.right, fun name => (hagree.lookup name).trans (hagree'.lookup name)⟩

/-- The frames are matched, and nothing else but their tables is. -/
def Heap.facing (h : Heap) (f : FrameId) (h' : Heap) (f' : FrameId) : Matching where
  tables t t' := t = (h.frame f).table ∧ t' = (h'.frame f').table
  frames e e' := e = f ∧ e' = f'
  functions _ _ := False

/-- Frames that agree look alike: all there is yet is closed, and names mean the same. -/
theorem Heap.Agrees.mirrors (hagree : h.Agrees f h' f') :
    (h.facing f h' f').Mirrors h.horizon h'.horizon h h' := by
  have htable : h.HasTable (h.frame f).table := hagree.left.sound.hasTable hagree.left.hasFrame
  have htable' : h'.HasTable (h'.frame f').table :=
    hagree.right.sound.hasTable hagree.right.hasFrame
  have hframe := hagree.left.hasFrame
  have hframe' := hagree.right.hasFrame
  have hnoTable : ¬ h.horizon.tables ≤ (h.frame f).table.index := Nat.not_le.mpr htable
  have hnoFrame : ¬ h.horizon.frames ≤ f.index := Nat.not_le.mpr hframe
  constructor
  case left => exact hagree.left.sound.after
  case right => exact hagree.right.sound.after
  case table =>
    rintro _ _ ⟨rfl, rfl⟩
    exact ⟨htable, htable', iff_of_false hnoTable (Nat.not_le.mpr htable')⟩
  case closed =>
    rintro _ _ ⟨rfl, rfl⟩ - name
    have hsame : h.get? (h.frame f).table name = h'.get? (h'.frame f').table name :=
      hagree.lookup name
    rw [← hsame]
    cases hv : h.get? (h.frame f).table name with
    | none => exact .none
    | some v =>
        have hdata : v.Belongs .data := hagree.left.data.lookup hv
        exact .some hdata.match_self
  case opened =>
    rintro _ _ ⟨rfl, rfl⟩ hle
    exact absurd hle hnoTable
  case tables_eq =>
    rintro _ _ _ _ ⟨rfl, rfl⟩ - hle
    exact absurd hle hnoTable
  case frame =>
    rintro _ _ ⟨rfl, rfl⟩
    exact ⟨hframe, hframe', iff_of_false hnoFrame (Nat.not_le.mpr hframe'), rfl, rfl⟩
  case entered =>
    rintro _ _ ⟨rfl, rfl⟩ hle
    exact absurd hle hnoFrame
  case frames_eq =>
    rintro _ _ _ _ ⟨rfl, rfl⟩ - hle
    exact absurd hle hnoFrame
  case function => exact fun hg => hg.elim
  case body => exact fun hg => hg.elim
  case functions_eq => exact fun hg => hg.elim

theorem Heap.Plain.ready (hh : h.Plain f) : h.Ready 0 f := ⟨hh.sound, Nat.zero_le _, hh.hasFrame⟩

theorem Heap.Plain.writable (hh : h.Plain f) : h.Writable 0 f := ⟨hh.hasFrame, Nat.zero_le _⟩

/-- A name is given the same data in both frames. -/
theorem Heap.Agrees.lookup_define (hagree : h.Agrees f h' f') (name other : String) (v : Value) :
    (h.define f name v).lookup f other = (h'.define f' name v).lookup f' other := by
  by_cases hother : name = other
  · subst hother
    rw [hagree.left.sound.rooted.lookup_define_self
        (hagree.left.sound.hasTable hagree.left.hasFrame),
      hagree.right.sound.rooted.lookup_define_self
        (hagree.right.sound.hasTable hagree.right.hasFrame)]
  · have hsame : ∀ (h : Heap) (f : FrameId), (h.define f name v).lookup f other = h.lookup f other :=
      fun h f => get?_bind_of_ne hother _
    rw [hsame, hsame, hagree.lookup]

/-! ### Declarations -/

/-- The computation has ended without a result, and none was returned. -/
def Ending.Fails {α : Type} : Ending α → Prop
  | .done _ _ => False
  | .raised signal _ => ∀ result, signal ≠ .returned result
  | .outOfFuel => True

theorem Ending.Fails.bind {α β : Type} {run : Run α} {next : α → Run β} (hfails : (run h).Fails) :
    ((run >>= next) h).Fails := by
  rw [Run.bind_apply]
  cases hend : run h with
  | done a k =>
      rw [hend] at hfails
      exact hfails.elim
  | raised signal k =>
      rw [hend] at hfails
      exact hfails
  | outOfFuel => trivial

/-- Both outcomes have the same data for their value. -/
def Outcome.SameData (out out' : Outcome) : Prop :=
  out'.result.value = out.result.value ∧ out.result.value.Belongs .data

namespace Evaluation

variable {limits : Limits} {fuel : Nat} {sub : Evaluator} {span : Span} {node : Node}
  {out : Outcome}

/-- A name that has no meaning is bound in the frame itself. -/
theorem bindKept_of_data (hk : k.Sound) (hf : k.HasFrame f) (hnone : k.lookup f name = none)
    (hv : v.Belongs .data) :
    bindKept span name f v k = .done (give v span f) (k.define f name v) := by
  have hunbound : k.bindsDirectly f name = false := by
    have hget := hk.rooted.get?_eq_or (hk.hasTable hf) name
    rw [show k.get? (k.frame f).table name = none from hnone] at hget
    have hown := (Option.or_eq_none_iff.mp hget.symm).1
    rw [Heap.bindsDirectly, Bindings.has, hown]
    rfl
  have htarget : bindingTarget name name span f k = .done f k := by
    rw [bindingTarget, Run.bind_apply, Run.read, hunbound]
    rfl
  have hkeep : Heap.rehome f v k = (v, k) := hv.rehome_eq f
  rw [bindKept, hv.capsule?_eq_none]
  simp only [Option.isSome_none, Bool.false_eq_true, if_false]
  rw [Run.bind_apply, htarget]
  simp only [Run.bind_apply, Run.make, hkeep, Run.change, Run.pure_apply]

/-- A name of the program is given data. -/
theorem assign_of_data (hend : sub node f h = .done out k) (hk : k.Plain f)
    (hv : out.result.value.Belongs .data) :
    assign sub span name true node f h =
      if (k.lookup f name).isSome then .raised (.failed ⟨.alreadyBound name, span, some f⟩) k
      else .done (give out.result.value span f) (k.define f name out.result.value) := by
  have hvalue : value sub node f h = .done (out.result.anchored f) k := by
    rw [value, Run.bind_apply, hend]
    rfl
  have hnot : ((out.result.anchored f).value.function?).isSome = false := by
    rw [Stamped.anchored_value, hv.function?_eq_none]
    rfl
  rw [assign_of_not_defines hvalue fun hdefines => Bool.false_ne_true (hnot.symm.trans hdefines.1),
    Stamped.anchored_value]
  cases hlook : k.lookup f name with
  | some w => rfl
  | none => exact bindKept_of_data hk.sound hk.hasFrame hlook hv

/-- The evaluation of data leaves a frame as it was, a plain one. -/
theorem plain_of_eval (hh : h.Plain f) {statement : Bool} (hfits : node.Fits statement)
    (hdata : node.Belongs .data) (hend : eval limits fuel node f h = .done out k) :
    k.Plain f ∧ out.result.value.Belongs .data := by
  have hevolves := evolves_eval limits fuel hh.ready hfits fun _ => .inr hh.writable
  have hbelongs : Run.Belongs .data False (eval limits fuel node f) h _ :=
    belongs_eval limits fuel hdata hh.data
  unfold Run.Belongs at hbelongs
  rw [hend] at hbelongs
  obtain ⟨hsteps, -⟩ := hevolves.done_of hend
  exact ⟨⟨hsteps.sound hh.sound, hsteps.keeps.hasFrame hh.hasFrame, hbelongs.1⟩, hbelongs.2⟩

/-- Without results of functions nothing is returned. -/
theorem fails_of_raised (hh : h.Plain f) (hdata : node.Belongs .data) {signal : Signal}
    (hend : eval limits fuel node f h = .raised signal k) (result : Stamped) :
    signal ≠ .returned result := by
  have hbelongs : Run.Belongs .data False (eval limits fuel node f) h _ :=
    belongs_eval limits fuel hdata hh.data
  unfold Run.Belongs at hbelongs
  rw [hend] at hbelongs
  rintro rfl
  exact hbelongs.2.1

/-- An expression or a block of the core has the same value in frames that agree, or fails in
both. -/
theorem agrees_eval (limits : Limits) (fuel : Nat) (hagree : h.Agrees f h' f')
    (hcore : node.isCore false = true ∨ node.IsBlock ∧ node.isCore true = true)
    (hdata : node.Belongs .data) :
    (∃ out k out' k', eval limits fuel node f h = .done out k ∧
      eval limits fuel node f' h' = .done out' k' ∧ out'.result.value = out.result.value ∧
      out.result.value.Belongs .data ∧ k.Agrees f k' f') ∨
    (eval limits fuel node f h).Fails ∧ (eval limits fuel node f' h').Fails := by
  obtain ⟨statement, hlexical, hfits, hplace⟩ : ∃ statement, node.Lexical ∧ node.Fits statement ∧
      (statement = true → node.IsBlock ∨ h.horizon.frames ≤ f.index) := by
    rcases hcore with hcore | ⟨hblock, hcore⟩
    · exact ⟨false, Node.coreRules_lexical.of_isCore false node hcore,
        Node.coreRules_fits.of_isCore false node hcore, nofun⟩
    · exact ⟨true, Node.coreRules_lexical.of_isCore true node hcore,
        Node.coreRules_fits.of_isCore true node hcore, fun _ => .inl hblock⟩
  have hmirrors := mirrors_eval h.horizon h'.horizon limits fuel hagree.mirrors
    ⟨rfl, rfl⟩ hlexical hfits hplace
  unfold Run.Mirrors at hmirrors
  generalize hend : eval limits fuel node f h = ending at hmirrors ⊢
  generalize hend' : eval limits fuel node f' h' = ending' at hmirrors ⊢
  cases hmirrors with
  | @done out out' k k' hmade =>
      obtain ⟨X, hX, hheaps, hout⟩ := hmade
      obtain ⟨hplain, hvalue⟩ := plain_of_eval hagree.left hfits hdata hend
      obtain ⟨hplain', -⟩ := plain_of_eval hagree.right hfits hdata hend'
      refine .inl ⟨out, k, out', k', rfl, rfl, hout.result.value.eq_of_data hvalue, hvalue, hplain,
        hplain', fun name => ?_⟩
      exact Value.eq_of_rel (hheaps.lookup (hX.frames ⟨rfl, rfl⟩) name)
        fun v hv => hplain.data.lookup hv
  | raised _ =>
      exact .inr ⟨fails_of_raised hagree.left hdata hend, fails_of_raised hagree.right hdata hend'⟩
  | outOfFuel => exact .inr ⟨trivial, trivial⟩

/-- A declaration of the core gives its name the same value in frames that agree, or fails in
both. -/
theorem agrees_declaration (limits : Limits) (fuel : Nat) (hagree : h.Agrees f h' f')
    (hcore : node.isCoreDeclaration = true) (hdata : node.Belongs .data) :
    (∃ v k k', v.Belongs .data ∧ k.Agrees f k' f' ∧
      eval limits fuel node f h = .done (give v node.span f) k ∧
      eval limits fuel node f' h' = .done (give v node.span f') k') ∨
    (eval limits fuel node f h).Fails ∧ (eval limits fuel node f' h').Fails := by
  obtain ⟨span, name, e, rfl, hvalue⟩ := Node.exists_of_isCoreDeclaration hcore
  cases fuel with
  | zero => exact .inr ⟨trivial, trivial⟩
  | succ fuel =>
      rcases agrees_eval limits fuel hagree hvalue hdata with
        ⟨out, k, out', k', hend, hend', hsame, hv, hk⟩ | ⟨hfails, hfails'⟩
      · have hassign : eval limits (fuel + 1) (.assign span name true e) f h = _ :=
          assign_of_data hend hk.left hv
        have hassign' : eval limits (fuel + 1) (.assign span name true e) f' h' = _ :=
          assign_of_data hend' hk.right (hsame.symm ▸ hv)
        rw [← hk.lookup name, hsame] at hassign'
        by_cases hbound : (k.lookup f name).isSome = true
        · rw [if_pos hbound] at hassign hassign'
          rw [hassign, hassign']
          exact .inr ⟨fun _ => nofun, fun _ => nofun⟩
        · rw [if_neg hbound] at hassign hassign'
          have hfits : (Node.assign span name true e).Fits true :=
            Node.fits_of_isCoreDeclaration hcore
          have hplain := plain_of_eval hagree.left hfits hdata hassign
          have hplain' := plain_of_eval hagree.right hfits hdata hassign'
          exact .inl ⟨_, _, _, hv, ⟨hplain.1, hplain'.1, fun other => hk.lookup_define name other _⟩,
            hassign, hassign'⟩
      · exact .inr ⟨.bind (.bind hfails), .bind (.bind hfails')⟩

/-! ### Programs -/

theorem fails_programFrom {rest : List Node} {outcome : Outcome}
    (hfails : (sub node outcome.frame h).Fails) :
    (programFrom sub (node :: rest) outcome h).Fails := by
  rw [programFrom, Run.bind_apply, Run.attempt]
  cases hend : sub node outcome.frame h with
  | done next k =>
      rw [hend] at hfails
      exact hfails.elim
  | raised signal k =>
      rw [hend] at hfails
      cases signal with
      | returned result => exact absurd rfl (hfails result)
      | exited exit s r => exact hfails
      | failed fault => exact hfails
  | outOfFuel => trivial

/-- Declarations of the core run in frames that agree, with more of them behind on the first side.
Either they leave frames that agree again and the first side goes on with the rest, or both sides
fail. -/
theorem agrees_programFrom (limits : Limits) (fuel : Nat) {body : List Node}
    (hcore : ∀ n ∈ body, n.isCoreDeclaration = true) (hdata : ∀ n ∈ body, n.Belongs .data)
    (rest : List Node) {start start' : Outcome} (hagree : h.Agrees start.frame h' start'.frame) :
    (∃ out k out' k', k.Agrees out.frame k' out'.frame ∧
      (start.SameData start' ∨ body ≠ [] → out.SameData out') ∧
      programFrom (eval limits fuel) (body ++ rest) start h =
        programFrom (eval limits fuel) rest out k ∧
      programFrom (eval limits fuel) body start' h' = .done out' k') ∨
    (programFrom (eval limits fuel) (body ++ rest) start h).Fails ∧
      (programFrom (eval limits fuel) body start' h').Fails := by
  induction body generalizing h h' start start' with
  | nil =>
      refine .inl ⟨start, h, start', h', hagree, fun hsame => ?_, rfl, rfl⟩
      exact hsame.resolve_right fun hne => hne rfl
  | cons node body ih =>
      obtain ⟨hnode, hbody⟩ := List.forall_mem_cons.mp hcore
      obtain ⟨hfirst, hothers⟩ := List.forall_mem_cons.mp hdata
      rcases agrees_declaration limits fuel hagree hnode hfirst with
        ⟨v, k, k', hv, hk, hend, hend'⟩ | ⟨hfails, hfails'⟩
      · rw [List.cons_append, programFrom_cons_done hend, programFrom_cons_done hend']
        have hnext : k.Agrees (give v node.span start.frame).frame k'
            (give v node.span start'.frame).frame := hk
        rcases ih hbody hothers hnext with ⟨out, l, out', l', hl, hvalue, hrun, hrun'⟩ | hfails
        · exact .inl ⟨out, l, out', l', hl, fun _ => hvalue (.inl ⟨rfl, hv⟩), hrun, hrun'⟩
        · exact .inr hfails
      · exact .inr ⟨fails_programFrom hfails, fails_programFrom hfails'⟩

end Evaluation

end CapsuleScript
