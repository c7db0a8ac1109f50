import CapsuleScript.Proofs.Evaluation.WriteOnce
import CapsuleScript.Proofs.Matching.Reached
import CapsuleScript.Proofs.Mirror.Declaring
import CapsuleScript.Proofs.Mirror.Statements
import CapsuleScript.Proofs.Session.Atomicity
import CapsuleScript.Proofs.Session.Rebinding
import Mathlib

/-! The order of definitions. The definitions at the start of a block leave heaps that look alike,
whatever their order is: frames made by the block see the same functions, and all else is as it was.
Main statement: the expression at the end of the block then has a value of the same text, or fails
for the same reason, or does not end. -/

namespace CapsuleScript

open Heap Matching

variable {h k k' : Heap} {c f f' : FrameId} {m : String → Meaning}

/-! ### The same definitions in two orders -/

/-- What looks alike after definitions in two orders: what is reached from the frame `c` around the
block, the frames made since, and functions that come from one definition. -/
def Heap.meeting (h : Heap) (c : FrameId) (m : String → Meaning) (k k' : Heap) : Matching where
  tables t t' := (same.reached h c h c).tables t t' ∨
    ∃ f f', h.Since k f ∧ h.Since k' f' ∧ t = (k.frame f).table ∧ t' = (k'.frame f').table
  frames f f' := (same.reached h c h c).frames f f' ∨ h.Since k f ∧ h.Since k' f'
  functions g g' := (same.reached h c h c).functions g g' ∨
    ∃ name d, m name = .defined d ∧ h.Carries k d g ∧ h.Carries k' d g'

theorem Heap.extends_meeting : (same.reached h c h c).Extends (h.meeting c m k k') :=
  ⟨.inl, .inl, .inl⟩

theorem Heap.Introduces.get?_eq (hh : h.Sound) (hk : h.Introduces c m k) {t : TableId}
    (ht : h.HasTable t) (name : String) : k.get? t name = h.get? t name :=
  hh.after.get?_eq hk.after.rooted hk.after.tables (fun _ hu => hk.table hu) ht name

/-- Frames made since see the same. -/
theorem Heap.Introduces.lookup_meeting (hh : h.Sound) (hc : h.HasFrame c) (hk : h.Introduces c m k)
    (hk' : h.Introduces c m k') (hsettled : ∀ name, m name ≠ .pending) (hf : h.Since k f)
    (hf' : h.Since k' f') (name : String) :
    Option.Rel (Value.Match (h.meeting c m k k')) (k.lookup f name) (k'.lookup f' name) := by
  have hmeans := hk.means name
  have hmeans' := hk'.means name
  cases hm : m name with
  | outer =>
      rw [hm] at hmeans hmeans'
      rw [hmeans hf, hmeans' hf']
      have houter := (hh.heaps_same hc).lookup ⟨rfl, .start, .start⟩ name
      exact rel_mono (Value.Match.mono extends_meeting) houter
  | pending => exact absurd hm (hsettled name)
  | defined d =>
      rw [hm] at hmeans hmeans'
      obtain ⟨g, hg, hcarries⟩ := hmeans hf
      obtain ⟨g', hg', hcarries'⟩ := hmeans' hf'
      rw [hg, hg']
      exact .some (.function (.inr ⟨name, d, hm, hcarries, hcarries'⟩))

/-- Definitions leave heaps that look alike, if they introduce the same. -/
theorem Heap.Introduces.mirrors (hh : h.Sound) (hc : h.HasFrame c)
    (hseen : ∀ g, h.Reaches c (.value (.function g)) → (h.function g).body.Lexical)
    (hk : h.Introduces c m k) (hk' : h.Introduces c m k')
    (hsettled : ∀ name, m name ≠ .pending)
    (hbodies : ∀ {name d}, m name = .defined d → d.body.Lexical ∧ d.body.IsStatement) :
    (h.meeting c m k k').Mirrors k.horizon k'.horizon k k' := by
  have htable : ∀ {t t'}, (h.meeting c m k k').tables t t' → k.HasTable t ∧ k'.HasTable t' := by
    rintro t t' (⟨rfl, hr, -⟩ | ⟨f, f', hf, hf', rfl, rfl⟩)
    · have ht := (hh.marked_of_reaches hc hr).1
      exact ⟨Nat.lt_of_lt_of_le ht hk.after.tables, Nat.lt_of_lt_of_le ht hk'.after.tables⟩
    · exact ⟨(hk.since hf).1, (hk'.since hf').1⟩
  have hframe : ∀ {f f'}, (h.meeting c m k k').frames f f' → k.HasFrame f ∧ k'.HasFrame f' := by
    rintro f f' (⟨rfl, hr, -⟩ | ⟨hf, hf'⟩)
    · have hf := (hh.marked_of_reaches hc hr).1
      exact ⟨Nat.lt_of_lt_of_le hf hk.after.frames, Nat.lt_of_lt_of_le hf hk'.after.frames⟩
    · exact ⟨hf.2, hf'.2⟩
  -- Nothing is open yet.
  have hnoTable : ∀ {t t'}, (h.meeting c m k k').tables t t' → ¬ k.horizon.tables ≤ t.index :=
    fun ht hle => Nat.not_lt.mpr hle (htable ht).1
  have hnoFrame : ∀ {f f'}, (h.meeting c m k k').frames f f' → ¬ k.horizon.frames ≤ f.index :=
    fun hf hle => Nat.not_lt.mpr hle (hframe hf).1
  refine ⟨hk.after.self, hk'.after.self, fun ht => ?_, fun {t t'} ht _ name => ?_,
    fun ht hle => absurd hle (hnoTable ht), fun ht _ hle => absurd hle (hnoTable ht), ?_,
    fun hf hle => absurd hle (hnoFrame hf), fun hf _ hle => absurd hle (hnoFrame hf), ?_, ?_, ?_⟩
  · obtain ⟨hhas, hhas'⟩ := htable ht
    exact ⟨hhas, hhas', iff_of_false (Nat.not_le.mpr hhas) (Nat.not_le.mpr hhas')⟩
  · rcases ht with ⟨rfl, hr, -⟩ | ⟨f, f', hf, hf', rfl, rfl⟩
    · have ht := (hh.marked_of_reaches hc hr).1
      rw [hk.get?_eq hh ht, hk'.get?_eq hh ht]
      exact rel_mono (Value.Match.mono extends_meeting) ((hh.heaps_same hc).get? ⟨rfl, hr, hr⟩ name)
    · exact hk.lookup_meeting hh hc hk' hsettled hf hf' name
  · intro f f' hf
    obtain ⟨hhas, hhas'⟩ := hframe hf
    refine ⟨hhas, hhas', iff_of_false (Nat.not_le.mpr hhas) (Nat.not_le.mpr hhas'), ?_⟩
    rcases hf with ⟨rfl, hr, -⟩ | ⟨hf, hf'⟩
    · have hold := (hh.marked_of_reaches hc hr).1
      rw [hk.frame hold, hk'.frame hold]
      exact .inl ⟨rfl, .owned hr, .owned hr⟩
    · exact .inr ⟨f, f', hf, hf', rfl, rfl⟩
  · rintro g g' (⟨rfl, hr, -⟩ | ⟨name, d, hm, hg, hg'⟩)
    · have hold := (hh.marked_of_reaches hc hr).1
      rw [hk.function hold, hk'.function hold]
      exact ⟨Nat.lt_of_lt_of_le hold hk.functions, Nat.lt_of_lt_of_le hold hk'.functions, rfl, rfl,
        rfl, .inl ⟨rfl, .home hr, .home hr⟩, rfl, rfl⟩
    · obtain ⟨home, hhome, hdata⟩ := hg.data
      obtain ⟨home', hhome', hdata'⟩ := hg'.data
      rw [hdata, hdata']
      exact ⟨hg.hasFunction, hg'.hasFunction, rfl, rfl, rfl, .inr ⟨hhome, hhome'⟩, rfl, rfl⟩
  · rintro g g' (⟨rfl, hr, -⟩ | ⟨name, d, hm, hg, -⟩)
    · have hold := (hh.marked_of_reaches hc hr).1
      rw [hk.function hold]
      exact ⟨hseen g hr, hh.body hold⟩
    · obtain ⟨home, -, hdata⟩ := hg.data
      rw [hdata]
      exact hbodies hm
  · rintro g g' u u' (⟨rfl, hr, -⟩ | ⟨_, _, -, hg, -⟩) hu hinit
    · rcases hu with ⟨rfl, -, -⟩ | ⟨_, _, -, hu, hu'⟩
      · exact Iff.rfl
      · have hold := (hh.marked_of_reaches hc hr).1
        refine iff_of_false ?_ ?_
        · rintro rfl
          exact Nat.not_lt.mpr hu.new hold
        · rintro rfl
          exact Nat.not_lt.mpr hu'.new hold
    · exact absurd (hg.initialized.symm.trans hinit) nofun

/-! ### What is told of an evaluation -/

/-- What is told of an evaluation that has ended: the text of its value, or the reason for which it
failed. -/
def Ending.report : Ending Outcome → Option (Except FaultKind String)
  | .done outcome heap => some (.ok (heap.render outcome.result.value))
  | .raised signal heap =>
    match signal.toExcept with
    | .ok result => some (.ok (heap.render result.value))
    | .error fault => some (.error fault.kind)
  | .outOfFuel => none

theorem Ending.Mirrors.report_eq {z z' : Horizon} {W : Matching} {statement : Bool}
    {ending ending' : Ending Outcome}
    (hending : ending.Mirrors z z' W (Outcome.Mirrors z statement) ending') :
    ending.report = ending'.report := by
  cases hending with
  | done hmade =>
      obtain ⟨X, -, hheaps, hout⟩ := hmade
      simp only [report, hheaps.render_eq hout.result.value]
  | raised hmade =>
      obtain ⟨X, -, hheaps, hsignal⟩ := hmade
      rcases Session.toExcept_match hsignal with ⟨v, v', hv, hv', hmatch⟩ | ⟨e, e', he, he', hmatch⟩
      · simp only [report, hv, hv', hheaps.render_eq hmatch.value]
      · simp only [report, he, he', hmatch.kind]
  | outOfFuel => rfl

/-! ### Definitions with the declarations put in -/

/-- The definition with the declarations of its body put in. -/
def Definition.hoisted (d : Definition) : Definition := { d with body := (d.body.hoist).1 }

theorem Definition.hoist_node (d : Definition) :
    d.node.hoist = (d.hoisted.node, [Node.declare d.name d.span]) := by
  obtain ⟨form, span, name, params, autoReturn, body⟩ := d
  cases form <;> simp [node, hoisted, Node.hoist]

theorem Definition.hoistAll_nodes (defs : List Definition) :
    Node.hoistAll (defs.map Definition.node) = ((defs.map Definition.hoisted).map Definition.node,
      (defs.map Definition.hoisted).map fun d => Node.declare d.name d.span) := by
  induction defs with
  | nil => rfl
  | cons d rest ih =>
      rw [List.map_cons, Node.hoistAll, d.hoist_node, ih]
      rfl

/-- The block declares all functions first. -/
theorem Definition.declareFunctions_block (span : Span) (defs : List Definition) {final : Node}
    (hlexical : final.Lexical) (hfinal : final.IsExpression) :
    Node.declareFunctions (.block span true (defs.map Definition.node ++ [final])) =
      .block span true (((defs.map Definition.hoisted).map fun d => Node.declare d.name d.span) ++
        ((defs.map Definition.hoisted).map Definition.node ++ [(final.hoist).1])) := by
  have hlast : Node.hoistAll [final] = ([(final.hoist).1], []) := by
    simp [Node.hoistAll, Node.IsExpression.hoist_snd hlexical hfinal]
  rw [Node.declareFunctions, Node.hoist, Node.hoistAll_append, hoistAll_nodes, hlast,
    List.append_nil]

namespace Evaluation

variable {limits : Limits} {fuel : Nat} {defs defs' : List Definition}

/-! ### Blocks -/

/-- The last statement of a block tells how the block ends. -/
theorem report_statements_singleton (sub : Evaluator) (final : Node) (outcome : Outcome) (k : Heap) :
    (statements sub [final] outcome k).report = (sub final outcome.frame k).report := by
  rw [statements, Run.bind_apply]
  cases sub final outcome.frame k <;> rfl

theorem block_append (sub : Evaluator) (span : Span) (body rest : List Node) (c : FrameId)
    (h : Heap) : block sub span (body ++ rest) c h =
      (statements sub body (give .empty span ⟨h.frames.size⟩) >>= statements sub rest)
        (h.enter "<block>" c span).2 := by
  rw [← statements_append]
  rfl

/-- The declarations at the start of a block. -/
theorem yields_start (hh : h.Sound) (hc : h.HasFrame c) (hnames : (defs.map Definition.name).Nodup)
    (span : Span) :
    (statements (eval limits (fuel + 1)) (defs.map fun d => Node.declare d.name d.span)
      (give .empty span ⟨h.frames.size⟩)).Yields (h.enter "<block>" c span).2 fun out l =>
        out.frame = ⟨h.frames.size⟩ ∧
          h.Declares c (Definition.settled (fun _ => .pending) (fun _ => .outer) defs) l :=
  yields_declarations (hh.declares_enter hc "<block>" span) hnames (fun _ _ => rfl) _

/-- A block goes on from its declarations, which have run in the frame of the block. -/
theorem exists_block_eq (hh : h.Sound) (hc : h.HasFrame c)
    (hnames : (defs.map Definition.name).Nodup) (span : Span) :
    ∃ out l, h.Since l out.frame ∧
      h.Introduces c (Definition.settled (fun _ => .pending) (fun _ => .outer) defs) l ∧
      ∀ rest, block (eval limits (fuel + 1)) span
        ((defs.map fun d => Node.declare d.name d.span) ++ rest) c h =
          statements (eval limits (fuel + 1)) rest out l := by
  have hstart : (statements (eval limits (fuel + 1)) _ _).Yields _ _ :=
    yields_start hh hc hnames span
  obtain ⟨out, l, hend, hframe, hl⟩ := hstart
  refine ⟨out, l, ?_, hl.toIntroduces, fun rest => ?_⟩
  · rw [hframe]
    exact hl.first
  · rw [block_append, Run.bind_apply, hend]

/-- A block ends as its last expression does, after the definitions. -/
theorem report_block (hh : h.Sound) (hc : h.HasFrame c) (hnames : (defs.map Definition.name).Nodup)
    (hfuel : ∀ d ∈ defs, d.form.depth ≤ fuel + 1) (span : Span) (final : Node) :
    ∃ f k, h.Since k f ∧ h.Introduces c (Definition.meanings defs) k ∧
      (block (eval limits (fuel + 1)) span ((defs.map fun d => Node.declare d.name d.span) ++
        (defs.map Definition.node ++ [final])) c h).report =
          (eval limits (fuel + 1) final f k).report := by
  obtain ⟨out, l, hfirst, hl, hblock⟩ := exists_block_eq hh hc hnames span
  have hdefined : (statements (eval limits (fuel + 1)) _ out).Yields l _ :=
    yields_definitions hl hnames (fun d hd => Definition.settled_of_mem hnames hd) hfirst hfuel
  obtain ⟨last, k, hend, hsince, hk⟩ := hdefined
  refine ⟨last.frame, k, hsince, hk, ?_⟩
  rw [hblock, statements_append, Run.bind_apply, hend]
  exact report_statements_singleton _ _ _ _

/-- A block does not end if there is not enough fuel for one of its definitions. -/
theorem block_exhausted (hh : h.Sound) (hc : h.HasFrame c)
    (hnames : (defs.map Definition.name).Nodup) (hfuel : ∃ d ∈ defs, fuel + 1 < d.form.depth)
    (span : Span) (final : Node) :
    block (eval limits (fuel + 1)) span ((defs.map fun d => Node.declare d.name d.span) ++
      (defs.map Definition.node ++ [final])) c h = .outOfFuel := by
  obtain ⟨out, l, hfirst, hl, hblock⟩ := exists_block_eq hh hc hnames span
  rw [hblock, statements_append, Run.bind_apply, exhausted_definitions hl hnames
    (fun d hd => Definition.settled_of_mem hnames hd) hfirst hfuel]

theorem block_without_fuel {body : List Node} (hbody : body ≠ []) (span : Span) :
    block (eval limits 0) span body c h = .outOfFuel := by
  cases body with
  | nil => exact absurd rfl hbody
  | cons statement rest => rfl

/-- Definitions in two orders: blocks that declare their functions end in the same way. -/
theorem report_block_perm (hh : h.Sound) (hc : h.HasFrame c)
    (hseen : ∀ g, h.Reaches c (.value (.function g)) → (h.function g).body.Lexical)
    (hperm : defs.Perm defs') (hnames : (defs.map Definition.name).Nodup)
    (hbodies : ∀ d ∈ defs, d.body.Lexical ∧ d.body.IsStatement) {final : Node}
    (hlexical : final.Lexical) (hfinal : final.IsExpression) (span span' : Span) :
    (block (eval limits (fuel + 1)) span ((defs.map fun d => Node.declare d.name d.span) ++
      (defs.map Definition.node ++ [final])) c h).report =
    (block (eval limits (fuel + 1)) span' ((defs'.map fun d => Node.declare d.name d.span) ++
      (defs'.map Definition.node ++ [final])) c h).report := by
  have hnames' : (defs'.map Definition.name).Nodup := (hperm.map _).nodup_iff.mp hnames
  by_cases hfuel : ∀ d ∈ defs, d.form.depth ≤ fuel + 1
  · have hfuel' : ∀ d ∈ defs', d.form.depth ≤ fuel + 1 := fun d hd => hfuel d (hperm.mem_iff.mpr hd)
    obtain ⟨f, k, hf, hk, hreport⟩ := report_block hh hc hnames hfuel span final
    obtain ⟨f', k', hf', hk', hreport'⟩ := report_block hh hc hnames' hfuel' span' final
    rw [← Definition.meanings_perm hperm hnames] at hk'
    rw [hreport, hreport']
    have hmirrors := hk.mirrors hh hc hseen hk' (fun name hpending => ?_) fun {name d} hd => ?_
    · have hends := mirrors_eval _ _ limits (fuel + 1) hmirrors (.inr ⟨hf, hf'⟩) hlexical hfinal nofun
      exact hends.report_eq
    · rcases Definition.meanings_cases hnames name with houter | ⟨_, -, hdefined⟩
      · exact nomatch houter.symm.trans hpending
      · exact nomatch hdefined.symm.trans hpending
    · rcases Definition.meanings_cases hnames name with houter | ⟨e, he, hdefined⟩
      · exact nomatch houter.symm.trans hd
      · cases hdefined.symm.trans hd
        exact hbodies d he
  · obtain ⟨d, hd, hless⟩ : ∃ d ∈ defs, fuel + 1 < d.form.depth := by simpa using hfuel
    rw [block_exhausted hh hc hnames ⟨d, hd, hless⟩ span final,
      block_exhausted hh hc hnames' ⟨d, hperm.mem_iff.mp hd, hless⟩ span' final]

/-- The order of definitions does not matter. A block of definitions of functions with different
names and an expression at the end is evaluated with its declarations put in, in any frame that reaches
only functions without object literals and ways back, and so are the functions and the expression. With
the definitions in another order it has a value of the same text or fails for the same reason, and
ends with the same fuel. -/
theorem report_eval_perm (hh : h.Reachable) (hc : h.HasFrame c)
    (hseen : ∀ g, h.Reaches c (.value (.function g)) → (h.function g).body.Lexical)
    (hperm : defs.Perm defs') (hnames : (defs.map Definition.name).Nodup)
    (hbodies : ∀ d ∈ defs, d.body.Lexical ∧ d.body.IsStatement) {final : Node}
    (hlexical : final.Lexical) (hfinal : final.IsExpression) (limits : Limits) (fuel : Nat)
    (span span' : Span) :
    (eval limits fuel (Node.declareFunctions
      (.block span true (defs.map Definition.node ++ [final]))) c h).report =
    (eval limits fuel (Node.declareFunctions
      (.block span' true (defs'.map Definition.node ++ [final]))) c h).report := by
  have hhoisted : ∀ d ∈ defs.map Definition.hoisted, d.body.Lexical ∧ d.body.IsStatement := by
    intro d hd
    obtain ⟨e, he, rfl⟩ := List.mem_map.mp hd
    exact ⟨(hbodies e he).1.hoist.1, (hbodies e he).2.hoist.1⟩
  have hnames' : ((defs.map Definition.hoisted).map Definition.name).Nodup := by
    rw [List.map_map]
    exact hnames
  rw [Definition.declareFunctions_block span defs hlexical hfinal,
    Definition.declareFunctions_block span' defs' hlexical hfinal]
  match fuel with
  | 0 => rfl
  | 1 =>
      show (block (eval limits 0) span _ c h).report = (block (eval limits 0) span' _ c h).report
      rw [block_without_fuel (by simp), block_without_fuel (by simp)]
  | fuel + 2 =>
      exact report_block_perm hh.sound hc hseen (hperm.map _) hnames' hhoisted hlexical.hoist.1
        hfinal.hoist.1 span span'

/-- A function that is assigned and calls another, which has its name in it. -/
def forwarding (span : Span) : List Definition :=
  [⟨.assigned false span, span, "f", ["x"], true, .call span (.ident span "g") [.ident span "x"]⟩,
    ⟨.named, span, "g", ["x"], true, .ident span "x"⟩]

/-- A call of the first of the functions. -/
def forwardingCall (span : Span) : Node := .call span (.ident span "f") [.text span "a"]

/-- The other function may also be defined first. -/
theorem report_eval_perm_forwarding :
    (eval {} 20 (Node.declareFunctions (.block nowhere true
      ((forwarding nowhere).reverse.map Definition.node ++ [forwardingCall nowhere])))
      (Session.start {}).frame (Session.start {}).heap).report = some (.ok "a") := by
  have hordered : (eval {} 20 (Node.declareFunctions (.block nowhere true
      ((forwarding nowhere).map Definition.node ++ [forwardingCall nowhere])))
      (Session.start {}).frame (Session.start {}).heap).report = some (.ok "a") := by
    cbv
  have hstart : (Session.start {}).Sound := (Session.Reachable.start {}).sound
  rw [← hordered]
  refine report_eval_perm (.start {}) hstart.hasFrame (fun g hg => ?_) (List.reverse_perm _)
    (by decide) (fun d hd => ?_) ?_ ?_ _ _ _ _
  · exact absurd (hstart.heap.marked_of_reaches hstart.hasFrame hg).1 (Nat.not_lt_zero _)
  · rw [List.mem_reverse] at hd
    rcases List.mem_pair.mp hd with rfl | rfl <;>
      simp [Node.Lexical, Node.AllLexical, Node.Fits, Node.AllFit]
  · simp [forwardingCall, Node.Lexical, Node.AllLexical]
  · simp [forwardingCall, Node.Fits, Node.AllFit]

end Evaluation

end CapsuleScript
