import CapsuleScript.Proofs.Evaluation.Operations
import CapsuleScript.Proofs.Mirror.Definitions

/-! Runs of declarations and of definitions. A declaration binds its name to a placeholder in the first
frame of the block. A definition then gives the name its meaning, in that frame or in one entered from
it, and does so whatever the other definitions of the block have done before. -/

namespace CapsuleScript

open Heap

/-! ### Runs that end with a result -/

/-- The computation ends on the heap `h` with a result that passes the test. -/
def Run.Yields {α : Type} (run : Run α) (h : Heap) (Q : α → Heap → Prop) : Prop :=
  ∃ a k, run h = .done a k ∧ Q a k

theorem Run.Yields.bind {α β : Type} {run : Run α} {next : α → Run β} {h : Heap}
    {Q : α → Heap → Prop} {R : β → Heap → Prop} (hrun : run.Yields h Q)
    (hnext : ∀ {a k}, Q a k → (next a).Yields k R) : (run >>= next).Yields h R := by
  obtain ⟨a, k, hend, hQ⟩ := hrun
  obtain ⟨b, l, hend', hR⟩ := hnext hQ
  refine ⟨b, l, ?_, hR⟩
  rw [Run.bind_apply, hend]
  exact hend'

namespace Heap

variable {h k : Heap} {c f : FrameId} {m : String → Meaning} {name : String}

theorem Sound.after (hh : h.Sound) : h.After h.horizon :=
  ⟨hh.rooted, Nat.le_refl _, Nat.le_refl _, fun _ hp => hh.rooted.hasTable_parent hp, hh.older⟩

/-- Names have been introduced in the first frame of the block alone, which binds no others. -/
structure Declares (h : Heap) (c : FrameId) (m : String → Meaning) (k : Heap) : Prop
    extends h.Introduces c m k where
  first : h.Since k ⟨h.frames.size⟩
  only : ∀ {f}, h.Since k f → f = ⟨h.frames.size⟩
  bound : ∀ {name}, k.bindsDirectly ⟨h.frames.size⟩ name → m name ≠ .outer

/-- A block is entered. -/
theorem Sound.declares_enter (hh : h.Sound) (hc : h.HasFrame c) (label : String) (span : Span) :
    h.Declares c (fun _ => .outer) (h.enter label c span).2 := by
  have hhas := hh.hasTable hc
  have hframe : ∀ {e}, h.HasFrame e → (h.enter label c span).2.frame e = h.frame e :=
    fun he => frame_addFrame_of_hasFrame (h := (h.newTable _ _).2) he
  have hfirst : h.Since (h.enter label c span).2 ⟨h.frames.size⟩ :=
    ⟨Nat.le_refl _, hasFrame_enter label c span⟩
  have honly : ∀ {f}, h.Since (h.enter label c span).2 f → f = ⟨h.frames.size⟩ := by
    intro f hf
    have hlt : f.index < h.frames.size + 1 := by simpa [enter_eq, HasFrame] using hf.2
    exact FrameId.eq_of_index_eq (Nat.le_antisymm (Nat.le_of_lt_succ hlt) hf.1)
  refine ⟨⟨?_, Nat.le_refl _, fun ht => ?_, hframe, fun _ => rfl, fun hf => ?_, fun name => ?_⟩,
    hfirst, honly, fun hbinds => ?_⟩
  · have hparent : ∀ q, some (h.frame c).table = some q → h.HasTable q :=
      fun q hq => Option.some.inj hq ▸ hhas
    refine (hh.after.newTable hparent).addFrame fun p hp => ?_
    rw [← Option.some.inj hp]
    exact hc
  · rw [table_enter, if_neg (Nat.ne_of_lt ht)]
  · rw [honly hf, frame_enter]
    exact ⟨by simp [enter_eq, HasTable], Nat.le_refl _⟩
  · intro f hf
    rw [honly hf]
    exact (hh.after.lookup_enter label hc hhas span name).1
  · have hempty := bindings_enter (h := h) label c span
    rw [bindsDirectly, show (⟨h.frames.size⟩ : FrameId) = (h.enter label c span).1 from rfl,
      hempty] at hbinds
    cases hbinds

theorem Rooted.lookup_define_self (hh : h.Rooted) (hf : h.HasTable (h.frame f).table) (v : Value) :
    (h.define f name v).lookup f name = some v := by
  have hparent : ∀ t, ((h.define f name v).table t).parent = (h.table t).parent := by
    intro t
    rw [define, table_bind]
    split <;> rfl
  have hsize : (h.define f name v).tables.size = h.tables.size := tables_size_bind _ _ _
  have hhas : (h.define f name v).HasTable (h.frame f).table := by
    rw [HasTable, hsize]
    exact hf
  have hrooted := hh.of_parent_eq (Nat.le_of_eq hsize.symm) hparent
  show (h.define f name v).get? (h.frame f).table name = some v
  rw [hrooted.get?_eq_or hhas, define, table_bind, if_pos ⟨rfl, hf⟩, Bindings.get?_insert_self]
  rfl

/-- A name is bound to a placeholder in the first frame of the block. -/
theorem Declares.declare (hk : h.Declares c m k) {data : Function} (hname : data.name = name)
    (hnot : data.initialized = false) : h.Declares c (Function.update m name .pending)
      ((k.addFunction data).define ⟨h.frames.size⟩ name (.function ⟨k.functions.size⟩)) := by
  have hadded := hk.addFunction data
  have hfirst : h.Since (k.addFunction data) ⟨h.frames.size⟩ := hk.first
  have hdata : (k.addFunction data).function ⟨k.functions.size⟩ = data := by
    rw [function_addFunction, if_pos rfl]
  refine ⟨hadded.of_define hfirst fun other => ?_, hk.first, hk.only, fun {other} hbinds => ?_⟩
  · by_cases hother : other = name
    · subst hother
      rw [Function.update_self]
      refine ⟨⟨k.functions.size⟩, hk.functions, ?_, ?_, ?_, fun hf => ?_⟩
      · show k.functions.size < (k.addFunction data).functions.size
        simp
      · exact (congrArg Function.initialized hdata).trans hnot
      · exact (congrArg Function.name hdata).trans hname
      · rw [hk.only hf]
        exact hadded.after.rooted.lookup_define_self (hadded.since hfirst).1 _
    · rw [Function.update_of_ne hother]
      exact hadded.means_define_of_ne (Ne.symm hother)
  · by_cases hother : other = name
    · rw [hother, Function.update_self]
      exact nofun
    · rw [Function.update_of_ne hother]
      refine hk.bound ?_
      have hget : ((k.bind (k.frame ⟨h.frames.size⟩).table name
          (.function ⟨k.functions.size⟩)).table (k.frame ⟨h.frames.size⟩).table).bindings.get? other =
            (k.table (k.frame ⟨h.frames.size⟩).table).bindings.get? other := by
        rw [table_bind]
        split
        · exact Bindings.get?_insert_of_ne _ _ (Ne.symm hother)
        · rfl
      rw [bindsDirectly, Bindings.has, ← hget]
      exact hbinds

end Heap

namespace Evaluation

variable {limits : Limits} {h k : Heap} {c f : FrameId} {m : String → Meaning} {name : String}
  {d : Definition} {g : FunctionId}

/-! ### Declarations and definitions -/

/-- A name that the block has not introduced yet is declared in its first frame. -/
theorem yields_declaration (hk : h.Declares c m k) (hm : m name = .outer) (span : Span)
    (placeholder : Node) :
    (declaration span name placeholder ⟨h.frames.size⟩).Yields k fun out l =>
      out.frame = ⟨h.frames.size⟩ ∧ h.Declares c (Function.update m name .pending) l := by
  have hunbound : k.bindsDirectly ⟨h.frames.size⟩ name = false := by
    by_contra hbinds
    exact hk.bound (by simpa using hbinds) hm
  have htarget : bindingTarget name ("--" ++ name) span ⟨h.frames.size⟩ k =
      .done ⟨h.frames.size⟩ k := by
    show (if k.bindsDirectly ⟨h.frames.size⟩ name then _ else _ : Run FrameId) k = _
    rw [hunbound]
    rfl
  have hdeclared : h.Declares c (Function.update m name .pending)
      ((k.addFunction ⟨name, [], placeholder, ⟨h.frames.size⟩, true, false⟩).define ⟨h.frames.size⟩
        name (.function ⟨k.functions.size⟩)) := hk.declare rfl rfl
  refine ⟨give (.function ⟨k.functions.size⟩) span ⟨h.frames.size⟩, _, ?_, rfl, hdeclared⟩
  rw [declaration, Run.bind_apply, htarget]
  rfl

/-- A function that is defined is kept under its name. -/
theorem yields_keep (hk : h.Introduces c m k) (hf : h.Since k f) (hm : m d.name = .defined d)
    (hg : h.Carries k d g) {out : Value → Outcome} (hout : ∀ b, (out b).frame = f) :
    (do
      let bound ← Run.make (Heap.rehome f (.function g))
      Run.change (·.define f d.name bound)
      return out bound).Yields k fun out l => h.Since l out.frame ∧ h.Introduces c m l := by
  have hcopy : Heap.rehome f (.function g) k = (.function ⟨k.functions.size⟩,
      k.addFunction { k.function g with home := f }) := by
    rw [Heap.rehome, if_pos hg.initialized, withHome, newFunction_eq]
  have hadded := hk.addFunction { k.function g with home := f }
  have hcarries : h.Carries (k.addFunction { k.function g with home := f }) d
      ⟨k.functions.size⟩ := by
    obtain ⟨home, -, hdata⟩ := hg.data
    refine ⟨hk.functions, by simp [HasFunction], f, hf, ?_⟩
    rw [function_addFunction, if_pos rfl, hdata]
  refine ⟨out (.function ⟨k.functions.size⟩), _, ?_, ?_, hadded.define hf hm hcarries⟩
  · simp only [Run.bind_apply, Run.make, Run.change, hcopy, Run.pure_apply]
  · rw [hout]
    exact hf

/-- A function is made for a name that has a placeholder, which it fills. -/
theorem fills_placeholder (hk : h.Introduces c m k) (hf : h.Since k f) (hm : m d.name = .pending)
    (label : String) : ∃ p,
    (k.addFunction ⟨label, d.params, d.body, f, d.autoReturn, true⟩).placeholder? f d.name = some p ∧
    h.Introduces c (Function.update m d.name (.defined d))
      ((k.addFunction ⟨label, d.params, d.body, f, d.autoReturn, true⟩).initializeFrom p
        ⟨k.functions.size⟩) ∧
    h.Carries ((k.addFunction ⟨label, d.params, d.body, f, d.autoReturn, true⟩).initializeFrom p
      ⟨k.functions.size⟩) d p ∧ (label = d.name →
        h.Carries ((k.addFunction ⟨label, d.params, d.body, f, d.autoReturn, true⟩).initializeFrom p
          ⟨k.functions.size⟩) d ⟨k.functions.size⟩) := by
  have hadded := hk.addFunction ⟨label, d.params, d.body, f, d.autoReturn, true⟩
  have hmeans := hadded.means d.name
  rw [hm] at hmeans
  obtain ⟨p, hp⟩ := hmeans
  have hdata := function_addFunction (h := k) ⟨label, d.params, d.body, f, d.autoReturn, true⟩
    ⟨k.functions.size⟩
  rw [if_pos rfl] at hdata
  obtain ⟨hfilled, hcarries⟩ := hadded.initializeFrom hp hf hdata
  refine ⟨p, placeholder?_eq_some.mpr ⟨hp.lookup hf, hp.initialized⟩, hfilled, hcarries, ?_⟩
  rintro rfl
  have hne : (⟨k.functions.size⟩ : FunctionId) ≠ p := by
    rintro rfl
    have hinit := hp.initialized
    rw [hdata] at hinit
    cases hinit
  refine ⟨hk.functions, ?_, f, ?_, ?_⟩
  · rw [HasFunction, functions_size_initializeFrom]
    simp
  · rw [Since, HasFrame, frames_initializeFrom]
    exact hf
  · rw [function_initializeFrom, if_neg fun hc => hne hc.1, hdata]

/-- A definition with its name in it. -/
theorem yields_function (hk : h.Introduces c m k) (hf : h.Since k f) (hm : m d.name = .pending)
    (span : Span) :
    (function span (some d.name) d.params d.autoReturn d.body f).Yields k fun out l =>
      h.Since l out.frame ∧ h.Introduces c (Function.update m d.name (.defined d)) l := by
  obtain ⟨p, hplaceholder, hfilled, -, hcarries⟩ := fills_placeholder hk hf hm d.name
  have hf' : h.Since ((k.addFunction ⟨d.name, d.params, d.body, f, d.autoReturn, true⟩).initializeFrom
      p ⟨k.functions.size⟩) f := by
    rw [Since, HasFrame, frames_initializeFrom]
    exact hf
  have hout : ∀ bound, (⟨.of bound span f, f⟩ : Outcome).frame = f := fun _ => rfl
  obtain ⟨out, l, hend, hQ⟩ :=
    yields_keep hfilled hf' (Function.update_self _ _ _) (hcarries rfl) hout
  refine ⟨out, l, ?_, hQ⟩
  rw [← hend]
  simp only [function, Run.bind_apply, Run.make, newFunction_eq, Option.getD_some, Run.read,
    hplaceholder, Run.change, Run.pure_apply]

theorem yields_bindKept (hk : h.Introduces c m k) (hf : h.Since k f) (hm : m d.name = .defined d)
    (hg : h.Carries k d g) (span : Span) :
    (bindKept span d.name f (.function g)).Yields k fun out l =>
      h.Since l out.frame ∧ h.Introduces c m l := by
  have htarget : (bindingTarget d.name d.name span f).Yields k fun target l =>
      h.Since l target ∧ h.Introduces c m l ∧ h.Carries l d g := by
    show (if k.bindsDirectly f d.name then _ else _ : Run FrameId).Yields k _
    split
    · obtain ⟨hentered, hnew⟩ := hk.enter hf d.name span
      refine ⟨_, _, rfl, hnew, hentered, hg.mono ?_ (Nat.le_refl _) rfl⟩
      simp
    · exact ⟨f, k, rfl, hf, hk, hg⟩
  refine htarget.bind fun {target l} hl => ?_
  obtain ⟨hsince, hintroduces, hcarries⟩ := hl
  exact yields_keep hintroduces hsince hm hcarries fun _ => rfl

/-- A definition that assigns a function without a name. -/
theorem yields_assign (hk : h.Introduces c m k) (hf : h.Since k f) (hm : m d.name = .pending)
    (span fspan : Span) (topLevel : Bool) (fuel : Nat) :
    (assign (eval limits (fuel + 1)) span d.name topLevel
      (.function fspan none d.params d.autoReturn d.body) f).Yields k fun out l =>
      h.Since l out.frame ∧ h.Introduces c (Function.update m d.name (.defined d)) l := by
  obtain ⟨p, hplaceholder, hfilled, hcarries, -⟩ := fills_placeholder hk hf hm "anonymous"
  have hf' : h.Since ((k.addFunction ⟨"anonymous", d.params, d.body, f, d.autoReturn,
      true⟩).initializeFrom p ⟨k.functions.size⟩) f := by
    rw [Since, HasFrame, frames_initializeFrom]
    exact hf
  obtain ⟨out, l, hend, hQ⟩ := yields_bindKept hfilled hf' (Function.update_self _ _ _) hcarries span
  have hvalue : value (eval limits (fuel + 1)) (.function fspan none d.params d.autoReturn d.body) f k
      = .done (.of (.function ⟨k.functions.size⟩) fspan f)
        (k.addFunction ⟨"anonymous", d.params, d.body, f, d.autoReturn, true⟩) := rfl
  refine ⟨out, l, ?_, hQ⟩
  rw [← hend, assign_eq_bindKept, Run.bind_apply, hvalue]
  simp only [Run.bind_apply, Run.read, hplaceholder, Stamped.of, Run.change]

theorem yields_definition (hk : h.Introduces c m k) (hf : h.Since k f) (hm : m d.name = .pending)
    {fuel : Nat} (hfuel : d.form.depth ≤ fuel) :
    (eval limits fuel d.node f).Yields k fun out l =>
      h.Since l out.frame ∧ h.Introduces c (Function.update m d.name (.defined d)) l := by
  obtain ⟨form, span, name, params, autoReturn, body⟩ := d
  cases form with
  | named =>
      obtain ⟨n, rfl⟩ := Nat.exists_eq_add_of_le' hfuel
      exact yields_function hk hf hm span
  | assigned topLevel fspan =>
      obtain ⟨n, rfl⟩ := Nat.exists_eq_add_of_le' hfuel
      exact yields_assign hk hf hm span fspan topLevel n

theorem exhausted_definition {fuel : Nat} (hfuel : fuel < d.form.depth) (f : FrameId) (k : Heap) :
    eval limits fuel d.node f k = .outOfFuel := by
  obtain ⟨form, span, name, params, autoReturn, body⟩ := d
  cases form with
  | named =>
      cases Nat.lt_one_iff.mp hfuel
      rfl
  | assigned topLevel fspan =>
      have hcases : fuel = 0 ∨ fuel = 1 := Nat.le_one_iff_eq_zero_or_eq_one.mp (Nat.le_of_lt_succ hfuel)
      rcases hcases with rfl | rfl <;> rfl

/-! ### Lists of them -/

theorem statements_append (sub : Evaluator) (body rest : List Node) (outcome : Outcome) (k : Heap) :
    statements sub (body ++ rest) outcome k =
      (statements sub body outcome >>= statements sub rest) k := by
  induction body generalizing outcome k with
  | nil => rfl
  | cons statement body ih =>
      rw [List.cons_append, statements, statements, Run.bind_apply, Run.bind_apply, Run.bind_apply]
      cases sub statement outcome.frame k with
      | done next l => exact ih _ _
      | raised signal l => rfl
      | outOfFuel => rfl

variable {defs : List Definition} {fuel : Nat}

/-- The declarations of a block run. -/
theorem yields_declarations (hk : h.Declares c m k) (hnames : (defs.map Definition.name).Nodup)
    (hm : ∀ d ∈ defs, m d.name = .outer) (result : Stamped) :
    (statements (eval limits (fuel + 1)) (defs.map fun d => Node.declare d.name d.span)
      ⟨result, ⟨h.frames.size⟩⟩).Yields k fun out l => out.frame = ⟨h.frames.size⟩ ∧
        h.Declares c (Definition.settled (fun _ => .pending) m defs) l := by
  induction defs generalizing m k result with
  | nil => exact ⟨_, _, rfl, rfl, hk⟩
  | cons d rest ih =>
      obtain ⟨hnot, hrest⟩ := List.nodup_cons.mp hnames
      refine (yields_declaration hk (hm d List.mem_cons_self) d.span _).bind fun {out l} hl => ?_
      obtain ⟨hframe, hdeclared⟩ := hl
      show (statements _ _ ⟨out.result, out.frame⟩).Yields l _
      rw [hframe]
      refine ih hdeclared hrest (fun e he => ?_) _
      have hne : e.name ≠ d.name := fun heq => hnot (heq ▸ List.mem_map_of_mem he)
      exact (Function.update_of_ne hne _ _).trans (hm e (List.mem_cons_of_mem _ he))

theorem statements_definition (sub : Evaluator) (d : Definition) (rest : List Node)
    (outcome : Outcome) :
    statements sub (d.node :: rest) outcome = sub d.node outcome.frame >>= statements sub rest := by
  obtain ⟨form, span, name, params, autoReturn, body⟩ := d
  cases form <;> rfl

theorem pending_of_nodup {rest : List Definition} (hnames : ((d :: rest).map Definition.name).Nodup)
    (hm : ∀ e ∈ d :: rest, m e.name = .pending) (meaning : Meaning) :
    ∀ e ∈ rest, Function.update m d.name meaning e.name = .pending := by
  intro e he
  have hne : e.name ≠ d.name := by
    intro heq
    exact (List.nodup_cons.mp hnames).1 (heq ▸ List.mem_map_of_mem he)
  exact (Function.update_of_ne hne _ _).trans (hm e (List.mem_cons_of_mem _ he))

/-- The definitions of a block run, if there is fuel for all of them. -/
theorem yields_definitions (hk : h.Introduces c m k) (hnames : (defs.map Definition.name).Nodup)
    (hm : ∀ d ∈ defs, m d.name = .pending) {outcome : Outcome} (hf : h.Since k outcome.frame)
    (hfuel : ∀ d ∈ defs, d.form.depth ≤ fuel) :
    (statements (eval limits fuel) (defs.map Definition.node) outcome).Yields k fun out l =>
      h.Since l out.frame ∧ h.Introduces c (Definition.settled .defined m defs) l := by
  induction defs generalizing m k outcome with
  | nil => exact ⟨_, _, rfl, hf, hk⟩
  | cons d rest ih =>
      obtain ⟨hfirst, hrest⟩ := List.forall_mem_cons.mp hfuel
      rw [List.map_cons, statements_definition]
      refine (yields_definition hk hf (hm d List.mem_cons_self) hfirst).bind fun hl => ?_
      exact ih hl.2 (List.nodup_cons.mp hnames).2 (pending_of_nodup hnames hm _) hl.1 hrest

/-- The definitions of a block stop at the first one for which there is not enough fuel. -/
theorem exhausted_definitions (hk : h.Introduces c m k) (hnames : (defs.map Definition.name).Nodup)
    (hm : ∀ d ∈ defs, m d.name = .pending) {outcome : Outcome} (hf : h.Since k outcome.frame)
    (hfuel : ∃ d ∈ defs, fuel < d.form.depth) :
    statements (eval limits fuel) (defs.map Definition.node) outcome k = .outOfFuel := by
  induction defs generalizing m k outcome with
  | nil =>
      obtain ⟨_, hd, _⟩ := hfuel
      cases hd
  | cons d rest ih =>
      rw [List.map_cons, statements_definition, Run.bind_apply]
      by_cases hfirst : fuel < d.form.depth
      · rw [exhausted_definition hfirst]
      · have hrest : ∃ e ∈ rest, fuel < e.form.depth := by
          obtain ⟨e, he, hless⟩ := hfuel
          rcases List.mem_cons.mp he with rfl | hmem
          · exact absurd hless hfirst
          · exact ⟨e, hmem, hless⟩
        have hyields : (eval limits fuel d.node outcome.frame).Yields k _ :=
          yields_definition hk hf (hm d List.mem_cons_self) (Nat.le_of_not_lt hfirst)
        obtain ⟨out, l, hend, hsince, hl⟩ := hyields
        rw [hend]
        exact ih hl (List.nodup_cons.mp hnames).2 (pending_of_nodup hnames hm _) hsince hrest

end Evaluation

end CapsuleScript
