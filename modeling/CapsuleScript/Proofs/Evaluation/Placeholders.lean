import CapsuleScript.Proofs.Mirror.Declaring
import CapsuleScript.Proofs.Node.Erasure
import CapsuleScript.Proofs.Session.Rebinding
import Mathlib

/-! Functions before their definitions. The declarations at the start of a block run one after the
other, each in the frame that the one before it leaves; where a frame binds the name already, as for
a function that is defined twice, the declaration opens one of its own. Main statement: when the
declarations have run, each name that they declare means a placeholder, whatever it meant before,
and all other names mean what they did; a placeholder can be called, and gives `null`. -/

namespace CapsuleScript

open Heap

/-- The function takes no arguments, and gives what `null` means in its home. -/
structure Function.GivesNull (callee : Function) : Prop where
  params : callee.params = []
  body : ∃ span, callee.body = .ident span "null"
  autoReturn : callee.autoReturn = true

/-! ### Names and their holders -/

namespace Heap

variable {h k : Heap} {e f : FrameId} {name other : String} {v : Value}

/-- A frame finds names where another one does, if the tables that are asked are the same, but for
tables that do not bind the name. -/
theorem holder?_congr (hscopes : k.scopes e = h.scopes f)
    (hsame : ∀ t ∈ h.scopes f, (k.table t).bindings.has name = (h.table t).bindings.has name) :
    k.holder? e name = h.holder? f name := by
  rw [holder?, holder?, hscopes]
  exact List.find?_congr hsame

theorem Sound.scopes_define (hh : h.Sound) (he : h.HasFrame e) (v : Value) :
    (h.define f name v).scopes e = h.scopes e := by
  refine hh.rooted.chain_of_parent_eq (hh.hasTable he) (Nat.le_of_eq (tables_size_bind ..).symm) ?_
  intro t
  rw [define, table_bind]
  split <;> rfl

theorem Sound.holder?_define_of_ne (hh : h.Sound) (he : h.HasFrame e) (hne : name ≠ other)
    (v : Value) : (h.define f name v).holder? e other = h.holder? e other := by
  refine holder?_congr (hh.scopes_define he v) fun t _ => ?_
  rw [define, table_bind]
  split
  · rw [Bindings.has, Bindings.get?_insert_of_ne _ _ hne, Bindings.has]
  · rfl

theorem Sound.holder?_define_self (hh : h.Sound) (hf : h.HasFrame f) (v : Value) :
    (h.define f name v).holder? f name = some (h.frame f).table := by
  have hhas := hh.hasTable hf
  obtain ⟨rest, hchain, -⟩ := (hh.rooted.path_chain hhas).eq_cons
  have hbinds : ((h.define f name v).table (h.frame f).table).bindings.has name = true := by
    rw [define, table_bind, if_pos ⟨rfl, hhas⟩, Bindings.has, Bindings.get?_insert_self]
    rfl
  rw [holder?, hh.scopes_define hf v, scopes, hchain, List.find?_cons, hbinds]

theorem Sound.holder?_enter (hh : h.Sound) (hf : h.HasFrame f) (label : String) (span : Span)
    (name : String) :
    (h.enter label f span).2.holder? ⟨h.frames.size⟩ name = h.holder? f name := by
  have hhas := hh.hasTable hf
  have hparent : ∀ q, some (h.frame f).table = some q → h.HasTable q :=
    fun q hq => Option.some.inj hq ▸ hhas
  have hscopes : (h.enter label f span).2.scopes ⟨h.frames.size⟩ =
      ⟨h.tables.size⟩ :: h.scopes f := by
    rw [scopes, frame_enter, enter_eq, chain_addFrame, hh.rooted.chain_newTable_self hparent]
    rfl
  have hempty : ((h.enter label f span).2.table ⟨h.tables.size⟩).bindings.has name = false := by
    rw [table_enter, if_pos rfl]
    rfl
  rw [holder?, hscopes, List.find?_cons, hempty, holder?]
  refine List.find?_congr fun t ht => ?_
  have hold : h.HasTable t := hh.rooted.hasTable_of_mem_chain hhas ht
  rw [table_enter, if_neg (Nat.ne_of_lt hold)]

theorem lookup_define_of_ne (hne : name ≠ other) (e : FrameId) (v : Value) :
    (h.define f name v).lookup e other = h.lookup e other :=
  get?_bind_of_ne hne _

/-! ### What declarations establish -/

/-- The name means a function of that name without a definition. Its home is the frame whose table
holds the name. -/
structure Promises (k : Heap) (f : FrameId) (name : String) (g : FunctionId) : Prop where
  lookup : k.lookup f name = some (.function g)
  name_eq : (k.function g).name = name
  initialized : (k.function g).initialized = false
  holder : k.holder? f name = some (k.frame (k.function g).home).table

/-- The heap `k` comes from `h` by declarations that started in the frame `f`, and the frame `current`
sees the names that they declared: each means a placeholder, and all others mean what they meant in
`f`, in the homes of the placeholders too. -/
structure Announces (h : Heap) (f : FrameId) (names : List String) (current : FrameId) (k : Heap) :
    Prop where
  declared : ∀ name ∈ names, ∃ g, k.Promises current name g ∧ (k.function g).GivesNull ∧
    ∀ other ∉ names, k.lookup (k.function g).home other = h.lookup f other
  others : ∀ other ∉ names, k.lookup current other = h.lookup f other

variable {names : List String} {current : FrameId} {g : FunctionId}

theorem announces_nil (h : Heap) (f : FrameId) : h.Announces f [] f h :=
  ⟨fun _ hname => absurd hname List.not_mem_nil, fun _ _ => rfl⟩

/-- A frame that has been entered sees the declared names like the frame that it was entered from. -/
theorem Announces.enter (ha : h.Announces f names current k) (hk : k.Sound)
    (hcurrent : k.HasFrame current) (label : String) (span : Span) :
    h.Announces f names ⟨k.frames.size⟩ (k.enter label current span).2 := by
  have hseen := fun name =>
    hk.after.lookup_enter label hcurrent (hk.hasTable hcurrent) span name
  refine ⟨fun name hname => ?_, fun other hother => (hseen other).1.trans (ha.others other hother)⟩
  obtain ⟨g, hg, hnull, hhome⟩ := ha.declared name hname
  have hframe : k.HasFrame (k.function g).home := hk.home (hk.lives_of_lookup hg.lookup)
  refine ⟨g, ⟨(hseen name).1.trans hg.lookup, hg.name_eq, hg.initialized, ?_⟩, hnull,
    fun other hother => ?_⟩
  · have hsame : (k.enter label current span).2.frame (k.function g).home =
        k.frame (k.function g).home := frame_addFrame_of_hasFrame (h := (k.newTable _ _).2) hframe
    rw [hk.holder?_enter hcurrent]
    exact hg.holder.trans (congrArg (fun a => some a.table) hsame.symm)
  · exact ((hseen other).2 hframe (hk.hasTable hframe)).trans (hhome other hother)

/-- A placeholder is made and bound in the current frame. -/
theorem Announces.declare (ha : h.Announces f names current k) (hk : k.Sound)
    (hcurrent : k.HasFrame current) (name : String) (span : Span) :
    h.Announces f (names ++ [name]) current
      ((k.addFunction ⟨name, [], .ident span "null", current, true, false⟩).define current name
        (.function ⟨k.functions.size⟩)) := by
  let data : Function := ⟨name, [], .ident span "null", current, true, false⟩
  let l := (k.addFunction data).define current name (.function ⟨k.functions.size⟩)
  have hadded : (k.addFunction data).Sound := by
    have hstep : Step 0 k (k.addFunction data) := .added hcurrent trivial
    exact hstep.sound hk
  have hnew : l.function ⟨k.functions.size⟩ = data := by
    show (k.addFunction data).function ⟨k.functions.size⟩ = data
    rw [function_addFunction, if_pos rfl]
  have hother : ∀ {other : String}, name ≠ other → ∀ e, l.lookup e other = k.lookup e other := by
    intro other hne e
    have hparts : (k.addFunction data).tables = k.tables ∧
        (k.addFunction data).frames = k.frames := ⟨rfl, rfl⟩
    exact (lookup_define_of_ne hne e _).trans (lookup_congr hparts e other)
  have hnot : ∀ {other : String}, other ∉ names ++ [name] → name ≠ other ∧ other ∉ names := by
    intro other hmem
    exact ⟨fun heq => hmem (by simp [heq]), fun hold => hmem (List.mem_append_left _ hold)⟩
  refine ⟨fun n hn => ?_, fun other hmem => ?_⟩
  · by_cases hname : name = n
    · subst hname
      refine ⟨⟨k.functions.size⟩, ⟨?_, ?_, ?_, ?_⟩, ?_, fun other hmem => ?_⟩
      · exact hadded.rooted.lookup_define_self (hadded.hasTable hcurrent) _
      · exact congrArg Function.name hnew
      · exact congrArg Function.initialized hnew
      · rw [hadded.holder?_define_self hcurrent]
        exact congrArg (fun a => some (l.frame a.home).table) hnew.symm
      · rw [hnew]
        exact ⟨rfl, ⟨span, rfl⟩, rfl⟩
      · rw [hnew, hother (hnot hmem).1]
        exact ha.others other (hnot hmem).2
    · have hold : n ∈ names := by simpa [Ne.symm hname] using hn
      obtain ⟨g, hg, hnull, hhome⟩ := ha.declared n hold
      have hsame : l.function g = k.function g :=
        function_addFunction_of_hasFunction (hk.lives_of_lookup hg.lookup)
      refine ⟨g, ⟨?_, ?_, ?_, ?_⟩, ?_, fun other hmem => ?_⟩
      · rw [hother hname]
        exact hg.lookup
      · rw [hsame]
        exact hg.name_eq
      · rw [hsame]
        exact hg.initialized
      · rw [hsame, hadded.holder?_define_of_ne hcurrent hname]
        have hscopes : (k.addFunction data).scopes current = k.scopes current :=
          chain_congr (tables_addFunction data) _
        exact (holder?_congr hscopes fun _ _ => rfl).trans hg.holder
      · rw [hsame]
        exact hnull
      · rw [hsame, hother (hnot hmem).1]
        exact hhome other (hnot hmem).2
  · rw [hother (hnot hmem).1]
    exact ha.others other (hnot hmem).2

end Heap

namespace Node

/-- The name that the node declares, if it is a declaration. -/
def declaredName? : Node → Option String
  | .declaration _ name _ => some name
  | _ => none

/-- The names that the nodes declare, as often as they do. -/
def declaredNames (nodes : List Node) : List String := nodes.filterMap declaredName?

theorem declaredNames_map_declareDefinition (definitions : List (String × Span)) :
    declaredNames (definitions.map declareDefinition) = definitions.map Prod.fst := by
  rw [declaredNames, List.filterMap_map]
  exact congrFun List.filterMap_eq_map' definitions

end Node

namespace Evaluation

open Node

variable {limits : Limits} {fuel : Nat} {h k : Heap} {f current : FrameId} {names : List String}
  {leading rest : List Node}

/-! ### Declarations -/

/-- One declaration. Where the frame binds the name already, it is made in a new frame. -/
theorem announces_declaration (ha : h.Announces f names current k) (hk : k.Sound)
    (hcurrent : k.HasFrame current) (name : String) (span : Span) :
    (eval limits (fuel + 1) (declare name span) current).Yields k fun out l =>
      l.Sound ∧ l.HasFrame out.frame ∧ h.Announces f (names ++ [name]) out.frame l := by
  have hdeclare : ∀ {target l}, h.Announces f names target l → l.Sound → l.HasFrame target →
      (do
        let g ← Run.make (·.newPlaceholder name (.ident span "null") target)
        Run.change (·.define target name (.function g))
        return give (.function g) span target).Yields l fun out l =>
          l.HasFrame out.frame ∧ h.Announces f (names ++ [name]) out.frame l :=
    fun htarget hl hframe => ⟨_, _, rfl, hframe, htarget.declare hl hframe name span⟩
  have htarget : (bindingTarget name ("--" ++ name) span current).Yields k fun target l =>
      l.Sound ∧ l.HasFrame target ∧ h.Announces f names target l := by
    show (if k.bindsDirectly current name then _ else _ : Run FrameId).Yields k _
    split
    · have hstep : Step 0 k (k.enter ("--" ++ name) current span).2 :=
        hk.step_enter _ hcurrent span
      exact ⟨_, _, rfl, hstep.sound hk, hasFrame_enter _ current span, ha.enter hk hcurrent _ span⟩
    · exact ⟨current, k, rfl, hk, hcurrent, ha⟩
  have hevolves : (declaration span name (.ident span "null") current).Evolves 0 k
      (Outcome.GoesOn 0 true current) :=
    evolves_declaration ⟨hk, Nat.zero_le _, hcurrent⟩ trivial ⟨hcurrent, Nat.zero_le _⟩
  obtain ⟨out, l, hend, hframe, hout⟩ := htarget.bind fun hl => hdeclare hl.2.2 hl.1 hl.2.1
  exact ⟨out, l, hend, (hevolves.done_of hend).1.sound hk, hframe, hout⟩

/-- A row of declarations, by induction on the row. -/
theorem announces_leads (hleading : ∀ n ∈ leading, ∃ definition, n = declareDefinition definition)
    (ha : h.Announces f names current k) (hk : k.Sound) (hcurrent : k.HasFrame current) :
    (leads (eval limits (fuel + 1)) leading current).Yields k fun last l =>
      l.Sound ∧ h.Announces f (names ++ declaredNames leading) last l := by
  induction leading generalizing current k names with
  | nil =>
      refine ⟨current, k, rfl, hk, ?_⟩
      rw [declaredNames, List.filterMap_nil, List.append_nil]
      exact ha
  | cons n leading ih =>
      obtain ⟨⟨⟨name, span⟩, rfl⟩, hrest⟩ := List.forall_mem_cons.mp hleading
      have hnames : names ++ declaredNames (declareDefinition (name, span) :: leading) =
          (names ++ [name]) ++ declaredNames leading := by
        rw [List.append_assoc]
        rfl
      rw [hnames]
      exact (announces_declaration ha hk hcurrent name span).bind fun hl =>
        ih hrest hl.2.2 hl.1 hl.2.1

/-- A block goes on where its first statements have led it, if there are no blocks among them. -/
theorem statements_of_leads {sub : Evaluator} {last : FrameId} {l : Heap}
    (hleading : ∀ n ∈ leading, n.isDeclaration = true)
    (hlead : leads sub leading current k = .done last l) (rest : List Node) (result : Stamped) :
    ∃ result', statements sub (leading ++ rest) ⟨result, current⟩ k =
      statements sub rest ⟨result', last⟩ l := by
  induction leading generalizing current k result with
  | nil =>
      cases hlead
      exact ⟨result, rfl⟩
  | cons n leading ih =>
      obtain ⟨hn, hrest⟩ := List.forall_mem_cons.mp hleading
      rw [leads, Run.bind_apply] at hlead
      cases hend : sub n current k with
      | done next m =>
          rw [hend] at hlead
          obtain ⟨result', hgoes⟩ := ih hrest hlead next.result
          refine ⟨result', ?_⟩
          rw [List.cons_append, statements, Run.bind_apply, hend, ← hgoes]
          cases n with
          | declaration => rfl
          | _ => cases hn
      | raised signal m =>
          rw [hend] at hlead
          cases hlead
      | outOfFuel =>
          rw [hend] at hlead
          cases hlead

/-! ### Calls -/

theorem eval_ident {e : FrameId} {name : String} {v : Value} (hname : k.lookup e name = some v)
    (span : Span) : eval limits (fuel + 1) (.ident span name) e k = .done (give v span e) k := by
  show ident span name e k = .done (give v span e) k
  simp only [ident, Run.bind_apply, Run.read, hname, Run.pure_apply]

theorem apply_of_givesNull {callee : Function} (hk : k.Sound) (hhome : k.HasFrame callee.home)
    (hcallee : callee.GivesNull) (hnull : k.lookup callee.home "null" = some .null) (span : Span)
    (e : FrameId) : ∃ l, apply (eval limits (fuel + 1)) span callee [] e k =
      .done (give .null span e) l := by
  obtain ⟨name, params, body, home, autoReturn, initialized⟩ := callee
  obtain ⟨rfl, ⟨place, rfl⟩, rfl⟩ := hcallee
  have hinner : (k.enter name home span).2.lookup ⟨k.frames.size⟩ "null" = some .null :=
    (hk.after.lookup_enter name hhome (hk.hasTable hhome) span "null").1.trans hnull
  refine ⟨(k.enter name home span).2, ?_⟩
  show ((eval limits (fuel + 1) (.ident place "null") ⟨k.frames.size⟩).attempt >>= _)
    (k.enter name home span).2 = _
  rw [Run.bind_apply, Run.attempt, eval_ident hinner]
  rfl

/-- A function that gives what `null` means is called without arguments. -/
theorem eval_call_of_givesNull {g : FunctionId} {e : FrameId} {name : String} (hk : k.Sound)
    (hg : (k.function g).GivesNull) (hnull : k.lookup (k.function g).home "null" = some .null)
    (hname : k.lookup e name = some (.function g)) (span namespan : Span) :
    ∃ l, eval limits (fuel + 2) (.call span (.ident namespan name) []) e k =
      .done (give .null span e) l := by
  have hhome : k.HasFrame (k.function g).home := hk.home (hk.lives_of_lookup hname)
  obtain ⟨l, hend⟩ := apply_of_givesNull hk hhome hg hnull span e
  refine ⟨l, ?_⟩
  rw [← hend]
  show call (eval limits (fuel + 1)) span (.ident namespan name) [] e k = _
  rw [call, Run.bind_apply, value, Run.bind_apply, eval_ident hname]
  rfl

/-! ### Main statement -/

/-- The names have been declared, and their placeholders can be called where `null` has its meaning,
be it in the current frame or in the home of the placeholder. -/
structure Declared (limits : Limits) (h : Heap) (f : FrameId) (names : List String)
    (current : FrameId) (k : Heap) : Prop extends h.Announces f names current k where
  calls : ∀ name ∈ names, ∀ g, k.lookup current name = some (.function g) →
    k.lookup current "null" = some .null ∨ k.lookup (k.function g).home "null" = some .null →
    ∀ fuel e other span place, k.lookup e other = some (.function g) →
      ∃ l, eval limits (fuel + 2) (.call span (.ident place other) []) e k =
        .done (give .null span e) l

theorem declared_of_announces (ha : h.Announces f names current k) (hk : k.Sound) :
    Declared limits h f names current k := by
  refine ⟨ha, fun name hname g hg hnull fuel e other span place hother => ?_⟩
  obtain ⟨g', hg', hgives, hhome⟩ := ha.declared name hname
  obtain rfl : g' = g := by
    have heq := hg'.lookup.symm.trans hg
    cases heq
    rfl
  refine eval_call_of_givesNull hk hgives ?_ hother span place
  rcases hnull with hnull | hnull
  · -- what is not declared means the same in the home of the placeholder and in the current frame
    have hfree : "null" ∉ names := by
      intro hmem
      obtain ⟨p, hp, -⟩ := ha.declared "null" hmem
      rw [hp.lookup] at hnull
      cases hnull
    rw [hhome "null" hfree, ← ha.others "null" hfree]
    exact hnull
  · exact hnull

variable {tokens : List Located} {program node : Node} {span : Span} {mayDeclare : Bool}

/-- When the declarations at the start of a block have run, in the frame of the block or, if it is a
program, in the frame that it was given, each name that they declare means a function of that name
without a definition, whose home is the frame whose table holds the name. All other names mean what
they did, and the functions can be called without arguments, which gives `null`. -/
theorem declared_of_leading (hprogram : Node.ofTokens tokens = .ok program)
    (hblock : (Node.block span mayDeclare (leading ++ rest)).Occurs program.declareFunctions)
    (hleading : ∀ n ∈ leading, n.isDeclaration = true) (hh : h.Sound) (hf : h.HasFrame f)
    (limits : Limits) (fuel : Nat) :
    (∃ current k result,
      leads (eval limits (fuel + 1)) leading (h.enter "<block>" f span).1
        (h.enter "<block>" f span).2 = .done current k ∧
      eval limits (fuel + 2) (.block span mayDeclare (leading ++ rest)) f h =
        statements (eval limits (fuel + 1)) rest ⟨result, current⟩ k ∧
      Declared limits h f (declaredNames leading) current k) ∧
    ∃ current k result,
      leads (eval limits (fuel + 1)) leading f h = .done current k ∧
      Evaluation.program limits (fuel + 1) (.block span mayDeclare (leading ++ rest)) f h =
        programFrom (eval limits (fuel + 1)) rest ⟨result, current⟩ k ∧
      Declared limits h f (declaredNames leading) current k := by
  have hsettled : ∀ n ∈ leading, ∃ definition, n = declareDefinition definition := fun n hn =>
    ((settled_of_occurs hprogram hblock).of_mem_children
      (List.mem_append_left _ hn)).exists_eq_declareDefinition (hleading n hn)
  constructor
  · have hstep : Step 0 h (h.enter "<block>" f span).2 := hh.step_enter _ hf span
    have hentered := hstep.sound hh
    obtain ⟨current, k, hlead, hk, hannounces⟩ := announces_leads hsettled
      ((announces_nil h f).enter hh hf "<block>" span) hentered (hasFrame_enter _ f span)
    obtain ⟨result, hgoes⟩ :=
      statements_of_leads hleading hlead rest (.of .empty span ⟨h.frames.size⟩)
    exact ⟨current, k, result, hlead, hgoes, declared_of_announces hannounces hk⟩
  · obtain ⟨current, k, hlead, hk, hannounces⟩ :=
      announces_leads hsettled (announces_nil h f) hh hf
    obtain ⟨result, hgoes⟩ := programFrom_of_leads hlead rest (.of .empty span f)
    exact ⟨current, k, result, hlead, hgoes, declared_of_announces hannounces hk⟩

/-- A function that a program defines twice, in the first frame of a session. -/
theorem declared_of_leading_twice : ∃ span leading rest current k g,
    declaredNames leading = ["f", "f"] ∧
    leads (eval {} 1) leading (Session.start {}).frame (Session.start {}).heap = .done current k ∧
    (∃ result, Evaluation.program {} 1 (.block span true (leading ++ rest)) (Session.start {}).frame
      (Session.start {}).heap = programFrom (eval {} 1) rest ⟨result, current⟩ k) ∧
    k.Promises current "f" g ∧ k.lookup current "null" = some .null ∧
    ∃ l, eval {} 2 (.call span (.ident span "f") []) current k =
      .done (give .null span current) l := by
  have hread : (blockAt? "f = fun -> g\nf = fun -> f" []).map (fun statements =>
      (definitionsOfAll statements).map Prod.fst) = some ["f", "f"] := by
    cbv
  obtain ⟨statements, hfound, hnames⟩ := Option.map_eq_some_iff.mp hread
  obtain ⟨tokens, program, span, hprogram, hat⟩ := exists_of_blockAt? hfound
  cases hat
  obtain ⟨-, -, -, hparsed⟩ := exists_parsed_ofTokens hprogram
  let leading := (definitionsOfAll statements).map declareDefinition
  have hdeclared : declaredNames leading = ["f", "f"] :=
    (declaredNames_map_declareDefinition _).trans hnames
  have hblock : (Node.block span true (leading ++ statements.map declareFunctions)).Occurs
      (Node.block span true statements).declareFunctions := by
    rw [declareFunctions_block hparsed.2]
    exact .self _
  have hstart := (Session.Reachable.start {}).sound
  have hleading : ∀ n ∈ leading, n.isDeclaration = true := by
    intro n hn
    obtain ⟨_, -, rfl⟩ := List.mem_map.mp hn
    rfl
  obtain ⟨-, current, k, result, hlead, hgoes, hopened⟩ :=
    declared_of_leading hprogram hblock hleading hstart.heap hstart.hasFrame {} 0
  have hnull : k.lookup current "null" = some .null := by
    rw [hopened.others "null" (by rw [hdeclared]; decide)]
    rfl
  obtain ⟨g, hg, -, -⟩ := hopened.declared "f" (by rw [hdeclared]; decide)
  exact ⟨span, leading, _, current, k, g, hdeclared, hlead, ⟨result, hgoes⟩, hg, hnull,
    hopened.calls "f" (by rw [hdeclared]; decide) g hg.lookup (.inl hnull) 0 current "f" span span
      hg.lookup⟩

end Evaluation

end CapsuleScript
