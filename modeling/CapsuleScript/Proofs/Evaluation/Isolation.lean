import CapsuleScript.Proofs.Evaluation.Lookup
import Mathlib

/-! What a strict object sees. When its body has run, the tables of the body that are linked to the
scope around the literal are cut off from it. That separates the object from the scope around it
exactly if the chain of the body comes to that scope by one of these links. It does not have to: what
the body evaluates may link its tables elsewhere, to the scope of a called function for one, and then
the object sees names of the scope around it. -/

namespace CapsuleScript

namespace Heap

variable {h k l : Heap} {around p t x : TableId} {ts us : List TableId}

/-- The heap `k` is `h` with those of the tables `ts` that were linked to `around` linked to tables
that hold the names that every program starts with. -/
structure CutApart (h k : Heap) (around : TableId) (ts : List TableId) : Prop where
  frames : k.frames = h.frames
  size : h.tables.size ≤ k.tables.size
  bindings : ∀ {x}, h.HasTable x → (k.table x).bindings = (h.table x).bindings
  added : ∀ {x}, k.HasTable x → ¬ h.HasTable x → k.table x = ⟨builtins, none⟩
  kept : ∀ {x}, h.HasTable x → ¬ (x ∈ ts ∧ (h.table x).parent = some around) →
    (k.table x).parent = (h.table x).parent
  relinked : ∀ {x}, h.HasTable x → x ∈ ts → (h.table x).parent = some around →
    ∃ y, (k.table x).parent = some y ∧ k.HasTable y ∧ ¬ h.HasTable y

namespace CutApart

theorem hasTable (hcut : CutApart h k around ts) (hx : h.HasTable x) : k.HasTable x :=
  Nat.lt_of_lt_of_le hx hcut.size

theorem nil (h : Heap) (around : TableId) : CutApart h h around [] where
  frames := rfl
  size := Nat.le_refl _
  bindings _ := rfl
  added hx hnot := absurd hx hnot
  kept _ _ := rfl
  relinked _ hmem := absurd hmem (by simp)

theorem cut (h : Heap) (around t : TableId) : CutApart h (Evaluation.cut h around t) around [t] := by
  unfold Evaluation.cut
  split
  · rename_i hparent
    have ht := hasTable_of_parent hparent
    have ht' : (h.newTable none builtins).2.HasTable t := ht.newTable
    have htable : ∀ x, ((h.newTable none builtins).2.setParent t (some ⟨h.tables.size⟩)).table x =
        if x = t then { h.table x with parent := some ⟨h.tables.size⟩ }
        else if x.index = h.tables.size then ⟨builtins, none⟩ else h.table x := by
      intro x
      rw [table_setParent]
      by_cases hxt : x = t
      · subst hxt
        rw [if_pos ⟨rfl, ht'⟩, if_pos rfl, table_newTable_of_hasTable ht]
      · rw [if_neg fun hc => hxt hc.1, if_neg hxt, table_newTable]
    refine ⟨rfl, by simp, fun {x} hx => ?_, fun {x} hx hnot => ?_, fun {x} hx hno => ?_,
      fun {x} hx hmem _ => ?_⟩
    · simp only [newTable_fst, htable, if_neg (Nat.ne_of_lt hx)]
      split <;> rfl
    · have hlast : x.index = h.tables.size := Nat.le_antisymm
        (Nat.lt_succ_iff.mp (by simpa [HasTable] using hx)) (Nat.not_lt.mp hnot)
      have hne : x ≠ t := by
        rintro rfl
        exact hnot ht
      simp only [newTable_fst, htable, if_pos hlast, if_neg hne]
    · simp only [newTable_fst, htable, if_neg (Nat.ne_of_lt hx)]
      refine congrArg Table.parent (if_neg fun heq => hno ?_)
      exact ⟨by simp [heq], heq ▸ hparent⟩
    · rw [List.mem_singleton] at hmem
      refine ⟨⟨h.tables.size⟩, ?_, by simp [HasTable], Nat.lt_irrefl _⟩
      simp only [newTable_fst, htable, if_pos hmem]
  · rename_i hparent
    refine ⟨rfl, Nat.le_refl _, fun _ => rfl, fun hx hnot => absurd hx hnot, fun _ _ => rfl, ?_⟩
    intro x _ hmem hp
    rw [List.mem_singleton] at hmem
    exact absurd (hmem ▸ hp) hparent

theorem append (haround : h.HasTable around) (hk : CutApart h k around ts)
    (hl : CutApart k l around us) : CutApart h l around (ts ++ us) where
  frames := hl.frames.trans hk.frames
  size := Nat.le_trans hk.size hl.size
  bindings hx := (hl.bindings (hk.hasTable hx)).trans (hk.bindings hx)
  added := by
    intro x hx hnot
    by_cases hold : k.HasTable x
    · have htable := hk.added hold hnot
      have hparent : (l.table x).parent = none := by
        rw [hl.kept hold fun hc => ?_, htable]
        rw [htable] at hc
        simp at hc
      have hbindings : (l.table x).bindings = builtins := by rw [hl.bindings hold, htable]
      cases hx' : l.table x
      rw [hx'] at hparent hbindings
      simp only at hparent hbindings
      rw [hparent, hbindings]
    · exact hl.added hx hold
  kept := by
    intro x hx hno
    have hparent := hk.kept hx fun hc => hno ⟨List.mem_append_left _ hc.1, hc.2⟩
    rw [hl.kept (hk.hasTable hx) fun hc => hno ⟨List.mem_append_right _ hc.1, ?_⟩,
      hparent]
    rw [← hparent]
    exact hc.2
  relinked := by
    intro x hx hmem hp
    have hxk := hk.hasTable hx
    by_cases hts : x ∈ ts
    · -- A table that was cut off is not linked to `around` any more.
      obtain ⟨y, hy, hyk, hynew⟩ := hk.relinked hx hts hp
      refine ⟨y, ?_, hl.hasTable hyk, hynew⟩
      rw [hl.kept hxk fun hc => ?_, hy]
      rw [hy] at hc
      exact hynew (Option.some.inj hc.2 ▸ haround)
    · have hus : x ∈ us := (List.mem_append.mp hmem).resolve_left hts
      have hparent := hk.kept hx fun hc => hts hc.1
      obtain ⟨y, hy, hyl, hynew⟩ := hl.relinked hxk hus (hparent.trans hp)
      exact ⟨y, hy, hyl, fun hold => hynew (hk.hasTable hold)⟩

/-- The chain of `around` is not touched. -/
theorem chain_around (hh : h.Sound) (hk : k.Sound) (hcut : CutApart h k around ts)
    (haround : h.HasTable around) : k.chain around = h.chain around := by
  refine hk.rooted.chain_eq_of_path (hcut.hasTable haround) ?_
  refine (hh.rooted.path_chain haround).congr fun u hu => ?_
  have hhas := hh.rooted.hasTable_of_mem_chain haround hu
  exact hcut.kept hhas fun hc => hh.rooted.not_mem_chain_parent hhas hc.2 hu

/-- A table that was cut off has only the names that every program starts with above it. -/
theorem chain_relinked (hk : k.Sound) (hcut : CutApart h k around ts) (hx : h.HasTable x)
    (hmem : x ∈ ts) (hp : (h.table x).parent = some around) :
    ∃ y, k.chain x = [x, y] ∧ k.HasTable y ∧ ¬ h.HasTable y := by
  obtain ⟨y, hy, hyk, hynew⟩ := hcut.relinked hx hmem hp
  refine ⟨y, ?_, hyk, hynew⟩
  have htop : (k.table y).parent = none := by rw [hcut.added hyk hynew]
  rw [hk.rooted.chain_of_parent_some (hcut.hasTable hx) hy,
    hk.rooted.chain_of_parent_none hyk htop]

/-- Above a table whose link was kept there is what is above its parent. -/
theorem chain_kept (hk : k.Sound) (hcut : CutApart h k around ts) (ht : h.HasTable t)
    (hp : (h.table t).parent = some p) (hkept : ¬ (t ∈ ts ∧ p = around)) :
    k.chain t = t :: k.chain p := by
  have hparent := hcut.kept ht fun hc => hkept ⟨hc.1, Option.some.inj (hp.symm.trans hc.2)⟩
  exact hk.rooted.chain_of_parent_some (hcut.hasTable ht) (hparent.trans hp)

/-- A table that had no link has none. -/
theorem chain_top (hk : k.Sound) (hcut : CutApart h k around ts) (ht : h.HasTable t)
    (hp : (h.table t).parent = none) : k.chain t = [t] := by
  have hparent := hcut.kept ht fun hc => Option.some_ne_none around (hc.2.symm.trans hp)
  exact hk.rooted.chain_of_parent_none (hcut.hasTable ht) (hparent.trans hp)

/-- What is seen from a table after the cuts was seen before or is one of the added tables. -/
theorem mem_chain_or (hh : h.Sound) (hk : k.Sound) (hcut : CutApart h k around ts)
    {o : Option TableId} {l : List TableId} (hl : h.Path o l) (ht : o = some t) (hhas : h.HasTable t)
    (hx : x ∈ k.chain t) : x ∈ l ∨ k.table x = ⟨builtins, none⟩ := by
  induction hl generalizing t with
  | nil => cases ht
  | @cons t rest hrest ih =>
      cases ht
      cases hp : (h.table t).parent with
      | none =>
          rw [hcut.chain_top hk hhas hp] at hx
          rw [List.mem_singleton.mp hx]
          exact .inl List.mem_cons_self
      | some p =>
          by_cases hoff : t ∈ ts ∧ p = around
          · obtain ⟨hts, rfl⟩ := hoff
            obtain ⟨y, hchain, hyk, hynew⟩ := hcut.chain_relinked hk hhas hts hp
            rw [hchain] at hx
            rcases List.mem_cons.mp hx with rfl | hy
            · exact .inl List.mem_cons_self
            · rw [List.mem_singleton.mp hy]
              exact .inr (hcut.added hyk hynew)
          · rw [hcut.chain_kept hk hhas hp hoff] at hx
            rcases List.mem_cons.mp hx with rfl | hx
            · exact .inl List.mem_cons_self
            · rcases ih hp (hh.rooted.hasTable_parent hp) hx with hmem | hadded
              · exact .inl (List.mem_cons_of_mem _ hmem)
              · exact .inr hadded

/-- Nothing of the chain of `around` is seen from a table that was cut off from it. -/
theorem not_mem_of_mem_chain_relinked (hh : h.Sound) (hk : k.Sound)
    (hcut : CutApart h k around ts) (haround : h.HasTable around) (ht : h.HasTable t)
    (hts : t ∈ ts) (hp : (h.table t).parent = some around) (hx : x ∈ k.chain t) :
    x ∉ h.chain around := by
  obtain ⟨y, hchain, -, hynew⟩ := hcut.chain_relinked hk ht hts hp
  rw [hchain] at hx
  rcases List.mem_cons.mp hx with rfl | hy
  · exact hh.rooted.not_mem_chain_parent ht hp
  · rw [List.mem_singleton.mp hy]
    exact fun hmem => hynew (hh.rooted.hasTable_of_mem_chain haround hmem)

/-- Nothing of the chain of `around` is seen from a table after the cuts exactly if the table is not
on that chain and its own chain comes there, if it does, by a link that was cut. -/
theorem forall_not_mem_iff (hh : h.Sound) (hk : k.Sound) (hcut : CutApart h k around ts)
    (haround : h.HasTable around) {o : Option TableId} {l : List TableId} (hl : h.Path o l)
    (ht : o = some t) (hhas : h.HasTable t) :
    (∀ x ∈ k.chain t, x ∉ h.chain around) ↔ t ∉ h.chain around ∧
      ∀ x ∈ l, x ∉ h.chain around → ∀ p ∈ h.chain around, (h.table x).parent = some p →
        p = around ∧ x ∈ ts := by
  induction hl generalizing t with
  | nil => cases ht
  | @cons t rest hrest ih =>
      cases ht
      by_cases hon : t ∈ h.chain around
      · have hself := hk.rooted.mem_chain_self (hcut.hasTable hhas)
        exact iff_of_false (fun hall => hall t hself hon) fun hall => hall.1 hon
      cases hp : (h.table t).parent with
      | none =>
          rw [hp] at hrest
          cases hrest
          rw [hcut.chain_top hk hhas hp]
          simp [hon, hp]
      | some p =>
          rw [hp] at hrest
          have hphas := hh.rooted.hasTable_parent hp
          by_cases hoff : t ∈ ts ∧ p = around
          · -- The link is cut, and the rest of the chain lies on that of `around`.
            obtain ⟨hts, rfl⟩ := hoff
            refine iff_of_true (fun x hx => ?_) ⟨hon, fun x hx hnot q hq hxq => ?_⟩
            · exact hcut.not_mem_of_mem_chain_relinked hh hk haround hhas hts hp hx
            · rcases List.mem_cons.mp hx with rfl | hmem
              · exact ⟨Option.some.inj (hxq.symm.trans hp), hts⟩
              · rw [← hh.rooted.chain_eq_of_path hphas hrest] at hmem
                exact absurd hmem hnot
          rw [hcut.chain_kept hk hhas hp hoff]
          by_cases hpon : p ∈ h.chain around
          · -- The chain comes to that of `around` by a link that was kept.
            have hself := hk.rooted.mem_chain_self (hcut.hasTable hphas)
            refine iff_of_false (fun hall => hall p (List.mem_cons_of_mem _ hself) hpon) fun hall => ?_
            exact hoff (hall.2 t List.mem_cons_self hon p hpon hp).symm
          · rw [List.forall_mem_cons, List.forall_mem_cons, ih hp hphas]
            constructor
            · rintro ⟨-, -, hbelow⟩
              refine ⟨hon, fun _ q hq htq => ?_, hbelow⟩
              exact absurd (Option.some.inj (htq.symm.trans hp) ▸ hq) hpon
            · rintro ⟨-, -, hbelow⟩
              exact ⟨hon, hpon, hbelow⟩

end CutApart

/-- No table is seen from both frames. -/
def Apart (h : Heap) (f g : FrameId) : Prop := ∀ x ∈ h.scopes f, x ∉ h.scopes g

end Heap

namespace Evaluation

open Heap

variable {limit : Nat} {h k : Heap} {c : FrameId} {span : Span} {typeName : Option String}
  {b : Built} {out : Outcome}

/-- The tables that are cut off when a strict literal in the frame `c` is sealed, if they are linked
to the scope around it: those of the frames of its body, and the one at which that scope was spliced
in. -/
def Built.tables (b : Built) (c : FrameId) (heap : Heap) : List TableId :=
  (b.frames c heap).map (fun f => (heap.frame f).table) ++ b.point.toList

/-- The chain of the body does not start on that of the scope around the literal, and if it comes
there it does so by the link of a table that is cut off. -/
def Built.Separable (b : Built) (c : FrameId) (heap : Heap) : Prop :=
  (heap.frame b.last).table ∉ heap.scopes c ∧
    ∀ x ∈ heap.scopes b.last, x ∉ heap.scopes c → ∀ p ∈ heap.scopes c,
      (heap.table x).parent = some p → p = b.around ∧ x ∈ b.tables c heap

theorem cutApart_of_cutFrames {around : TableId} {frames : List FrameId} {u : Unit}
    (haround : h.HasTable around) (hend : cutFrames span around limit frames h = .done u k) :
    CutApart h k around (frames.map fun f => (h.frame f).table) := by
  induction frames generalizing h limit with
  | nil =>
      have hsame : h = k := by
        cases limit <;> cases hend <;> rfl
      exact hsame ▸ .nil h around
  | cons f rest ih =>
      cases limit with
      | zero => cases hend
      | succ limit =>
          have hcut := CutApart.cut h around (h.frame f).table
          have hrest := ih (hcut.hasTable haround) hend
          have hframe : ∀ g, (cut h around (h.frame f).table).frame g = h.frame g :=
            frame_congr hcut.frames
          simp only [hframe] at hrest
          exact hcut.append haround hrest

/-- Sealing a strict literal cuts its tables off and puts a table with its fields on top of what its
body has left. -/
theorem exists_of_sealed (haround : h.HasTable b.around)
    (hend : sealed limit span typeName true c b h = .done out k) :
    ∃ l fields inherited types, CutApart h l b.around (b.tables c h) ∧ Steps 0 h l ∧
      out.result.value = .encap fields inherited types ⟨l.frames.size⟩ ∧
      k = (objectScope span typeName true b.last fields l).2 := by
  unfold sealed at hend
  simp only [Run.bind_apply, Run.read, if_true] at hend
  cases hcuts : cutFrames span b.around limit (b.frames c h) h with
  | raised signal l =>
      rw [hcuts] at hend
      cases hend
  | outOfFuel =>
      rw [hcuts] at hend
      cases hend
  | done u l =>
      rw [hcuts] at hend
      have hcut := cutApart_of_cutFrames haround hcuts
      have hevolves : (cutFrames span b.around limit (b.frames c h)).Evolves 0 h fun _ _ => True :=
        evolves_cutFrames
      have hsteps := (hevolves.done_of hcuts).1
      cases hpoint : b.point with
      | none =>
          rw [hpoint] at hend
          have htables : b.tables c h = (b.frames c h).map fun f => (h.frame f).table := by
            simp [Built.tables, hpoint]
          rw [htables]
          cases hend
          exact ⟨l, _, _, _, hcut, hsteps, rfl, rfl⟩
      | some t =>
          rw [hpoint] at hend
          have htables : b.tables c h = ((b.frames c h).map fun f => (h.frame f).table) ++ [t] := by
            simp [Built.tables, hpoint]
          rw [htables]
          cases hend
          exact ⟨cut l b.around t, _, _, _, hcut.append haround (.cut l b.around t),
            hsteps.trans (steps_cut _ _), rfl, rfl⟩

/-- The scope of a strict object: a table with its fields, on top of what its body has left. -/
theorem scopes_objectScope (span : Span) (typeName : Option String) (hh : h.Sound)
    (hb : h.HasFrame b.last) (fields : Bindings Value) :
    (objectScope span typeName true b.last fields h).2.scopes ⟨h.frames.size⟩ =
      ⟨h.tables.size⟩ :: h.scopes b.last ∧
    (objectScope span typeName true b.last fields h).2.table ⟨h.tables.size⟩ =
      ⟨fields, some (h.frame b.last).table⟩ ∧
    (∀ f, h.HasFrame f →
      (objectScope span typeName true b.last fields h).2.scopes f = h.scopes f) ∧
    ∀ t, h.HasTable t → (objectScope span typeName true b.last fields h).2.table t = h.table t := by
  have heq : (objectScope span typeName true b.last fields h).2 =
      (h.newTable (some (h.frame b.last).table) fields).2.addFrame
        ⟨typeName.getD "<encap>", ⟨h.tables.size⟩, none, some span, (h.frame b.last).root⟩ := rfl
  have hp : ∀ q, some (h.frame b.last).table = some q → h.HasTable q := fun q hq =>
    Option.some.inj hq ▸ hh.hasTable hb
  have hself := frame_addFrame_self (h := (h.newTable (some (h.frame b.last).table) fields).2)
    ⟨typeName.getD "<encap>", ⟨h.tables.size⟩, none, some span, (h.frame b.last).root⟩
  rw [frames_newTable] at hself
  rw [heq]
  refine ⟨?_, ?_, fun f hf => ?_, fun t ht => ?_⟩
  · unfold scopes
    rw [hself, chain_addFrame, hh.rooted.chain_newTable_self hp]
    rfl
  · rw [table_congr (tables_addFrame _), table_newTable, if_pos rfl]
  · unfold scopes
    rw [frame_addFrame_of_hasFrame (h := (h.newTable (some (h.frame b.last).table) fields).2) hf,
      chain_addFrame, frame_newTable, hh.rooted.chain_newTable hp (hh.hasTable hf)]
  · rw [table_congr (tables_addFrame _), table_newTable_of_hasTable ht]

/-- An object literal that is evaluated comes to the end of its body and is sealed there. -/
theorem exists_built_of_encap {limits : Limits} {fuel : Nat} {strict : Bool} {body : Node}
    {parentNode : Option Node}
    (hend : eval limits (fuel + 1) (.encap span typeName strict body parentNode) c h = .done out k) :
    ∃ b m, built (eval limits fuel) span body parentNode c h = .done b m ∧
      sealed limits.nesting span typeName strict c b m = .done out k := by
  have hrun : (built (eval limits fuel) span body parentNode c >>=
      sealed limits.nesting span typeName strict c) h = .done out k := by
    rw [← encap_eq_built_sealed]
    exact hend
  rw [Run.bind_apply] at hrun
  cases hfirst : built (eval limits fuel) span body parentNode c h with
  | done b m =>
      rw [hfirst] at hrun
      exact ⟨b, m, rfl, hrun⟩
  | raised signal m =>
      rw [hfirst] at hrun
      cases hrun
  | outOfFuel =>
      rw [hfirst] at hrun
      cases hrun

/-- Sealing a strict literal separates its object from the frame `c` around it exactly if what its
body has left can be separated, and then its names come from where they may. -/
theorem apart_sealed_iff (hh : h.Sound) (hc : h.HasFrame c) (hb : b.Lives c h)
    (hend : sealed limit span typeName true c b h = .done out k) :
    ∃ fields inherited types scope, out.result.value = .encap fields inherited types scope ∧
      (k.Apart scope c ↔ b.Separable c h) ∧
      (k.Apart scope c → ∀ x ∈ k.scopes scope,
        (k.table x).bindings = fields ∨
        (x ∈ h.scopes b.last ∧ x ∉ h.scopes c ∧ (k.table x).bindings = (h.table x).bindings) ∨
        (k.table x).bindings = builtins) := by
  have haround : h.HasTable b.around := hb.around ▸ hh.hasTable hc
  obtain ⟨l, fields, inherited, types, hcut, hcuts, hvalue, rfl⟩ := exists_of_sealed haround hend
  have hl : l.Sound := hcuts.sound hh
  obtain ⟨hown, hfields, hold, hkept⟩ :=
    scopes_objectScope span typeName hl (hcuts.keeps.hasFrame hb.last) fields
  -- The cuts leave the chain around the literal as it was.
  have hscopes : l.scopes c = h.scopes c := by
    unfold scopes
    rw [frame_congr hcut.frames, ← hb.around, hcut.chain_around hh hl haround]
  have hlast := hh.hasTable hb.last
  have hpath := hh.rooted.path_chain hlast
  have hlastl : l.scopes b.last = l.chain (h.frame b.last).table := by
    unfold scopes
    rw [frame_congr hcut.frames]
  have hchain : h.scopes c = h.chain b.around := by
    rw [hb.around]
    rfl
  have hnew : (⟨l.tables.size⟩ : TableId) ∉ h.scopes c := fun hmem =>
    absurd (hh.rooted.hasTable_of_mem_chain (hh.hasTable hc) hmem) (Nat.not_lt.mpr hcut.size)
  refine ⟨fields, inherited, types, ⟨l.frames.size⟩, hvalue, ?_, fun hapart x hx => ?_⟩
  · unfold Apart Built.Separable
    rw [hown, hold c (hcuts.keeps.hasFrame hc), hscopes, hlastl]
    have hiff := hcut.forall_not_mem_iff hh hl haround hpath rfl hlast
    rw [← hchain] at hiff
    refine Iff.trans ⟨?_, ?_⟩ hiff
    · exact fun hall x hx => hall x (List.mem_cons_of_mem _ hx)
    · intro hall x hx
      rcases List.mem_cons.mp hx with rfl | hmem
      · exact hnew
      · exact hall x hmem
  · have hnot := hapart x hx
    rw [hold c (hcuts.keeps.hasFrame hc), hscopes] at hnot
    rw [hown, hlastl] at hx
    rcases List.mem_cons.mp hx with rfl | hmem
    · exact .inl (by rw [hfields])
    · have hxl := hl.rooted.hasTable_of_mem_chain (hcuts.keeps.hasTable hlast) hmem
      rw [hkept x hxl]
      rcases hcut.mem_chain_or hh hl hpath rfl hlast hmem with hmem | hadded
      · refine .inr (.inl ⟨hmem, hnot, hcut.bindings ?_⟩)
        exact hh.rooted.hasTable_of_mem_chain hlast hmem
      · exact .inr (.inr (by rw [hadded]))

/-- A strict object whose literal is evaluated in the frame `c`, on any heap that a session can have,
sees no table that `c` sees exactly if the chain that its body has left comes to the scope around the
literal by a link that is cut off. Then its names are its fields, what its body and its inheritance
chain bind, and the names that every program starts with. -/
theorem apart_encap_iff {limits : Limits} {fuel : Nat} {body : Node} {parentNode : Option Node}
    (hh : h.Reachable) (hc : h.HasFrame c)
    (he : (Node.encap span typeName true body parentNode).IsExpression)
    (hend : eval limits (fuel + 1) (.encap span typeName true body parentNode) c h = .done out k) :
    ∃ b m fields inherited types scope,
      built (eval limits fuel) span body parentNode c h = .done b m ∧
      out.result.value = .encap fields inherited types scope ∧
      (k.Apart scope c ↔ b.Separable c m) ∧
      (k.Apart scope c → ∀ x ∈ k.scopes scope,
        (k.table x).bindings = fields ∨
        (x ∈ m.scopes b.last ∧ x ∉ m.scopes c ∧ (k.table x).bindings = (m.table x).bindings) ∨
        (k.table x).bindings = builtins) := by
  have hr : h.Ready h.tables.size c := ⟨hh.sound, Nat.le_refl _, hc⟩
  have hevolves : (built (eval limits fuel) span body parentNode c).Evolves h.tables.size h
      (Built.Lives c) := evolves_built (evolves_eval limits fuel) hr he.1 he.2.1 he.2.2
  obtain ⟨b, m, hbuilt, hsealed⟩ := exists_built_of_encap hend
  obtain ⟨hsteps, hb⟩ := hevolves.done_of hbuilt
  obtain ⟨fields, inherited, types, scope, hvalue, hrest⟩ :=
    apart_sealed_iff (hsteps.sound hr.sound) (hsteps.keeps.hasFrame hc) hb hsealed
  exact ⟨b, m, fields, inherited, types, scope, hbuilt, hvalue, hrest⟩

/-- A session with a function `g` that makes an object from its argument. -/
def inheritingFunction : Session :=
  ((Session.start {}).submit
    ⟨"<stdin>", "s = \"s\"\ng = fun: q -> (encap \x7b z = s \x7d as D: q)", 20⟩).2

theorem reachable_inheritingFunction : inheritingFunction.Reachable := .submit _ (.start {})

/-- Whether two frames of a heap see no table in common. -/
def areApart (heap : Heap) (f g : FrameId) : Bool :=
  (heap.scopes f).all fun x => !(heap.scopes g).contains x

theorem apart_of_areApart {f g : FrameId} (hapart : areApart h f g) : h.Apart f g := by
  intro x hx hmem
  have hnot := List.all_eq_true.mp hapart x hx
  simp [hmem] at hnot

/-- Whether the node is a strict literal whose object, made in the session, passes the test. -/
def strictPasses (s : Session) (test : Heap → FrameId → Bool) : Node → Bool
  | .encap span typeName true body parentNode =>
    (eval {} 20 (.encap span typeName true body parentNode) s.frame s.heap).passes fun out k =>
      out.result.value.capsule?.any fun o => test k o.scope
  | _ => false

theorem exists_of_strictPasses {s : Session} {test : Heap → FrameId → Bool} {e : Node}
    (hpasses : strictPasses s test e) : ∃ span typeName body parentNode out k fields inherited types
      scope, e = .encap span typeName true body parentNode ∧
      eval {} 20 (.encap span typeName true body parentNode) s.frame s.heap = .done out k ∧
      out.result.value = .encap fields inherited types scope ∧ test k scope := by
  unfold strictPasses at hpasses
  split at hpasses
  · rename_i span typeName body parentNode
    obtain ⟨out, k, hend, htest⟩ := Ending.exists_of_passes hpasses
    obtain ⟨o, ho, htest⟩ := (Option.any_eq_true _ _).mp htest
    cases hvalue : out.result.value <;> rw [hvalue] at ho <;> cases ho
    exact ⟨span, typeName, body, parentNode, out, k, _, _, _, _, rfl, hend, hvalue, htest⟩
  · cases hpasses

/-- A strict literal whose body only binds a name is separated from the scope around it. -/
theorem apart_encap_plain : ∃ span typeName body parentNode b m,
    Node.expression? "<stdin>" "sencap \x7b z = s \x7d as E" =
      some (.encap span typeName true body parentNode) ∧
    built (eval {} 19) span body parentNode inheritingFunction.frame inheritingFunction.heap =
      .done b m ∧ b.Separable inheritingFunction.frame m := by
  have hrun : (Node.expression? "<stdin>" "sencap \x7b z = s \x7d as E").any
      (strictPasses inheritingFunction fun k scope =>
        areApart k scope inheritingFunction.frame) = true := by
    cbv
  obtain ⟨e, he, hrun⟩ := (Option.any_eq_true _ _).mp hrun
  obtain ⟨span, typeName, body, parentNode, out, k, fields, inherited, types, scope, rfl, hend,
    hvalue, htest⟩ := exists_of_strictPasses hrun
  obtain ⟨b, m, fields', inherited', types', scope', hbuilt, hvalue', hiff, -⟩ :=
    apart_encap_iff reachable_inheritingFunction.heap reachable_inheritingFunction.sound.hasFrame
      (Node.isExpression_of_expression? he) hend
  rw [hvalue] at hvalue'
  cases hvalue'
  exact ⟨span, typeName, body, parentNode, b, m, he, hbuilt, hiff.mp (apart_of_areApart htest)⟩

/-- Strict objects are not always separated: this one, in whose body `g` makes an object from another
one, sees the table of the frame in which its literal stands. -/
theorem exists_not_apart : ¬ ∀ (limits : Limits) (fuel : Nat) (source text : String) (span : Span)
    (typeName : Option String) (body : Node) (parentNode : Option Node) (h k : Heap) (c : FrameId)
    (out : Outcome) (fields inherited : List (String × Value)) (types : List String)
    (scope : FrameId), h.Reachable → h.HasFrame c →
    Node.expression? source text = some (.encap span typeName true body parentNode) →
    eval limits fuel (.encap span typeName true body parentNode) c h = .done out k →
    out.result.value = .encap fields inherited types scope → k.Apart scope c := by
  intro hclaim
  have hrun : (Node.expression? "<stdin>" "sencap \x7b d = g: (encap \x7b y = s \x7d) \x7d").any
      (strictPasses inheritingFunction fun k scope =>
        (k.scopes scope).contains (k.frame inheritingFunction.frame).table &&
          (k.scopes inheritingFunction.frame).contains
            (k.frame inheritingFunction.frame).table) = true := by
    cbv
  obtain ⟨e, he, hrun⟩ := (Option.any_eq_true _ _).mp hrun
  obtain ⟨span, typeName, body, parentNode, out, k, fields, inherited, types, scope, rfl, hend,
    hvalue, htest⟩ := exists_of_strictPasses hrun
  have hapart := hclaim {} 20 _ _ _ _ _ _ _ k _ out _ _ _ _ reachable_inheritingFunction.heap
    reachable_inheritingFunction.sound.hasFrame he hend hvalue
  simp only [Bool.and_eq_true, List.contains_iff_mem] at htest
  exact hapart _ htest.1 htest.2

end Evaluation

end CapsuleScript
