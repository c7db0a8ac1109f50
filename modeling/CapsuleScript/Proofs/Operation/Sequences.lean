import CapsuleScript.Operation.Binary
import CapsuleScript.Proofs.Number.Positions
import Mathlib

/-! The laws of the operators on texts and lists. Both are read and cut at positions that count from
either end, put one after the other, and texts are repeated. Positions are whole numbers that are
exact, whatever operand stands for them. -/

namespace CapsuleScript

/-! ### Repetition -/

theorem toList_repeatText (s : String) (n : Nat) :
    (repeatText s n).toList = (List.replicate n s.toList).flatten := by
  fun_induction repeatText s n with
  | case1 => rfl
  | case2 n hn half heven ih =>
      have htwice : n / 2 + n / 2 = n := by omega
      rw [String.toList_append, ih, ← List.flatten_append, ← List.replicate_add, htwice]
  | case3 n hn half hodd ih =>
      have htwice : n / 2 + n / 2 + 1 = n := by omega
      rw [String.toList_append, String.toList_append, ih, ← List.flatten_append,
        ← List.replicate_add, ← List.flatten_concat, ← List.replicate_succ', htwice]

theorem repeatText_add (s : String) (n m : Nat) :
    repeatText s (n + m) = repeatText s n ++ repeatText s m := by
  rw [← String.toList_inj, String.toList_append, toList_repeatText, toList_repeatText,
    toList_repeatText, List.replicate_add, List.flatten_append]

theorem repeatText_one (s : String) : repeatText s 1 = s := by
  rw [← String.toList_inj, toList_repeatText, List.replicate_one, List.flatten_singleton]

theorem utf8ByteSize_repeatText (s : String) (n : Nat) :
    (repeatText s n).utf8ByteSize = s.utf8ByteSize * n := by
  induction n with
  | zero =>
      rw [repeatText]
      rfl
  | succ n ih =>
      rw [repeatText_add, String.utf8ByteSize_append, ih, repeatText_one, Nat.mul_succ]

namespace Operation

open Number

variable {heap : Heap} {l m : List Value} {v w w' : Value} {s t : String} {x : Float} {i : Int}
  {j n : Nat}

/-- What succeeds under a condition and fails without it succeeds only under it. -/
theorem isOk_iff {ε α : Type} {r : Except ε α} {P : Prop} (hok : P → ∃ a, r = .ok a)
    (herror : ¬ P → ∃ e, r = .error e) : (∃ a, r = .ok a) ↔ P := by
  refine ⟨fun ⟨a, ha⟩ => ?_, hok⟩
  by_contra hnot
  obtain ⟨e, he⟩ := herror hnot
  rw [he] at ha
  cases ha

/-- All operators but `and` and `or` are for the left operand to tell. -/
theorem binary_eq_typed {op : BinaryOp} (hand : op ≠ .and) (hor : op ≠ .or)
    (left right : Stamped) : binary op left right = typed op left right := by
  cases op
  case and => exact absurd rfl hand
  case or => exact absurd rfl hor
  all_goals rfl

theorem binary_list {op : BinaryOp} {left right : Stamped} (hand : op ≠ .and) (hor : op ≠ .or)
    (hleft : left.value = .list l) (heap : Heap) :
    binary op left right heap = settle left right (list heap op l right.value) heap := by
  rw [binary_eq_typed hand hor, typed, hleft]
  rfl

theorem binary_text {op : BinaryOp} {left right : Stamped} (hand : op ≠ .and) (hor : op ≠ .or)
    (hleft : left.value = .text s) :
    binary op left right = settle left right (text op s right.value) := by
  rw [binary_eq_typed hand hor, typed, hleft]

/-! ### Positions in lists -/

/-- The position of an operand lies in the list. -/
theorem lt_of_listIndex (h : listIndex heap l w = .ok j) : j < l.length := by
  rw [listIndex] at h
  split at h
  · split at h
    · rename_i index hindex
      cases h
      rw [elementIndex?, Option.filter_eq_some_iff] at hindex
      exact of_decide_eq_true hindex.2
    · cases h
  · cases h

section

variable (hw : w.IsWhole i) (hi : i.natAbs < 2 ^ 53) (hl : l.length < 2 ^ 53)

include hw hi hl

theorem listIndex_of_mem (hlow : -l.length ≤ i) (hhigh : i < l.length) :
    listIndex heap l w = .ok (place i l.length).toNat := by
  obtain ⟨x, hnumber, hx⟩ := hw
  rw [listIndex, hnumber]
  simp only
  rw [elementIndex?_eq hx hi hl, if_pos ⟨hlow, hhigh⟩]

theorem listIndex_of_not_mem (heap : Heap) (hout : ¬ (-l.length ≤ i ∧ i < l.length)) :
    ∃ x, w.number? = some x ∧ listIndex heap l w =
      .error (.indexOutOfRange .list l.length (heap.render (.list l)) x) := by
  obtain ⟨x, hnumber, hx⟩ := hw
  refine ⟨x, hnumber, ?_⟩
  rw [listIndex, hnumber]
  simp only
  rw [elementIndex?_eq hx hi hl, if_neg hout]

theorem listIndex_isOk_iff :
    (∃ j, listIndex heap l w = .ok j) ↔ -l.length ≤ i ∧ i < l.length := by
  refine isOk_iff (fun hin => ⟨_, listIndex_of_mem hw hi hl hin.1 hin.2⟩) fun hout => ?_
  obtain ⟨x, -, herror⟩ := listIndex_of_not_mem hw hi hl heap hout
  exact ⟨_, herror⟩

end

/-- A position from the start is read in a list of any length. -/
theorem listIndex_natCast (hw : w.IsWhole j) (hj : j < 2 ^ 53) (hlt : j < l.length) :
    listIndex heap l w = .ok j := by
  obtain ⟨x, hnumber, hx⟩ := hw
  rw [listIndex, hnumber]
  simp only
  rw [elementIndex?_natCast hx hj, if_pos hlt]

/-! ### Reading and removing elements -/

theorem list_div_eq (heap : Heap) (l : List Value) (w : Value) :
    list heap .div l w = (listIndex heap l w).map fun j => l.getD j .null := rfl

theorem list_sub_eq (heap : Heap) (l : List Value) (w : Value) :
    list heap .sub l w = (listIndex heap l w).map fun j => .list (l.eraseIdx j) := rfl

theorem isOk_map_iff {ε α β : Type} {f : α → β} {r : Except ε α} :
    (∃ b, r.map f = .ok b) ↔ ∃ a, r = .ok a := by
  cases r with
  | error e => exact ⟨(fun ⟨_, h⟩ => nomatch h), fun ⟨_, h⟩ => nomatch h⟩
  | ok a => exact ⟨fun _ => ⟨a, rfl⟩, fun _ => ⟨f a, rfl⟩⟩

theorem list_div_natCast (hw : w.IsWhole j) (hj : j < 2 ^ 53) (hlt : j < l.length) :
    list heap .div l w = .ok l[j] := by
  rw [list_div_eq, listIndex_natCast hw hj hlt, Except.map, List.getD_eq_getElem _ _ hlt]

theorem list_sub_natCast (hw : w.IsWhole j) (hj : j < 2 ^ 53) (hlt : j < l.length) :
    list heap .sub l w = .ok (.list (l.take j ++ l.drop (j + 1))) := by
  rw [list_sub_eq, listIndex_natCast hw hj hlt, Except.map, List.eraseIdx_eq_take_drop_succ]

/-- The last element of a list is at the position minus one, if the length of the list is exact. -/
theorem listIndex_last (hl : l.length + 1 < 2 ^ 53) (hw : w.IsWhole (-1)) :
    listIndex heap (l ++ [v]) w = .ok l.length := by
  have hlength : (l ++ [v]).length = l.length + 1 := List.length_append
  have hplace : (place (-1) (l ++ [v]).length).toNat = l.length := by
    rw [place, if_pos (by decide), hlength]
    omega
  rw [listIndex_of_mem hw (by decide) (by omega) (by omega) (by omega), hplace]

theorem list_div_last (hl : l.length + 1 < 2 ^ 53) (hw : w.IsWhole (-1)) :
    list heap .div (l ++ [v]) w = .ok v := by
  have hin : l.length < (l ++ [v]).length := by simp
  rw [list_div_eq, listIndex_last hl hw, Except.map, List.getD_eq_getElem _ _ hin,
    List.getElem_concat_length rfl]

theorem list_sub_last (hl : l.length + 1 < 2 ^ 53) (hw : w.IsWhole (-1)) :
    list heap .sub (l ++ [v]) w = .ok (.list l) := by
  rw [list_sub_eq, listIndex_last hl hw, Except.map,
    List.eraseIdx_append_of_length_le (Nat.le_refl _), Nat.sub_self, List.eraseIdx_cons_zero,
    List.append_nil]

/-- A negative position is the one that many elements before the end. -/
theorem listIndex_of_neg (hw : w.IsWhole i) (hi : i.natAbs < 2 ^ 53) (hl : l.length < 2 ^ 53)
    (hlow : -l.length ≤ i) (hneg : i < 0) (hw' : w'.IsWhole (i + l.length)) :
    listIndex heap l w = listIndex heap l w' := by
  rw [listIndex_of_mem hw hi hl hlow (by omega),
    listIndex_of_mem hw' (by omega) hl (by omega) (by omega), place, place, if_pos hneg,
    if_neg (by omega)]

/-! ### Lists -/

/-- The operators on a list whose length is exact, and on whole numbers of that size. Reading and
removing succeed at the positions of the list and tell otherwise that there is none; negative
positions count from the end. What was appended is at the end, if there is room for one element
more. Of two lists one after the other each is read in its part, and joining lists is associative,
with the empty list as its unit. -/
theorem list_operators (heap : Heap) {l : List Value} (hl : l.length < 2 ^ 53) (m : List Value)
    (v : Value) {i : Int} (hi : i.natAbs < 2 ^ 53) {w : Value} (hw : w.IsWhole i) :
    (Value.number (Float.ofInt i)).IsWhole i ∧
    (∀ (op : BinaryOp) (left right : Stamped), op ≠ .and → op ≠ .or → left.value = .list l →
      binary op left right heap = settle left right (list heap op l right.value) heap) ∧
    ((∃ u, list heap .div l w = .ok u) ↔ -l.length ≤ i ∧ i < l.length) ∧
    ((∃ u, list heap .sub l w = .ok u) ↔ -l.length ≤ i ∧ i < l.length) ∧
    (¬ (-l.length ≤ i ∧ i < l.length) → ∃ kind, (∃ x, w.number? = some x ∧
        kind = .indexOutOfRange .list l.length (heap.render (.list l)) x) ∧
      list heap .div l w = .error kind ∧ list heap .sub l w = .error kind) ∧
    (-l.length ≤ i → i < 0 → ∀ w' : Value, w'.IsWhole (i + l.length) →
      list heap .div l w = list heap .div l w' ∧ list heap .sub l w = list heap .sub l w') ∧
    (∀ (hnonneg : 0 ≤ i) (hlt : i < l.length), list heap .div l w = .ok l[i.toNat] ∧
      list heap .sub l w = .ok (.list (l.take i.toNat ++ l.drop (i.toNat + 1)))) ∧
    (∀ u j, listIndex heap l u = .ok j → j < l.length) ∧
    (l.length + 1 < 2 ^ 53 → ∀ u : Value, u.IsWhole (-1) → ∃ s, list heap .add l v = .ok (.list s) ∧
      list heap .div s u = .ok v ∧ list heap .sub s u = .ok (.list l)) ∧
    (∃ s, list heap .mul l (.list m) = .ok (.list s) ∧
      (0 ≤ i → i < l.length → ∃ u, list heap .div s w = .ok u ∧ list heap .div l w = .ok u) ∧
      (l.length ≤ i → i < l.length + m.length → ∀ w' : Value, w'.IsWhole (i - l.length) →
        ∃ u, list heap .div s w = .ok u ∧ list heap .div m w' = .ok u)) ∧
    (∀ a b c : List Value, ∃ ab bc abc, list heap .mul a (.list b) = .ok (.list ab) ∧
      list heap .mul b (.list c) = .ok (.list bc) ∧ list heap .mul ab (.list c) = .ok (.list abc) ∧
      list heap .mul a (.list bc) = .ok (.list abc)) ∧
    list heap .mul l (.list []) = .ok (.list l) ∧ list heap .mul [] (.list l) = .ok (.list l) := by
  refine ⟨Value.isWhole_ofInt hi, fun op left right hand hor hleft =>
    binary_list hand hor hleft heap, ?_, ?_, fun hout => ?_, fun hlow hneg w' hw' => ?_,
    fun hnonneg hlt => ?_, fun u j => lt_of_listIndex,
    fun hroom u hu => ⟨_, rfl, list_div_last hroom hu, list_sub_last hroom hu⟩,
    ⟨_, rfl, fun hnonneg hlt => ?_, fun hlow hhigh w' hw' => ?_⟩, fun a b c => ?_, ?_, rfl⟩
  · rw [list_div_eq, isOk_map_iff]
    exact listIndex_isOk_iff hw hi hl
  · rw [list_sub_eq, isOk_map_iff]
    exact listIndex_isOk_iff hw hi hl
  · obtain ⟨x, hnumber, herror⟩ := listIndex_of_not_mem hw hi hl heap hout
    refine ⟨_, ⟨x, hnumber, rfl⟩, ?_, ?_⟩
    · rw [list_div_eq, herror, Except.map]
    · rw [list_sub_eq, herror, Except.map]
  · rw [list_div_eq, list_div_eq, list_sub_eq, list_sub_eq, listIndex_of_neg hw hi hl hlow hneg hw']
    exact ⟨rfl, rfl⟩
  · obtain ⟨j, rfl⟩ := Int.eq_ofNat_of_zero_le hnonneg
    exact ⟨list_div_natCast hw hi (by omega), list_sub_natCast hw hi (by omega)⟩
  · obtain ⟨j, rfl⟩ := Int.eq_ofNat_of_zero_le hnonneg
    have hj : j < l.length := by omega
    refine ⟨l[j], ?_, list_div_natCast hw hi hj⟩
    rw [list_div_natCast hw hi (List.length_append ▸ Nat.lt_add_right _ hj),
      List.getElem_append_left hj]
  · obtain ⟨j, rfl⟩ : ∃ j : Nat, i = l.length + j := ⟨(i - l.length).toNat, by omega⟩
    have hj : j < m.length := by omega
    rw [add_sub_cancel_left] at hw'
    refine ⟨m[j], ?_, list_div_natCast hw' (by omega) hj⟩
    have hin : l.length + j < (l ++ m).length := by
      rw [List.length_append]
      omega
    rw [list_div_natCast (j := l.length + j) (by exact_mod_cast hw) (by omega) hin,
      List.getElem_append_right (by omega)]
    simp
  · exact ⟨_, _, _, rfl, rfl, rfl, congrArg (fun r => Except.ok (Value.list r))
      (List.append_assoc a b c).symm⟩
  · exact congrArg (fun r => Except.ok (Value.list r)) (List.append_nil l)

/-- The last element of three, and an element of two lists one after the other. -/
theorem list_operators_three : ∃ (heap : Heap) (l : List Value) (w : Value) (right : Stamped),
    l.length < 2 ^ 53 ∧ w.IsWhole (-1) ∧ right.value = w ∧
    list heap .div l w = .ok (.text "c") ∧ (∃ u, list heap .sub l w = .ok u) ∧
    binary .div (.of (.list l) ⟨"", .origin, .origin⟩ ⟨0⟩) right heap = .done (.text "c") heap ∧
    list heap .div (l ++ [.null]) (.number (Float.ofInt 2)) = .ok (.text "c") := by
  let l : List Value := [.text "a", .text "b", .text "c"]
  let w : Value := .number (Float.ofInt (-1))
  have hw : w.IsWhole (-1) := Value.isWhole_ofInt (by decide)
  have htwo : (Value.number (Float.ofInt 2)).IsWhole 2 := Value.isWhole_ofInt (by decide)
  obtain ⟨-, hbinary, -, hsub, -, hneg, -⟩ :=
    list_operators {} (l := l) (by decide) [] .null (i := -1) (by decide) hw
  obtain ⟨-, -, -, -, -, -, hread, -, -, ⟨s, hs, hleft, -⟩, -⟩ :=
    list_operators {} (l := l) (by decide) [.null] .null (i := 2) (by decide) htwo
  have hthird : list {} .div l (.number (Float.ofInt 2)) = .ok (.text "c") :=
    (hread (by decide) (by decide)).1
  have hdiv : list {} .div l w = .ok (.text "c") :=
    (hneg (by decide) (by decide) _ htwo).1.trans hthird
  refine ⟨{}, l, w, .of w ⟨"", .origin, .origin⟩ ⟨0⟩, by decide, hw, rfl, hdiv,
    hsub.mpr (by decide), ?_, ?_⟩
  · rw [hbinary _ _ _ (by decide) (by decide) rfl]
    show settle _ _ (list {} .div l w) {} = _
    rw [hdiv]
    rfl
  · obtain ⟨u, hu, hl⟩ := hleft (by decide) (by decide)
    cases hs
    rw [hu, ← hl, hthird]

/-- A list of the largest exact length has no room: an element put at its end is not the one that
is read there. -/
theorem list_div_last_of_long : (List.replicate maxExact Value.null).length < 2 ^ 53 ∧
    (Value.number (Float.ofInt (-1))).IsWhole (-1) ∧
    list {} .add (List.replicate maxExact Value.null) (.bool true) =
      .ok (.list (List.replicate maxExact Value.null ++ [Value.bool true])) ∧
    list {} .div (List.replicate maxExact Value.null ++ [Value.bool true])
      (.number (Float.ofInt (-1))) ≠ .ok (.bool true) := by
  have hlength : (List.replicate maxExact Value.null).length = maxExact := List.length_replicate
  have hwhole : (Value.number (Float.ofInt (-1))).IsWhole (-1) := Value.isWhole_ofInt (by decide)
  refine ⟨?_, hwhole, rfl, fun hread => ?_⟩
  · rw [hlength]
    decide
  · -- What is read is the element before it.
    obtain ⟨x, hnumber, hx⟩ := hwhole
    have hindex : listIndex {} (List.replicate maxExact Value.null ++ [Value.bool true])
        (.number (Float.ofInt (-1))) = .ok (-1 + (maxExact : Int)).toNat := by
      rw [listIndex, hnumber]
      simp only
      rw [elementIndex?_of_le hx (by decide) (by decide) (by simp)]
    have hbefore : (-1 + (maxExact : Int)).toNat < (List.replicate maxExact Value.null).length := by
      rw [hlength]
      decide
    rw [list_div_eq, hindex, Except.map, List.getD_append _ _ _ _ hbefore,
      List.getD_eq_getElem _ _ hbefore, List.getElem_replicate] at hread
    cases hread

/-! ### Positions in texts -/

/-- A text and an operand that counts as a number. -/
theorem text_eq_of_number (hw : w.number? = some x) (op : BinaryOp) (s : String) :
    text op s w = onTextAndNumber op s x := by
  cases w with
  | text t => cases hw
  | _ => simp only [text, hw]

section

variable (hw : w.IsWhole i) (hi : i.natAbs < 2 ^ 53) (hs : s.length < 2 ^ 53)

include hw hi hs

theorem text_div_of_mem (hlow : -s.length ≤ i) (hhigh : i < s.length) :
    ∃ c, s.toList[(place i s.length).toNat]? = some c ∧
      text .div s w = .ok (.text (String.singleton c)) := by
  obtain ⟨x, hnumber, hx⟩ := hw
  have hlt : (place i s.length).toNat < s.toList.length := by
    rw [String.length_toList, place]
    split <;> omega
  refine ⟨s.toList[(place i s.length).toNat], List.getElem?_eq_getElem hlt, ?_⟩
  have hchar : ((s.drop (place i s.length).toNat).take 1).copy =
      String.singleton s.toList[(place i s.length).toNat] := by
    rw [← String.toList_inj, String.Slice.toList_copy_take, String.toList_copy_drop,
      String.toList_singleton, List.drop_eq_getElem_cons hlt]
    rfl
  rw [text_eq_of_number hnumber, ← hchar]
  simp only [onTextAndNumber, elementIndex?_eq hx hi hs, hlow, hhigh, and_self, if_true]

theorem text_div_of_not_mem (hout : ¬ (-s.length ≤ i ∧ i < s.length)) :
    ∃ x, w.number? = some x ∧ text .div s w = .error (.indexOutOfRange .text s.length s x) := by
  obtain ⟨x, hnumber, hx⟩ := hw
  refine ⟨x, hnumber, ?_⟩
  rw [text_eq_of_number hnumber]
  simp only [onTextAndNumber, elementIndex?_eq hx hi hs, hout, if_false]

theorem text_div_isOk_iff :
    (∃ u, text .div s w = .ok u) ↔ -s.length ≤ i ∧ i < s.length := by
  refine isOk_iff (fun hin => ?_) fun hout => ?_
  · obtain ⟨char, -, hread⟩ := text_div_of_mem hw hi hs hin.1 hin.2
    exact ⟨_, hread⟩
  · obtain ⟨x, -, herror⟩ := text_div_of_not_mem hw hi hs hout
    exact ⟨_, herror⟩

theorem text_sub_of_mem (hlow : -s.length ≤ i) (hhigh : i ≤ s.length) :
    text .sub s w = .ok (.text (s.drop (place i s.length).toNat).copy) := by
  obtain ⟨x, hnumber, hx⟩ := hw
  rw [text_eq_of_number hnumber]
  simp only [onTextAndNumber, splitOffset?_eq hx hi hs, hlow, hhigh, and_self, if_true]

theorem text_sub_of_not_mem (hout : ¬ (-s.length ≤ i ∧ i ≤ s.length)) :
    ∃ x, w.number? = some x ∧ text .sub s w = .error (.indexOutOfRange .text s.length s x) := by
  obtain ⟨x, hnumber, hx⟩ := hw
  refine ⟨x, hnumber, ?_⟩
  rw [text_eq_of_number hnumber]
  simp only [onTextAndNumber, splitOffset?_eq hx hi hs, hout, if_false]

theorem text_sub_isOk_iff :
    (∃ u, text .sub s w = .ok u) ↔ -s.length ≤ i ∧ i ≤ s.length := by
  refine isOk_iff (fun hin => ⟨_, text_sub_of_mem hw hi hs hin.1 hin.2⟩) fun hout => ?_
  obtain ⟨x, -, herror⟩ := text_sub_of_not_mem hw hi hs hout
  exact ⟨_, herror⟩

end

/-- Taking the head off a text leaves the characters after it. -/
theorem text_sub_natCast (hw : w.IsWhole n) (hs : s.length < 2 ^ 53) (hn : n ≤ s.length) :
    text .sub s w = .ok (.text (s.drop n).copy) := by
  have hplace : (place n s.length).toNat = n := by
    rw [place]
    split <;> omega
  rw [text_sub_of_mem hw (by omega) hs (by omega) (by omega), hplace]

theorem drop_append_length (s t : String) : ((s ++ t).drop s.length).copy = t := by
  rw [← String.toList_inj, String.toList_copy_drop, String.toList_append, ← String.length_toList,
    List.drop_left]

theorem drop_drop (s : String) (n m : Nat) :
    ((s.drop n).copy.drop m).copy = (s.drop (n + m)).copy := by
  rw [← String.toList_inj, String.toList_copy_drop, String.toList_copy_drop,
    String.toList_copy_drop, List.drop_drop]

theorem length_drop (s : String) (n : Nat) : (s.drop n).copy.length = s.length - n := by
  rw [← String.length_toList, String.toList_copy_drop, List.length_drop, String.length_toList]

/-! ### Repeating texts -/

section

variable (hw : w.IsWhole n) (hn : n < 2 ^ 53)

include hw hn

theorem text_mul_of_le (hsize : s.utf8ByteSize * n ≤ maxRepeatedBytes) :
    text .mul s w = .ok (.text (repeatText s n)) := by
  obtain ⟨x, hnumber, hx⟩ := hw
  rw [text_eq_of_number hnumber]
  simp only [onTextAndNumber, repeatCount?_natCast hx hn, repeatedLength?, hsize, if_true,
    Option.isSome_some]

theorem text_mul_of_lt (hsize : maxRepeatedBytes < s.utf8ByteSize * n) :
    text .mul s w = .error (.textTooLong s.utf8ByteSize n) := by
  obtain ⟨x, hnumber, hx⟩ := hw
  rw [text_eq_of_number hnumber]
  simp only [onTextAndNumber, repeatCount?_natCast hx hn, repeatedLength?, Nat.not_le.mpr hsize,
    if_false, Option.isSome_none, Bool.false_eq_true]

end

/-! ### Texts -/

/-- The operators on texts whose lengths are exact, and on whole numbers of that size. Reading
succeeds at the characters of the text and gives the one there; taking off a head succeeds at the
end as well, and heads are taken off one after the other as at once. What was put after a text is
left when the text is taken off. A text is repeated if the bytes of the result are within the limit,
and then it has so many bytes; repeating in two parts is repeating at once. -/
theorem text_operators {s t : String} (hlength : s.length + t.length < 2 ^ 53) {i : Int}
    (hi : i.natAbs < 2 ^ 53) {w : Value} (hw : w.IsWhole i) {n m : Nat} (hnm : n + m < 2 ^ 53)
    {a b c : Value} (ha : a.IsWhole n) (hb : b.IsWhole m) (hc : c.IsWhole (n + m : Nat)) :
    (Value.number (Float.ofInt i)).IsWhole i ∧
    (∀ (op : BinaryOp) (left right : Stamped), op ≠ .and → op ≠ .or → left.value = .text s →
      binary op left right = settle left right (text op s right.value)) ∧
    ((∃ u, text .div s w = .ok u) ↔ -s.length ≤ i ∧ i < s.length) ∧
    (∀ u, text .div s w = .ok u → ∃ char,
      s.toList[(if i < 0 then i + s.length else i).toNat]? = some char ∧
      u = .text (String.singleton char)) ∧
    ((∃ u, text .sub s w = .ok u) ↔ -s.length ≤ i ∧ i ≤ s.length) ∧
    (∀ d, d.IsWhole s.length → ∃ st, text .add s (.text t) = .ok (.text st) ∧
      text .sub st d = .ok (.text t)) ∧
    (n + m ≤ s.length → ∃ r u, text .sub s a = .ok (.text r) ∧ text .sub r b = .ok u ∧
      text .sub s c = .ok u) ∧
    (text .mul s a = .error (.textTooLong s.utf8ByteSize n) ↔ 2 ^ 27 < s.utf8ByteSize * n) ∧
    (s.utf8ByteSize * n ≤ 2 ^ 27 → ∃ r, text .mul s a = .ok (.text r) ∧
      r.utf8ByteSize = s.utf8ByteSize * n) ∧
    ∀ u, text .mul s c = .ok u → ∃ p q, text .mul s a = .ok (.text p) ∧
      text .mul s b = .ok (.text q) ∧ text .add p (.text q) = .ok u := by
  have hs : s.length < 2 ^ 53 := by omega
  refine ⟨Value.isWhole_ofInt hi, fun op left right hand hor hleft => binary_text hand hor hleft,
    text_div_isOk_iff hw hi hs, fun u hu => ?_, text_sub_isOk_iff hw hi hs,
    fun d hd => ⟨_, rfl, ?_⟩, fun hle => ?_, ?_, fun hsize => ?_, fun u hu => ?_⟩
  · obtain ⟨hlow, hhigh⟩ := (text_div_isOk_iff hw hi hs).mp ⟨u, hu⟩
    obtain ⟨char, hchar, hread⟩ := text_div_of_mem hw hi hs hlow hhigh
    rw [hread] at hu
    cases hu
    exact ⟨char, hchar, rfl⟩
  · have hboth : (s ++ t).length = s.length + t.length := String.length_append s t
    rw [text_sub_natCast hd (by omega) (by omega), drop_append_length]
  · have hrest := length_drop s n
    refine ⟨_, _, text_sub_natCast ha hs (by omega), text_sub_natCast hb (by omega) (by omega), ?_⟩
    rw [drop_drop]
    exact text_sub_natCast hc hs hle
  · constructor
    · intro herror
      by_contra hsize
      rw [text_mul_of_le ha (by omega) (Nat.not_lt.mp hsize)] at herror
      cases herror
    · exact text_mul_of_lt ha (by omega)
  · exact ⟨_, text_mul_of_le ha (by omega) hsize, utf8ByteSize_repeatText s n⟩
  · have hsize : s.utf8ByteSize * (n + m) ≤ maxRepeatedBytes := by
      by_contra hsize
      rw [text_mul_of_lt hc hnm (Nat.not_le.mp hsize)] at hu
      cases hu
    rw [text_mul_of_le hc hnm hsize] at hu
    cases hu
    rw [Nat.mul_add] at hsize
    refine ⟨_, _, text_mul_of_le ha (by omega) (by omega),
      text_mul_of_le hb (by omega) (by omega), ?_⟩
    rw [repeatText_add]
    rfl

/-- A text of two characters and three bytes: its last character, a text put after it and left when
it is taken off, its head taken off twice, one repetition, and too many of them. -/
theorem text_operators_two : ∃ (s t : String) (w a b c : Value) (n m : Nat),
    s.length + t.length < 2 ^ 53 ∧ w.IsWhole (-1) ∧ n + m < 2 ^ 53 ∧ a.IsWhole n ∧ b.IsWhole m ∧
    c.IsWhole (n + m : Nat) ∧ text .div s w = .ok (.text "é") ∧ (∃ u, text .sub s w = .ok u) ∧
    (∃ d st, d.IsWhole s.length ∧ text .add s (.text t) = .ok (.text st) ∧
      text .sub st d = .ok (.text t)) ∧
    (∃ r u, text .sub s a = .ok (.text r) ∧ text .sub r b = .ok u ∧ text .sub s c = .ok u) ∧
    (∃ r, text .mul s a = .ok (.text r) ∧ r.utf8ByteSize = 3) ∧
    ∃ d, text .mul s d = .error (.textTooLong 3 (2 ^ 52)) := by
  have hwhole {i : Int} (hi : i.natAbs < 2 ^ 53) := Value.isWhole_ofInt hi
  obtain ⟨-, -, hdiv, hchar, hsub, hafter, htwice, -, hrepeat, -⟩ :=
    text_operators (s := "né") (t := "x") (by decide) (i := -1) (by decide)
      (hwhole (by decide)) (n := 1) (m := 1) (by decide) (hwhole (by decide)) (hwhole (by decide))
      (hwhole (by decide))
  obtain ⟨-, -, -, -, -, -, -, hlong, -⟩ :=
    text_operators (s := "né") (t := "x") (by decide) (i := -1) (by decide)
      (hwhole (by decide)) (n := 2 ^ 52) (m := 0) (by decide) (hwhole (by decide))
      (hwhole (by decide)) (hwhole (by decide))
  obtain ⟨st, hadd, hleft⟩ := hafter _ (hwhole (by decide))
  obtain ⟨u, hread⟩ := hdiv.mpr (by decide)
  obtain ⟨char, hchar, rfl⟩ := hchar u hread
  have hlast : some 'é' = some char := hchar
  cases hlast
  exact ⟨"né", "x", _, _, _, _, 1, 1, by decide, hwhole (by decide), by decide,
    hwhole (by decide), hwhole (by decide), hwhole (by decide), hread, hsub.mpr (by decide),
    ⟨_, st, hwhole (by decide), hadd, hleft⟩, htwice (by decide), hrepeat (by decide),
    ⟨_, hlong.mpr (by decide)⟩⟩

end Operation

end CapsuleScript
