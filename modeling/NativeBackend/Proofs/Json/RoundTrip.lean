import Mathlib
import NativeBackend.Proofs.Json.Literals

/-!
# Reading what was written

The compact text of a value reads as that value, if every number in the value is an integer. A
number with a fraction or an exponent is kept as its text, which need not be the text of a number.

The reader's recursion is bounded by a count. The induction carries a bound for that count by
the characters that a value is written with, so the length of the text is always enough.
-/

namespace NativeBackend.Json

/-- A value in which every number is an integer. -/
inductive Value.Whole : Value → Prop
  | null : Whole .null
  | bool (b : Bool) : Whole (.bool b)
  | int (n : Int) : Whole (.int n)
  | str (s : Option String) : Whole (.str s)
  | arr {items : List Value} (h : ∀ v ∈ items, Whole v) : Whole (.arr items)
  | obj {members : List (Option String × Value)} (h : ∀ m ∈ members, Whole m.2) :
    Whole (.obj members)

section Lengths

mutual

private theorem length_le_writeValue (v : Value) (rest : List Char) :
    rest.length ≤ (writeValue v rest).length := by
  match v with
  | .null | .bool true | .bool false | .int _ | .decimal _ | .str _ | .arr [] | .obj [] =>
    simp [writeValue] <;> omega
  | .arr (v :: vs) =>
    have hv := length_le_writeValue v (writeItems vs (']' :: rest))
    have hvs := length_le_writeItems vs (']' :: rest)
    simp only [writeValue, List.length_cons] at hvs ⊢
    omega
  | .obj ((k, v) :: vs) =>
    have hv := length_le_writeValue v (writeMembers vs ('}' :: rest))
    have hvs := length_le_writeMembers vs ('}' :: rest)
    simp only [writeValue, List.length_cons, List.length_append] at hvs ⊢
    omega

private theorem length_le_writeItems (vs : List Value) (rest : List Char) :
    rest.length ≤ (writeItems vs rest).length := by
  match vs with
  | [] => exact le_rfl
  | v :: vs =>
    have hv := length_le_writeValue v (writeItems vs rest)
    have hvs := length_le_writeItems vs rest
    simp only [writeItems, List.length_cons]
    omega

private theorem length_le_writeMembers (vs : List (Option String × Value)) (rest : List Char) :
    rest.length ≤ (writeMembers vs rest).length := by
  match vs with
  | [] => exact le_rfl
  | (k, v) :: vs =>
    have hv := length_le_writeValue v (writeMembers vs rest)
    have hvs := length_le_writeMembers vs rest
    simp only [writeMembers, List.length_cons, List.length_append]
    omega

end

end Lengths

section Values

private theorem skipBlanks_cons {c : Char} (h : isBlank c = false) (cs : List Char) :
    skipBlanks (c :: cs) = c :: cs := by
  simp [skipBlanks, h]

private theorem isBlank_of_isNumeral {c : Char} (h : isNumeral c = true) : isBlank c = false := by
  simp only [isBlank, Bool.or_eq_false_iff, beq_eq_false_iff_ne]
  exact ⟨⟨⟨ne_of_isNumeral h rfl, ne_of_isNumeral h rfl⟩, ne_of_isNumeral h rfl⟩,
    ne_of_isNumeral h rfl⟩

private theorem Value.Whole.starts {v : Value} (h : v.Whole) (rest : List Char) :
    ∃ c cs, writeValue v rest = c :: cs ∧ isBlank c = false ∧ c ≠ ']' := by
  cases h with
  | null => exact ⟨_, _, rfl, by decide⟩
  | bool b => cases b <;> exact ⟨_, _, rfl, by decide⟩
  | int n =>
    obtain ⟨c, cs, hwritten, hc⟩ := exists_toString n
    exact ⟨c, cs ++ rest, by rw [writeValue, hwritten, List.cons_append], isBlank_of_isNumeral hc,
      ne_of_isNumeral hc rfl⟩
  | str s =>
    obtain ⟨cs, hwritten, -⟩ := readText?_writeString s rest
    exact ⟨_, _, hwritten, by decide⟩
  | @arr items =>
    cases items <;> exact ⟨_, _, rfl, by decide⟩
  | @obj members =>
    obtain _ | ⟨⟨k, v⟩, vs⟩ := members <;> exact ⟨_, _, rfl, by decide⟩

/-- A value reads back from what it is written with, whatever ends it, if the count is enough. -/
private def ReadsBack (v : Value) : Prop :=
  ∀ fuel rest, EndsValue rest → 2 * (writeValue v rest).length < 2 * rest.length + fuel →
    readValue? fuel (writeValue v rest) = some (v, rest)

-- The count is never used up before a value.
private theorem ReadsBack.of_succ {v : Value}
    (h : ∀ fuel rest, EndsValue rest → 2 * (writeValue v rest).length ≤ 2 * rest.length + fuel →
      readValue? (fuel + 1) (writeValue v rest) = some (v, rest)) : ReadsBack v := by
  rintro (_ | fuel) rest hends hfuel
  · have := length_le_writeValue v rest
    omega
  · exact h fuel rest hends (by omega)

private theorem readValue?_numeral {c : Char} (hc : isNumeral c = true) (fuel : Nat)
    (cs : List Char) : readValue? (fuel + 1) (c :: cs) = readNumber? (c :: cs) := by
  rw [readValue?, skipBlanks_cons (isBlank_of_isNumeral hc)]
  split
  case h_7 => rfl
  all_goals
    next heq =>
      obtain ⟨rfl, -⟩ := List.cons.inj heq
      cases hc

private theorem readsBack_int (n : Int) : ReadsBack (.int n) := by
  refine .of_succ fun fuel rest hends _ ↦ ?_
  obtain ⟨c, cs, hwritten, hc⟩ := exists_toString n
  have hread := readNumber?_toString hends n
  rw [hwritten] at hread
  rw [writeValue, hwritten]
  exact (readValue?_numeral hc fuel _).trans hread

private theorem readsBack_str (s : Option String) : ReadsBack (.str s) := by
  refine .of_succ fun fuel rest _ _ ↦ ?_
  obtain ⟨cs, hwritten, hread⟩ := readText?_writeString s rest
  rw [writeValue, hwritten, readValue?, skipBlanks_cons (by decide)]
  simp [hread]

section Lists

variable {v : Value} {k : Option String} {fuel : Nat} {rest : List Char}

private theorem readItems?_more (h : ReadsBack v)
    (hfuel : 2 * (writeValue v (',' :: rest)).length < 2 * (rest.length + 1) + fuel) :
    readItems? (fuel + 1) (writeValue v (',' :: rest)) =
      (readItems? fuel rest).map fun (vs, rest) ↦ (v :: vs, rest) := by
  simp [readItems?, h fuel (',' :: rest) (.inl rfl) hfuel, skipBlanks_cons, isBlank]

private theorem readItems?_last (h : ReadsBack v)
    (hfuel : 2 * (writeValue v (']' :: rest)).length < 2 * (rest.length + 1) + fuel) :
    readItems? (fuel + 1) (writeValue v (']' :: rest)) = some ([v], rest) := by
  simp [readItems?, h fuel (']' :: rest) (.inr (.inl rfl)) hfuel, skipBlanks_cons, isBlank]

private theorem readItems?_written {vs : List Value} (h : ∀ w ∈ v :: vs, ReadsBack w)
    (hfuel : 2 * (writeValue v (writeItems vs (']' :: rest))).length < 2 * rest.length + fuel) :
    readItems? fuel (writeValue v (writeItems vs (']' :: rest))) = some (v :: vs, rest) := by
  induction vs generalizing v fuel with
  | nil =>
    have hv := length_le_writeValue v (']' :: rest)
    simp only [writeItems, List.length_cons] at hfuel hv ⊢
    obtain ⟨fuel, rfl⟩ := Nat.exists_eq_add_one_of_ne_zero (n := fuel) (by omega)
    exact readItems?_last (h v List.mem_cons_self) (by omega)
  | cons w vs ih =>
    have hv := length_le_writeValue v (writeItems (w :: vs) (']' :: rest))
    have hw := length_le_writeValue w (writeItems vs (']' :: rest))
    have hvs := length_le_writeItems vs (']' :: rest)
    simp only [writeItems, List.length_cons] at hfuel hv hvs ⊢
    obtain ⟨fuel, rfl⟩ := Nat.exists_eq_add_one_of_ne_zero (n := fuel) (by omega)
    rw [readItems?_more (h v List.mem_cons_self) (by omega),
      ih (fun x hx ↦ h x (List.mem_cons_of_mem v hx)) (by omega), Option.map_some]

private theorem readMembers?_more (h : ReadsBack v)
    (hfuel : 2 * (writeValue v (',' :: rest)).length < 2 * (rest.length + 1) + fuel) :
    readMembers? (fuel + 1) (writeString k ++ ':' :: writeValue v (',' :: rest)) =
      (readMembers? fuel rest).map fun (ms, rest) ↦ ((k, v) :: ms, rest) := by
  obtain ⟨cs, hkey, hreadKey⟩ := readText?_writeString k (':' :: writeValue v (',' :: rest))
  rw [hkey]
  simp [readMembers?, hreadKey, h fuel (',' :: rest) (.inl rfl) hfuel, skipBlanks_cons, isBlank]

private theorem readMembers?_last (h : ReadsBack v)
    (hfuel : 2 * (writeValue v ('}' :: rest)).length < 2 * (rest.length + 1) + fuel) :
    readMembers? (fuel + 1) (writeString k ++ ':' :: writeValue v ('}' :: rest)) =
      some ([(k, v)], rest) := by
  obtain ⟨cs, hkey, hreadKey⟩ := readText?_writeString k (':' :: writeValue v ('}' :: rest))
  rw [hkey]
  simp [readMembers?, hreadKey, h fuel ('}' :: rest) (.inr (.inr rfl)) hfuel, skipBlanks_cons,
    isBlank]

private theorem readMembers?_written {ms : List (Option String × Value)} (h : ReadsBack v)
    (hs : ∀ m ∈ ms, ReadsBack m.2)
    (hfuel : 2 * (writeString k ++ ':' :: writeValue v (writeMembers ms ('}' :: rest))).length
      < 2 * rest.length + fuel) :
    readMembers? fuel (writeString k ++ ':' :: writeValue v (writeMembers ms ('}' :: rest))) =
      some ((k, v) :: ms, rest) := by
  induction ms generalizing k v fuel with
  | nil =>
    have hv := length_le_writeValue v ('}' :: rest)
    simp only [writeMembers, List.length_cons, List.length_append] at hfuel hv ⊢
    obtain ⟨fuel, rfl⟩ := Nat.exists_eq_add_one_of_ne_zero (n := fuel) (by omega)
    exact readMembers?_last h (by omega)
  | cons m ms ih =>
    obtain ⟨l, w⟩ := m
    have hv := length_le_writeValue v (writeMembers ((l, w) :: ms) ('}' :: rest))
    have hw := length_le_writeValue w (writeMembers ms ('}' :: rest))
    have hms := length_le_writeMembers ms ('}' :: rest)
    simp only [writeMembers, List.length_cons, List.length_append] at hfuel hv hms ⊢
    obtain ⟨fuel, rfl⟩ := Nat.exists_eq_add_one_of_ne_zero (n := fuel) (by omega)
    have hnext : ReadsBack w := hs _ List.mem_cons_self
    rw [readMembers?_more h (by rw [List.length_append, List.length_cons]; omega),
      ih hnext (fun x hx ↦ hs x (List.mem_cons_of_mem _ hx))
        (by rw [List.length_append, List.length_cons]; omega), Option.map_some]

end Lists

private theorem Value.Whole.readsBack {v : Value} (h : v.Whole) : ReadsBack v := by
  induction h with
  | null =>
    refine .of_succ fun fuel rest _ _ ↦ ?_
    simp [writeValue, readValue?, skipBlanks_cons, isBlank]
  | bool b =>
    refine .of_succ fun fuel rest _ _ ↦ ?_
    cases b <;> simp [writeValue, readValue?, skipBlanks_cons, isBlank]
  | int n => exact readsBack_int n
  | str s => exact readsBack_str s
  | @arr items hitems ih =>
    refine .of_succ fun fuel rest _ hfuel ↦ ?_
    cases items with
    | nil => simp [writeValue, readValue?, skipBlanks_cons, isBlank]
    | cons v vs =>
      obtain ⟨c, cs, hwritten, hblank, hc⟩ := (hitems v List.mem_cons_self).starts
        (writeItems vs (']' :: rest))
      rw [writeValue, List.length_cons] at hfuel
      have hread : readItems? fuel (writeValue v (writeItems vs (']' :: rest))) =
          some (v :: vs, rest) := readItems?_written ih (by omega)
      rw [hwritten] at hread
      rw [writeValue, hwritten, readValue?, skipBlanks_cons rfl]
      simp only [skipBlanks_cons hblank]
      split
      next hclose => exact absurd (List.cons.inj hclose).1 hc
      next => rw [hread, Option.map_some]
  | @obj members _ ih =>
    refine .of_succ fun fuel rest _ hfuel ↦ ?_
    match members with
    | [] => simp [writeValue, readValue?, skipBlanks_cons, isBlank]
    | (k, v) :: ms =>
      obtain ⟨cs, hwritten, -⟩ := readText?_writeString k
        (':' :: writeValue v (writeMembers ms ('}' :: rest)))
      rw [writeValue, List.length_cons] at hfuel
      have hv : ReadsBack v := ih _ List.mem_cons_self
      have hread : readMembers? fuel
          (writeString k ++ ':' :: writeValue v (writeMembers ms ('}' :: rest))) =
          some ((k, v) :: ms, rest) :=
        readMembers?_written hv (fun m hm ↦ ih m (List.mem_cons_of_mem _ hm)) (by omega)
      rw [hwritten] at hread
      rw [writeValue, hwritten, readValue?, skipBlanks_cons rfl]
      simp [skipBlanks_cons, isBlank, hread]

/-- The compact text of a value reads as that value. -/
theorem Value.Whole.read?_write {v : Value} (h : v.Whole) : read? v.write = some v := by
  have hread := h.readsBack (2 * (writeValue v []).length + 2) [] trivial (by
    rw [List.length_nil]
    omega)
  simp [read?, Value.write, hread, skipBlanks]

end Values

end NativeBackend.Json
