import Mathlib
import NativeBackend.Proofs.Json.RoundTrip

/-!
# The nesting of a text

How deep the arrays and objects of a text nest is read off its characters: it is the greatest count
of brackets and braces that are open at once, where those inside a string literal do not
count. A value is written with exactly its depth.
-/

namespace NativeBackend.Json

/-- Where the next character of a text stands: outside of string literals, inside of one, or inside
of one right after a backslash. -/
inductive Place
  | outside
  | inside
  | escaped
  deriving DecidableEq, Repr

/-- Where the character after another stands. -/
def Place.next : Place → Char → Place
  | outside, c => if c = '"' then inside else outside
  | inside, c => if c = '"' then outside else if c = '\\' then escaped else inside
  | escaped, _ => inside

/-- The count of open brackets and braces after a character. -/
def openAfter (place : Place) (count : Nat) (c : Char) : Nat :=
  if place = .outside then
    if c = '[' ∨ c = '{' then count + 1
    else if c = ']' ∨ c = '}' then count - 1
    else count
  else count

/-- The greatest count of open brackets and braces along a text. -/
def deepest (place : Place) (count : Nat) : List Char → Nat
  | [] => count
  | c :: cs => max count (deepest (place.next c) (openAfter place count c) cs)

/-- How deep the arrays and objects of a text nest. -/
def textNesting (text : String) : Nat := deepest .outside 0 text.toList

section Scanning

variable {place : Place} {n : Nat} {c : Char} {cs rest : List Char}

private theorem le_deepest : n ≤ deepest place n cs := by
  cases cs with
  | nil => exact le_rfl
  | cons c cs => exact le_max_left _ _

private theorem deepest_cons (hplace : place.next c = place) (hcount : openAfter place n c = n) :
    deepest place n (c :: cs) = deepest place n cs := by
  rw [deepest, hplace, hcount, max_eq_right le_deepest]

private theorem deepest_append (h : ∀ c ∈ cs, place.next c = place ∧ openAfter place n c = n) :
    deepest place n (cs ++ rest) = deepest place n rest := by
  induction cs with
  | nil => rfl
  | cons c cs ih =>
    obtain ⟨hplace, hcount⟩ := h c List.mem_cons_self
    rw [List.cons_append, deepest_cons hplace hcount,
      ih fun d hd ↦ h d (List.mem_cons_of_mem c hd)]

private theorem deepest_open (h : c = '[' ∨ c = '{') :
    deepest .outside n (c :: cs) = deepest .outside (n + 1) cs := by
  have hdeep : n + 1 ≤ deepest .outside (n + 1) cs := le_deepest
  have hplace : Place.outside.next c = .outside := by rcases h with rfl | rfl <;> rfl
  rw [deepest, hplace, openAfter, if_pos rfl, if_pos h]
  omega

private theorem deepest_close (h : c = ']' ∨ c = '}') :
    deepest .outside (n + 1) (c :: cs) = max (n + 1) (deepest .outside n cs) := by
  rcases h with rfl | rfl <;> rfl

-- A backslash hides the character after it.
private theorem deepest_backslash :
    deepest .inside n ('\\' :: c :: cs) = deepest .inside n cs := by
  show max n (max n (deepest .inside n cs)) = _
  rw [max_eq_right le_deepest, max_eq_right le_deepest]

private theorem deepest_outside (cs : List Char) (h : ∀ c ∈ cs, c ∉ ['"', '[', '{', ']', '}']) :
    deepest .outside n (cs ++ rest) = deepest .outside n rest := by
  refine deepest_append fun c hc ↦ ?_
  have hplain := h c hc
  simp only [List.mem_cons, List.not_mem_nil, or_false, not_or] at hplain
  simp [Place.next, openAfter, hplain]

private theorem deepest_inside (h : ∀ c ∈ cs, c ≠ '"' ∧ c ≠ '\\') :
    deepest .inside n (cs ++ rest) = deepest .inside n rest :=
  deepest_append fun c hc ↦ ⟨by simp [Place.next, h c hc], rfl⟩

private theorem padded_plain : ∀ n < 0x20,
    (Hex.padded 4 n).toList.all (fun c ↦ c != '"' && c != '\\') = true := by
  decide

private theorem deepest_escape (c : Char) :
    deepest .inside n (escape c ++ rest) = deepest .inside n rest := by
  unfold escape
  split_ifs with hquote hslash _ _ _ _ _ hcontrol
  -- The first seven escapes are a backslash and one character.
  iterate 7 exact deepest_backslash
  · exact deepest_backslash.trans (deepest_inside (by simpa using padded_plain c.toNat hcontrol))
  · exact deepest_inside (by simpa using ⟨mt beq_iff_eq.mpr hquote, mt beq_iff_eq.mpr hslash⟩)

private theorem deepest_writeString (s : Option String) :
    deepest .outside n (writeString s ++ rest) = deepest .outside n rest := by
  have hopen {cs : List Char} : deepest .outside n ('"' :: cs) = deepest .inside n cs :=
    max_eq_right le_deepest
  have hclose : deepest .inside n ('"' :: rest) = deepest .outside n rest :=
    max_eq_right le_deepest
  cases s with
  | none =>
    rw [writeString_none_append, hopen, deepest_backslash, deepest_inside (by simp), hclose]
  | some s =>
    have hinside (cs : List Char) : deepest .inside n (cs.flatMap escape ++ '"' :: rest) =
        deepest .inside n ('"' :: rest) := by
      induction cs with
      | nil => rfl
      | cons c cs ih => rw [List.flatMap_cons, List.append_assoc, deepest_escape, ih]
    rw [writeString_some_append, hopen, hinside, hclose]

private theorem deepest_toString (z : Int) :
    deepest .outside n ((toString z).toList ++ rest) = deepest .outside n rest := by
  refine deepest_outside _ fun c hc hmem ↦ ?_
  have hplain : ∀ d ∈ ['"', '[', '{', ']', '}'], isNumeral d = false := by simp [isNumeral, isDigit]
  exact ne_of_isNumeral (isNumeral_of_mem_toString hc) (hplain c hmem) rfl

end Scanning

section Values

/-- What a value is written with nests as deep as the value. -/
private def NestsBy (v : Value) : Prop :=
  ∀ n rest, deepest .outside n (writeValue v rest) =
    max (n + v.depth) (deepest .outside n rest)

private theorem deepest_writeItems {vs : List Value} (h : ∀ v ∈ vs, NestsBy v) (n : Nat)
    (rest : List Char) : deepest .outside n (writeItems vs rest) =
      max (n + Value.depthOfItems vs) (deepest .outside n rest) := by
  induction vs with
  | nil => exact (max_eq_right le_deepest).symm
  | cons v vs ih =>
    rw [writeItems, deepest_cons rfl rfl, h v List.mem_cons_self,
      ih fun w hw ↦ h w (List.mem_cons_of_mem v hw), Value.depthOfItems]
    omega

private theorem deepest_writeMembers {ms : List (Option String × Value)}
    (h : ∀ m ∈ ms, NestsBy m.2) (n : Nat) (rest : List Char) :
    deepest .outside n (writeMembers ms rest) =
      max (n + Value.depthOfMembers ms) (deepest .outside n rest) := by
  induction ms with
  | nil => exact (max_eq_right le_deepest).symm
  | cons m ms ih =>
    obtain ⟨k, v⟩ := m
    have hv : NestsBy v := h _ List.mem_cons_self
    rw [writeMembers, deepest_cons rfl rfl, deepest_writeString, deepest_cons rfl rfl, hv,
      ih fun w hw ↦ h w (List.mem_cons_of_mem _ hw), Value.depthOfMembers]
    omega

private theorem NestsBy.of_flat {v : Value} (hdepth : v.depth = 0)
    (h : ∀ n rest, deepest .outside n (writeValue v rest) = deepest .outside n rest) :
    NestsBy v := by
  intro n rest
  rw [h, hdepth, Nat.add_zero, max_eq_right le_deepest]

private theorem Value.Whole.nestsBy {v : Value} (h : v.Whole) : NestsBy v := by
  induction h with
  | null => exact .of_flat rfl fun n rest ↦ deepest_outside ['n', 'u', 'l', 'l'] (by simp)
  | bool b =>
    cases b with
    | false => exact .of_flat rfl fun n rest ↦ deepest_outside ['f', 'a', 'l', 's', 'e'] (by simp)
    | true => exact .of_flat rfl fun n rest ↦ deepest_outside ['t', 'r', 'u', 'e'] (by simp)
  | int z => exact .of_flat rfl fun n rest ↦ deepest_toString z
  | str s => exact .of_flat rfl fun n rest ↦ deepest_writeString s
  | @arr items _ ih =>
    intro n rest
    cases items with
    | nil =>
      rw [writeValue, deepest_open (.inl rfl), deepest_close (.inl rfl), Value.depth,
        Value.depthOfItems]
    | cons v vs =>
      rw [writeValue, deepest_open (.inl rfl), ih v List.mem_cons_self,
        deepest_writeItems fun w hw ↦ ih w (List.mem_cons_of_mem v hw), deepest_close (.inl rfl),
        Value.depth, Value.depthOfItems]
      omega
  | @obj members _ ih =>
    intro n rest
    match members with
    | [] =>
      rw [writeValue, deepest_open (.inr rfl), deepest_close (.inr rfl), Value.depth,
        Value.depthOfMembers]
    | (k, v) :: ms =>
      have hv : NestsBy v := ih _ List.mem_cons_self
      rw [writeValue, deepest_open (.inr rfl), deepest_writeString, deepest_cons rfl rfl, hv,
        deepest_writeMembers fun m hm ↦ ih m (List.mem_cons_of_mem _ hm), deepest_close (.inr rfl),
        Value.depth, Value.depthOfMembers]
      omega

/-- The text of a value nests as deep as the value. -/
theorem Value.Whole.textNesting_write {v : Value} (h : v.Whole) :
    textNesting v.write = v.depth := by
  have hdeep := h.nestsBy 0 []
  simpa [textNesting, Value.write, deepest] using hdeep

example : textNesting "[\"][\\\"[\",[[]]]" = 3 := by decide

end Values

end NativeBackend.Json
