import Mathlib
import NativeBackend.Json.Reader
import NativeBackend.Json.Writer

/-!
# Written literals

A string literal that is written denotes the text it was written for, whatever characters
that holds. A number that is written names the integer it was written for, if what comes
after it does not go on with the number.
-/

namespace NativeBackend.Json

section Strings

/-- The part of a literal that a written character becomes. -/
def pieceOf (c : Char) : Piece :=
  if c.toNat < 0x20 ∧ c.toNat ∉ [8, 9, 10, 12, 13] then .unit c.toNat else .char c

private theorem hexUnit?_padded : ∀ n < 0x20,
    (match Hex.padded 4 n |>.toList with
      | [a, b, c, d] => hexUnit? a b c d
      | _ => none) = some n := by
  decide

private theorem eq_ofNat {c : Char} {n : Nat} (h : (c.toNat == n) = true) : c = Char.ofNat n := by
  rw [← beq_iff_eq.mp h, Char.ofNat_toNat]

private theorem toNat_ne {c d : Char} (h : ¬(c == d) = true) : c.toNat ≠ d.toNat := by
  intro hsame
  rw [← Char.ofNat_toNat c, hsame, Char.ofNat_toNat] at h
  exact h (beq_self_eq_true d)

private theorem readPieces?_cons {c : Char} (hquote : c ≠ '"') (hslash : c ≠ '\\')
    (hcontrol : ¬c.toNat < 0x20) (done : List Piece) (rest : List Char) :
    readPieces? done (c :: rest) = readPieces? (.char c :: done) rest := by
  rw [readPieces?.eq_def]
  split
  · next heq => cases heq
  · next heq =>
    cases heq
    exact absurd rfl hquote
  · next heq =>
    cases heq
    exact absurd rfl hslash
  · next heq =>
    cases heq
    exact absurd rfl hslash
  · next heq =>
    cases heq
    rw [if_neg hcontrol]

private theorem readPieces?_escape (c : Char) (done : List Piece) (rest : List Char) :
    readPieces? done (escape c ++ rest) = readPieces? (pieceOf c :: done) rest := by
  unfold escape
  split_ifs with hquote hslash hn hr ht hb hf hcontrol
  · cases beq_iff_eq.mp hquote
    simp [readPieces?, escaped?, pieceOf]
  · cases beq_iff_eq.mp hslash
    simp [readPieces?, escaped?, pieceOf]
  · cases beq_iff_eq.mp hn
    simp [readPieces?, escaped?, pieceOf]
  · cases beq_iff_eq.mp hr
    simp [readPieces?, escaped?, pieceOf]
  · cases beq_iff_eq.mp ht
    simp [readPieces?, escaped?, pieceOf]
  · cases eq_ofNat hb
    simp [readPieces?, escaped?, pieceOf]
  · cases eq_ofNat hf
    simp [readPieces?, escaped?, pieceOf]
  · have hdigits := hexUnit?_padded c.toNat hcontrol
    split at hdigits
    · next a b x d hchars =>
      have hpiece : pieceOf c = .unit c.toNat := by
        refine if_pos ⟨hcontrol, ?_⟩
        simp only [List.mem_cons, List.not_mem_nil, not_or, or_false]
        exact ⟨mt beq_iff_eq.mpr hb, toNat_ne ht, toNat_ne hn, mt beq_iff_eq.mpr hf, toNat_ne hr⟩
      simp [readPieces?, hchars, hdigits, hpiece]
    · cases hdigits
  · have hpiece : pieceOf c = .char c := if_neg fun h ↦ hcontrol h.1
    rw [hpiece]
    exact readPieces?_cons (by simpa using hquote) (by simpa using hslash) hcontrol done rest

private theorem readPieces?_flatMap (cs : List Char) (done : List Piece) (rest : List Char) :
    readPieces? done (cs.flatMap escape ++ '"' :: rest) =
      some (done.reverse ++ cs.map pieceOf, rest) := by
  induction cs generalizing done with
  | nil => simp [readPieces?]
  | cons c cs ih =>
    rw [List.flatMap_cons, List.append_assoc, readPieces?_escape, ih]
    simp

private theorem denote?_pieceOf (c : Char) (done : List Char) (rest : List Piece) :
    denote? done (pieceOf c :: rest) = denote? (c :: done) rest := by
  unfold pieceOf
  split_ifs with hunit
  · have hleading : isLeading c.toNat = false := by simp [isLeading]; omega
    have htrailing : isTrailing c.toNat = false := by simp [isTrailing]; omega
    rw [denote?.eq_def]
    split
    · next heq => cases heq
    · next heq => cases heq
    · next heq =>
      cases heq
      simp [hleading, htrailing]
    · next heq =>
      cases heq
      simp [hleading, htrailing]
  · rw [denote?]

private theorem denote?_map (cs done : List Char) :
    denote? done (cs.map pieceOf) = some (done.reverse ++ cs) := by
  induction cs generalizing done with
  | nil => simp [denote?]
  | cons c cs ih =>
    rw [List.map_cons, denote?_pieceOf, ih]
    simp

/-- The text of a string is its escaped characters in quotation marks. -/
theorem writeString_some_append (s : String) (rest : List Char) :
    writeString (some s) ++ rest = '"' :: (s.toList.flatMap escape ++ '"' :: rest) := by
  have hwritten : writeString (some s) = '"' :: (s.toList.flatMap escape ++ ['"']) := rfl
  rw [hwritten, List.cons_append, List.append_assoc, List.singleton_append]

/-- What is no string is written as an escape that no string has. -/
theorem writeString_none_append (rest : List Char) :
    writeString none ++ rest = '"' :: '\\' :: 'u' :: (['d', '8', '0', '0'] ++ '"' :: rest) := by
  have hwritten : writeString none = ['"', '\\', 'u', 'd', '8', '0', '0', '"'] := by decide
  rw [hwritten]
  rfl

/-- A written literal denotes its text. -/
theorem readText?_writeString (s : Option String) (rest : List Char) :
    ∃ cs, writeString s ++ rest = '"' :: cs ∧ readText? cs = some (s, rest) := by
  cases s with
  | some s =>
    refine ⟨_, writeString_some_append s rest, ?_⟩
    rw [readText?, readPieces?_flatMap]
    simp [denote?_map]
  | none =>
    have hunit : hexUnit? 'd' '8' '0' '0' = some 0xD800 := by decide
    refine ⟨_, writeString_none_append rest, ?_⟩
    simp [readText?, readPieces?, hunit, denote?, isLeading]

end Strings

/-- What may come after a value: nothing, or what goes on with or ends the array or object that the
value is in. -/
def EndsValue : List Char → Prop
  | [] => True
  | c :: _ => c = ',' ∨ c = ']' ∨ c = '}'

section Numbers

variable {rest : List Char}

/-- The characters that an integer is written with. -/
def isNumeral (c : Char) : Bool := c == '-' || isDigit c

/-- A character of a number is none that does not occur in one. -/
theorem ne_of_isNumeral {c d : Char} (hc : isNumeral c = true) (hd : isNumeral d = false) :
    c ≠ d := by
  rintro rfl
  rw [hc] at hd
  cases hd

private theorem isDigit_of_mem_toDigits {n : Nat} {c : Char} (h : c ∈ Nat.toDigits 10 n) :
    isDigit c = true := by
  have hdigit := Nat.isDigit_of_mem_toDigits (by omega) (by omega) h
  simpa [isDigit, Char.isDigit, Char.le_def] using hdigit

private theorem exists_toDigits (n : Nat) :
    ∃ d ds, Nat.toDigits 10 n = d :: ds ∧ isDigit d = true := by
  obtain ⟨d, ds, hds⟩ := List.exists_cons_of_ne_nil (Nat.toDigits_ne_nil (b := 10) (n := n))
  exact ⟨d, ds, hds, isDigit_of_mem_toDigits (hds ▸ List.mem_cons_self)⟩

private theorem toList_ofNat (m : Nat) : (toString (Int.ofNat m)).toList = Nat.toDigits 10 m :=
  Nat.toList_repr

private theorem toList_negSucc (m : Nat) :
    (toString (Int.negSucc m)).toList = '-' :: Nat.toDigits 10 (m + 1) := by
  show ("-" ++ (m + 1).repr).toList = _
  rw [String.toList_append, Nat.toList_repr]
  rfl

/-- An integer is written with a sign and digits only. -/
theorem isNumeral_of_mem_toString {n : Int} {c : Char} (h : c ∈ (toString n).toList) :
    isNumeral c = true := by
  cases n with
  | ofNat m =>
    rw [toList_ofNat] at h
    simp [isNumeral, isDigit_of_mem_toDigits h]
  | negSucc m =>
    rw [toList_negSucc] at h
    rcases List.mem_cons.mp h with rfl | h
    · rfl
    · simp [isNumeral, isDigit_of_mem_toDigits h]

/-- An integer is written with at least one character. -/
theorem exists_toString (n : Int) :
    ∃ c cs, (toString n).toList = c :: cs ∧ isNumeral c = true := by
  have hne : (toString n).toList ≠ [] := by
    cases n with
    | ofNat m => exact toList_ofNat m ▸ Nat.toDigits_ne_nil
    | negSucc m => exact toList_negSucc m ▸ List.cons_ne_nil _ _
  obtain ⟨c, cs, hcs⟩ := List.exists_cons_of_ne_nil hne
  exact ⟨c, cs, hcs, isNumeral_of_mem_toString (hcs ▸ List.mem_cons_self)⟩

private theorem eq_zero_of_toDigits {n : Nat} {ds : List Char}
    (h : Nat.toDigits 10 n = '0' :: ds) : n = 0 ∧ ds = [] := by
  induction n using Nat.strong_induction_on generalizing ds with
  | _ n ih =>
    by_cases hlt : n < 10
    · rw [Nat.toDigits_of_lt_base hlt] at h
      obtain ⟨hchar, rfl⟩ := List.cons.inj h
      exact ⟨Nat.digitChar_eq_zero.mp hchar, rfl⟩
    · rw [Nat.toDigits_of_base_le (by omega) (by omega)] at h
      obtain ⟨c, cs, hhead, -⟩ := exists_toDigits (n / 10)
      rw [hhead] at h
      obtain ⟨rfl, -⟩ := List.cons.inj h
      have hzero := (ih (n / 10) (by omega) hhead).1
      omega

private theorem wholeDigits?_toDigits (h : EndsValue rest) (n : Nat) :
    wholeDigits? (Nat.toDigits 10 n ++ rest) = some (Nat.toDigits 10 n, rest) := by
  have hall : ∀ c ∈ Nat.toDigits 10 n, isDigit c = true := fun _ ↦ isDigit_of_mem_toDigits
  have hend : rest.takeWhile isDigit = [] ∧ rest.dropWhile isDigit = rest := by
    cases rest with
    | nil => exact ⟨rfl, rfl⟩
    | cons c rest => rcases h with rfl | rfl | rfl <;> exact ⟨rfl, rfl⟩
  have hdigits : digits? (Nat.toDigits 10 n ++ rest) = some (Nat.toDigits 10 n, rest) := by
    obtain ⟨d, ds, hds, -⟩ := exists_toDigits n
    unfold digits?
    rw [List.takeWhile_append_of_pos hall, List.dropWhile_append_of_pos hall, hend.1, hend.2,
      List.append_nil, hds]
  unfold wholeDigits?
  rw [hdigits]
  split
  next heq =>
    obtain ⟨hzero, -⟩ := Prod.mk.inj (Option.some.inj heq)
    exact absurd (eq_zero_of_toDigits hzero).2 (List.cons_ne_nil _ _)
  next => rfl

private theorem fraction?_of_ends (h : EndsValue rest) : fraction? rest = some ([], rest) := by
  cases rest with
  | nil => rfl
  | cons c rest => rcases h with rfl | rfl | rfl <;> rfl

private theorem exponent?_of_ends (h : EndsValue rest) : exponent? rest = some ([], rest) := by
  cases rest with
  | nil => rfl
  | cons c rest => rcases h with rfl | rfl | rfl <;> rfl

private theorem natOfDigits_toDigits (n : Nat) : natOfDigits (Nat.toDigits 10 n) = n :=
  Nat.ofDigitChars_toDigits (by omega) (by omega)

/-- A written integer reads as itself, whatever ends it. -/
theorem readNumber?_toString (h : EndsValue rest) (n : Int) :
    readNumber? ((toString n).toList ++ rest) = some (.int n, rest) := by
  cases n with
  | ofNat m =>
    obtain ⟨d, ds, hds, hd⟩ := exists_toDigits m
    rw [toList_ofNat]
    unfold readNumber?
    split
    next heq =>
      split at heq
      -- The digits do not start with a sign.
      next hsign =>
        rw [hds, List.cons_append] at hsign
        obtain ⟨rfl, -⟩ := List.cons.inj hsign
        cases hd
      next =>
        obtain ⟨rfl, rfl⟩ := Prod.mk.inj heq
        simp [wholeDigits?_toDigits h, fraction?_of_ends h, exponent?_of_ends h,
          natOfDigits_toDigits]
  | negSucc m =>
    rw [toList_negSucc]
    unfold readNumber?
    simp [wholeDigits?_toDigits h, fraction?_of_ends h, exponent?_of_ends h, natOfDigits_toDigits,
      Int.negSucc_eq]

end Numbers

end NativeBackend.Json
