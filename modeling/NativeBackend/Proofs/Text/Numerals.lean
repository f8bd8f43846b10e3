import Mathlib
import NativeBackend.Text.Hex

/-!
# Numerals

What number a run of digits names in a base up to sixteen, where letters of either case stand for
the values from ten on. A run names at most one number, zeros in front of it do not count, and the
digits that a number is written with name that number.
-/

namespace NativeBackend

/-- The digits in the order of their values, with small letters. -/
def smallDigits : List Char := "0123456789abcdef".toList

/-- The digits in the order of their values, with capital letters. -/
def capitalDigits : List Char := "0123456789ABCDEF".toList

/-- A character is the digit of a value below a base. -/
def IsDigit (base : Nat) (c : Char) (d : Nat) : Prop :=
  d < base ∧ (smallDigits[d]? = some c ∨ capitalDigits[d]? = some c)

/-- One or more digits name a number: the last one counts its own value, and those before it count
the base times what they name. -/
inductive Numeral (base : Nat) : List Char → Nat → Prop
  | single {c : Char} {d : Nat} (digit : IsDigit base c d) : Numeral base [c] d
  | snoc {cs : List Char} {n : Nat} {c : Char} {d : Nat} (front : Numeral base cs n)
      (digit : IsDigit base c d) : Numeral base (cs ++ [c]) (n * base + d)

section Digits

variable {base d n : Nat} {c : Char} {cs : List Char}

private theorem digit?_small : ∀ d < 16, smallDigits[d]?.bind Hex.digit? = some d := by decide

private theorem digit?_capital : ∀ d < 16, capitalDigits[d]?.bind Hex.digit? = some d := by decide

private theorem isDigit_of_ascii : ∀ n < 128, ∀ d < 16, Hex.digit? (Char.ofNat n) = some d →
    smallDigits[d]? = some (Char.ofNat n) ∨ capitalDigits[d]? = some (Char.ofNat n) := by
  decide +kernel

private theorem bounds_of_digit? (h : Hex.digit? c = some d) : c.toNat < 128 ∧ d < 16 := by
  simp only [Hex.digit?, Char.le_def, UInt32.le_iff_toNat_le] at h
  change (if 48 ≤ c.toNat ∧ c.toNat ≤ 57 then some (c.toNat - 48)
    else if 97 ≤ c.toNat ∧ c.toNat ≤ 102 then some (c.toNat - 97 + 10)
    else if 65 ≤ c.toNat ∧ c.toNat ≤ 70 then some (c.toNat - 65 + 10) else none) = some d at h
  split_ifs at h <;> cases h <;> omega

/-- A digit is read if it is one of base sixteen. -/
theorem digit?_eq_some_iff : Hex.digit? c = some d ↔ IsDigit 16 c d := by
  constructor
  · intro h
    obtain ⟨hc, hd⟩ := bounds_of_digit? h
    rw [← Char.ofNat_toNat c] at h ⊢
    exact ⟨hd, isDigit_of_ascii c.toNat hc d hd h⟩
  · rintro ⟨hd, h | h⟩
    · simpa [h] using digit?_small d hd
    · simpa [h] using digit?_capital d hd

/-- A digit of a base up to sixteen is read. -/
theorem IsDigit.digit?_eq (hbase : base ≤ 16) (h : IsDigit base c d) : Hex.digit? c = some d :=
  digit?_eq_some_iff.mpr ⟨h.1.trans_le hbase, h.2⟩

/-- A character is the digit of one value only. -/
theorem IsDigit.unique {e : Nat} (hbase : base ≤ 16) (h : IsDigit base c d)
    (h' : IsDigit base c e) : d = e :=
  Option.some.inj ((h.digit?_eq hbase).symm.trans (h'.digit?_eq hbase))

private theorem small_digitChar : ∀ d < 16, smallDigits[d]? = some (Nat.digitChar d) := by decide

/-- A number below the base has a digit. -/
theorem isDigit_digitChar (hbase : base ≤ 16) (hd : d < base) :
    IsDigit base (Nat.digitChar d) d :=
  ⟨hd, .inl (small_digitChar d (hd.trans_le hbase))⟩

end Digits

namespace Numeral

variable {base n m : Nat} {cs : List Char}

/-- A numeral has a digit at least. -/
theorem ne_nil (h : Numeral base cs n) : cs ≠ [] := by
  cases h with
  | single => exact List.cons_ne_nil _ _
  | snoc => exact List.append_ne_nil_of_right_ne_nil _ (List.cons_ne_nil _ _)

/-- A run that ends in a digit names what the digits before it and that one make. -/
theorem of_append {c : Char} (h : Numeral base (cs ++ [c]) n) :
    ∃ d, IsDigit base c d ∧ (cs = [] ∧ n = d ∨ ∃ m, Numeral base cs m ∧ n = m * base + d) := by
  generalize hall : cs ++ [c] = all at h
  cases h with
  | single digit =>
    obtain ⟨rfl, hc⟩ := List.append_eq_singleton_iff.mp hall |>.resolve_right (by simp)
    obtain ⟨rfl⟩ := hc
    exact ⟨_, digit, .inl ⟨rfl, rfl⟩⟩
  | snoc front digit =>
    obtain ⟨rfl, hc⟩ := List.append_inj' hall rfl
    obtain ⟨rfl⟩ := hc
    exact ⟨_, digit, .inr ⟨_, front, rfl⟩⟩

/-- The characters of a numeral are digits. -/
theorem isDigit_of_mem (h : Numeral base cs n) {c : Char} (hc : c ∈ cs) :
    ∃ d, IsDigit base c d := by
  induction h with
  | single digit =>
    obtain rfl := List.mem_singleton.mp hc
    exact ⟨_, digit⟩
  | snoc _ digit ih =>
    rcases List.mem_append.mp hc with hc | hc
    · exact ih hc
    · obtain rfl := List.mem_singleton.mp hc
      exact ⟨_, digit⟩

/-- A numeral has nothing but digits. -/
theorem notMem (hbase : base ≤ 16) (h : Numeral base cs n) {c : Char} (hc : Hex.digit? c = none) :
    c ∉ cs := by
  intro hmem
  obtain ⟨d, hd⟩ := h.isDigit_of_mem hmem
  exact nomatch hc.symm.trans (hd.digit?_eq hbase)

/-- A run of digits names one number only. -/
theorem unique (hbase : base ≤ 16) (h : Numeral base cs n) (h' : Numeral base cs m) : n = m := by
  induction h generalizing m with
  | single digit =>
    rw [← List.nil_append [_]] at h'
    obtain ⟨d, hd, ⟨-, rfl⟩ | ⟨k, hk, -⟩⟩ := of_append h'
    · exact digit.unique hbase hd
    · exact absurd rfl hk.ne_nil
  | snoc front digit ih =>
    obtain ⟨d, hd, ⟨rfl, -⟩ | ⟨k, hk, rfl⟩⟩ := of_append h'
    · exact absurd rfl front.ne_nil
    · rw [ih hk, digit.unique hbase hd]

/-- The digits that a number is written with name it. -/
theorem toDigits (hpos : 1 < base) (hbase : base ≤ 16) (n : Nat) :
    Numeral base (Nat.toDigits base n) n := by
  induction n using Nat.strong_induction_on with
  | _ n ih =>
    by_cases hlt : n < base
    · rw [Nat.toDigits_of_lt_base hlt]
      exact .single (isDigit_digitChar hbase hlt)
    · have hle : base ≤ n := Nat.le_of_not_lt hlt
      rw [Nat.toDigits_of_base_le hpos hle]
      have hfront := ih (n / base) (Nat.div_lt_self (by omega) hpos)
      have hsnoc := hfront.snoc (isDigit_digitChar hbase (Nat.mod_lt n (by omega)))
      rwa [Nat.div_add_mod'] at hsnoc

/-- Zeros in front do not count. -/
theorem zeros (hpos : 0 < base) (h : Numeral base cs n) (count : Nat) :
    Numeral base (List.replicate count '0' ++ cs) n := by
  have hzero : IsDigit base '0' 0 := ⟨hpos, .inl rfl⟩
  have hzeros : ∀ count, Numeral base (List.replicate (count + 1) '0') 0 := by
    intro count
    induction count with
    | zero => exact .single hzero
    | succ count ih =>
      rw [List.replicate_succ']
      simpa using ih.snoc hzero
  cases count with
  | zero => exact h
  | succ count =>
    induction h with
    | single digit => simpa using (hzeros count).snoc digit
    | snoc _ digit ih =>
      rw [← List.append_assoc]
      exact ih.snoc digit

end Numeral

end NativeBackend
