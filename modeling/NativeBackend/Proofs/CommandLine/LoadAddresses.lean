import NativeBackend.Address
import NativeBackend.Proofs.Text.Numerals

/-!
# Which texts are load addresses

A text is a load address exactly if it has the form of one and names a multiple of the page size
that fits a machine word. Overflow is noticed digit by digit while reading, yet it depends on
the whole number alone, so any count of zeros may lead. Both written forms of an address
read back.
-/

namespace NativeBackend.Address

/-- Digits of a base name a number, with a plus sign before them or without one. -/
inductive SignedNumeral (base : Nat) : List Char → Nat → Prop
  | plain {cs : List Char} {n : Nat} (digits : Numeral base cs n) : SignedNumeral base cs n
  | plus {cs : List Char} {n : Nat} (digits : Numeral base cs n) :
      SignedNumeral base ('+' :: cs) n

/-- A text begins with the mark of a hexadecimal number. -/
def IsMarked (cs : List Char) : Prop := ['0', 'x'] <+: cs ∨ ['0', 'X'] <+: cs

/-- The number that the text of an address names. -/
inductive Names : List Char → Nat → Prop
  | hexadecimal {x : Char} {cs : List Char} {n : Nat} (mark : x = 'x' ∨ x = 'X')
      (number : SignedNumeral 16 cs n) : Names ('0' :: x :: cs) n
  | decimal {cs : List Char} {n : Nat} (unmarked : ¬IsMarked cs)
      (number : SignedNumeral 10 cs n) : Names cs n

section Digits

variable {base acc d n : Nat} {c : Char} {cs : List Char}

private theorem digitBelow?_eq_some_iff (hbase : base ≤ 16) :
    digitBelow? base c = some d ↔ IsDigit base c d := by
  rw [digitBelow?, Option.filter_eq_some_iff, digit?_eq_some_iff, IsDigit, IsDigit,
    decide_eq_true_iff]
  constructor
  · rintro ⟨⟨-, h⟩, hd⟩
    exact ⟨hd, h⟩
  · rintro ⟨hd, h⟩
    exact ⟨⟨hd.trans_le hbase, h⟩, hd⟩

private theorem accumulate_cons (hbase : base ≤ 16) :
    accumulate base acc (c :: cs) = .ok n ↔
      ∃ d, IsDigit base c d ∧ acc * base + d < 2 ^ 64 ∧
        accumulate base (acc * base + d) cs = .ok n := by
  rw [accumulate]
  cases hdigit : digitBelow? base c with
  | none =>
    refine iff_of_false nofun ?_
    rintro ⟨d, hd, -⟩
    rw [(digitBelow?_eq_some_iff hbase).mpr hd] at hdigit
    cases hdigit
  | some d =>
    have hd := (digitBelow?_eq_some_iff hbase).mp hdigit
    constructor
    · intro h
      dsimp only at h
      split_ifs at h with hlt
      exact ⟨d, hd, hlt, h⟩
    · rintro ⟨e, he, hlt, h⟩
      obtain rfl := hd.unique hbase he
      exact (if_pos hlt).trans h

private theorem accumulate_append (hbase : base ≤ 16) :
    accumulate base acc (cs ++ [c]) = .ok n ↔
      ∃ m d, accumulate base acc cs = .ok m ∧ IsDigit base c d ∧ n = m * base + d ∧
        n < 2 ^ 64 := by
  induction cs generalizing acc with
  | nil =>
    rw [List.nil_append, accumulate_cons hbase]
    constructor
    · rintro ⟨d, hd, hlt, h⟩
      cases h
      exact ⟨acc, d, rfl, hd, rfl, hlt⟩
    · rintro ⟨m, d, hm, hd, rfl, hlt⟩
      cases hm
      exact ⟨d, hd, hlt, rfl⟩
  | cons c' cs ih =>
    rw [List.cons_append, accumulate_cons hbase]
    simp only [ih, accumulate_cons hbase]
    constructor
    · rintro ⟨e, he, hlt, m, d, hm, hrest⟩
      exact ⟨m, d, ⟨e, he, hlt, hm⟩, hrest⟩
    · rintro ⟨m, d, ⟨e, he, hlt, hm⟩, hrest⟩
      exact ⟨e, he, hlt, m, d, hm, hrest⟩

-- A number that fits has only numbers that fit in front of its digits, so nothing is refused too
-- early.
private theorem accumulate_eq_ok_iff (hpos : 0 < base) (hbase : base ≤ 16) (hcs : cs ≠ []) :
    accumulate base 0 cs = .ok n ↔ Numeral base cs n ∧ n < 2 ^ 64 := by
  induction cs using List.reverseRecOn generalizing n with
  | nil => exact absurd rfl hcs
  | append_singleton cs c ih =>
    rw [accumulate_append hbase]
    rcases eq_or_ne cs [] with rfl | hne
    · constructor
      · rintro ⟨m, d, hm, hd, rfl, hlt⟩
        cases hm
        rw [Nat.zero_mul, Nat.zero_add] at hlt ⊢
        exact ⟨.single hd, hlt⟩
      · rintro ⟨h, hlt⟩
        obtain ⟨d, hd, ⟨-, rfl⟩ | ⟨m, hm, -⟩⟩ := h.of_append
        · exact ⟨0, n, rfl, hd, by omega, hlt⟩
        · exact absurd rfl hm.ne_nil
    · constructor
      · rintro ⟨m, d, hm, hd, rfl, hlt⟩
        exact ⟨((ih hne).mp hm).1.snoc hd, hlt⟩
      · rintro ⟨h, hlt⟩
        obtain ⟨d, hd, ⟨rfl, -⟩ | ⟨m, hm, rfl⟩⟩ := h.of_append
        · exact absurd rfl hne
        · have hle : m ≤ m * base := Nat.le_mul_of_pos_right m hpos
          exact ⟨m, d, (ih hne).mpr ⟨hm, by omega⟩, hd, rfl, hlt⟩

private theorem wordOf_eq_ok_iff (hpos : 0 < base) (hbase : base ≤ 16) :
    wordOf base cs = .ok n ↔ SignedNumeral base cs n ∧ n < 2 ^ 64 := by
  unfold wordOf
  split
  · refine iff_of_false nofun ?_
    rintro ⟨⟨digits⟩, -⟩
    exact absurd rfl digits.ne_nil
  · refine iff_of_false nofun ?_
    rintro ⟨digits | digits, -⟩
    · exact digits.notMem hbase rfl List.mem_cons_self
    · exact absurd rfl digits.ne_nil
  · next cs hcs =>
    rw [accumulate_eq_ok_iff hpos hbase hcs]
    constructor
    · rintro ⟨h, hlt⟩
      exact ⟨.plus h, hlt⟩
    · rintro ⟨digits | digits, hlt⟩
      · exact absurd List.mem_cons_self (digits.notMem hbase rfl)
      · exact ⟨digits, hlt⟩
  · next hnil _ hsign =>
    rw [accumulate_eq_ok_iff hpos hbase hnil]
    constructor
    · rintro ⟨h, hlt⟩
      exact ⟨.plain h, hlt⟩
    · rintro ⟨digits | digits, hlt⟩
      · exact ⟨digits, hlt⟩
      · exact absurd rfl (hsign _)

end Digits

section Forms

variable {cs : List Char} {n : Nat}

private theorem digitsOf_eq_ok_iff : digitsOf cs = .ok n ↔ Names cs n ∧ n < 2 ^ 64 := by
  unfold digitsOf
  split
  · next cs =>
    rw [wordOf_eq_ok_iff (by decide) (by decide)]
    refine and_congr_left fun _ ↦ ⟨.hexadecimal (.inl rfl), fun h ↦ ?_⟩
    cases h with
    | hexadecimal _ number => exact number
    | decimal unmarked _ => exact absurd (.inl ⟨cs, rfl⟩) unmarked
  · next cs =>
    rw [wordOf_eq_ok_iff (by decide) (by decide)]
    refine and_congr_left fun _ ↦ ⟨.hexadecimal (.inr rfl), fun h ↦ ?_⟩
    cases h with
    | hexadecimal _ number => exact number
    | decimal unmarked _ => exact absurd (.inr ⟨cs, rfl⟩) unmarked
  · next hsmall hcapital =>
    rw [wordOf_eq_ok_iff (by decide) (by decide)]
    refine and_congr_left fun _ ↦ ⟨.decimal ?_, fun h ↦ ?_⟩
    · rintro (⟨rest, rfl⟩ | ⟨rest, rfl⟩)
      · exact hsmall rest rfl
      · exact hcapital rest rfl
    · cases h with
      | hexadecimal mark _ =>
        rcases mark with rfl | rfl
        · exact absurd rfl (hsmall _)
        · exact absurd rfl (hcapital _)
      | decimal _ number => exact number

/-- A text is read as an address exactly if it names it. -/
theorem parse_eq_ok_iff {text : String} {v : UInt64} :
    parse text = .ok v ↔ Names text.toList v.toNat ∧ 0x1000 ∣ v.toNat := by
  have hdigits (m : Nat) : digitsOf text.toList = .ok m ↔ Names text.toList m ∧ m < 2 ^ 64 :=
    digitsOf_eq_ok_iff
  rw [parse]
  cases hread : digitsOf text.toList with
  | error cause =>
    refine iff_of_false nofun ?_
    rintro ⟨h, -⟩
    have hok := (hdigits _).mpr ⟨h, v.toNat_lt⟩
    rw [hread] at hok
    cases hok
  | ok m =>
    obtain ⟨hnames, hlt⟩ := (hdigits m).mp hread
    dsimp only
    constructor
    · intro h
      split_ifs at h with hpage
      cases h
      rw [UInt64.toNat_ofNat_of_lt' hlt]
      exact ⟨hnames, Nat.dvd_of_mod_eq_zero hpage⟩
    · rintro ⟨h, hpage⟩
      have hok := (hdigits _).mpr ⟨h, v.toNat_lt⟩
      rw [hread] at hok
      cases hok
      have hzero : v.toNat % pageSize = 0 := Nat.mod_eq_zero_of_dvd hpage
      rw [if_pos hzero, UInt64.ofNat_toNat]

private theorem names_marked (n : Nat) : Names (Hex.marked n).toList n := by
  have htext : (Hex.marked n).toList = '0' :: 'x' :: Nat.toDigits 16 n := by
    simp [Hex.marked, Hex.digits]
  rw [htext]
  exact .hexadecimal (.inl rfl) (.plain (.toDigits (by decide) (by decide) n))

private theorem names_toString (n : Nat) : Names (toString n).toList n := by
  have hdigits : Numeral 10 (toString n).toList n :=
    Nat.toList_repr ▸ .toDigits (by decide) (by decide) n
  refine .decimal ?_ (.plain hdigits)
  -- the letter of a mark is no digit
  rintro (hmark | hmark)
  · exact hdigits.notMem (by decide) rfl (hmark.subset (by simp : 'x' ∈ ['0', 'x']))
  · exact hdigits.notMem (by decide) rfl (hmark.subset (by simp : 'X' ∈ ['0', 'X']))

end Forms

/-- A text is read as an address exactly if it has one of the two forms and names that address, a
multiple of the page size. The hexadecimal and the decimal text of such an address are read as
it. -/
theorem parse_accepts_exactly (text : String) (v : UInt64) :
    (parse text = .ok v ↔ Names text.toList v.toNat ∧ 0x1000 ∣ v.toNat) ∧
      (0x1000 ∣ v.toNat →
        parse (Hex.marked v.toNat) = .ok v ∧ parse (toString v.toNat) = .ok v) :=
  ⟨parse_eq_ok_iff, fun hpage ↦ ⟨parse_eq_ok_iff.mpr ⟨names_marked _, hpage⟩,
    parse_eq_ok_iff.mpr ⟨names_toString _, hpage⟩⟩⟩

/-- Digits of either case after a sign and more zeros than a word has digits. -/
theorem parse_accepts_lastPage :
    (Names "0X+00000000fFfFfFFFffFFF000".toList 0xFFFFFFFFFFFFF000 ∧ 0x1000 ∣ 0xFFFFFFFFFFFFF000) ∧
      parse (Hex.marked 0xFFFFFFFFFFFFF000) = .ok 0xFFFFFFFFFFFFF000 ∧
      parse (toString 0xFFFFFFFFFFFFF000) = .ok 0xFFFFFFFFFFFFF000 := by
  have hparse : parse "0X+00000000fFfFfFFFffFFF000" = .ok 0xFFFFFFFFFFFFF000 := by decide +kernel
  obtain ⟨haccepts, hforms⟩ :=
    parse_accepts_exactly "0X+00000000fFfFfFFFffFFF000" 0xFFFFFFFFFFFFF000
  have hnames := haccepts.mp hparse
  exact ⟨hnames, hforms hnames.2⟩

end NativeBackend.Address
