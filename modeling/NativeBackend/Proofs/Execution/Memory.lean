import Mathlib

/-!
# Words in memory

Memory holds a byte at every 64-bit address. A word is eight bytes, the least
significant first, at any address at all, so words at nearby addresses overlap;
`Apart` says that two do not. Addresses wrap. The words of a stack lie at whole
words from a base, counted by `slot`.
-/

namespace NativeBackend.Execution

/-- A machine word, which may also be an address. -/
abbrev Word := BitVec 64

/-- A byte at every address. -/
abbrev Memory := Word → BitVec 8

/-- Two words at these addresses share no byte. -/
def Apart (a b : Word) : Prop := 8 ≤ (a - b).toNat ∧ 8 ≤ (b - a).toNat

instance (a b : Word) : Decidable (Apart a b) := inferInstanceAs (Decidable (_ ∧ _))

/-- The address a count of words above a base. -/
def slot (base : Word) (words : Int) : Word := base + BitVec.ofInt 64 (8 * words)

namespace Memory

/-- A count of bytes from an address on, the first one least significant. -/
def bytes (m : Memory) (a : Word) : (count : Nat) → BitVec (8 * count)
  | 0 => 0
  | count + 1 => m.bytes (a + 1) count ++ m a

/-- The word at an address. -/
def word (m : Memory) (a : Word) : Word := m.bytes a 8

/-- Memory with a word stored at an address. -/
def store (m : Memory) (a v : Word) : Memory := fun x ↦
  if (x - a).toNat < 8 then v.extractLsb' (8 * (x - a).toNat) 8 else m x

private theorem getLsbD_bytes (m : Memory) (a : Word) (count i : Nat) (hi : i < 8 * count) :
    (m.bytes a count).getLsbD i = (m (a + BitVec.ofNat 64 (i / 8))).getLsbD (i % 8) := by
  induction count generalizing a i with
  | zero => omega
  | succ count ih =>
    change (m.bytes (a + 1) count ++ m a).getLsbD i = _
    rw [BitVec.getLsbD_append]
    split
    · next h => rw [Nat.div_eq_of_lt h, Nat.mod_eq_of_lt h, BitVec.add_zero]
    · next h =>
      have hd : i / 8 = (i - 8) / 8 + 1 := by omega
      have hm : (i - 8) % 8 = i % 8 := by omega
      rw [ih (a + 1) (i - 8) (by omega), hm, hd, Nat.add_comm, BitVec.ofNat_add,
        ← BitVec.add_assoc]
      rfl

private theorem getLsbD_word (m : Memory) (a : Word) (i : Nat) (hi : i < 64) :
    (m.word a).getLsbD i = (m (a + BitVec.ofNat 64 (i / 8))).getLsbD (i % 8) :=
  getLsbD_bytes m a 8 i hi

private theorem toNat_offset (a : Word) (k : Nat) (hk : k < 8) :
    (a + BitVec.ofNat 64 k - a).toNat = k := by
  rw [BitVec.add_comm, BitVec.add_sub_cancel, BitVec.toNat_ofNat]
  omega

/-- A stored word is read back. -/
@[simp] theorem word_store_self (m : Memory) (a v : Word) : (m.store a v).word a = v := by
  apply BitVec.eq_of_getLsbD_eq
  intro i hi
  have hk : i / 8 < 8 := by omega
  rw [getLsbD_word _ _ _ hi, store, toNat_offset a _ hk]
  simp only [hk, ite_true, BitVec.getLsbD_extractLsb']
  have hm : i % 8 < 8 := by omega
  simp only [hm, decide_true, Bool.true_and]
  congr 1
  omega

/-- A word apart from the stored one is left as it was. -/
theorem word_store_apart (m : Memory) {a b : Word} (v : Word) (h : Apart b a) :
    (m.store a v).word b = m.word b := by
  apply BitVec.eq_of_getLsbD_eq
  intro i hi
  rw [getLsbD_word _ _ _ hi, getLsbD_word _ _ _ hi, store]
  have hn : ¬ (b + BitVec.ofNat 64 (i / 8) - a).toNat < 8 := by
    obtain ⟨hab, hba⟩ := h
    rw [BitVec.toNat_sub] at hab hba ⊢
    rw [BitVec.toNat_add, BitVec.toNat_ofNat]
    omega
  rw [if_neg hn]

end Memory

/-- The slot at the base is the base. -/
@[simp] theorem slot_zero (base : Word) : slot base 0 = base := by simp [slot]

/-- Counts of words add up. -/
@[simp] theorem slot_slot (base : Word) (i j : Int) : slot (slot base i) j = slot base (i + j) := by
  rw [slot, slot, slot, BitVec.add_assoc, ← BitVec.ofInt_add, Int.mul_add]

/-- Different words of a stack that does not reach around the address space are apart. -/
theorem apart_slot (base : Word) {i j : Int} (hij : i ≠ j) (hlow : -2 ^ 61 < i - j)
    (hhigh : i - j < 2 ^ 61) : Apart (slot base i) (slot base j) := by
  have hs (i j : Int) : slot base i - slot base j = BitVec.ofInt 64 (8 * (i - j)) := by
    rw [slot, slot, Int.mul_sub, Int.sub_eq_add_neg, BitVec.ofInt_add, BitVec.ofInt_neg]
    generalize BitVec.ofInt 64 (8 * i) = x
    generalize BitVec.ofInt 64 (8 * j) = y
    bv_omega
  constructor
  · rw [hs, BitVec.toNat_ofInt]
    omega
  · rw [hs, BitVec.toNat_ofInt]
    omega

end NativeBackend.Execution
