import NativeBackend.Layout.Frame
import NativeBackend.Layout.Fields
import NativeBackend.Proofs.Execution.Processor

/-!
# Slots of a frame

A frame in words: the saved frame base in slot 0, the return address in slot 1, the
receiver of an instance routine in slot 2, the parameters above it with the first one
highest, and the locals below slot 0 in the order of their declarations. An offset
reaches its slot as long as 32 bits hold it.
-/

namespace NativeBackend

open NativeBackend.Tree Execution

namespace Frame

/-- The count of words from the frame base to the end of the first parameter. -/
def above (f : Frame) : Nat := f.paramCount + if f.hasReceiver then 3 else 2

/-- The slot of a parameter. -/
def paramSlot (f : Frame) (position : Nat) : Int := f.above - 1 - position

/-- The slot of a live local, counted from the latest. -/
def localSlot (f : Frame) (fromLatest : Nat) : Int := fromLatest - f.live

/-- There are two words above the frame base beside the parameters at least. -/
theorem paramCount_lt_above (f : Frame) : f.paramCount + 1 < f.above := by
  unfold above
  split <;> omega

end Frame

/-- An offset that 32 bits hold leads to its word. -/
theorem add_extend_ofInt (base : Word) {words : Int} (hlow : -2 ^ 28 ≤ words)
    (hhigh : words < 2 ^ 28) : base + extend (Int32.ofInt (8 * words)) = slot base words := by
  rw [slot, extend, BitVec.signExtend]
  congr 2
  exact Int32.toInt_ofInt_of_le (by omega) (by omega)

/-- The offset of a slot is as many words into its area, up to the largest signed number. -/
theorem toInt_slotOffset_eq_min (n : Nat) :
    (slotOffset n).toInt = ((min (8 * n) 0x7FFFFFFF : Nat) : Int) := by
  apply Int32.toInt_ofNat_of_lt
  change min (8 * n) 0x7FFFFFFF < 2 ^ 31
  omega

/-- The offset of one of the first 2^28 slots is as many words. -/
theorem toInt_slotOffset {n : Nat} (h : n < 2 ^ 28) :
    (slotOffset n).toInt = ((8 * n : Nat) : Int) := by
  rw [toInt_slotOffset_eq_min, Nat.min_eq_left (by omega)]

/-- The slot of a field among fewer than 2^28 is as many words into its area. -/
theorem extend_slotOffset {n : Nat} (h : n < 2 ^ 28) :
    extend (slotOffset n) = 8 * BitVec.ofNat 64 n := by
  rw [extend, BitVec.signExtend]
  change BitVec.ofInt 64 (slotOffset n).toInt = _
  rw [toInt_slotOffset h, BitVec.ofInt_natCast, BitVec.ofNat_mul]
  rfl

namespace Frame

variable {f : Frame} {offset : Int32}

/-- The receiver lies in slot 2. -/
theorem add_extend_receiver (base : Word) (h : f.receiver? = some offset) :
    f.hasReceiver = true ∧ base + extend offset = slot base 2 := by
  rw [receiver?] at h
  split at h
  · next hr =>
    refine ⟨hr, ?_⟩
    rw [← Option.some.inj h]
    have hs : base + extend (Int32.ofInt (8 * 2)) = slot base 2 :=
      add_extend_ofInt base (by omega) (by omega)
    exact hs
  · cases h

/-- The offset of a parameter is that of its slot. -/
theorem param?_eq_some {position : Nat} (h : f.param? position = some offset) :
    position < f.paramCount ∧ offset = Int32.ofInt (8 * f.paramSlot position) := by
  rw [param?] at h
  split at h
  · next hp =>
    refine ⟨hp.1, ?_⟩
    rw [← Option.some.inj h]
    congr 1
    unfold lastParamOffset paramSlot above
    have hw : (Convention.wordSize : Int) = 8 := rfl
    have hr : Convention.receiverOffset = 16 := rfl
    have hh : (Convention.frameHeaderSize : Int) = 16 := rfl
    rw [hw]
    split <;> omega
  · cases h

/-- A parameter lies in its slot, if 32 bits hold its displacement. -/
theorem add_extend_param (base : Word) {position : Nat}
    (hf : 8 * f.paramSlot position < 2 ^ 31) (h : f.param? position = some offset) :
    position < f.paramCount ∧ base + extend offset = slot base (f.paramSlot position) := by
  obtain ⟨hp, rfl⟩ := param?_eq_some h
  have ha := f.paramCount_lt_above
  refine ⟨hp, add_extend_ofInt base ?_ (by omega)⟩
  unfold paramSlot
  omega

/-- The bound is sharp: a displacement of 2^31, as the first of 2^28 - 1 parameters has, wraps. -/
theorem param?_wraps : param? ⟨false, 2 ^ 28 - 1, []⟩ 0 = some Int32.minValue := by
  decide +kernel

/-- The offset of a local is that of its slot, counted from the first local. -/
theorem localOffset_eq {k : Nat} (h : k < 2 ^ 28) : localOffset k = Int32.ofInt (8 * (-1 - k)) := by
  rw [localOffset, if_pos (by omega)]
  congr 1
  have hw : (Convention.wordSize : Int) = 8 := rfl
  have hl : Convention.firstLocalOffset = -8 := rfl
  rw [hw]
  omega

private theorem add_extend_localOffset (base : Word) {k : Nat} (h : k < 2 ^ 28) :
    base + extend (localOffset k) = slot base (-1 - k) := by
  rw [localOffset_eq h]
  exact add_extend_ofInt base (by omega) (by omega)

/-- A local lies in the slot of its latest live declaration. -/
theorem add_extend_local (base : Word) {id : VarId} (hf : f.live ≤ 2 ^ 28)
    (h : f.local? id = some offset) :
    ∃ k, f.locals.findIdx? (· == id) = some k ∧ k < f.live ∧
      base + extend offset = slot base (f.localSlot k) := by
  obtain ⟨k, hk, ho⟩ := Option.map_eq_some_iff.mp h
  have hl : k < f.live := (List.findIdx?_eq_some_iff_getElem.mp hk).1
  refine ⟨k, hk, hl, ?_⟩
  rw [← ho, add_extend_localOffset base (by omega), localSlot]
  congr 1
  omega

/-- The latest local lies in the lowest slot. -/
theorem add_extend_latest (base : Word) (hpos : 0 < f.live) (hf : f.live ≤ 2 ^ 28) :
    base + extend f.latestOffset = slot base (f.localSlot 0) := by
  rw [latestOffset, add_extend_localOffset base (by omega), localSlot]
  congr 1
  omega

end Frame

end NativeBackend
