import Mathlib

/-!
# Byte order

Texts are compared by their characters. Since a character with a greater number has
greater bytes, and no character's bytes begin those of another, this is the order of
their bytes.
-/

namespace NativeBackend

/-- The bytes of a text. -/
def utf8 (text : String) : List UInt8 := text.toByteArray.data.toList

private theorem utf8_eq_flatMap (text : String) :
    utf8 text = text.toList.flatMap String.utf8EncodeChar := by
  rw [utf8, ← String.utf8Encode_toList, List.utf8Encode, List.data_toByteArray,
    List.toList_toArray]

private theorem head_lt {a b : Nat} (hab : a < b) (hb : b < 256) (xs ys : List UInt8) :
    UInt8.ofNat a :: xs < UInt8.ofNat b :: ys := by
  rw [List.cons_lt_cons_iff, UInt8.lt_iff_toNat_lt, UInt8.toNat_ofNat', UInt8.toNat_ofNat']
  omega

private theorem head_le {a b : Nat} {xs ys : List UInt8} (hle : a ≤ b) (hb : b < 256)
    (h : a = b → xs < ys) : UInt8.ofNat a :: xs < UInt8.ofNat b :: ys := by
  rcases Nat.lt_or_eq_of_le hle with hlt | rfl
  · exact head_lt hlt hb xs ys
  · exact List.cons_lt_cons_iff.mpr (.inr ⟨rfl, h rfl⟩)

-- The bytes of a character come before those of a greater one, whatever follows.
private theorem encode_lt_encode {c d : Char} (h : c < d) (xs ys : List UInt8) :
    String.utf8EncodeChar c ++ xs < String.utf8EncodeChar d ++ ys := by
  have hlt : c.val.toNat < d.val.toNat := h
  have hd : d.val.toNat < 0x110000 := by
    rcases d.valid with hv | hv
    · have : d.val.toNat < 0xD800 := hv
      omega
    · exact hv.2
  simp only [String.utf8EncodeChar]
  -- A longer character has a greater first byte, and two of one length differ first where the
  -- six-bit groups of their numbers do.
  split_ifs
  all_goals simp only [List.cons_append, List.nil_append]
  all_goals try omega
  · exact head_lt (by omega) (by omega) _ _
  · exact head_lt (by omega) (by omega) _ _
  · exact head_lt (by omega) (by omega) _ _
  · exact head_lt (by omega) (by omega) _ _
  · refine head_le (by omega) (by omega) fun h₁ ↦ ?_
    exact head_lt (by omega) (by omega) _ _
  · exact head_lt (by omega) (by omega) _ _
  · exact head_lt (by omega) (by omega) _ _
  · refine head_le (by omega) (by omega) fun h₁ ↦ ?_
    refine head_le (by omega) (by omega) fun h₂ ↦ ?_
    exact head_lt (by omega) (by omega) _ _
  · exact head_lt (by omega) (by omega) _ _
  · refine head_le (by omega) (by omega) fun h₁ ↦ ?_
    refine head_le (by omega) (by omega) fun h₂ ↦ ?_
    refine head_le (by omega) (by omega) fun h₃ ↦ ?_
    exact head_lt (by omega) (by omega) _ _

private theorem append_lt_append (zs : List UInt8) {xs ys : List UInt8} (h : xs < ys) :
    zs ++ xs < zs ++ ys := by
  induction zs with
  | nil => exact h
  | cons z zs ih => exact List.cons_lt_cons_iff.mpr (.inr ⟨rfl, ih⟩)

private theorem flatMap_lt_flatMap {cs ds : List Char} (h : cs < ds) :
    cs.flatMap String.utf8EncodeChar < ds.flatMap String.utf8EncodeChar := by
  induction cs generalizing ds with
  | nil =>
    cases ds with
    | nil => cases h
    | cons d ds =>
      rw [List.flatMap_nil, List.flatMap_cons]
      cases he : String.utf8EncodeChar d with
      | nil => exact (String.utf8EncodeChar_ne_nil he).elim
      | cons b bs => exact List.nil_lt_cons b _
  | cons c cs ih =>
    cases ds with
    | nil => cases h
    | cons d ds =>
      rw [List.flatMap_cons, List.flatMap_cons]
      rcases List.cons_lt_cons_iff.mp h with hlt | ⟨rfl, hlt⟩
      · exact encode_lt_encode hlt _ _
      · exact append_lt_append _ (ih hlt)

/-- The order of texts is that of their bytes. -/
theorem utf8_lt_utf8 {a b : String} (h : a < b) : utf8 a < utf8 b := by
  rw [utf8_eq_flatMap, utf8_eq_flatMap]
  exact flatMap_lt_flatMap (String.lt_iff_toList_lt.mp h)

end NativeBackend
