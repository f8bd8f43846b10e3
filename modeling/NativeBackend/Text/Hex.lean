/-!
# Hexadecimal text

Numbers and bytes as lower-case hexadecimal, with the widths and signs that
listings and messages use.
-/

namespace NativeBackend.Hex

/-- The digits of `n`, without leading zeros. -/
def digits (n : Nat) : List Char := Nat.toDigits 16 n

/-- `n` with the marker of a hexadecimal number. -/
def marked (n : Nat) : String := "0x" ++ String.ofList (digits n)

/-- `n` in at least `width` digits, filled up with zeros on the left. -/
def padded (width n : Nat) : String :=
  let ds := digits n
  String.ofList (List.replicate (width - ds.length) '0' ++ ds)

/-- The two digits of a byte. -/
def byte (b : UInt8) : String := padded 2 b.toNat

/-- Bytes run together. -/
def bytes (bs : List UInt8) : String := String.join (bs.map byte)

/-- Bytes with a blank between two. -/
def spaced (bs : List UInt8) : String := String.intercalate " " (bs.map byte)

/-- The value of a hexadecimal digit of either case. -/
def digit? (c : Char) : Option Nat :=
  if '0' ≤ c ∧ c ≤ '9' then some (c.toNat - '0'.toNat)
  else if 'a' ≤ c ∧ c ≤ 'f' then some (c.toNat - 'a'.toNat + 10)
  else if 'A' ≤ c ∧ c ≤ 'F' then some (c.toNat - 'A'.toNat + 10)
  else none

/-- The bytes that an even run of hexadecimal digits names. -/
def readBytes? : List Char → Option (List UInt8)
  | [] => some []
  | [_] => none
  | hi :: lo :: rest => do
    let h ← digit? hi
    let l ← digit? lo
    let bs ← readBytes? rest
    return UInt8.ofNat (16 * h + l) :: bs

end NativeBackend.Hex
