import NativeBackend.Machine.Stream

/-!
# Listings

One line for each emitted instruction: its address, its bytes and its text.
-/

namespace NativeBackend.Machine

/-- Text filled up with blanks on the right to a width. -/
def padRight (width : Nat) (s : String) : String :=
  s ++ String.ofList (List.replicate (width - s.length) ' ')

/-- The line of one instruction in code that starts at an address. -/
def Emitted.line (base : UInt64) (e : Emitted) : String :=
  Hex.padded 8 (base + UInt64.ofNat e.start).toNat ++ "  " ++ padRight 30 (Hex.spaced e.bytes)
    ++ " " ++ e.instruction.text

namespace CodeStream

/-- The lines of a stream in code that starts at an address. -/
def lines (s : CodeStream) (base : UInt64) : List String :=
  s.entries.toList.map (Emitted.line base)

/-- The lines of a stream, each with its line end. -/
def listing (s : CodeStream) (base : UInt64) : String :=
  String.join ((s.lines base).map (· ++ "\n"))

end CodeStream

end NativeBackend.Machine
