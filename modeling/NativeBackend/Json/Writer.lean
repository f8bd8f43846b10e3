import NativeBackend.Json.Value
import NativeBackend.Text.Hex

/-!
# Writing JSON

The compact text of a value: no blanks, quotes and backslashes escaped, control
characters by their one-letter escape where there is one and by their number
otherwise, and every other character as itself.
-/

namespace NativeBackend.Json

/-- A character inside a string literal. -/
def escape (c : Char) : List Char :=
  if c == '"' then ['\\', '"']
  else if c == '\\' then ['\\', '\\']
  else if c == '\n' then ['\\', 'n']
  else if c == '\r' then ['\\', 'r']
  else if c == '\t' then ['\\', 't']
  else if c.toNat == 8 then ['\\', 'b']
  else if c.toNat == 12 then ['\\', 'f']
  else if c.toNat < 0x20 then '\\' :: 'u' :: (Hex.padded 4 c.toNat).toList
  else [c]

/-- A string literal. A literal that denotes no text is written as a surrogate left alone. -/
def writeString : Option String → List Char
  | some s => '"' :: (s.toList.flatMap escape ++ ['"'])
  | none => "\"\\ud800\"".toList

mutual

/-- The characters of a value, before those of `rest`. -/
def writeValue : Value → List Char → List Char
  | .null, rest => 'n' :: 'u' :: 'l' :: 'l' :: rest
  | .bool true, rest => 't' :: 'r' :: 'u' :: 'e' :: rest
  | .bool false, rest => 'f' :: 'a' :: 'l' :: 's' :: 'e' :: rest
  | .int n, rest => (toString n).toList ++ rest
  | .decimal written, rest => written.toList ++ rest
  | .str s, rest => writeString s ++ rest
  | .arr [], rest => '[' :: ']' :: rest
  | .arr (v :: vs), rest => '[' :: writeValue v (writeItems vs (']' :: rest))
  | .obj [], rest => '{' :: '}' :: rest
  | .obj ((k, v) :: vs), rest =>
    '{' :: (writeString k ++ ':' :: writeValue v (writeMembers vs ('}' :: rest)))

/-- The items of an array after its first. -/
def writeItems : List Value → List Char → List Char
  | [], rest => rest
  | v :: vs, rest => ',' :: writeValue v (writeItems vs rest)

/-- The members of an object after its first. -/
def writeMembers : List (Option String × Value) → List Char → List Char
  | [], rest => rest
  | (k, v) :: vs, rest => ',' :: (writeString k ++ ':' :: writeValue v (writeMembers vs rest))

end

/-- The compact text of a value. -/
def Value.write (v : Value) : String := String.ofList (writeValue v [])

end NativeBackend.Json
