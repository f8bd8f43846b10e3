import NativeBackend.Text.Hex
import NativeBackend.Text.Hidden

/-!
# Quoted text

Text between quotes with everything escaped that would not show: quotes and
backslashes, the common control characters by a letter, and other hidden characters
by their numbers.
-/

namespace NativeBackend.Quoted

/-- A character between quotes. -/
def escape (c : Char) : String :=
  if c = '"' then "\\\""
  else if c = '\\' then "\\\\"
  else if c = '\n' then "\\n"
  else if c = '\r' then "\\r"
  else if c = '\t' then "\\t"
  else if c.toNat = 0 then "\\0"
  else if Hidden.isHidden c then "\\u\x7b" ++ String.ofList (Hex.digits c.toNat) ++ "\x7d"
  else c.toString

/-- Text between quotes. -/
def text (s : String) : String := "\"" ++ String.join (s.toList.map escape) ++ "\""

/-- Texts between quotes and brackets. -/
def list (ss : List String) : String := "[" ++ String.intercalate ", " (ss.map text) ++ "]"

end NativeBackend.Quoted
