/-!
# JSON values

A JSON text as a tree. Members of an object keep their order and may repeat a key.
A number without fraction and exponent is an integer; every other number keeps its
text, and so does minus zero. A string literal that escapes half of a surrogate
pair is well-formed but denotes no text, which `none` records.
-/

namespace NativeBackend.Json

/-- A JSON value. -/
inductive Value
  | null
  | bool (value : Bool)
  | int (value : Int)
  /-- A number with a fraction or an exponent, or minus zero, as written. -/
  | decimal (written : String)
  | str (denoted : Option String)
  | arr (items : List Value)
  | obj (members : List (Option String × Value))
  deriving Repr, Inhabited

namespace Value

mutual

/-- How deep arrays and objects nest; a value without any has depth zero. -/
def depth : Value → Nat
  | arr items => depthOfItems items + 1
  | obj members => depthOfMembers members + 1
  | _ => 0

/-- The greatest depth among the items of an array. -/
def depthOfItems : List Value → Nat
  | [] => 0
  | v :: vs => max v.depth (depthOfItems vs)

/-- The greatest depth among the members of an object. -/
def depthOfMembers : List (Option String × Value) → Nat
  | [] => 0
  | (_, v) :: vs => max v.depth (depthOfMembers vs)

end

/-- A string with its text. -/
def text (s : String) : Value := .str (some s)

/-- A natural number. -/
def nat (n : Nat) : Value := .int n

/-- An object with its keys given as text. -/
def record (members : List (String × Value)) : Value :=
  .obj (members.map fun (k, v) ↦ (some k, v))

/-- The value of a key in an object; of several members with that key the last one counts. -/
def member? (v : Value) (key : String) : Option Value :=
  match v with
  | obj members => (members.reverse.find? (·.1 == some key)).map Prod.snd
  | _ => none

/-- The items of an array. -/
def items? : Value → Option (List Value)
  | arr items => some items
  | _ => none

/-- The text of a string. -/
def text? : Value → Option String
  | str s => s
  | _ => none

/-- The truth value of a boolean. -/
def bool? : Value → Option Bool
  | bool b => some b
  | _ => none

/-- An integer below a limit and not negative. -/
def natBelow? (limit : Nat) : Value → Option Nat
  | int n => if 0 ≤ n ∧ n < limit then some n.toNat else none
  | _ => none

/-- An unsigned 32-bit integer. -/
def uint32? (v : Value) : Option UInt32 := (v.natBelow? 0x100000000).map UInt32.ofNat

/-- An unsigned 64-bit integer. -/
def uint64? (v : Value) : Option UInt64 := (v.natBelow? 0x10000000000000000).map UInt64.ofNat

/-- A signed 32-bit integer. -/
def int32? : Value → Option Int32
  | int n => if -0x80000000 ≤ n ∧ n < 0x80000000 then some (Int32.ofInt n) else none
  | _ => none

end Value

end NativeBackend.Json
