import NativeBackend.Json.Value
import NativeBackend.Text.Hex

/-!
# Reading JSON

A strict reader: no comments, no trailing commas, no leading zeros, no raw control
characters in strings, and nothing but blanks around the value. The recursion is
bounded by a count that the length of the text supplies, so `read?` shows none.
-/

namespace NativeBackend.Json

/-- Blanks between the parts of a text. -/
def isBlank (c : Char) : Bool := c == ' ' || c == '\n' || c == '\t' || c == '\r'

/-- The text after leading blanks. -/
def skipBlanks (cs : List Char) : List Char := cs.dropWhile isBlank

/-- The number that four hexadecimal digits name. -/
def hexUnit? (a b c d : Char) : Option Nat := do
  let a ← Hex.digit? a
  let b ← Hex.digit? b
  let c ← Hex.digit? c
  let d ← Hex.digit? d
  return ((a * 16 + b) * 16 + c) * 16 + d

/-- Whether a unit is the first half of a surrogate pair. -/
def isLeading (unit : Nat) : Bool := 0xD800 ≤ unit && unit < 0xDC00

/-- Whether a unit is the second half of a surrogate pair. -/
def isTrailing (unit : Nat) : Bool := 0xDC00 ≤ unit && unit < 0xE000

/-- The character that a surrogate pair denotes. -/
def pairChar (leading trailing : Nat) : Char :=
  Char.ofNat (0x10000 + (leading - 0xD800) * 0x400 + (trailing - 0xDC00))

/-- The character of a one-letter escape. -/
def escaped? : Char → Option Char
  | '"' => some '"'
  | '\\' => some '\\'
  | '/' => some '/'
  | 'b' => some (Char.ofNat 8)
  | 'f' => some (Char.ofNat 12)
  | 'n' => some '\n'
  | 'r' => some '\r'
  | 't' => some '\t'
  | _ => none

/-- A part of a string literal: a character, or a unit given by its number. -/
inductive Piece
  | char (c : Char)
  | unit (number : Nat)
  deriving DecidableEq, Repr

/-- The parts of a string literal after those of `done`, which are in reverse, and the text after
the closing quote. -/
def readPieces? (done : List Piece) : List Char → Option (List Piece × List Char)
  | [] => none
  | '"' :: rest => some (done.reverse, rest)
  | '\\' :: 'u' :: a :: b :: c :: d :: rest =>
    match hexUnit? a b c d with
    | some n => readPieces? (.unit n :: done) rest
    | none => none
  | '\\' :: c :: rest =>
    match escaped? c with
    | some e => readPieces? (.char e :: done) rest
    | none => none
  | c :: rest => if c.toNat < 0x20 then none else readPieces? (.char c :: done) rest

/-- The characters that the parts of a literal denote after those of `done`, which are in reverse;
none when a surrogate is left alone. -/
def denote? (done : List Char) : List Piece → Option (List Char)
  | [] => some done.reverse
  | .char c :: rest => denote? (c :: done) rest
  | .unit n :: .unit m :: rest =>
    if isLeading n then
      if isTrailing m then denote? (pairChar n m :: done) rest else none
    else if isTrailing n then none
    else denote? (Char.ofNat n :: done) (.unit m :: rest)
  | .unit n :: rest =>
    if isLeading n || isTrailing n then none else denote? (Char.ofNat n :: done) rest

/-- The text that a literal denotes and the text after its closing quote. -/
def readText? (cs : List Char) : Option (Option String × List Char) :=
  (readPieces? [] cs).map fun (pieces, rest) ↦ ((denote? [] pieces).map String.ofList, rest)

/-- Whether a character is a decimal digit. -/
def isDigit (c : Char) : Bool := '0' ≤ c && c ≤ '9'

/-- The number that a run of decimal digits names. -/
def natOfDigits (ds : List Char) : Nat := ds.foldl (fun n d ↦ 10 * n + (d.toNat - '0'.toNat)) 0

/-- A run of at least one digit, and the text after it. -/
def digits? (cs : List Char) : Option (List Char × List Char) :=
  match cs.takeWhile isDigit with
  | [] => none
  | ds => some (ds, cs.dropWhile isDigit)

/-- The digits before a fraction or exponent: no zero leads others. -/
def wholeDigits? (cs : List Char) : Option (List Char × List Char) :=
  match digits? cs with
  | some ('0' :: _ :: _, _) => none
  | other => other

/-- The fraction of a number as written, which may be empty. -/
def fraction? : List Char → Option (List Char × List Char)
  | '.' :: rest => (digits? rest).map fun (ds, rest) ↦ ('.' :: ds, rest)
  | cs => some ([], cs)

/-- A sign as written, which may be empty. -/
def splitSign : List Char → List Char × List Char
  | '+' :: rest => (['+'], rest)
  | '-' :: rest => (['-'], rest)
  | cs => ([], cs)

/-- The exponent of a number as written, which may be empty. -/
def exponent? : List Char → Option (List Char × List Char)
  | e :: rest =>
    if e == 'e' || e == 'E' then
      let (sign, rest) := splitSign rest
      (digits? rest).map fun (ds, rest) ↦ (e :: sign ++ ds, rest)
    else some ([], e :: rest)
  | [] => some ([], [])

/-- A number and the text after it. -/
def readNumber? (cs : List Char) : Option (Value × List Char) := do
  let (negative, cs) := match cs with
    | '-' :: rest => (true, rest)
    | _ => (false, cs)
  let (whole, cs) ← wholeDigits? cs
  let (fraction, cs) ← fraction? cs
  let (exponent, cs) ← exponent? cs
  let n := natOfDigits whole
  if fraction.isEmpty && exponent.isEmpty && !(negative && n == 0) then
    return (.int (if negative then -n else n), cs)
  else
    let sign := if negative then ['-'] else []
    return (.decimal (String.ofList (sign ++ whole ++ fraction ++ exponent)), cs)

mutual

/-- A value and the text after it. -/
def readValue? : Nat → List Char → Option (Value × List Char)
  | 0, _ => none
  | fuel + 1, cs =>
    match skipBlanks cs with
    | 'n' :: 'u' :: 'l' :: 'l' :: rest => some (.null, rest)
    | 't' :: 'r' :: 'u' :: 'e' :: rest => some (.bool true, rest)
    | 'f' :: 'a' :: 'l' :: 's' :: 'e' :: rest => some (.bool false, rest)
    | '"' :: rest => (readText? rest).map fun (s, rest) ↦ (.str s, rest)
    | '[' :: rest =>
      match skipBlanks rest with
      | ']' :: rest => some (.arr [], rest)
      | rest => (readItems? fuel rest).map fun (vs, rest) ↦ (.arr vs, rest)
    | '{' :: rest =>
      match skipBlanks rest with
      | '}' :: rest => some (.obj [], rest)
      | rest => (readMembers? fuel rest).map fun (vs, rest) ↦ (.obj vs, rest)
    | rest => readNumber? rest

/-- The items of an array from one of them on, and the text after the closing bracket. -/
def readItems? : Nat → List Char → Option (List Value × List Char)
  | 0, _ => none
  | fuel + 1, cs => do
    let (v, rest) ← readValue? fuel cs
    match skipBlanks rest with
    | ',' :: rest => (readItems? fuel rest).map fun (vs, rest) ↦ (v :: vs, rest)
    | ']' :: rest => some ([v], rest)
    | _ => none

/-- The members of an object from one of them on, and the text after the closing brace. -/
def readMembers? : Nat → List Char → Option (List (Option String × Value) × List Char)
  | 0, _ => none
  | fuel + 1, cs =>
    match skipBlanks cs with
    | '"' :: rest => do
      let (key, rest) ← readText? rest
      match skipBlanks rest with
      | ':' :: rest =>
        let (v, rest) ← readValue? fuel rest
        match skipBlanks rest with
        | ',' :: rest => (readMembers? fuel rest).map fun (vs, rest) ↦ ((key, v) :: vs, rest)
        | '}' :: rest => some ([(key, v)], rest)
        | _ => none
      | _ => none
    | _ => none

end

/-- The value of a whole text. Every step of the reader passes at least every second time over a
character, so twice the length of the text bounds its recursion. -/
def read? (text : String) : Option Value :=
  let cs := text.toList
  match readValue? (2 * cs.length + 2) cs with
  | some (v, rest) => if (skipBlanks rest).isEmpty then some v else none
  | none => none

end NativeBackend.Json
