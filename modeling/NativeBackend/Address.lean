import NativeBackend.Text.Hex

/-!
# Load addresses

A load address as a user writes it: hexadecimal after `0x` or `0X`, decimal
otherwise, with at most one plus sign before the digits. It must fit a machine
word and lie on a page boundary.
-/

namespace NativeBackend

/-- The bytes of a page, to which a load address is aligned. -/
def pageSize : Nat := 0x1000

namespace Address

/-- Why a run of digits is no machine word. -/
inductive DigitFault
  | noDigits
  | invalidDigit
  | tooLarge
  deriving DecidableEq, Repr

/-- The cause in words. -/
def DigitFault.message : DigitFault → String
  | noDigits => "cannot parse integer from empty string"
  | invalidDigit => "invalid digit found in string"
  | tooLarge => "number too large to fit in target type"

/-- Why a text is no load address. -/
inductive Fault
  | digits (text : String) (cause : DigitFault)
  | misaligned (text : String)
  deriving DecidableEq, Repr

/-- The cause in words. -/
def Fault.message : Fault → String
  | digits text cause => "invalid address '" ++ text ++ "': " ++ cause.message
  | misaligned text => "load address '" ++ text ++ "' is not a multiple of " ++ Hex.marked pageSize

/-- The value of a digit below a base. -/
def digitBelow? (base : Nat) (c : Char) : Option Nat := (Hex.digit? c).filter (· < base)

/-- The word that digits name after those already read as `acc`. Each digit is looked at before the
number with it is compared with the size of a word. -/
def accumulate (base acc : Nat) : List Char → Except DigitFault Nat
  | [] => .ok acc
  | c :: cs =>
    match digitBelow? base c with
    | none => .error .invalidDigit
    | some d =>
      if acc * base + d < 0x10000000000000000 then accumulate base (acc * base + d) cs
      else .error .tooLarge

/-- The word that a text with an optional plus sign names in a base. -/
def wordOf (base : Nat) : List Char → Except DigitFault Nat
  | [] => .error .noDigits
  | ['+'] => .error .invalidDigit
  | '+' :: cs => accumulate base 0 cs
  | cs => accumulate base 0 cs

/-- The word that the digits of an address name. -/
def digitsOf : List Char → Except DigitFault Nat
  | '0' :: 'x' :: cs => wordOf 16 cs
  | '0' :: 'X' :: cs => wordOf 16 cs
  | cs => wordOf 10 cs

/-- The load address that a text names. -/
def parse (text : String) : Except Fault UInt64 :=
  match digitsOf text.toList with
  | .error cause => .error (.digits text cause)
  | .ok n => if n % pageSize = 0 then .ok (UInt64.ofNat n) else .error (.misaligned text)

end Address

end NativeBackend
