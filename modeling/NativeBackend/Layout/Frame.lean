import NativeBackend.Layout.Convention
import NativeBackend.Tree.Basic

/-!
# Frames

The offsets of parameters, receiver and locals from the frame base of a routine.

    [base + 16 + 8k]  parameters, the last one lowest
    [base + 16]       the receiver, in instance routines
    [base + 8]        the return address
    [base]            the saved frame base
    [base - 8]        the first local

Locals come and go with their scopes. A local takes the slot below the ones that are
live when it is declared, and a name finds the latest of its live declarations.
-/

namespace NativeBackend

open NativeBackend.Tree

/-- The frame of a routine at some point of its body. -/
structure Frame where
  hasReceiver : Bool
  paramCount : Nat
  /-- The live locals, the latest first. -/
  locals : List VarId
  deriving DecidableEq, Repr

namespace Frame

/-- The frame of a method before its first statement. -/
def ofMethod (m : MethodDecl) : Frame := ⟨!m.isStatic, m.params.length, []⟩

/-- The offset of the receiver, if there is one. -/
def receiver? (f : Frame) : Option Int32 :=
  if f.hasReceiver then some (Int32.ofInt Convention.receiverOffset) else none

/-- The offset of the last parameter, which lies lowest. -/
def lastParamOffset (f : Frame) : Int :=
  if f.hasReceiver then Convention.receiverOffset + Convention.wordSize
  else Convention.frameHeaderSize

/-- The offset of a parameter. Arguments are pushed from left to right, so the last one ends up
closest to the frame base. -/
def param? (f : Frame) (position : Nat) : Option Int32 :=
  if position < f.paramCount ∧ f.paramCount - 1 - position < 0x80000000 then
    some (Int32.ofInt
      (f.lastParamOffset + Convention.wordSize * (f.paramCount - 1 - position : Nat)))
  else none

/-- The offset of a local's slot, held at the smallest displacement when it does not fit one. -/
def localOffset (slot : Nat) : Int32 :=
  if slot < 0x80000000 then
    Int32.ofInt (Convention.firstLocalOffset - Convention.wordSize * (slot : Int))
  else Int32.minValue

/-- The count of live locals. -/
def live (f : Frame) : Nat := f.locals.length

/-- The frame with one more local. -/
def declare (f : Frame) (id : VarId) : Frame := { f with locals := id :: f.locals }

/-- The offset of the latest local. -/
def latestOffset (f : Frame) : Int32 := localOffset (f.live - 1)

/-- The offset of the latest live declaration of a local. -/
def local? (f : Frame) (id : VarId) : Option Int32 :=
  (f.locals.findIdx? (· == id)).map fun above ↦ localOffset (f.live - 1 - above)

/-- How many locals are live beyond a mark. -/
def beyond (f : Frame) (mark : Nat) : Nat := f.live - mark

/-- The frame without the locals beyond a mark. -/
def release (f : Frame) (mark : Nat) : Frame := { f with locals := f.locals.drop (f.beyond mark) }

end Frame

end NativeBackend
