import NativeBackend.Layout.Convention
import NativeBackend.Tree.Lookup

/-!
# Field layout

Every field has a slot, assigned once for a whole program. The instance fields of a
class take slots of their own from zero; the static fields of all classes share one
area that lies after the code.
-/

namespace NativeBackend

open NativeBackend.Tree

/-- Where a field lies. -/
inductive FieldSlot
  /-- An offset from the start of an object. -/
  | inObject (offset : Int32)
  /-- An offset from the start of the static area. -/
  | inStatics (offset : Int32)
  deriving DecidableEq, Repr

/-- The offset of a slot, held at the largest displacement when it does not fit one. -/
def slotOffset (slot : Nat) : Int32 := Int32.ofNat (min (Convention.wordSize * slot) 0x7FFFFFFF)

/-- The slots of the fields of a class, and the count of static slots after them. -/
def classSlots (instances statics : Nat) : List FieldDecl → List FieldSlot × Nat
  | [] => ([], statics)
  | f :: fs =>
    if f.isStatic then
      let (slots, total) := classSlots instances (statics + 1) fs
      (.inStatics (slotOffset statics) :: slots, total)
    else
      let (slots, total) := classSlots (instances + 1) statics fs
      (.inObject (slotOffset instances) :: slots, total)

/-- The slots of the fields of all classes, and the count of static slots after them. -/
def programSlots (statics : Nat) : List ClassDecl → List (List FieldSlot) × Nat
  | [] => ([], statics)
  | c :: cs =>
    let (here, statics) := classSlots 0 statics c.fields
    let (rest, total) := programSlots statics cs
    (here :: rest, total)

/-- The slots of a program. -/
structure FieldLayout where
  slots : List (List FieldSlot)
  staticCount : Nat
  deriving DecidableEq, Repr

namespace FieldLayout

/-- The slots of a program's fields. -/
def ofProgram (p : Program) : FieldLayout :=
  let (slots, total) := programSlots 0 p.classes
  ⟨slots, total⟩

/-- The slot of a field, if there is such a field. -/
def slot? (l : FieldLayout) (f : FieldRef) : Option FieldSlot := do
  (← l.slots[f.owner.toNat]?)[f.position.toNat]?

/-- The bytes of the static area. -/
def staticSize (l : FieldLayout) : Nat := Convention.wordSize * l.staticCount

end FieldLayout

/-- The offset of the static area from the start of code of a given length: the first word boundary
at or after its end. -/
def staticAreaOffset (codeLength : Nat) : Nat :=
  (codeLength + (Convention.wordSize - 1)) / Convention.wordSize * Convention.wordSize
    % 0x10000000000000000

end NativeBackend
