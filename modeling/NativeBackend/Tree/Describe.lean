import NativeBackend.Tree.Basic

/-!
# References in messages

The text by which a message names a reference that cannot be used.
-/

namespace NativeBackend.Tree

/-- A variable by its number. -/
def VarId.describe (id : VarId) : String := "VarId(" ++ toString id.number.toNat ++ ")"

/-- A field by its two positions. -/
def FieldRef.describe (f : FieldRef) : String :=
  "FieldRef \x7b class: " ++ toString f.owner.toNat ++ ", field: " ++ toString f.position.toNat
    ++ " \x7d"

/-- A method by its two positions. -/
def MethodRef.describe (m : MethodRef) : String :=
  "MethodRef \x7b class: " ++ toString m.owner.toNat ++ ", method: " ++ toString m.position.toNat
    ++ " \x7d"

/-- A parameter by its position or a variable by its number. -/
def LocalRef.describe : LocalRef → String
  | param position => "Param(" ++ toString position.toNat ++ ")"
  | var id => "Var(" ++ id.describe ++ ")"

/-- A selected field or method. -/
def Member.describe : Member → String
  | field f => "Field(" ++ f.describe ++ ")"
  | method m => "Method(" ++ m.describe ++ ")"

/-- A reference with all its parts. -/
def Reference.describe : Reference → String
  | this => "This"
  | .localName name => "Local(" ++ name.describe ++ ")"
  | field f => "Field(" ++ f.describe ++ ")"
  | classAt position => "Class(" ++ toString position.toNat ++ ")"
  | method m => "Method(" ++ m.describe ++ ")"
  | println => "Println"
  | qualified base member =>
    "Qualified \x7b base: " ++ base.describe ++ ", member: " ++ member.describe ++ " \x7d"

end NativeBackend.Tree
