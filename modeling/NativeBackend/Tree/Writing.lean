import NativeBackend.Json.Writer
import NativeBackend.Tree.Basic

/-!
# Program trees as JSON values

Every record is an object with all its fields. An alternative with content is an
object with its tag for the one key, and one without content is its tag alone.
-/

namespace NativeBackend.Tree

open Json

/-- An alternative with its content. -/
def tagged (tag : String) (content : Value) : Value := .record [(tag, content)]

/-- A machine word as a number. -/
def wordValue (n : UInt64) : Value := .nat n.toNat

/-- The value of a variable's identity. -/
def VarId.toJson (id : VarId) : Value := .nat id.number.toNat

/-- The value of a field reference. -/
def FieldRef.toJson (f : FieldRef) : Value :=
  .record [("class", wordValue f.owner), ("field", wordValue f.position)]

/-- The value of a method reference. -/
def MethodRef.toJson (m : MethodRef) : Value :=
  .record [("class", wordValue m.owner), ("method", wordValue m.position)]

/-- The value of a type. -/
def TypeName.toJson : TypeName → Value
  | int => .text "int"
  | boolean => .text "boolean"
  | void => .text "void"
  | object className => tagged "class" (.text className)
  | array element => tagged "array" element.toJson
  | unsupported => .text "unsupported"
  | null => .text "null"

/-- The value of a constant. -/
def Literal.toJson : Literal → Value
  | int value => tagged "int" (.int value.toInt)
  | bool value => tagged "bool" (.bool value)
  | null => .text "null"

/-- The tag of an operator on one value. -/
def UnaryOp.tag : UnaryOp → String
  | not => "not"
  | neg => "neg"

/-- The tag of an operator on two values. -/
def BinaryOp.tag : BinaryOp → String
  | add => "add"
  | sub => "sub"
  | mul => "mul"
  | div => "div"
  | and => "and"
  | or => "or"
  | eq => "eq"
  | ne => "ne"
  | lt => "lt"
  | le => "le"
  | gt => "gt"
  | ge => "ge"

/-- The value of a name inside a routine. -/
def LocalRef.toJson : LocalRef → Value
  | param position => tagged "param" (wordValue position)
  | var id => tagged "var" id.toJson

/-- The value of a selected field or method. -/
def Member.toJson : Member → Value
  | field f => tagged "field" f.toJson
  | method m => tagged "method" m.toJson

/-- The value of a reference. -/
def Reference.toJson : Reference → Value
  | this => .text "this"
  | .localName name => tagged "local" name.toJson
  | field f => tagged "field" f.toJson
  | classAt position => tagged "class" (wordValue position)
  | method m => tagged "method" m.toJson
  | println => .text "println"
  | qualified base member =>
    tagged "qualified" (.record [("base", base.toJson), ("member", member.toJson)])

mutual

/-- The value of an expression. -/
def Expression.toJson : Expression → Value
  | .literal value => tagged "literal" value.toJson
  | .ref reference => tagged "ref" reference.toJson
  | .index array i => tagged "index" (.record [("array", array.toJson), ("index", i.toJson)])
  | .unary op operand =>
    tagged "unary" (.record [("op", .text op.tag), ("operand", operand.toJson)])
  | .binary op left right =>
    tagged "binary"
      (.record [("op", .text op.tag), ("left", left.toJson), ("right", right.toJson)])
  | .call callee args =>
    tagged "call" (.record [("callee", callee.toJson), ("args", .arr (Expression.listToJson args))])
  | .newObject position => tagged "new_object" (.record [("class", wordValue position)])
  | .newArray element size =>
    tagged "new_array" (.record [("element", element.toJson), ("size", size.toJson)])

/-- The values of expressions in order. -/
def Expression.listToJson : List Expression → List Value
  | [] => []
  | e :: es => e.toJson :: Expression.listToJson es

end

/-- The value of a declared variable. -/
def Variable.toJson (v : Variable) : Value :=
  .record [("name", .text v.name), ("ty", v.type.toJson), ("id", v.id.toJson)]

mutual

/-- The value of a statement. -/
def Statement.toJson : Statement → Value
  | .block body => tagged "block" (.arr (Statement.listToJson body))
  | .declare decl init =>
    tagged "var_decl" (.record [("var", decl.toJson), ("init", init.toJson)])
  | .assign target value =>
    tagged "assign" (.record [("target", target.toJson), ("value", value.toJson)])
  | .assignElement array index value =>
    tagged "indexed_assign"
      (.record [("array", array.toJson), ("index", index.toJson), ("value", value.toJson)])
  | .call callee args =>
    tagged "call" (.record [("callee", callee.toJson), ("args", .arr (Expression.listToJson args))])
  | .giveBack none => tagged "return" .null
  | .giveBack (some value) => tagged "return" value.toJson
  | .branch cond yes none =>
    tagged "if"
      (.record [("cond", cond.toJson), ("then_branch", yes.toJson), ("else_branch", .null)])
  | .branch cond yes (some no) =>
    tagged "if"
      (.record [("cond", cond.toJson), ("then_branch", yes.toJson), ("else_branch", no.toJson)])
  | .loop cond body => tagged "while" (.record [("cond", cond.toJson), ("body", body.toJson)])

/-- The values of statements in order. -/
def Statement.listToJson : List Statement → List Value
  | [] => []
  | s :: ss => s.toJson :: Statement.listToJson ss

end

/-- The value of a declared parameter. -/
def Parameter.toJson (p : Parameter) : Value :=
  .record [("name", .text p.name), ("ty", p.type.toJson)]

/-- The value of a declared field. -/
def FieldDecl.toJson (f : FieldDecl) : Value :=
  .record [("name", .text f.name), ("ty", f.type.toJson), ("is_static", .bool f.isStatic),
    ("is_private", .bool f.isPrivate)]

/-- The value of a declared method. -/
def MethodDecl.toJson (m : MethodDecl) : Value :=
  .record [("name", .text m.name), ("return_type", m.returnType.toJson),
    ("is_static", .bool m.isStatic), ("is_private", .bool m.isPrivate),
    ("params", .arr (m.params.map Parameter.toJson)), ("body", .arr (Statement.listToJson m.body))]

/-- The value of a declared class. -/
def ClassDecl.toJson (c : ClassDecl) : Value :=
  .record [("name", .text c.name), ("fields", .arr (c.fields.map FieldDecl.toJson)),
    ("methods", .arr (c.methods.map MethodDecl.toJson))]

/-- The value of a program. -/
def Program.toJson (p : Program) : Value :=
  .record [("classes", .arr (p.classes.map ClassDecl.toJson))]

/-- The text of a program. -/
def Program.write (p : Program) : String := p.toJson.write

end NativeBackend.Tree
