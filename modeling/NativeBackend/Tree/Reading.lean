import NativeBackend.Json.Reader
import NativeBackend.Tree.Basic

/-!
# Program trees from JSON values

A record may be written as an object, whose keys may come in any order and among
keys of no meaning, or as the array of its fields. An alternative without content
may be its tag, or an object with that tag and nothing in it; every other one is an
object with its tag for the one key.

Each reader takes the count of arrays and objects that may still nest below it. What
stands under a key of no meaning is not read and so does not count.
-/

namespace NativeBackend.Tree

open Json

/-- The deepest nesting that is read from a text. -/
def nestingLimit : Nat := 127

/-- The value under a key among the members of an object: none if it is missing, and no answer if
it is repeated. -/
def soleMember? (members : List (Option String × Value)) (key : String) :
    Option (Option Value) :=
  match members.filter (·.1 == some key) with
  | [] => some none
  | [(_, v)] => some (some v)
  | _ => none

/-- The fields of a record in the order of their names. Fields at the end of an array may be
missing. -/
def fieldsOf? (names : List String) : Value → Option (List (Option Value))
  | .obj members =>
    if members.all (·.1.isSome) then names.mapM (soleMember? members) else none
  | .arr items =>
    if items.length ≤ names.length then
      some (items.map some ++ List.replicate (names.length - items.length) none)
    else none
  | _ => none

/-- The tag and content of an alternative that has content. -/
def content? : Value → Option (String × Value)
  | .obj [(some tag, v)] => some (tag, v)
  | _ => none

/-- The tag of an alternative that has no content, within a nesting. -/
def bareTag? (nesting : Nat) : Value → Option String
  | .str s => s
  | .obj [(some tag, .null)] => if nesting = 0 then none else some tag
  | _ => none

/-- A field that must be there. -/
def required {α : Type} (read : Value → Option α) (v : Option Value) : Option α := v.bind read

/-- A field that stands for a default when it is missing. -/
def defaulted {α : Type} (default : α) (read : Value → Option α) : Option Value → Option α
  | none => some default
  | some v => read v

/-- A value that may be left out or written as null. -/
def optional {α : Type} (read : Value → Option α) : Value → Option (Option α)
  | .null => some none
  | v => (read v).map some

/-- The items of an array, each read with one nesting less. -/
def items? {α : Type} (read : Nat → Value → Option α) : Nat → Value → Option (List α)
  | nesting + 1, .arr items => items.mapM (read nesting)
  | _, _ => none

/-- The identity of a variable. -/
def readVarId? (v : Value) : Option VarId := v.uint32?.map VarId.mk

/-- A field reference. -/
def readFieldRef? : Nat → Value → Option FieldRef
  | _ + 1, v => do
    let [owner, position] ← fieldsOf? ["class", "field"] v | none
    return ⟨← required Value.uint64? owner, ← required Value.uint64? position⟩
  | 0, _ => none

/-- A method reference. -/
def readMethodRef? : Nat → Value → Option MethodRef
  | _ + 1, v => do
    let [owner, position] ← fieldsOf? ["class", "method"] v | none
    return ⟨← required Value.uint64? owner, ← required Value.uint64? position⟩
  | 0, _ => none

/-- The type without content that a tag names. -/
def TypeName.ofTag? : String → Option TypeName
  | "int" => some .int
  | "boolean" => some .boolean
  | "void" => some .void
  | "unsupported" => some .unsupported
  | "null" => some .null
  | _ => none

/-- A type. -/
def readType? : Nat → Value → Option TypeName
  | nesting, v =>
    match bareTag? nesting v with
    | some tag => TypeName.ofTag? tag
    | none =>
      match nesting, content? v with
      | nesting + 1, some ("array", element) => (readType? nesting element).map .array
      | _ + 1, some ("class", name) => name.text?.map .object
      | _, _ => none

/-- A constant. -/
def readLiteral? (nesting : Nat) (v : Value) : Option Literal :=
  match bareTag? nesting v with
  | some "null" => some .null
  | some _ => none
  | none =>
    match nesting, content? v with
    | _ + 1, some ("int", value) => value.int32?.map .int
    | _ + 1, some ("bool", value) => value.bool?.map .bool
    | _, _ => none

/-- An operator on one value. -/
def readUnaryOp? (nesting : Nat) (v : Value) : Option UnaryOp :=
  match bareTag? nesting v with
  | some "not" => some .not
  | some "neg" => some .neg
  | _ => none

/-- An operator on two values. -/
def readBinaryOp? (nesting : Nat) (v : Value) : Option BinaryOp :=
  match bareTag? nesting v with
  | some "add" => some .add
  | some "sub" => some .sub
  | some "mul" => some .mul
  | some "div" => some .div
  | some "and" => some .and
  | some "or" => some .or
  | some "eq" => some .eq
  | some "ne" => some .ne
  | some "lt" => some .lt
  | some "le" => some .le
  | some "gt" => some .gt
  | some "ge" => some .ge
  | _ => none

/-- A name inside a routine. -/
def readLocalRef? (nesting : Nat) (v : Value) : Option LocalRef :=
  match nesting, content? v with
  | _ + 1, some ("param", position) => position.uint64?.map .param
  | _ + 1, some ("var", id) => (readVarId? id).map .var
  | _, _ => none

/-- A selected field or method. -/
def readMember? (nesting : Nat) (v : Value) : Option Member :=
  match nesting, content? v with
  | nesting + 1, some ("field", f) => (readFieldRef? nesting f).map .field
  | nesting + 1, some ("method", m) => (readMethodRef? nesting m).map .method
  | _, _ => none

mutual

/-- A reference. -/
def readReference? : Nat → Value → Option Reference
  | nesting, v =>
    match bareTag? nesting v with
    | some "this" => some .this
    | some "println" => some .println
    | some _ => none
    | none =>
      match nesting, content? v with
      | nesting + 1, some ("local", name) => (readLocalRef? nesting name).map .localName
      | nesting + 1, some ("field", f) => (readFieldRef? nesting f).map .field
      | _ + 1, some ("class", position) => position.uint64?.map .classAt
      | nesting + 1, some ("method", m) => (readMethodRef? nesting m).map .method
      | nesting + 1, some ("qualified", record) => readQualified? nesting record
      | _, _ => none

/-- A base with the member it selects. -/
def readQualified? : Nat → Value → Option Reference
  | nesting + 1, v => do
    let [base, member] ← fieldsOf? ["base", "member"] v | none
    return .qualified (← required (readReference? nesting) base)
      (← required (readMember? nesting) member)
  | 0, _ => none

end

mutual

/-- An expression. -/
def readExpression? : Nat → Value → Option Expression
  | nesting + 1, v =>
    match content? v with
    | some ("literal", value) => (readLiteral? nesting value).map .literal
    | some ("ref", reference) => (readReference? nesting reference).map .ref
    | some (tag, record) => readOperation? nesting tag record
    | none => none
  | 0, _ => none

/-- An expression whose content is a record. -/
def readOperation? : Nat → String → Value → Option Expression
  | nesting + 1, "index", v => do
    let [array, index] ← fieldsOf? ["array", "index"] v | none
    return .index (← required (readReference? nesting) array)
      (← required (readExpression? nesting) index)
  | nesting + 1, "unary", v => do
    let [op, operand] ← fieldsOf? ["op", "operand"] v | none
    return .unary (← required (readUnaryOp? nesting) op)
      (← required (readExpression? nesting) operand)
  | nesting + 1, "binary", v => do
    let [op, left, right] ← fieldsOf? ["op", "left", "right"] v | none
    return .binary (← required (readBinaryOp? nesting) op)
      (← required (readExpression? nesting) left) (← required (readExpression? nesting) right)
  | nesting + 1, "call", v => do
    let [callee, args] ← fieldsOf? ["callee", "args"] v | none
    return .call (← required (readReference? nesting) callee)
      (← defaulted [] (readArguments? nesting) args)
  | _ + 1, "new_object", v => do
    let [position] ← fieldsOf? ["class"] v | none
    return .newObject (← required Value.uint64? position)
  | nesting + 1, "new_array", v => do
    let [element, size] ← fieldsOf? ["element", "size"] v | none
    return .newArray (← required (readType? nesting) element)
      (← required (readExpression? nesting) size)
  | _, _, _ => none

/-- The arguments of a call. -/
def readArguments? : Nat → Value → Option (List Expression)
  | nesting + 1, .arr items => items.mapM (readExpression? nesting)
  | _, _ => none

end

/-- A declared variable. -/
def readVariable? : Nat → Value → Option Variable
  | nesting + 1, v => do
    let [name, type, id] ← fieldsOf? ["name", "ty", "id"] v | none
    return ⟨← required Value.text? name, ← required (readType? nesting) type,
      ← required readVarId? id⟩
  | 0, _ => none

mutual

/-- A statement. -/
def readStatement? : Nat → Value → Option Statement
  | nesting + 1, v =>
    match content? v with
    | some ("block", body) => (readStatements? nesting body).map .block
    | some ("return", value) => (optional (readExpression? nesting) value).map .giveBack
    | some (tag, record) => readAction? nesting tag record
    | none => none
  | 0, _ => none

/-- A statement whose content is a record. -/
def readAction? : Nat → String → Value → Option Statement
  | nesting + 1, "var_decl", v => do
    let [decl, init] ← fieldsOf? ["var", "init"] v | none
    return .declare (← required (readVariable? nesting) decl)
      (← required (readExpression? nesting) init)
  | nesting + 1, "assign", v => do
    let [target, value] ← fieldsOf? ["target", "value"] v | none
    return .assign (← required (readReference? nesting) target)
      (← required (readExpression? nesting) value)
  | nesting + 1, "indexed_assign", v => do
    let [array, index, value] ← fieldsOf? ["array", "index", "value"] v | none
    return .assignElement (← required (readReference? nesting) array)
      (← required (readExpression? nesting) index) (← required (readExpression? nesting) value)
  | nesting + 1, "call", v => do
    let [callee, args] ← fieldsOf? ["callee", "args"] v | none
    return .call (← required (readReference? nesting) callee)
      (← defaulted [] (readArguments? nesting) args)
  | nesting + 1, "if", v => do
    let [cond, yes, no] ← fieldsOf? ["cond", "then_branch", "else_branch"] v | none
    return .branch (← required (readExpression? nesting) cond)
      (← required (readStatement? nesting) yes)
      (← defaulted none (optional (readStatement? nesting)) no)
  | nesting + 1, "while", v => do
    let [cond, body] ← fieldsOf? ["cond", "body"] v | none
    return .loop (← required (readExpression? nesting) cond)
      (← required (readStatement? nesting) body)
  | _, _, _ => none

/-- Statements in order. -/
def readStatements? : Nat → Value → Option (List Statement)
  | nesting + 1, .arr items => items.mapM (readStatement? nesting)
  | _, _ => none

end

/-- A declared parameter. -/
def readParameter? : Nat → Value → Option Parameter
  | nesting + 1, v => do
    let [name, type] ← fieldsOf? ["name", "ty"] v | none
    return ⟨← required Value.text? name, ← required (readType? nesting) type⟩
  | 0, _ => none

/-- A declared field. -/
def readField? : Nat → Value → Option FieldDecl
  | nesting + 1, v => do
    let [name, type, isStatic, isPrivate] ←
      fieldsOf? ["name", "ty", "is_static", "is_private"] v | none
    return ⟨← required Value.text? name, ← required (readType? nesting) type,
      ← defaulted false Value.bool? isStatic, ← defaulted false Value.bool? isPrivate⟩
  | 0, _ => none

/-- A declared method. -/
def readMethod? : Nat → Value → Option MethodDecl
  | nesting + 1, v => do
    let [name, returnType, isStatic, isPrivate, params, body] ←
      fieldsOf? ["name", "return_type", "is_static", "is_private", "params", "body"] v | none
    return ⟨← required Value.text? name, ← required (readType? nesting) returnType,
      ← defaulted false Value.bool? isStatic, ← defaulted false Value.bool? isPrivate,
      ← defaulted [] (items? readParameter? nesting) params,
      ← defaulted [] (readStatements? nesting) body⟩
  | 0, _ => none

/-- A declared class. -/
def readClass? : Nat → Value → Option ClassDecl
  | nesting + 1, v => do
    let [name, fields, methods] ← fieldsOf? ["name", "fields", "methods"] v | none
    return ⟨← required Value.text? name, ← defaulted [] (items? readField? nesting) fields,
      ← defaulted [] (items? readMethod? nesting) methods⟩
  | 0, _ => none

/-- A program. -/
def readProgram? : Nat → Value → Option Program
  | nesting + 1, v => do
    let [classes] ← fieldsOf? ["classes"] v | none
    return ⟨← required (items? readClass? nesting) classes⟩
  | 0, _ => none

/-- The program that a value stands for, however deep it nests. -/
def Program.ofJson? (v : Value) : Option Program := readProgram? v.depth v

/-- The method that a value stands for, however deep it nests. -/
def MethodDecl.ofJson? (v : Value) : Option MethodDecl := readMethod? v.depth v

/-- The expression that a value stands for, however deep it nests. -/
def Expression.ofJson? (v : Value) : Option Expression := readExpression? v.depth v

/-- The statement that a value stands for, however deep it nests. -/
def Statement.ofJson? (v : Value) : Option Statement := readStatement? v.depth v

/-- The reference that a value stands for, however deep it nests. -/
def Reference.ofJson? (v : Value) : Option Reference := readReference? v.depth v

/-- The type that a value stands for, however deep it nests. -/
def TypeName.ofJson? (v : Value) : Option TypeName := readType? v.depth v

/-- The operator on one value that a value stands for. -/
def UnaryOp.ofJson? (v : Value) : Option UnaryOp := readUnaryOp? v.depth v

/-- The operator on two values that a value stands for. -/
def BinaryOp.ofJson? (v : Value) : Option BinaryOp := readBinaryOp? v.depth v

/-- The program that a text holds. -/
def Program.read? (text : String) : Option Program :=
  (Json.read? text).bind (readProgram? nestingLimit)

end NativeBackend.Tree
