import Mathlib
import NativeBackend.Proofs.Tree.Records

/-!
# The kinds of parts of a tree

A table of every kind of part that a tree has: the fields of the records with their names, order
and defaults, and the tags of the alternatives with what they hold. The readers follow the table.
A record reads as what its fields make, an alternative as what its content makes or its tag
says, and an alternative that is read has one of the tags of its kind.
-/

namespace NativeBackend.Tree

open Json

/-- A kind of part of a tree. The content of an alternative that is a record has a kind of its
own. -/
inductive Kind
  | text | flag | word | int | varId
  | list (item : Kind)
  | option (content : Kind)
  | fieldRef | methodRef | type | literal | unaryOp | binaryOp | localRef | member
  | qualified | reference
  | index | unary | binary | callValue | newObject | newArray | expression
  | declaredVar | declare | assign | assignElement | call | branch | loop | statement
  | parameter | field | method | classDecl | program

namespace Kind

/-- The parts of a kind. -/
@[reducible] def Part : Kind → Type
  | text => String
  | flag => Bool
  | word => UInt64
  | int => Int32
  | varId => VarId
  | list item => List item.Part
  | option content => Option content.Part
  | fieldRef => FieldRef
  | methodRef => MethodRef
  | type => TypeName
  | literal => Literal
  | unaryOp => UnaryOp
  | binaryOp => BinaryOp
  | localRef => LocalRef
  | member => Member
  | qualified | reference => Reference
  | index | unary | binary | callValue | newObject | newArray | expression => Expression
  | declaredVar => Variable
  | declare | assign | assignElement | call | branch | loop | statement => Statement
  | parameter => Parameter
  | field => FieldDecl
  | method => MethodDecl
  | classDecl => ClassDecl
  | program => Program

/-- The reader of the parts of a kind. -/
def read? : (k : Kind) → Nat → Value → Option k.Part
  | text => fun _ ↦ Value.text?
  | flag => fun _ ↦ Value.bool?
  | word => fun _ ↦ Value.uint64?
  | int => fun _ ↦ Value.int32?
  | varId => fun _ ↦ readVarId?
  | list item => items? item.read?
  | option content => fun n ↦ optional (content.read? n)
  | fieldRef => readFieldRef?
  | methodRef => readMethodRef?
  | type => readType?
  | literal => readLiteral?
  | unaryOp => readUnaryOp?
  | binaryOp => readBinaryOp?
  | localRef => readLocalRef?
  | member => readMember?
  | qualified => readQualified?
  | reference => readReference?
  | index => fun n ↦ readOperation? n "index"
  | unary => fun n ↦ readOperation? n "unary"
  | binary => fun n ↦ readOperation? n "binary"
  | callValue => fun n ↦ readOperation? n "call"
  | newObject => fun n ↦ readOperation? n "new_object"
  | newArray => fun n ↦ readOperation? n "new_array"
  | expression => readExpression?
  | declaredVar => readVariable?
  | declare => fun n ↦ readAction? n "var_decl"
  | assign => fun n ↦ readAction? n "assign"
  | assignElement => fun n ↦ readAction? n "indexed_assign"
  | call => fun n ↦ readAction? n "call"
  | branch => fun n ↦ readAction? n "if"
  | loop => fun n ↦ readAction? n "while"
  | statement => readStatement?
  | parameter => readParameter?
  | field => readField?
  | method => readMethod?
  | classDecl => readClass?
  | program => readProgram?

end Kind

/-- A field of a record, with the value that it has where it is left out, if it may be. -/
structure Slot where
  name : String
  kind : Kind
  absent : Option Value

/-- How the parts of a kind are put together. -/
inductive Kind.Shape
  | scalar
  | list (item : Kind)
  | option (content : Kind)
  | record (slots : List Slot)
  /-- One of several alternatives: the tags of those without content, and the tags of the others
  with the kind of their content. -/
  | choice (bare : List String) (tagged : List (String × Kind))

/-- A field that must be there. -/
@[reducible] def Slot.needed (name : String) (kind : Kind) : Slot := ⟨name, kind, none⟩

/-- A field that is false where it is left out. -/
@[reducible] def Slot.flag (name : String) : Slot := ⟨name, .flag, some (.bool false)⟩

/-- A field that is empty where it is left out. -/
@[reducible] def Slot.list (name : String) (item : Kind) : Slot :=
  ⟨name, .list item, some (.arr [])⟩

/-- A field that is null where it is left out. -/
@[reducible] def Slot.option (name : String) (content : Kind) : Slot :=
  ⟨name, .option content, some .null⟩

/-- How the parts of each kind are put together. -/
def Kind.shape : Kind → Kind.Shape
  | text | flag | word | int | varId => .scalar
  | list item => .list item
  | option content => .option content
  | fieldRef => .record [.needed "class" word, .needed "field" word]
  | methodRef => .record [.needed "class" word, .needed "method" word]
  | type => .choice ["int", "boolean", "void", "unsupported", "null"]
      [("class", text), ("array", type)]
  | literal => .choice ["null"] [("int", int), ("bool", flag)]
  | unaryOp => .choice ["not", "neg"] []
  | binaryOp =>
    .choice ["add", "sub", "mul", "div", "and", "or", "eq", "ne", "lt", "le", "gt", "ge"] []
  | localRef => .choice [] [("param", word), ("var", varId)]
  | member => .choice [] [("field", fieldRef), ("method", methodRef)]
  | qualified => .record [.needed "base" reference, .needed "member" member]
  | reference => .choice ["this", "println"] [("local", localRef), ("field", fieldRef),
      ("class", word), ("method", methodRef), ("qualified", qualified)]
  | index => .record [.needed "array" reference, .needed "index" expression]
  | unary => .record [.needed "op" unaryOp, .needed "operand" expression]
  | binary => .record [.needed "op" binaryOp, .needed "left" expression, .needed "right" expression]
  | callValue => .record [.needed "callee" reference, .list "args" expression]
  | newObject => .record [.needed "class" word]
  | newArray => .record [.needed "element" type, .needed "size" expression]
  | expression => .choice [] [("literal", literal), ("ref", reference), ("index", index),
      ("unary", unary), ("binary", binary), ("call", callValue), ("new_object", newObject),
      ("new_array", newArray)]
  | declaredVar => .record [.needed "name" text, .needed "ty" type, .needed "id" varId]
  | declare => .record [.needed "var" declaredVar, .needed "init" expression]
  | assign => .record [.needed "target" reference, .needed "value" expression]
  | assignElement => .record [.needed "array" reference, .needed "index" expression,
      .needed "value" expression]
  | call => .record [.needed "callee" reference, .list "args" expression]
  | branch => .record [.needed "cond" expression, .needed "then_branch" statement,
      .option "else_branch" statement]
  | loop => .record [.needed "cond" expression, .needed "body" statement]
  | statement => .choice [] [("block", list statement), ("var_decl", declare), ("assign", assign),
      ("indexed_assign", assignElement), ("call", call), ("return", option expression),
      ("if", branch), ("while", loop)]
  | parameter => .record [.needed "name" text, .needed "ty" type]
  | field => .record [.needed "name" text, .needed "ty" type, .flag "is_static", .flag "is_private"]
  | method => .record [.needed "name" text, .needed "return_type" type, .flag "is_static",
      .flag "is_private", .list "params" parameter, .list "body" statement]
  | classDecl => .record [.needed "name" text, .list "fields" field, .list "methods" method]
  | program => .record [.needed "classes" (list classDecl)]

/-- What a field reads as, given its value or left out. -/
def Slot.read? (s : Slot) (n : Nat) : Option Value → Option s.kind.Part
  | some v => s.kind.read? n v
  | none => s.absent.bind fun v ↦ s.kind.read? v.depth v

/-- One part for each field of a record. -/
@[reducible] def Row : List Slot → Type
  | [] => Unit
  | s :: slots => s.kind.Part × Row slots

/-- A part for each field, if each has one. -/
def Row.gather (part : (s : Slot) → Option s.kind.Part) : (slots : List Slot) → Option (Row slots)
  | [] => some ()
  | s :: slots => (part s).bind fun x ↦ (Row.gather part slots).map fun xs ↦ (x, xs)

/-- The parts that values for the fields of a record read as. -/
def Row.read? (n : Nat) : (slots : List Slot) → List (Option Value) → Option (Row slots)
  | [], [] => some ()
  | s :: slots, v :: values =>
    (s.read? n v).bind fun x ↦ (Row.read? n slots values).map fun xs ↦ (x, xs)
  | _, _ => none

section Records

variable {name : String} {k : Kind} {n : Nat} {v : Option Value}

private theorem Slot.read?_needed : (Slot.needed name k).read? n v = required (k.read? n) v := by
  cases v <;> rfl

private theorem Slot.read?_flag : (Slot.flag name).read? n v = defaulted false Value.bool? v := by
  cases v <;> rfl

private theorem Slot.read?_list :
    (Slot.list name k).read? n v = defaulted [] (items? k.read? n) v := by
  cases v <;> rfl

private theorem Slot.read?_option :
    (Slot.option name k).read? n v = defaulted none (optional (k.read? n)) v := by
  cases v <;> rfl

variable {slots : List Slot}

/-- A row depends on the parts of its slots alone. -/
theorem Row.gather_congr {part part' : (s : Slot) → Option s.kind.Part}
    (h : ∀ s ∈ slots, part s = part' s) : Row.gather part slots = Row.gather part' slots := by
  induction slots with
  | nil => rfl
  | cons s slots ih =>
    obtain ⟨hs, hslots⟩ := List.forall_mem_cons.mp h
    rw [Row.gather, Row.gather, hs, ih hslots]

/-- Every slot of a row has a part. -/
theorem Row.isSome_of_gather {part : (s : Slot) → Option s.kind.Part}
    (h : (Row.gather part slots).isSome) {s : Slot} (hs : s ∈ slots) : (part s).isSome := by
  induction slots with
  | nil => cases hs
  | cons t slots ih =>
    rw [Row.gather] at h
    cases ht : part t with
    | none => simp [ht] at h
    | some x =>
      obtain rfl | hs := List.mem_cons.mp hs
      · rw [ht, Option.isSome_some]
      · exact ih (by simpa [ht] using h) hs

private theorem Kind.exists_make (h : k.shape = .record slots) :
    ∃ build : Row slots → k.Part, ∀ n v, k.read? (n + 1) v =
      (fieldsOf? (slots.map Slot.name) v).bind fun vs ↦ (Row.read? n slots vs).map build := by
  cases k <;> cases h
  -- Each record has its own maker; that the reader gathers its fields first is one argument.
  case' fieldRef | methodRef | parameter => refine ⟨fun r ↦ ⟨r.1, r.2.1⟩, fun n v ↦ ?_⟩
  case' qualified => refine ⟨fun r ↦ .qualified r.1 r.2.1, fun n v ↦ ?_⟩
  case' index => refine ⟨fun r ↦ .index r.1 r.2.1, fun n v ↦ ?_⟩
  case' unary => refine ⟨fun r ↦ .unary r.1 r.2.1, fun n v ↦ ?_⟩
  case' binary => refine ⟨fun r ↦ .binary r.1 r.2.1 r.2.2.1, fun n v ↦ ?_⟩
  case' callValue => refine ⟨fun r ↦ .call r.1 r.2.1, fun n v ↦ ?_⟩
  case' newObject => refine ⟨fun r ↦ .newObject r.1, fun n v ↦ ?_⟩
  case' newArray => refine ⟨fun r ↦ .newArray r.1 r.2.1, fun n v ↦ ?_⟩
  case' declaredVar | classDecl => refine ⟨fun r ↦ ⟨r.1, r.2.1, r.2.2.1⟩, fun n v ↦ ?_⟩
  case' declare => refine ⟨fun r ↦ .declare r.1 r.2.1, fun n v ↦ ?_⟩
  case' assign => refine ⟨fun r ↦ .assign r.1 r.2.1, fun n v ↦ ?_⟩
  case' assignElement => refine ⟨fun r ↦ .assignElement r.1 r.2.1 r.2.2.1, fun n v ↦ ?_⟩
  case' call => refine ⟨fun r ↦ .call r.1 r.2.1, fun n v ↦ ?_⟩
  case' branch => refine ⟨fun r ↦ .branch r.1 r.2.1 r.2.2.1, fun n v ↦ ?_⟩
  case' loop => refine ⟨fun r ↦ .loop r.1 r.2.1, fun n v ↦ ?_⟩
  case' field => refine ⟨fun r ↦ ⟨r.1, r.2.1, r.2.2.1, r.2.2.2.1⟩, fun n v ↦ ?_⟩
  case' method =>
    refine ⟨fun r ↦ ⟨r.1, r.2.1, r.2.2.1, r.2.2.2.1, r.2.2.2.2.1, r.2.2.2.2.2.1⟩, fun n v ↦ ?_⟩
  case' program => refine ⟨fun r ↦ ⟨r.1⟩, fun n v ↦ ?_⟩
  all_goals
    simp only [Kind.read?, readFieldRef?, readMethodRef?, readQualified?, readOperation?,
      readAction?, readVariable?, readParameter?, readField?, readMethod?, readClass?, readProgram?,
      List.map_cons, List.map_nil]
    refine Option.bind_congr fun values hvalues ↦ ?_
    have hlength := length_fieldsOf? hvalues
    rcases values with _ | ⟨_, _ | ⟨_, _ | ⟨_, _ | ⟨_, _ | ⟨_, _ | ⟨_, _ | ⟨_, _⟩⟩⟩⟩⟩⟩⟩ <;>
      cases hlength
    simp -implicitDefEqProofs only [Row.read?, Slot.read?_needed, Slot.read?_flag,
      Slot.read?_list, Slot.read?_option, Kind.read?, readArguments?_eq, readStatements?_eq,
      Option.bind_eq_bind, Option.pure_def, Option.map_bind, Option.map_some, Function.comp_def]

private theorem Row.read?_mapM (lookup : String → Option (Option Value)) :
    ((slots.map Slot.name).mapM lookup).bind (Row.read? n slots) =
      Row.gather (fun s ↦ (lookup s.name).bind (s.read? n)) slots := by
  induction slots with
  | nil => rfl
  | cons s slots ih =>
    rw [List.map_cons, List.mapM_cons, Row.gather, ← ih]
    cases lookup s.name with
    | none => rfl
    | some value =>
      cases hrest : (slots.map Slot.name).mapM lookup with
      | none => simp
      | some values => simp [Row.read?]

/-- A record written as an object reads as what its fields make, each taken under its name. -/
theorem Kind.exists_build (h : k.shape = .record slots) :
    ∃ build : Row slots → k.Part, ∀ n members, k.read? (n + 1) (.obj members) =
      if members.all (·.1.isSome) then
        (Row.gather (fun s ↦ (soleMember? members s.name).bind (s.read? n)) slots).map build
      else none := by
  obtain ⟨build, hbuild⟩ := Kind.exists_make h
  refine ⟨build, fun n members ↦ ?_⟩
  rw [hbuild, fieldsOf?, ← Row.read?_mapM]
  split_ifs
  · rw [Option.map_bind, Function.comp_def]
  · rfl

/-- A record is not read without a level to descend. -/
theorem Kind.read?_zero (h : k.shape = .record slots) (v : Value) : k.read? 0 v = none := by
  cases k <;> cases h <;> rfl

/-- The fields of a record have names of their own. -/
theorem Kind.nodup_names (h : k.shape = .record slots) : (slots.map Slot.name).Nodup := by
  cases k <;> cases h <;> decide

/-- A record written as an array reads as the object that has the items under the first names. -/
theorem Kind.read?_arr (h : k.shape = .record slots) {values : List Value}
    (hlength : values.length ≤ slots.length) (n : Nat) :
    k.read? n (.arr values) = k.read? n (.record ((slots.map Slot.name).zip values)) := by
  cases n with
  | zero => rw [Kind.read?_zero h, Kind.read?_zero h]
  | succ n =>
    obtain ⟨make, hmake⟩ := Kind.exists_make h
    rw [hmake, hmake, fieldsOf?_record_zip (by simpa using hlength) (Kind.nodup_names h)]

/-- A record that is read is an object, or an array that has no more items than fields. -/
theorem Kind.record_cases (h : k.shape = .record slots) {v : Value} (hread : (k.read? n v).isSome) :
    (∃ members, v = .obj members) ∨ ∃ values, v = .arr values ∧ values.length ≤ slots.length := by
  cases n with
  | zero => simp [Kind.read?_zero h] at hread
  | succ n =>
    obtain ⟨make, hmake⟩ := Kind.exists_make h
    rw [hmake] at hread
    cases v with
    | obj members => exact .inl ⟨members, rfl⟩
    | arr values =>
      refine .inr ⟨values, rfl, ?_⟩
      by_contra hlength
      simp [fieldsOf?, hlength] at hread
    | _ => simp [fieldsOf?] at hread

end Records

section Choices

variable {k : Kind} {bare : List String} {contents : List (String × Kind)}

/-- An alternative with content reads as what its content makes. -/
theorem Kind.exists_inject (h : k.shape = .choice bare contents) {tag : String} {c : Kind}
    (hmem : (tag, c) ∈ contents) :
    ∃ inject : c.Part → k.Part, ∀ n v,
      k.read? (n + 1) (.obj [(some tag, v)]) = (c.read? n v).map inject := by
  cases k <;> cases h <;>
    simp only [List.mem_cons, Prod.mk.injEq, List.not_mem_nil, or_false] at hmem
  case type =>
    obtain ⟨rfl, rfl⟩ | ⟨rfl, rfl⟩ := hmem
    · exact ⟨.object, fun n v ↦ by cases v <;> rfl⟩
    · exact ⟨.array, fun n v ↦ by cases n <;> cases v <;> rfl⟩
  case literal =>
    obtain ⟨rfl, rfl⟩ | ⟨rfl, rfl⟩ := hmem
    · exact ⟨.int, fun n v ↦ by cases v <;> rfl⟩
    · exact ⟨.bool, fun n v ↦ by cases v <;> rfl⟩
  case localRef =>
    obtain ⟨rfl, rfl⟩ | ⟨rfl, rfl⟩ := hmem
    · exact ⟨.param, fun n v ↦ rfl⟩
    · exact ⟨.var, fun n v ↦ rfl⟩
  case member =>
    obtain ⟨rfl, rfl⟩ | ⟨rfl, rfl⟩ := hmem
    · exact ⟨.field, fun n v ↦ rfl⟩
    · exact ⟨.method, fun n v ↦ rfl⟩
  case reference =>
    obtain ⟨rfl, rfl⟩ | ⟨rfl, rfl⟩ | ⟨rfl, rfl⟩ | ⟨rfl, rfl⟩ | ⟨rfl, rfl⟩ := hmem
    · exact ⟨.localName, fun n v ↦ by cases n <;> cases v <;> rfl⟩
    · exact ⟨.field, fun n v ↦ by cases n <;> cases v <;> rfl⟩
    · exact ⟨.classAt, fun n v ↦ by cases v <;> rfl⟩
    · exact ⟨.method, fun n v ↦ by cases n <;> cases v <;> rfl⟩
    · exact ⟨id, fun n v ↦ by rw [Option.map_id]; cases n <;> cases v <;> rfl⟩
  case expression =>
    obtain ⟨rfl, rfl⟩ | ⟨rfl, rfl⟩ | hmem := hmem
    · exact ⟨.literal, fun n v ↦ rfl⟩
    · exact ⟨.ref, fun n v ↦ rfl⟩
    · obtain ⟨rfl, rfl⟩ | ⟨rfl, rfl⟩ | ⟨rfl, rfl⟩ | ⟨rfl, rfl⟩ | ⟨rfl, rfl⟩ | ⟨rfl, rfl⟩ := hmem <;>
        exact ⟨id, fun n v ↦ by rw [Option.map_id]; rfl⟩
  case statement =>
    obtain ⟨rfl, rfl⟩ | ⟨rfl, rfl⟩ | ⟨rfl, rfl⟩ | ⟨rfl, rfl⟩ | ⟨rfl, rfl⟩ | ⟨rfl, rfl⟩ |
      ⟨rfl, rfl⟩ | ⟨rfl, rfl⟩ := hmem
    case inl => exact ⟨.block, fun n v ↦ by
      rw [show (list statement).read? = readStatements? from readStatements?_eq.symm]; rfl⟩
    case inr.inr.inr.inr.inr.inl => exact ⟨.giveBack, fun n v ↦ rfl⟩
    all_goals exact ⟨id, fun n v ↦ by rw [Option.map_id]; rfl⟩

/-- An alternative without content reads from its tag alone as it does from an object. -/
theorem Kind.exists_bare (h : k.shape = .choice bare contents) {tag : String} (hmem : tag ∈ bare) :
    ∃ x, (∀ n, k.read? n (.str (some tag)) = some x) ∧
      ∀ n, k.read? (n + 1) (.obj [(some tag, .null)]) = some x := by
  cases k <;> cases h <;> simp only [List.mem_cons, List.not_mem_nil, or_false] at hmem
  case literal => exact hmem ▸ ⟨.null, fun n ↦ rfl, fun n ↦ rfl⟩
  case type =>
    obtain rfl | rfl | rfl | rfl | rfl := hmem <;>
      exact ⟨_, fun n ↦ by cases n <;> rfl, fun n ↦ rfl⟩
  case unaryOp =>
    obtain rfl | rfl := hmem <;> exact ⟨_, fun n ↦ rfl, fun n ↦ rfl⟩
  case reference =>
    obtain rfl | rfl := hmem <;> exact ⟨_, fun n ↦ by cases n <;> rfl, fun n ↦ rfl⟩
  case binaryOp =>
    obtain rfl | rfl | rfl | rfl | rfl | rfl | rfl | rfl | rfl | rfl | rfl | rfl := hmem <;>
      exact ⟨_, fun n ↦ rfl, fun n ↦ rfl⟩

private theorem bareTag?_eq_some_iff {n : Nat} {v : Value} {tag : String} :
    bareTag? n v = some tag ↔
      v = .str (some tag) ∨ v = .obj [(some tag, .null)] ∧ n ≠ 0 := by
  unfold bareTag?
  split <;> simp_all [and_comm]

private theorem content?_eq_some_iff {v : Value} {tag : String} {content : Value} :
    content? v = some (tag, content) ↔ v = .obj [(some tag, content)] := by
  unfold content?
  split <;> simp_all

private theorem Kind.tag_of_read? (h : k.shape = .choice bare contents) {n : Nat} {v : Value}
    (hread : (k.read? n v).isSome) :
    (∃ tag ∈ bare, bareTag? n v = some tag) ∨
      n ≠ 0 ∧ ∃ tag content c, content? v = some (tag, content) ∧ (tag, c) ∈ contents := by
  cases k <;> cases h
  case type =>
    rw [Kind.read?, readType?.eq_def] at hread
    simp only at hread
    split at hread
    · unfold TypeName.ofTag? at hread
      split at hread <;> simp_all
    · split at hread <;> simp_all
  case literal =>
    rw [Kind.read?, readLiteral?.eq_def] at hread
    split at hread
    · simp_all
    · simp_all
    · split at hread <;> simp_all
  case' unaryOp => rw [Kind.read?, readUnaryOp?] at hread
  case' binaryOp => rw [Kind.read?, readBinaryOp?] at hread
  case' localRef => rw [Kind.read?, readLocalRef?.eq_def] at hread
  case' member => rw [Kind.read?, readMember?.eq_def] at hread
  case unaryOp | binaryOp | localRef | member => split at hread <;> simp_all
  case reference =>
    rw [Kind.read?, readReference?.eq_def] at hread
    simp only at hread
    split at hread
    · simp_all
    · simp_all
    · simp_all
    · split at hread <;> simp_all
  case expression =>
    rw [Kind.read?, readExpression?.eq_def] at hread
    split at hread
    · split at hread
      · simp_all
      · simp_all
      · rw [readOperation?.eq_def] at hread
        split at hread <;> simp_all
      · simp_all
    · simp_all
  case statement =>
    rw [Kind.read?, readStatement?.eq_def] at hread
    split at hread
    · split at hread
      · simp_all
      · simp_all
      · rw [readAction?.eq_def] at hread
        split at hread <;> simp_all
      · simp_all
    · simp_all

/-- An alternative that is read is a tag, or an object whose only key is a tag. -/
theorem Kind.choice_cases (h : k.shape = .choice bare contents) {n : Nat} {v : Value}
    (hread : (k.read? n v).isSome) :
    (∃ tag ∈ bare, v = .str (some tag)) ∨
      ∃ m tag content, n = m + 1 ∧ v = .obj [(some tag, content)] ∧
        (tag ∈ bare ∧ content = .null ∨ ∃ c, (tag, c) ∈ contents) := by
  obtain ⟨tag, hmem, htag⟩ | ⟨hn, tag, content, c, htag, hmem⟩ := Kind.tag_of_read? h hread
  · obtain hv | ⟨hv, hn⟩ := bareTag?_eq_some_iff.mp htag
    · exact .inl ⟨tag, hmem, hv⟩
    · obtain ⟨m, hm⟩ := Nat.exists_eq_succ_of_ne_zero hn
      exact .inr ⟨m, tag, .null, hm, hv, .inl ⟨hmem, rfl⟩⟩
  · obtain ⟨m, hm⟩ := Nat.exists_eq_succ_of_ne_zero hn
    exact .inr ⟨m, tag, content, hm, content?_eq_some_iff.mp htag, .inr ⟨c, hmem⟩⟩

end Choices

section Nesting

variable {k c : Kind} {n m : Nat}

/-- A kind with the shape of a list is one. -/
theorem Kind.eq_list (h : k.shape = .list c) : k = .list c := by
  cases k <;> cases h
  rfl

/-- A kind with the shape of an option is one. -/
theorem Kind.eq_option (h : k.shape = .option c) : k = .option c := by
  cases k <;> cases h
  rfl

/-- What is read within a nesting is read within every larger one, and within every one that the
value fits in. -/
def Kind.Steady (k : Kind) (n : Nat) : Prop :=
  ∀ ⦃m : Nat⦄ ⦃v : Value⦄ ⦃x : k.Part⦄, k.read? n v = some x → n ≤ m ∨ v.depth ≤ m →
    k.read? m v = some x

private theorem exists_below {items : List Value} (h : n + 1 ≤ m ∨ (Value.arr items).depth ≤ m) :
    ∃ m', m = m' + 1 ∧ ∀ u ∈ items, n ≤ m' ∨ u.depth ≤ m' := by
  cases m with
  | zero => simp [Value.depth] at h
  | succ m =>
    refine ⟨m, rfl, fun u hu ↦ ?_⟩
    exact h.imp Nat.le_of_succ_le_succ fun hdepth ↦ depth_arr_le_iff.mp hdepth u hu

private theorem Kind.Steady.scalar (hshape : k.shape = .scalar) : k.Steady n := by
  intro m v x hread hm
  rwa [show k.read? m v = k.read? n v by cases k <;> cases hshape <;> rfl]

private theorem Kind.Steady.option (h : c.Steady n) : (Kind.option c).Steady n := by
  intro m v x hread hm
  cases v with
  | null => exact hread
  | _ =>
    obtain ⟨y, hy, rfl⟩ := Option.map_eq_some_iff.mp hread
    exact Option.map_eq_some_iff.mpr ⟨y, h hy hm, rfl⟩

private theorem Kind.Steady.list (h : c.Steady n) : (Kind.list c).Steady (n + 1) := by
  intro m v xs hread hm
  cases v with
  | arr items =>
    obtain ⟨m, rfl, hbelow⟩ := exists_below hm
    exact mapM_mono (fun u hu y hy ↦ h hy (hbelow u hu)) hread
  | _ => cases hread

private theorem Kind.Steady.record {slots : List Slot} (hshape : k.shape = .record slots)
    (h : ∀ s ∈ slots, s.kind.Steady n) : k.Steady (n + 1) := by
  obtain ⟨build, hbuild⟩ := Kind.exists_build hshape
  have hobj ⦃m members x⦄ (hread : k.read? (n + 1) (.obj members) = some x)
      (hm : n + 1 ≤ m ∨ (Value.obj members).depth ≤ m) : k.read? m (.obj members) = some x := by
    rw [depth_obj] at hm
    obtain ⟨m, rfl, hbelow⟩ := exists_below hm
    rw [hbuild] at hread ⊢
    rw [← hread]
    split_ifs at hread ⊢ with hall
    obtain ⟨row, hrow, rfl⟩ := Option.map_eq_some_iff.mp hread
    refine congrArg (Option.map build) (Row.gather_congr fun s hs ↦ ?_)
    have hpart := Row.isSome_of_gather (Option.isSome_of_eq_some hrow) hs
    cases hmember : soleMember? members s.name with
    | none => rfl
    | some value =>
      cases value with
      | none => rfl
      | some u =>
        rw [hmember] at hpart
        obtain ⟨y, hy⟩ := Option.isSome_iff_exists.mp hpart
        have hu : u ∈ members.map Prod.snd :=
          List.mem_map.mpr ⟨_, mem_of_soleMember? hmember, rfl⟩
        exact (h s hs hy (hbelow u hu)).trans hy.symm
  intro m v x hread hm
  obtain ⟨members, rfl⟩ | ⟨values, rfl, hlength⟩ :=
    Kind.record_cases hshape (Option.isSome_of_eq_some hread)
  · exact hobj hread hm
  · have hnames : values.length ≤ (slots.map Slot.name).length := by rwa [List.length_map]
    rw [Kind.read?_arr hshape hlength] at hread ⊢
    rw [← depth_record_zip hnames] at hm
    exact hobj hread hm

private theorem Kind.Steady.choice {bare : List String} {contents : List (String × Kind)}
    (hshape : k.shape = .choice bare contents)
    (h : ∀ n' < n, ∀ c : Kind, c.Steady n') : k.Steady n := by
  intro m v x hread hm
  obtain ⟨tag, hmem, rfl⟩ | ⟨n, tag, content, rfl, rfl, hcontent⟩ :=
    Kind.choice_cases hshape (Option.isSome_of_eq_some hread)
  · obtain ⟨y, hy, -⟩ := Kind.exists_bare hshape hmem
    rwa [hy] at hread ⊢
  · rw [depth_obj] at hm
    obtain ⟨m, rfl, hbelow⟩ := exists_below hm
    obtain ⟨hmem, rfl⟩ | ⟨c, hmem⟩ := hcontent
    · obtain ⟨y, -, hy⟩ := Kind.exists_bare hshape hmem
      rwa [hy] at hread ⊢
    · obtain ⟨inject, hinject⟩ := Kind.exists_inject hshape hmem
      rw [hinject] at hread ⊢
      obtain ⟨y, hy, rfl⟩ := Option.map_eq_some_iff.mp hread
      exact Option.map_eq_some_iff.mpr
        ⟨y, h n (Nat.lt_succ_self n) c hy (hbelow content (List.mem_singleton_self _)), rfl⟩

/-- Reading is steady for every kind. -/
theorem Kind.steady (k : Kind) (n : Nat) : k.Steady n := by
  induction n using Nat.strong_induction_on generalizing k with
  | _ n ih =>
    have hrecord {k : Kind} {slots : List Slot} (hshape : k.shape = .record slots) :
        k.Steady n := by
      cases n with
      | zero => exact fun m v x hread _ ↦ nomatch (Kind.read?_zero hshape v).symm.trans hread
      | succ n => exact .record hshape fun s _ ↦ ih n n.lt_succ_self s.kind
    -- Of all kinds only an option reads what it holds within the same nesting.
    induction k with
    | option c hc => exact hc.option
    | list c =>
      cases n with
      | zero => exact fun m v x hread _ ↦ nomatch hread
      | succ n => exact .list (ih n n.lt_succ_self c)
    | text | flag | word | int | varId => exact .scalar rfl
    | type | literal | unaryOp | binaryOp | localRef | member | reference | expression
    | statement => exact .choice rfl ih
    | _ => exact hrecord rfl

/-- A value reads as the same within every nesting that it fits in. -/
theorem Kind.read?_eq_of_depth_le {v : Value} (h : v.depth ≤ n) :
    k.read? n v = k.read? v.depth v :=
  Option.ext fun _ ↦ ⟨fun hread ↦ k.steady n hread (.inr le_rfl),
    fun hread ↦ k.steady v.depth hread (.inl h)⟩

end Nesting

end NativeBackend.Tree
