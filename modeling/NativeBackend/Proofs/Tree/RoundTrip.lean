import Mathlib
import NativeBackend.CommandLine.Run
import NativeBackend.Proofs.Json.Nesting
import NativeBackend.Proofs.Tree.Records

/-!
# Program trees read back

The value of every part of a tree stands for that part. So a program reads back from its value, and
from its text exactly if the arrays and objects of the text nest no deeper than the reader goes.
-/

namespace NativeBackend.Tree

open Json

section Leaves

private theorem natBelow?_nat {n limit : Nat} (h : n < limit) :
    (Value.nat n).natBelow? limit = some n := by
  rw [Value.nat, Value.natBelow?, if_pos (by omega), Int.toNat_natCast]

private theorem stands_text (s : String) : Stands (fun _ ↦ Value.text?) (.text s) s :=
  .bare fun _ ↦ rfl

private theorem stands_bool (b : Bool) : Stands (fun _ ↦ Value.bool?) (.bool b) b :=
  ⟨.bool b, fun n ↦ (if_pos (Nat.zero_le n)).symm⟩

private theorem stands_word (w : UInt64) : Stands (fun _ ↦ Value.uint64?) (wordValue w) w := by
  refine ⟨.int _, fun n ↦ .trans ?_ (if_pos (Nat.zero_le n)).symm⟩
  rw [Value.uint64?, wordValue, natBelow?_nat w.toNat_lt, Option.map_some, UInt64.ofNat_toNat]

private theorem stands_varId (id : VarId) : Stands (fun _ ↦ readVarId?) id.toJson id := by
  refine ⟨.int _, fun n ↦ .trans ?_ (if_pos (Nat.zero_le n)).symm⟩
  rw [readVarId?, Value.uint32?, VarId.toJson, natBelow?_nat id.number.toNat_lt, Option.map_some,
    UInt32.ofNat_toNat, Option.map_some]

private theorem stands_int (z : Int32) : Stands (fun _ ↦ Value.int32?) (.int z.toInt) z := by
  refine ⟨.int _, fun n ↦ .trans ?_ (if_pos (Nat.zero_le n)).symm⟩
  have := z.le_toInt
  have := z.toInt_lt
  rw [Value.int32?, if_pos (by omega), Int32.ofInt_toInt]

end Leaves

section Names

private theorem stands_fieldRef (f : FieldRef) : Stands readFieldRef? f.toJson f := by
  have howner := stands_word f.owner
  have hposition := stands_word f.position
  refine .record ["class", "field"] [wordValue f.owner, wordValue f.position] rfl (by simp)
    (by simp [howner.whole, hposition.whole]) (fun _ ↦ rfl) fun n v hfields ↦ ?_
  -- Checked by unfolding, these steps would compare with the bound of a word digit by digit.
  simp -implicitDefEqProofs [readFieldRef?, hfields, required, howner.reads n, hposition.reads n,
    bind_guarded, ite_and]

private theorem stands_methodRef (m : MethodRef) : Stands readMethodRef? m.toJson m := by
  have howner := stands_word m.owner
  have hposition := stands_word m.position
  refine .record ["class", "method"] [wordValue m.owner, wordValue m.position] rfl (by simp)
    (by simp [howner.whole, hposition.whole]) (fun _ ↦ rfl) fun n v hfields ↦ ?_
  simp -implicitDefEqProofs [readMethodRef?, hfields, required, howner.reads n, hposition.reads n,
    bind_guarded, ite_and]

private theorem stands_type (t : TypeName) : Stands readType? t.toJson t := by
  induction t with
  | int | boolean | void | unsupported | null =>
    exact .bare fun n ↦ by rw [readType?.eq_def]; rfl
  | object className => exact ((stands_text className).map TypeName.object).tagged rfl fun n ↦ rfl
  | array element ih => cases element <;> exact (ih.map TypeName.array).tagged rfl fun n ↦ rfl

private theorem stands_literal (l : Literal) : Stands readLiteral? l.toJson l := by
  cases l with
  | null => exact .bare fun n ↦ rfl
  | int value => exact ((stands_int value).map Literal.int).tagged rfl fun n ↦ rfl
  | bool value => exact ((stands_bool value).map Literal.bool).tagged rfl fun n ↦ rfl

private theorem stands_unaryOp (op : UnaryOp) : Stands readUnaryOp? (.text op.tag) op := by
  cases op <;> exact .bare fun n ↦ rfl

private theorem stands_binaryOp (op : BinaryOp) : Stands readBinaryOp? (.text op.tag) op := by
  cases op <;> exact .bare fun n ↦ rfl

private theorem stands_localRef (r : LocalRef) : Stands readLocalRef? r.toJson r := by
  cases r with
  | param position => exact ((stands_word position).map LocalRef.param).tagged rfl fun n ↦ rfl
  | var id => exact ((stands_varId id).map LocalRef.var).tagged rfl fun n ↦ rfl

private theorem stands_member (m : Member) : Stands readMember? m.toJson m := by
  cases m with
  | field f => exact ((stands_fieldRef f).map Member.field).tagged rfl fun n ↦ rfl
  | method m => exact ((stands_methodRef m).map Member.method).tagged rfl fun n ↦ rfl

private theorem stands_reference (r : Reference) : Stands readReference? r.toJson r := by
  induction r with
  | this | println => exact .bare fun n ↦ by rw [readReference?.eq_def]; rfl
  | localName name =>
    have hname := (stands_localRef name).map Reference.localName
    cases name <;> exact hname.tagged rfl fun n ↦ rfl
  | field f => exact ((stands_fieldRef f).map Reference.field).tagged rfl fun n ↦ rfl
  | classAt position => exact ((stands_word position).map Reference.classAt).tagged rfl fun n ↦ rfl
  | method m => exact ((stands_methodRef m).map Reference.method).tagged rfl fun n ↦ rfl
  | qualified base member ih =>
    have hmember := stands_member member
    have hrecord : Stands readQualified?
        (.record [("base", base.toJson), ("member", member.toJson)]) (.qualified base member) := by
      refine .record ["base", "member"] [base.toJson, member.toJson] rfl (by simp)
        (by simp [ih.whole, hmember.whole]) (fun _ ↦ rfl) fun n v hfields ↦ ?_
      simp [readQualified?, hfields, required, ih.reads n, hmember.reads n, bind_guarded, ite_and]
    exact hrecord.tagged rfl fun n ↦ rfl

end Names

section Expressions

private theorem Expression.listToJson_eq (es : List Expression) :
    Expression.listToJson es = es.map Expression.toJson := by
  induction es with
  | nil => rfl
  | cons e es ih => rw [Expression.listToJson, ih, List.map_cons]

private theorem stands_arguments {es : List Expression}
    (h : ∀ e ∈ es, Stands readExpression? e.toJson e) :
    Stands readArguments? (.arr (Expression.listToJson es)) es := by
  rw [readArguments?_eq, Expression.listToJson_eq]
  exact .items h

private theorem stands_operation (tag : String) {record : Value} {e : Expression}
    (h : Stands (readOperation? · tag) record e)
    (hsucc : ∀ n, readExpression? (n + 1) (tagged tag record) = readOperation? n tag record) :
    Stands readExpression? (tagged tag record) e :=
  h.tagged rfl hsucc

mutual

private theorem stands_expression (e : Expression) : Stands readExpression? e.toJson e := by
  match e with
  | .literal value => exact ((stands_literal value).map Expression.literal).tagged rfl fun n ↦ rfl
  | .ref reference => exact ((stands_reference reference).map Expression.ref).tagged rfl fun n ↦ rfl
  | .index array i =>
    have harray := stands_reference array
    have hi := stands_expression i
    refine stands_operation "index" (.record ["array", "index"] [array.toJson, i.toJson] rfl
      (by simp) (by simp [harray.whole, hi.whole]) (fun _ ↦ rfl) fun n v hfields ↦ ?_) fun n ↦ rfl
    simp [readOperation?, hfields, required, harray.reads n, hi.reads n, bind_guarded, ite_and]
  | .unary op operand =>
    have hop := stands_unaryOp op
    have hoperand := stands_expression operand
    refine stands_operation "unary" (.record ["op", "operand"] [.text op.tag, operand.toJson] rfl
      (by simp) (by simp [hop.whole, hoperand.whole]) (fun _ ↦ rfl) fun n v hfields ↦ ?_)
      fun n ↦ rfl
    simp [readOperation?, hfields, required, hop.reads n, hoperand.reads n, bind_guarded, ite_and]
  | .binary op left right =>
    have hop := stands_binaryOp op
    have hleft := stands_expression left
    have hright := stands_expression right
    refine stands_operation "binary" (.record ["op", "left", "right"]
      [.text op.tag, left.toJson, right.toJson] rfl (by simp)
      (by simp [hop.whole, hleft.whole, hright.whole]) (fun _ ↦ rfl) fun n v hfields ↦ ?_)
      fun n ↦ rfl
    simp [readOperation?, hfields, required, hop.reads n, hleft.reads n, hright.reads n,
      bind_guarded, ite_and]
  | .call callee args =>
    have hcallee := stands_reference callee
    have hargs := stands_arguments (stands_expressions args)
    refine stands_operation "call" (.record ["callee", "args"]
      [callee.toJson, .arr (Expression.listToJson args)] rfl (by simp)
      (by simp [hcallee.whole, hargs.whole]) (fun _ ↦ rfl) fun n v hfields ↦ ?_) fun n ↦ rfl
    simp [readOperation?, hfields, required, defaulted, hcallee.reads n, hargs.reads n,
      bind_guarded, ite_and]
  | .newObject position =>
    have hposition := stands_word position
    refine stands_operation "new_object" (.record ["class"] [wordValue position] rfl (by simp)
      (by simp [hposition.whole]) (fun _ ↦ rfl) fun n v hfields ↦ ?_) fun n ↦ rfl
    simp -implicitDefEqProofs [readOperation?, hfields, required, hposition.reads n, bind_guarded]
  | .newArray element size =>
    have helement := stands_type element
    have hsize := stands_expression size
    refine stands_operation "new_array" (.record ["element", "size"]
      [element.toJson, size.toJson] rfl (by simp) (by simp [helement.whole, hsize.whole])
      (fun _ ↦ rfl) fun n v hfields ↦ ?_) fun n ↦ rfl
    simp [readOperation?, hfields, required, helement.reads n, hsize.reads n, bind_guarded,
      ite_and]

private theorem stands_expressions (es : List Expression) :
    ∀ e ∈ es, Stands readExpression? e.toJson e := by
  match es with
  | [] => nofun
  | e :: es => exact List.forall_mem_cons.mpr ⟨stands_expression e, stands_expressions es⟩

end

private theorem Expression.toJson_ne_null (e : Expression) : e.toJson ≠ .null := by
  cases e <;> exact Value.noConfusion

end Expressions

section Statements

private theorem stands_variable (x : Variable) : Stands readVariable? x.toJson x := by
  have hname := stands_text x.name
  have htype := stands_type x.type
  have hid := stands_varId x.id
  refine .record ["name", "ty", "id"] [.text x.name, x.type.toJson, x.id.toJson] rfl (by simp)
    (by simp [hname.whole, htype.whole, hid.whole]) (fun _ ↦ rfl) fun n v hfields ↦ ?_
  simp -implicitDefEqProofs [readVariable?, hfields, required, hname.reads n, htype.reads n,
    hid.reads n, bind_guarded, ite_and]

private theorem Statement.listToJson_eq (ss : List Statement) :
    Statement.listToJson ss = ss.map Statement.toJson := by
  induction ss with
  | nil => rfl
  | cons s ss ih => rw [Statement.listToJson, ih, List.map_cons]

private theorem stands_body {ss : List Statement}
    (h : ∀ s ∈ ss, Stands readStatement? s.toJson s) :
    Stands readStatements? (.arr (Statement.listToJson ss)) ss := by
  rw [readStatements?_eq, Statement.listToJson_eq]
  exact .items h

private theorem stands_action (tag : String) {record : Value} {s : Statement}
    (h : Stands (readAction? · tag) record s)
    (hsucc : ∀ n, readStatement? (n + 1) (tagged tag record) = readAction? n tag record) :
    Stands readStatement? (tagged tag record) s :=
  h.tagged rfl hsucc

private theorem Statement.toJson_ne_null (s : Statement) : s.toJson ≠ .null := by
  cases s with
  | giveBack value => cases value <;> exact Value.noConfusion
  | branch cond yes no => cases no <;> exact Value.noConfusion
  | _ => exact Value.noConfusion

mutual

/-- A written statement reads back. -/
theorem stands_statement (s : Statement) : Stands readStatement? s.toJson s := by
  match s with
  | .block body =>
    exact ((stands_body (stands_statements body)).map Statement.block).tagged rfl fun n ↦ rfl
  | .declare decl init =>
    have hdecl := stands_variable decl
    have hinit := stands_expression init
    refine stands_action "var_decl" (.record ["var", "init"] [decl.toJson, init.toJson] rfl
      (by simp) (by simp [hdecl.whole, hinit.whole]) (fun _ ↦ rfl) fun n v hfields ↦ ?_)
      fun n ↦ rfl
    simp [readAction?, hfields, required, hdecl.reads n, hinit.reads n, bind_guarded, ite_and]
  | .assign target value =>
    have htarget := stands_reference target
    have hvalue := stands_expression value
    refine stands_action "assign" (.record ["target", "value"] [target.toJson, value.toJson] rfl
      (by simp) (by simp [htarget.whole, hvalue.whole]) (fun _ ↦ rfl) fun n v hfields ↦ ?_)
      fun n ↦ rfl
    simp [readAction?, hfields, required, htarget.reads n, hvalue.reads n, bind_guarded, ite_and]
  | .assignElement array index value =>
    have harray := stands_reference array
    have hindex := stands_expression index
    have hvalue := stands_expression value
    refine stands_action "indexed_assign" (.record ["array", "index", "value"]
      [array.toJson, index.toJson, value.toJson] rfl (by simp)
      (by simp [harray.whole, hindex.whole, hvalue.whole]) (fun _ ↦ rfl) fun n v hfields ↦ ?_)
      fun n ↦ rfl
    simp [readAction?, hfields, required, harray.reads n, hindex.reads n, hvalue.reads n,
      bind_guarded, ite_and]
  | .call callee args =>
    have hcallee := stands_reference callee
    have hargs := stands_arguments (stands_expressions args)
    refine stands_action "call" (.record ["callee", "args"]
      [callee.toJson, .arr (Expression.listToJson args)] rfl (by simp)
      (by simp [hcallee.whole, hargs.whole]) (fun _ ↦ rfl) fun n v hfields ↦ ?_) fun n ↦ rfl
    simp [readAction?, hfields, required, defaulted, hcallee.reads n, hargs.reads n,
      bind_guarded, ite_and]
  | .giveBack none =>
    have habsent : Stands (fun n ↦ optional (readExpression? n)) .null none := .absent
    exact (habsent.map Statement.giveBack).tagged rfl fun n ↦ rfl
  | .giveBack (some value) =>
    have hvalue := (stands_expression value).present value.toJson_ne_null
    exact (hvalue.map Statement.giveBack).tagged rfl fun n ↦ rfl
  | .branch cond yes none =>
    have hcond := stands_expression cond
    have hyes := stands_statement yes
    have hno : Stands (fun n ↦ optional (readStatement? n)) .null none := .absent
    refine stands_action "if" (.record ["cond", "then_branch", "else_branch"]
      [cond.toJson, yes.toJson, .null] rfl (by simp) (by simp [hcond.whole, hyes.whole, hno.whole])
      (fun _ ↦ rfl) fun n v hfields ↦ ?_) fun n ↦ rfl
    simp [readAction?, hfields, required, defaulted, hcond.reads n, hyes.reads n, hno.reads n,
      bind_guarded, ite_and]
  | .branch cond yes (some no) =>
    have hcond := stands_expression cond
    have hyes := stands_statement yes
    have hno := (stands_statement no).present no.toJson_ne_null
    refine stands_action "if" (.record ["cond", "then_branch", "else_branch"]
      [cond.toJson, yes.toJson, no.toJson] rfl (by simp)
      (by simp [hcond.whole, hyes.whole, hno.whole]) (fun _ ↦ rfl) fun n v hfields ↦ ?_)
      fun n ↦ rfl
    simp [readAction?, hfields, required, defaulted, hcond.reads n, hyes.reads n, hno.reads n,
      bind_guarded, ite_and]
  | .loop cond body =>
    have hcond := stands_expression cond
    have hbody := stands_statement body
    refine stands_action "while" (.record ["cond", "body"] [cond.toJson, body.toJson] rfl
      (by simp) (by simp [hcond.whole, hbody.whole]) (fun _ ↦ rfl) fun n v hfields ↦ ?_)
      fun n ↦ rfl
    simp [readAction?, hfields, required, hcond.reads n, hbody.reads n, bind_guarded, ite_and]

private theorem stands_statements (ss : List Statement) :
    ∀ s ∈ ss, Stands readStatement? s.toJson s := by
  match ss with
  | [] => nofun
  | s :: ss => exact List.forall_mem_cons.mpr ⟨stands_statement s, stands_statements ss⟩

end

end Statements

section Programs

private theorem stands_parameter (p : Parameter) : Stands readParameter? p.toJson p := by
  have hname := stands_text p.name
  have htype := stands_type p.type
  refine .record ["name", "ty"] [.text p.name, p.type.toJson] rfl (by simp)
    (by simp [hname.whole, htype.whole]) (fun _ ↦ rfl) fun n v hfields ↦ ?_
  simp [readParameter?, hfields, required, hname.reads n, htype.reads n, bind_guarded, ite_and]

private theorem stands_field (f : FieldDecl) : Stands readField? f.toJson f := by
  have hname := stands_text f.name
  have htype := stands_type f.type
  have hstatic := stands_bool f.isStatic
  have hprivate := stands_bool f.isPrivate
  refine .record ["name", "ty", "is_static", "is_private"]
    [.text f.name, f.type.toJson, .bool f.isStatic, .bool f.isPrivate] rfl (by simp)
    (by simp [hname.whole, htype.whole, hstatic.whole, hprivate.whole]) (fun _ ↦ rfl)
    fun n v hfields ↦ ?_
  simp [readField?, hfields, required, defaulted, hname.reads n, htype.reads n, hstatic.reads n,
    hprivate.reads n, bind_guarded, ite_and]

private theorem stands_method (m : MethodDecl) : Stands readMethod? m.toJson m := by
  have hname := stands_text m.name
  have htype := stands_type m.returnType
  have hstatic := stands_bool m.isStatic
  have hprivate := stands_bool m.isPrivate
  have hparams : Stands (items? readParameter?) (.arr (m.params.map Parameter.toJson)) m.params :=
    .items fun p _ ↦ stands_parameter p
  have hbody := stands_body (stands_statements m.body)
  refine .record ["name", "return_type", "is_static", "is_private", "params", "body"]
    [.text m.name, m.returnType.toJson, .bool m.isStatic, .bool m.isPrivate,
      .arr (m.params.map Parameter.toJson), .arr (Statement.listToJson m.body)] rfl (by simp)
    (by simp [hname.whole, htype.whole, hstatic.whole, hprivate.whole, hparams.whole, hbody.whole])
    (fun _ ↦ rfl) fun n v hfields ↦ ?_
  simp [readMethod?, hfields, required, defaulted, hname.reads n, htype.reads n, hstatic.reads n,
    hprivate.reads n, hparams.reads n, hbody.reads n, bind_guarded, ite_and]

private theorem stands_class (c : ClassDecl) : Stands readClass? c.toJson c := by
  have hname := stands_text c.name
  have hfields : Stands (items? readField?) (.arr (c.fields.map FieldDecl.toJson)) c.fields :=
    .items fun f _ ↦ stands_field f
  have hmethods : Stands (items? readMethod?) (.arr (c.methods.map MethodDecl.toJson)) c.methods :=
    .items fun m _ ↦ stands_method m
  refine .record ["name", "fields", "methods"]
    [.text c.name, .arr (c.fields.map FieldDecl.toJson), .arr (c.methods.map MethodDecl.toJson)]
    rfl (by simp) (by simp [hname.whole, hfields.whole, hmethods.whole]) (fun _ ↦ rfl)
    fun n v hrecord ↦ ?_
  simp [readClass?, hrecord, required, defaulted, hname.reads n, hfields.reads n, hmethods.reads n,
    bind_guarded, ite_and]

/-- A written program reads back. -/
theorem stands_program (p : Program) : Stands readProgram? p.toJson p := by
  have hclasses : Stands (items? readClass?) (.arr (p.classes.map ClassDecl.toJson)) p.classes :=
    .items fun c _ ↦ stands_class c
  refine .record ["classes"] [.arr (p.classes.map ClassDecl.toJson)] rfl (by simp)
    (by simp [hclasses.whole]) (fun _ ↦ rfl) fun n v hfields ↦ ?_
  simp [readProgram?, hfields, required, hclasses.reads n, bind_guarded]

/-- A program reads back from its value. Its text holds that value, and a file with that text is
read as the program if the arrays and objects of the text nest at most 127 deep, and refused as
no program otherwise. -/
theorem program_reads_back (p : Program) (path : String) :
    Program.ofJson? p.toJson = some p ∧ Json.read? p.write = some p.toJson ∧
      CommandLine.programOf path (.ok p.write) =
        if textNesting p.write ≤ 127 then .ok p else .error (.invalidTree path) := by
  have hp := stands_program p
  have hvalue : Json.read? p.write = some p.toJson := hp.whole.read?_write
  have hnesting : textNesting p.write = p.toJson.depth := hp.whole.textNesting_write
  refine ⟨?_, hvalue, ?_⟩
  · rw [Program.ofJson?, hp.reads, if_pos le_rfl]
  · have hread : Program.read? p.write = if p.toJson.depth ≤ 127 then some p else none := by
      rw [Program.read?, hvalue, Option.bind_some, hp.reads, nestingLimit]
    rw [CommandLine.programOf, hread, hnesting]
    split_ifs <;> rfl

end Programs

end NativeBackend.Tree
