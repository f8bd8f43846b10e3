import NativeBackend.Proofs.Code.Lines
import NativeBackend.Proofs.Code.Placement
import NativeBackend.Proofs.Source.Calls

/-!
# Calls in assembled code

The calls among the instructions of a routine are those of its body, in the same order,
each with the name of the routine that the body runs there. No other instruction is a
call.
-/

namespace NativeBackend

open Machine NativeBackend.Tree Convention

/-- The calls among marked instructions. -/
def callMarks (ms : List Marked) : List Marked := ms.filter (·.entry.instruction.isCall)

/-- An instruction is there to call the routine of a node. -/
def Marked.CallsFor (p : Program) (m : Marked) (node : Source.CallNode) : Prop :=
  ∃ name, node.routine? p = some name ∧ m.purpose = .call name

/-- The calls that steps become are those of nodes. -/
def CallsOf (p : Program) (steps : List Step) (nodes : List Source.CallNode) : Prop :=
  ∀ ⦃o ms⦄, Assembled o steps ms → List.Forall₂ (Marked.CallsFor p) (callMarks ms) nodes

@[simp] private theorem callMarks_append (ms ms' : List Marked) :
    callMarks (ms ++ ms') = callMarks ms ++ callMarks ms' :=
  List.filter_append _ _

private theorem callMarks_plain {i : Instruction} (hi : i.isCall = false) (o : Nat)
    (bs : List UInt8) (ms : List Marked) : callMarks (.plain i o bs :: ms) = callMarks ms :=
  List.filter_cons_of_neg (by simpa [Marked.plain] using hi)

namespace CallsOf

variable {p : Program} {xs ys : List Step} {nodes nodes' : List Source.CallNode}

private theorem append (hx : CallsOf p xs nodes) (hy : CallsOf p ys nodes') :
    CallsOf p (xs ++ ys) (nodes ++ nodes') := by
  intro o ms h
  obtain ⟨ms₁, ms₂, rfl, h₁, h₂⟩ := h.of_append
  rw [callMarks_append]
  exact List.rel_append (hx h₁) (hy h₂)

/-- Straight code has no calls. -/
theorem of_line (hline : xs.all Step.isLine) : CallsOf p xs [] := by
  intro o ms h
  induction h with
  | nil => exact .nil
  | emit _ _ ih =>
    obtain ⟨hi, hrest⟩ := Bool.and_eq_true_iff.mp hline
    rw [callMarks_plain (Bool.not_eq_true' _ ▸ hi)]
    exact ih hrest
  | staticAddress _ ih =>
    obtain ⟨-, hrest⟩ := Bool.and_eq_true_iff.mp hline
    exact ih hrest
  | frame | call | undeclared | settle | when | choose | loop => cases hline

private theorem append_line (hx : CallsOf p xs nodes) (hline : ys.all Step.isLine) :
    CallsOf p (xs ++ ys) nodes := by
  have happend := hx.append (of_line hline)
  rwa [List.append_nil] at happend

private theorem emit_cons {i : Instruction} (hi : i.isCall = false) (h : CallsOf p xs nodes) :
    CallsOf p (.emit i :: xs) nodes := by
  intro o ms hcode
  cases hcode with
  | emit _ rest =>
    rw [callMarks_plain hi]
    exact h rest

/-- Instructions of a frame that are no calls have none. -/
theorem frames {is : List Instruction} (his : is.all (!·.isCall)) :
    CallsOf p (is.map .frame) [] := by
  induction is with
  | nil => exact of_line rfl
  | cons i is ih =>
    obtain ⟨hi, hrest⟩ := Bool.and_eq_true_iff.mp his
    intro o ms h
    cases h with
    | frame _ rest =>
      rw [callMarks_plain (Bool.not_eq_true' _ ▸ hi)]
      exact ih hrest rest

/-- Steps that cannot be assembled have whatever calls. -/
theorem refuse (fault : Fault) (nodes : List Source.CallNode) :
    CallsOf p [.refuse fault] nodes := by
  intro o ms h
  cases h

private theorem undeclared (name : String) : CallsOf p [.undeclared name] [] := by
  intro o ms h
  cases h with
  | undeclared rest => exact of_line rfl rest

private theorem settle (live : Nat) : CallsOf p [.settle live] [] := by
  intro o ms h
  cases h with
  | settle rest => exact of_line rfl rest

private theorem call {node : Source.CallNode} {name : String} (h : node.routine? p = some name) :
    CallsOf p [.call name] [node] := by
  intro o ms hcode
  cases hcode with
  | call rest =>
    cases rest
    exact .cons ⟨name, h, rfl⟩ .nil

private theorem when {body : List Step} (h : CallsOf p body nodes) : CallsOf p [.when body] nodes :=
  by
  intro o ms hcode
  cases hcode with
  | when _ body_code _ rest =>
    cases rest
    rw [callMarks_plain rfl, List.append_nil]
    exact h body_code

private theorem choose {yes no : List Step} (hyes : CallsOf p yes nodes)
    (hno : CallsOf p no nodes') : CallsOf p [.choose yes no] (nodes ++ nodes') := by
  intro o ms hcode
  cases hcode with
  | choose _ yes_code _ _ no_code _ _ rest =>
    cases rest
    rw [callMarks_plain rfl, callMarks_append, callMarks_plain rfl, List.append_nil]
    exact List.rel_append (hyes yes_code) (hno no_code)

private theorem isCall_jmpFitted {origin target : Nat} {j : Instruction}
    (h : Instruction.jmpFitted origin target = .ok j) : j.isCall = false := by
  obtain ⟨d, -, -, -, rfl⟩ | hnear := jmpFitted_eq_ok h
  · rfl
  · obtain ⟨d, -, rfl⟩ := jmpNear_eq_ok hnear
    rfl

private theorem loop {cond body : List Step} (hcond : CallsOf p cond nodes)
    (hbody : CallsOf p body nodes') : CallsOf p [.loop cond body] (nodes ++ nodes') := by
  intro o ms hcode
  cases hcode with
  | loop cond_code _ _ body_code _ aimed' _ _ rest =>
    cases rest
    rw [callMarks_append, callMarks_plain rfl, callMarks_append,
      callMarks_plain (isCall_jmpFitted aimed')]
    exact List.rel_append (hcond cond_code) (by simpa [callMarks] using hbody body_code)

end CallsOf

section Lowering

variable (s : Surroundings) (f : Frame)

private theorem isLine_releaseSteps (words : Nat) : (releaseSteps words).all Step.isLine := by
  rw [releaseSteps]
  split
  · rfl
  · split <;> rfl

private theorem callsOf_reference (r : Reference) (access : Access) :
    CallsOf s.program (lowerReference s f r access) [] :=
  .of_line (isLine_lowerReference s f r access)

private theorem callsOf_receiver (r : Receiver) :
    CallsOf s.program (lowerReceiver s f r) [] := by
  cases r with
  | absent => exact .of_line rfl
  | this => exact .of_line (isLine_lowerThis f)
  | base r => exact callsOf_reference s f r .value

private theorem callsOf_allocation :
    CallsOf s.program [.call Builtin.allocateName, .emit (.pushReg result)] [.allocation] :=
  CallsOf.append_line (.call rfl) rfl

private theorem callsOf_lowerCall (callee : Reference) {args : List Step} (count : Nat)
    {nodes : List Source.CallNode} (hargs : CallsOf s.program args nodes) :
    CallsOf s.program (lowerCall s f callee args count) (nodes ++ [.call callee]) := by
  rw [lowerCall]
  split
  · exact .refuse _ _
  · next c hc =>
    have hnote : CallsOf s.program (if c.declared then [] else [.undeclared c.routine]) [] := by
      split
      · exact .of_line rfl
      · exact .undeclared _
    have hname : (Source.CallNode.call callee).routine? s.program = some c.routine := by
      rw [Source.CallNode.routine?, hc]
      rfl
    have hpassed := (hnote.append hargs).append (callsOf_receiver s f c.receiver)
    have hcall := hpassed.append (.call hname)
    rw [List.append_nil] at hcall
    exact hcall.append_line (isLine_releaseSteps (count + c.receiver.words))

mutual

/-- The steps of an expression have its calls. -/
theorem callsOf_lowerExpression :
    (e : Expression) → CallsOf s.program (lowerExpression s f e) (Source.expressionCalls e)
  | .literal value => .of_line rfl
  | .ref r => callsOf_reference s f r .value
  | .index array i =>
    ((callsOf_reference s f array .value).append (callsOf_lowerExpression i)).append_line rfl
  | .unary op operand => (callsOf_lowerExpression operand).append_line (by cases op <;> rfl)
  | .binary op left right =>
    ((callsOf_lowerExpression left).append (callsOf_lowerExpression right)).append_line
      (by cases op <;> rfl)
  | .call callee args =>
    (callsOf_lowerCall s f callee args.length (callsOf_lowerArguments args)).append_line rfl
  | .newObject _ => callsOf_allocation s
  | .newArray _ size =>
    (callsOf_lowerExpression size).append (.emit_cons rfl (callsOf_allocation s))

/-- The steps of arguments have their calls. -/
theorem callsOf_lowerArguments :
    (es : List Expression) → CallsOf s.program (lowerArguments s f es) (Source.argumentCalls es)
  | [] => .of_line rfl
  | e :: es => (callsOf_lowerExpression e).append (callsOf_lowerArguments es)

end

private theorem callsOf_lowerCondition (cond : Expression) :
    CallsOf s.program (lowerCondition s f cond) (Source.expressionCalls cond) :=
  (callsOf_lowerExpression s f cond).append_line rfl

private theorem callsOf_leaveSteps : CallsOf s.program (leaveSteps s) [] := by
  rw [leaveSteps]
  split
  · exact .frames rfl
  · exact .frames rfl

private theorem callsOf_leaving {steps : List Step} {nodes : List Source.CallNode}
    (h : CallsOf s.program steps nodes) : CallsOf s.program (steps ++ leaveSteps s) nodes := by
  have hleave := h.append (callsOf_leaveSteps s)
  rwa [List.append_nil] at hleave

private theorem callsOf_inScope {mark : Nat} {body : List Step × Frame}
    {nodes : List Source.CallNode} (h : CallsOf s.program body.1 nodes) :
    CallsOf s.program (inScope mark body).1 nodes :=
  h.append_line (isLine_releaseSteps _)

private theorem callsOf_settled {body : List Step × Frame} {nodes : List Source.CallNode}
    (h : CallsOf s.program body.1 nodes) : CallsOf s.program (settled body).1 nodes := by
  have hsettled := h.append (.settle body.2.live)
  rwa [List.append_nil] at hsettled

mutual

/-- The steps of a statement have its calls. -/
theorem callsOf_lowerStatement :
    (st : Statement) → (f : Frame) →
      CallsOf s.program (lowerStatement s f st).1 (Source.statementCalls st)
  | .block body, f => callsOf_settled s (callsOf_inScope s (callsOf_lowerStatements body f))
  | .declare decl init, f =>
    callsOf_settled s (.emit_cons rfl
      ((callsOf_lowerExpression s (f.declare decl.id) init).append_line rfl))
  | .assign target value, f =>
    callsOf_settled s (((callsOf_reference s f target .address).append
      (callsOf_lowerExpression s f value)).append_line rfl)
  | .assignElement array i value, f =>
    callsOf_settled s ((((callsOf_reference s f array .value).append
      (callsOf_lowerExpression s f i)).append (callsOf_lowerExpression s f value)).append_line rfl)
  | .call callee args, f =>
    callsOf_settled s (callsOf_lowerCall s f callee args.length (callsOf_lowerArguments s f args))
  | .giveBack none, _ => callsOf_settled s (callsOf_leaveSteps s)
  | .giveBack (some value), f =>
    callsOf_settled s (callsOf_leaving s ((callsOf_lowerExpression s f value).append_line rfl))
  | .branch cond yes none, f =>
    callsOf_settled s ((callsOf_lowerCondition s f cond).append
      (.when (callsOf_inScope s (callsOf_lowerStatement yes f))))
  | .branch cond yes (some no), f =>
    callsOf_settled s ((callsOf_lowerCondition s f cond).append
      (.choose (callsOf_inScope s (callsOf_lowerStatement yes f))
        (callsOf_inScope s (callsOf_lowerStatement no _))))
  | .loop cond body, f =>
    callsOf_settled s (.loop (callsOf_lowerCondition s f cond)
      (callsOf_inScope s (callsOf_lowerStatement body f)))

/-- The steps of statements have their calls. -/
theorem callsOf_lowerStatements :
    (sts : List Statement) → (f : Frame) →
      CallsOf s.program (lowerStatements s f sts).1 (Source.bodyCalls sts)
  | [], _ => .of_line rfl
  | st :: sts, f => (callsOf_lowerStatement st f).append (callsOf_lowerStatements sts _)

end

/-- The steps of a routine have the calls of its body. -/
theorem callsOf_lowerMethod (m : MethodDecl) :
    CallsOf s.program (lowerMethod s m) (Source.bodyCalls m.body) := by
  have hopen : CallsOf s.program (Builtin.prologue.map .frame) [] := .frames rfl
  exact callsOf_leaving s (hopen.append (callsOf_lowerStatements s m.body (.ofMethod m)))

end Lowering

end NativeBackend
