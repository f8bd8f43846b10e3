import NativeBackend.Proofs.Code.Lines
import NativeBackend.Proofs.Code.Stack
import NativeBackend.Proofs.Source.Uses

/-!
# Expressions in code

The code of an expression without calls and allocations, run on the stack of a frame
that represents an environment, pushes the value of the expression in that
environment. It stops at a division exactly when the expression has no value, and
apart from the pushed word changes memory only below the stack pointer.
-/

namespace NativeBackend

open Machine NativeBackend.Tree Convention Execution

/-- The words that an expression has on the stack at most, its value included. -/
def operandWords : Expression → Nat
  | .index _ i => operandWords i + 1
  | .unary _ operand => operandWords operand
  | .binary _ left right => max (operandWords left) (operandWords right + 1)
  | _ => 1

/-- What comes of code that pushes a value, if there is one. -/
def Computes (count : Nat) (value : Except Source.NoValue Word) (s : State)
    (r : Except Stop State) : Prop :=
  match value with
  | .ok v => ∃ s', r = .ok s' ∧ Pushed count v s s'
  | .error .division => r = .error .divideError
  | .error .meaningless => False

/-- The words of memory that an evaluation reads are those of the environment, and none of them is
overwritten. -/
def Holds (env : Source.Environment) (s : State) (count : Nat) (addresses : List Word) : Prop :=
  ∀ x ∈ addresses, s.memory.word x = env.memory x ∧ Outside (s.registers .rsp) count x

private theorem operandWords_pos (e : Expression) : 0 < operandWords e := by
  fun_induction operandWords e with
  | case1 => omega
  | case2 _ _ ih => exact ih
  | case3 _ _ _ ih _ => omega
  | case4 => exact Nat.one_pos

namespace Holds

variable {env : Source.Environment} {s t : State} {count more : Nat} {v : Word}
  {xs ys : List Word}

private theorem append :
    Holds env s count (xs ++ ys) ↔ Holds env s count xs ∧ Holds env s count ys := by
  exact List.forall_mem_append

private theorem mono (h : Holds env s count xs) (hle : more ≤ count) : Holds env s more xs :=
  fun x hx ↦ ⟨(h x hx).1, (h x hx).2.mono hle⟩

private theorem pushed (h : Holds env s count xs) (hp : Pushed count v s t) (hlt : more < count) :
    Holds env t more xs := by
  intro x hx
  obtain ⟨hw, ho⟩ := h x hx
  exact ⟨(hp.words x ho).trans hw, hp.rsp ▸ (ho.mono hlt).below⟩

private theorem kept (h : Holds env s count xs) (hk : Kept count s t) : Holds env t count xs := by
  intro x hx
  obtain ⟨hw, ho⟩ := h x hx
  exact ⟨(hk.words x ho).trans hw, hk.rsp ▸ ho⟩

end Holds

namespace Computes

variable {count more : Nat} {s t : State} {value : Except Source.NoValue Word}
  {r : Except Stop State}

/-- What follows a computation goes on from the value it pushed. -/
theorem bind {f : Word → Except Source.NoValue Word} {g : State → Except Stop State}
    (h : Computes count value s r)
    (k : ∀ v s', value = .ok v → Pushed count v s s' → Computes more (f v) t (g s')) :
    Computes more (value >>= f) t (r >>= g) := by
  cases value with
  | ok v =>
    obtain ⟨s', rfl, hp⟩ := h
    exact k v s' rfl hp
  | error cause =>
    cases cause with
    | division =>
      rw [h]
      rfl
    | meaningless => exact h.elim

private theorem mono (h : Computes more value s r) (hle : more ≤ count) :
    Computes count value s r := by
  cases value with
  | ok v =>
    obtain ⟨s', hr, hp⟩ := h
    exact ⟨s', hr, hp.mono hle⟩
  | error cause => cases cause <;> exact h

private theorem of_puts (hk : Kept count s t) (hc : 0 < count) (h : PutsValue value t r) :
    Computes count value s r := by
  cases value with
  | ok v =>
    obtain ⟨s', hr, hp⟩ := h
    exact ⟨s', hr, hk.puts hp hc⟩
  | error cause => cases cause <;> exact h

end Computes

/-- 32 bits hold the displacement of the parameter that a use reads or assigns, if there is one. -/
def Frame.Covers (f : Frame) (p : Program) (u : Source.Use) : Prop :=
  ∀ position ∈ u.param? p, 8 * f.paramSlot position < 2 ^ 31

instance (f : Frame) (p : Program) (u : Source.Use) : Decidable (f.Covers p u) :=
  inferInstanceAs (Decidable (∀ position ∈ u.param? p, _))

/-- A displacement reaches every live local of a frame, and every parameter that is used. -/
structure InReach (p : Program) (f : Frame) (uses : List Source.Use) : Prop where
  params : ∀ u ∈ uses, f.Covers p u
  live : f.live ≤ 2 ^ 28

namespace InReach

variable {p : Program} {f : Frame} {u : Source.Use} {us vs : List Source.Use}

/-- Fewer uses need no more reach. -/
theorem mono (h : InReach p f us) (hsub : vs ⊆ us) : InReach p f vs :=
  ⟨fun v hv ↦ h.params v (hsub hv), h.live⟩

/-- The first use by itself is in reach. -/
theorem head (h : InReach p f (u :: us)) : InReach p f [u] :=
  ⟨List.forall_mem_singleton.mpr (h.params u List.mem_cons_self), h.live⟩

/-- So are the uses after it. -/
theorem tail (h : InReach p f (u :: us)) : InReach p f us := h.mono (List.subset_cons_self u us)

private theorem object {object : Reference} {field : FieldRef}
    (h : InReach p f [.value (.qualified object (.field field))])
    (hinstance : ¬(p.field? field).any (·.isStatic)) : InReach p f [.value object] := by
  refine ⟨List.forall_mem_singleton.mpr fun position hposition ↦ ?_, h.live⟩
  apply h.params _ (List.mem_singleton_self _)
  rw [Source.Use.param?, Source.rootParam?, if_neg hinstance]
  exact hposition

end InReach

/-- A displacement reaches every field of a program, and the static ones lie where the code has
them. -/
structure FieldsInReach (p : Program) (env : Source.Environment) (base : UInt64) : Prop where
  count : p.fieldCount ≤ 2 ^ 28
  statics : env.statics = base.toBitVec

section References

variable {p : Program} {f : Frame} {env : Source.Environment} {base : UInt64} {isEntry : Bool}
  {is : List Instruction} {s : State}

private theorem run_pushMem {r : Register} {offset : Int32} {v : Word}
    (h : s.memory.word (s.registers r + extend offset) = v) :
    ∃ s', run [.pushMem r offset] s = .ok s' ∧ Puts v s s' :=
  ⟨s.push v, by rw [← h]; rfl, puts_push v rfl rfl rfl⟩

private theorem computes_slot {offset : Int32} {v : Word}
    (h : s.memory.word (s.registers .rbp + extend offset) = v) :
    Computes 1 (.ok v) s (run [.pushMem frameBase offset] s) := by
  obtain ⟨s', hr, hp⟩ := run_pushMem h
  exact ⟨s', hr, (Kept.refl s).puts hp Nat.one_pos⟩

private theorem toBitVec_ofInt (i : Int) : (UInt64.ofInt i).toBitVec = BitVec.ofInt 64 i := by
  apply BitVec.eq_of_toNat_eq
  change (i % 2 ^ 64).toNat % 2 ^ 64 = _
  rw [BitVec.toNat_ofInt]
  omega

private theorem add_extend_slotOffset (b : Word) {rank : Nat} (h : rank < 2 ^ 28) :
    b + extend (slotOffset rank) = Source.wordsInto b rank := by
  rw [extend_slotOffset h, Source.wordsInto]

private theorem run_static (base : UInt64) (s : State) {rank : Nat} (h : rank < 2 ^ 28) :
    ∃ s', run [.movAbs result (base + UInt64.ofInt (slotOffset rank).toInt), .pushMem result 0] s =
      .ok s' ∧ Puts (s.memory.word (Source.wordsInto base.toBitVec rank)) s s' := by
  let t := s.set result (base + UInt64.ofInt (slotOffset rank).toInt).toBitVec
  have hx : t.registers result + extend 0 = Source.wordsInto base.toBitVec rank := by
    rw [← add_extend_slotOffset _ h, s.registers_set_self, UInt64.toBitVec_add, toBitVec_ofInt]
    exact BitVec.add_zero _
  obtain ⟨s', hr, hp⟩ := run_pushMem (congrArg t.memory.word hx)
  exact ⟨s', hr, hp.rsp, hp.rbp, hp.memory⟩

private theorem computes_field (hfields : FieldsInReach p env base) {field : FieldRef}
    {object : List Step} {value : Option Word}
    (hobject : ¬ (p.field? field).any (·.isStatic) → ∀ js, straight? base object = some js →
      ∃ t, run js s = .ok t ∧ value = some (t.registers .rax) ∧ Kept 1 s t)
    (hcode : straight? base (lowerField ⟨p, .ofProgram p, isEntry⟩ field object .value) = some is)
    (hholds : Holds env s 1 (Source.fieldAddress? p env value field).toList) :
    Computes 1 (Source.orMeaningless ((Source.fieldAddress? p env value field).map env.memory)) s
      (run is s) := by
  rw [lowerField, slot?_ofProgram] at hcode
  cases hf : p.field? field with
  | none =>
    rw [hf] at hcode
    cases hcode
  | some d =>
    obtain ⟨hstatic, hinstance⟩ := ranks_lt hf
    have hcount := hfields.count
    by_cases hd : d.isStatic
    · have hx : Source.fieldAddress? p env value field =
          some (Source.wordsInto env.statics (p.staticRank field)) := by
        simp only [Source.fieldAddress?, hf, hd, Option.bind_eq_bind, Option.bind_some, if_true]
        rfl
      simp only [hf, Option.map_some, hd, if_true] at hcode
      rw [hx] at hholds ⊢
      obtain ⟨hw, -⟩ := hholds _ (List.mem_singleton_self _)
      obtain ⟨s', hr, hp⟩ := run_static base s (Nat.lt_of_lt_of_le hstatic hcount)
      rw [← hfields.statics, hw] at hp
      rw [← Option.some.inj hcode]
      exact ⟨s', hr, (Kept.refl s).puts hp Nat.one_pos⟩
    · simp only [hf, Option.map_some, hd] at hcode
      obtain ⟨js, hjs, rfl⟩ := straight?_append_emitAll hcode
      obtain ⟨t, hrun, hvalue, hkept⟩ := hobject (by simp [hf, hd]) js hjs
      have hx : Source.fieldAddress? p env value field =
          some (Source.wordsInto (t.registers .rax) (p.instanceRank field)) := by
        simp only [Source.fieldAddress?, hf, hd, hvalue, Option.bind_eq_bind, Option.bind_some]
        rfl
      rw [hx] at hholds ⊢
      obtain ⟨hw, -⟩ := hholds.kept hkept _ (List.mem_singleton_self _)
      rw [← add_extend_slotOffset _ (Nat.lt_of_lt_of_le hinstance hcount)] at hw ⊢
      obtain ⟨s', hr, hp⟩ := run_pushMem hw
      refine ⟨s', ?_, hkept.puts hp Nat.one_pos⟩
      rw [run_append, hrun]
      exact hr

private theorem lookup_of_findIdx? {id : VarId} {k : Nat} {locals : List (VarId × Word)}
    (h : (locals.map Prod.fst).findIdx? (· == id) = some k) :
    ∃ v, locals.lookup id = some v ∧ locals[k]? = some (id, v) := by
  induction locals generalizing k with
  | nil => cases h
  | cons x locals ih =>
    rw [List.map_cons, List.findIdx?_cons] at h
    split at h
    · next hx =>
      have hid : x.1 = id := beq_iff_eq.mp hx
      refine ⟨x.2, ?_, ?_⟩
      · rw [List.lookup_cons, ← hid, beq_self_eq_true]
      · rw [← Option.some.inj h, ← hid]
        rfl
    · next hx =>
      obtain ⟨k, hk, rfl⟩ := Option.map_eq_some_iff.mp h
      obtain ⟨v, hv, hget⟩ := ih hk
      refine ⟨v, ?_, hget⟩
      have hne : (id == x.1) = false := by
        rw [BEq.comm]
        exact Bool.eq_false_iff.mpr hx
      rw [List.lookup_cons, hne, hv]

private theorem computes_this (hframe : Represents f env s)
    (hcode : straight? base (lowerThis f) = some is) :
    Computes 1 (Source.orMeaningless env.receiver) s (run is s) := by
  rw [lowerThis] at hcode
  split at hcode
  · next offset ho =>
    obtain ⟨hr, hx⟩ := Frame.add_extend_receiver (s.registers .rbp) ho
    rw [hframe.receiver, if_pos hr, ← Option.some.inj hcode]
    exact computes_slot (congrArg s.memory.word hx)
  · cases hcode

private theorem run_loadReceiver {field : FieldRef} (hframe : Represents f env s)
    (hcode : straight? base (loadReceiver f field) = some is) :
    ∃ t, run is s = .ok t ∧ env.receiver = some (t.registers .rax) ∧ Kept 1 s t := by
  rw [loadReceiver] at hcode
  split at hcode
  · next offset ho =>
    obtain ⟨hr, hx⟩ := Frame.add_extend_receiver (s.registers .rbp) ho
    rw [hframe.receiver, if_pos hr, ← Option.some.inj hcode, ← hx]
    exact ⟨_, rfl, rfl, rfl, rfl, fun _ _ ↦ rfl⟩
  · cases hcode

private theorem computes_param {position : UInt64}
    (hreach : 8 * f.paramSlot position.toNat < 2 ^ 31) (hframe : Represents f env s)
    (hcode : straight? base (lowerReference ⟨p, .ofProgram p, isEntry⟩ f
      (.localName (.param position)) .value) = some is) :
    Computes 1 (Source.orMeaningless env.params[position.toNat]?) s (run is s) := by
  rw [lowerReference] at hcode
  split at hcode
  · next offset ho =>
    obtain ⟨hlt, hx⟩ := Frame.add_extend_param (s.registers .rbp) hreach ho
    have hget := List.getElem?_eq_getElem (hframe.paramCount ▸ hlt)
    rw [hget, ← Option.some.inj hcode]
    apply computes_slot
    rw [hx, hframe.params _ _ hget]
  · cases hcode

private theorem computes_local {id : VarId} (hlive : f.live ≤ 2 ^ 28) (hframe : Represents f env s)
    (hcode : straight? base (lowerReference ⟨p, .ofProgram p, isEntry⟩ f
      (.localName (.var id)) .value) = some is) :
    Computes 1 (Source.orMeaningless (env.locals.lookup id)) s (run is s) := by
  rw [lowerReference] at hcode
  split at hcode
  · next offset ho =>
    obtain ⟨k, hk, hlt, hx⟩ := Frame.add_extend_local (s.registers .rbp) hlive ho
    rw [← hframe.names] at hk
    obtain ⟨v, hv, hget⟩ := lookup_of_findIdx? hk
    rw [hv, ← Option.some.inj hcode]
    apply computes_slot
    rw [hx, hframe.locals _ _ hget]
  · cases hcode

/-- Taking the value of a reference off the stack again. -/
theorem Computes.run_pop {value : Option Word}
    (h : Computes 1 (Source.orMeaningless value) s (run is s)) :
    ∃ t, run (is ++ [.popReg result]) s = .ok t ∧ value = some (t.registers .rax) ∧ Kept 1 s t := by
  cases value with
  | none => exact h.elim
  | some v =>
    obtain ⟨s', hr, hp⟩ := h
    obtain ⟨t, hpop, hv, hk⟩ := hp.run_pop
    refine ⟨t, ?_, congrArg some hv.symm, hk⟩
    rw [run_append, hr]
    exact hpop

/-- The code of a reference pushes its value. -/
theorem computes_reference (r : Reference) (hreach : InReach p f [.value r])
    (hfields : Source.isVariable r = false → FieldsInReach p env base)
    (hcode : straight? base (lowerReference ⟨p, .ofProgram p, isEntry⟩ f r .value) = some is)
    (hframe : Represents f env s) (hholds : Holds env s 1 (Source.referenceReads p env r)) :
    Computes 1 (Source.orMeaningless (Source.reference? p env r)) s (run is s) := by
  induction r generalizing is with
  | this => exact computes_this hframe hcode
  | localName name =>
    cases name with
    | param position =>
      have hcovers := hreach.params _ (List.mem_singleton_self _)
      exact computes_param (hcovers _ rfl) hframe hcode
    | var id => exact computes_local hreach.live hframe hcode
  | field field =>
    exact computes_field (hfields rfl) (fun _ _ h ↦ run_loadReceiver hframe h) hcode hholds
  | qualified object member ih =>
    cases member with
    | field field =>
      obtain ⟨hbase, haddress⟩ := Holds.append.mp hholds
      apply computes_field (hfields rfl) _ hcode haddress
      intro hinstance js hjs
      rw [if_neg hinstance] at hbase
      obtain ⟨ks, hks, rfl⟩ := straight?_append_emitAll hjs
      exact (ih (hreach.object hinstance) (fun _ ↦ hfields rfl) hks hbase).run_pop
    | method _ => cases hcode
  | classAt _ => cases hcode
  | method _ => cases hcode
  | println => cases hcode

end References

private theorem extend_literalValue (value : Literal) :
    extend (literalValue value) = Source.literal value := by
  cases value with
  | int _ => rfl
  | bool b => cases b <;> rfl
  | null => rfl

private theorem run_unaryInstruction (s : State) (op : UnaryOp) :
    ∃ s', run [unaryInstruction op, .pushReg result] s = .ok s' ∧
      Puts (Source.unary op (s.registers .rax)) s s' := by
  cases op with
  | not => exact ⟨_, rfl, puts_push _ rfl rfl rfl⟩
  | neg => exact ⟨_, rfl, puts_push _ rfl rfl rfl⟩

private theorem run_element {s : State} {v : Word}
    (h : s.memory.word (s.registers .rax + 8 * s.registers .rcx) = v) :
    ∃ s', run [.movLoad (element result), .pushReg result] s = .ok s' ∧ Puts v s s' := by
  have hx : s.registers .rax + s.registers .rcx * BitVec.ofNat 64 8 + extend 0 =
      s.registers .rax + 8 * s.registers .rcx := by
    rw [BitVec.mul_comm]
    exact BitVec.add_zero _
  refine ⟨(s.set .rax v).push v, ?_, puts_push v rfl rfl rfl⟩
  rw [← h, ← hx]
  rfl

section Expressions

variable {p : Program} {f : Frame} {env : Source.Environment} {base : UInt64} {isEntry : Bool}

/-- The code of an expression pushes its value. -/
theorem computes_expression (e : Expression) (hplain : Source.isPlain e)
    (hreach : InReach p f (Source.expressionUses e))
    (hfields : Source.isScalar e = false → FieldsInReach p env base) {is : List Instruction}
    {s : State} {depth : Nat}
    (hcode : straight? base (lowerExpression ⟨p, .ofProgram p, isEntry⟩ f e) = some is)
    (hstack : Stacked f depth (operandWords e) s) (hframe : Represents f env s)
    (hholds : Holds env s (operandWords e) (Source.reads p env e)) :
    Computes (operandWords e) (Source.evaluate p env e) s (run is s) := by
  fun_induction operandWords e generalizing is s depth with
  | case1 array i ih =>
    obtain ⟨is, his, rfl⟩ := straight?_append_emitAll hcode
    obtain ⟨js, ks, hjs, hks, rfl⟩ := straight?_append_eq_some his
    obtain ⟨hreads, haddress⟩ := Holds.append.mp hholds
    obtain ⟨harray, hindex⟩ := Holds.append.mp hreads
    have hr := computes_reference array hreach.head (fun _ ↦ hfields rfl) hjs hframe
      (harray.mono (by omega))
    rw [List.append_assoc, run_append]
    apply (hr.mono (Nat.succ_le_succ (Nat.zero_le _))).bind
    intro b s₁ hb hp
    have hi := ih hplain hreach.tail (fun _ ↦ hfields rfl) hks (hstack.pushed hp)
      (hframe.congr hstack hp.rbp hp.words) (hindex.pushed hp (Nat.lt_succ_self _))
    rw [run_append]
    apply hi.bind
    intro k s₂ hk hq
    obtain ⟨t, hpop, hrax, hrcx, hkept⟩ :=
      hp.run_pop_two hq (Nat.lt_succ_self _) (by have := hstack.fits; omega)
    have hb' : Source.reference? p env array = some b := by
      cases hv : Source.reference? p env array with
      | none => rw [hv] at hb; cases hb
      | some b' => rw [hv] at hb; exact congrArg some (Except.ok.inj hb)
    rw [hb', hk] at haddress
    obtain ⟨hw, -⟩ := haddress.kept hkept _ (List.mem_singleton_self _)
    rw [← hrax, ← hrcx] at hw ⊢
    obtain ⟨s', hs', hputs⟩ := run_element hw
    refine ⟨s', ?_, hkept.puts hputs (Nat.succ_pos _)⟩
    change run ([.popReg scratch, .popReg result] ++
      [.movLoad (element result), .pushReg result]) s₂ = _
    rw [run_append, hpop]
    exact hs'
  | case2 op operand ih =>
    obtain ⟨js, hjs, rfl⟩ := straight?_append_emitAll hcode
    rw [run_append]
    apply (ih hplain hreach hfields hjs hstack hframe hholds).bind
    intro v s₁ hv hp
    obtain ⟨t, hpop, hrax, hkept⟩ := hp.run_pop
    obtain ⟨s', hr, hputs⟩ := run_unaryInstruction t op
    rw [hrax] at hputs
    refine ⟨s', ?_, hkept.puts hputs (operandWords_pos operand)⟩
    change run ([.popReg result] ++ [unaryInstruction op, .pushReg result]) s₁ = _
    rw [run_append, hpop]
    exact hr
  | case3 op left right ihl ihr =>
    obtain ⟨hpl, hpr⟩ := Bool.and_eq_true_iff.mp hplain
    obtain ⟨is, his, rfl⟩ := straight?_append_emitAll hcode
    obtain ⟨js, ks, hjs, hks, rfl⟩ := straight?_append_eq_some his
    obtain ⟨hleft, hright⟩ := Holds.append.mp hholds
    have hl := ihl hpl (hreach.mono (List.subset_append_left _ _))
      (fun h ↦ hfields (by simp [Source.isScalar, h])) hjs (hstack.mono (Nat.le_max_left _ _))
      hframe (hleft.mono (Nat.le_max_left _ _))
    rw [List.append_assoc, run_append]
    apply (hl.mono (Nat.le_max_left _ _)).bind
    intro a s₁ ha hp
    rw [ha] at hright
    have hlt : operandWords right < max (operandWords left) (operandWords right + 1) := by omega
    have hr := ihr hpr (hreach.mono (List.subset_append_right _ _))
      (fun h ↦ hfields (by simp [Source.isScalar, h])) hks ((hstack.mono hlt).pushed hp)
      (hframe.congr hstack hp.rbp hp.words) (hright.pushed hp hlt)
    rw [run_append]
    apply hr.bind
    intro b s₂ hb hq
    obtain ⟨t, hpop, hrax, hrcx, hkept⟩ :=
      hp.run_pop_two hq hlt (by have := hstack.fits; omega)
    rw [run_append, hpop, ← hrax, ← hrcx]
    exact .of_puts hkept (by omega) (run_binaryInstructions t op)
  | case4 e hindex hunary hbinary =>
    cases e with
    | literal value =>
      rw [← Option.some.inj hcode]
      refine ⟨_, rfl, (Kept.refl s).puts ?_ Nat.one_pos⟩
      rw [← extend_literalValue]
      exact puts_push _ rfl rfl rfl
    | ref r => exact computes_reference r hreach hfields hcode hframe hholds
    | call callee args => cases hplain
    | newObject _ => cases hplain
    | newArray _ size => cases hplain
    | index array i => exact (hindex array i rfl).elim
    | unary op operand => exact (hunary op operand rfl).elim
    | binary op left right => exact (hbinary op left right rfl).elim

end Expressions

end NativeBackend
