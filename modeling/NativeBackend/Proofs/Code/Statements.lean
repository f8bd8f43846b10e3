import NativeBackend.Proofs.Code.Frames
import NativeBackend.Proofs.Code.Paths

/-!
# Statements in code

The code of a statement, entered with a frame that represents an environment, does what
the statement does: it ends after its last instruction with a frame that represents
the environment after it, or returns to the caller. The induction is on the fuel of the
execution, and what it carries is `Outcome`: wherever the statement ends, the stack
pointer is back at the latest local, and no word is written but those of the frame.
-/

namespace NativeBackend

open Machine NativeBackend.Tree Convention Execution

/-- A value has a property, if the expression has a value. -/
def Gives (value : Except Source.NoValue Word) (property : Word → Prop) : Prop :=
  match value with
  | .ok v => property v
  | .error .division => True
  | .error .meaningless => False

/-- A routine has returned to its caller, with a value or without. -/
structure Returned (above reach : Nat) (value : Option Word) (s : State) (c : Configuration) :
    Prop where
  counter : c.counter = (s.memory.word (slot (s.registers .rbp) 1)).toNat
  rbp : c.state.registers .rbp = s.memory.word (s.registers .rbp)
  rsp : c.state.registers .rsp = slot (s.registers .rbp) 2
  value : ∀ v, value = some v → c.state.registers .rax = v
  words : ∀ x, Elsewhere above reach (s.registers .rbp) x →
    c.state.memory.word x = s.memory.word x

/-- What comes of the code of statements between two offsets, given what they do and the frame after
them. -/
def Outcome (code : CodeStream) (reach : Nat) (f : Frame) (o stop : Nat) (s : State) :
    Except Source.NoEnding Source.Ending → Prop
  | .ok (.goesOn env) =>
    ∃ t, Reaches code ⟨o, s⟩ ⟨stop, t⟩ ∧ Resting f env t ∧ Steady f.above reach s t
  | .ok (.returns value) => ∃ c, Reaches code ⟨o, s⟩ c ∧ Returned f.above reach value s c
  | .error .outOfFuel | .error (.noValue .division) => True
  | .error (.noValue .meaningless) => False

private theorem Computes.gives {count : Nat} {value : Except Source.NoValue Word} {s : State}
    {r : Except Stop State} (h : Computes count value s r) :
    Gives value fun v ↦ ∃ t, r = .ok t ∧ Pushed count v s t := by
  cases value with
  | ok v => exact h
  | error cause =>
    cases cause with
    | division => trivial
    | meaningless => exact h

/-- A value has whatever follows from a property of it. -/
theorem Gives.imp {value : Except Source.NoValue Word} {P Q : Word → Prop} (h : Gives value P)
    (hPQ : ∀ v, P v → Q v) : Gives value Q := by
  cases value with
  | ok v => exact hPQ v h
  | error cause => cases cause <;> exact h

section Scalars

variable {p : Program} {f : Frame} {env : Source.Environment} {base : UInt64} {isEntry : Bool}
  {e : Expression} {s : State} {depth : Nat}

private theorem isPlain_of_isScalar (h : Source.isScalar e) : Source.isPlain e := by
  fun_induction Source.isScalar e with
  | case1 | case2 => rfl
  | case3 _ operand ih => exact ih h
  | case4 _ left right ihl ihr =>
    obtain ⟨hl, hr⟩ := Bool.and_eq_true_iff.mp h
    rw [Source.isPlain, ihl hl, ihr hr, Bool.and_self]
  | case5 => cases h

private theorem reads_of_isScalar (h : Source.isScalar e) : Source.reads p env e = [] := by
  fun_induction Source.isScalar e with
  | case1 => rfl
  | case2 r =>
    cases r with
    | localName _ => rfl
    | this | field | qualified | classAt | method | println => cases h
  | case3 _ operand ih => exact ih h
  | case4 _ left right ihl ihr =>
    obtain ⟨hl, hr⟩ := Bool.and_eq_true_iff.mp h
    rw [Source.reads, ihl hl, ihr hr]
    split <;> rfl
  | case5 => cases h

/-- The code of a scalar expression pushes its value. -/
theorem computes_scalar {is : List Instruction} (hscalar : Source.isScalar e)
    (hreach : InReach p f (Source.expressionUses e))
    (hcode : straight? base (lowerExpression ⟨p, .ofProgram p, isEntry⟩ f e) = some is)
    (hstack : Stacked f depth (operandWords e) s) (hframe : Represents f env s) :
    Computes (operandWords e) (Source.evaluate p env e) s (run is s) := by
  refine computes_expression e (isPlain_of_isScalar hscalar) hreach (fun h ↦ ?_) hcode hstack
    hframe ?_
  · rw [hscalar] at h
    cases h
  · rw [reads_of_isScalar hscalar]
    exact fun x hx ↦ nomatch hx

end Scalars

section Release

variable {code : CodeStream} {base : UInt64} {o stop : Nat}

private theorem extend_ofNat {words : Nat} (h : 8 * words < 2 ^ 31) :
    extend (Int32.ofNat (8 * words)) = BitVec.ofInt 64 (8 * words) := by
  have hv : (Int32.ofNat (8 * words)).toInt = ((8 * words : Nat) : Int) :=
    Int32.toInt_ofNat_of_lt h
  change BitVec.ofInt 64 (Int32.ofNat (8 * words)).toInt = _
  rw [hv]
  rfl

/-- Words are taken off the stack. -/
theorem Located.release {words : Nat} (h : Located code base o (releaseSteps words) stop)
    (s : State) :
    ∃ t, Reaches code ⟨o, s⟩ ⟨stop, t⟩ ∧ t.registers .rsp = slot (s.registers .rsp) words ∧
      t.registers .rbp = s.registers .rbp ∧ t.memory = s.memory := by
  rw [releaseSteps] at h
  split at h
  · next hzero =>
    rw [h.nil, hzero]
    exact ⟨s, .refl, (slot_zero _).symm, rfl, rfl⟩
  · split at h
    · next hfits =>
      obtain ⟨is, his, hrun⟩ := h.line rfl
      cases his
      refine ⟨_, hrun s _ rfl, ?_, rfl, rfl⟩
      change s.registers .rsp + extend (Int32.ofNat (8 * words)) = _
      rw [extend_ofNat hfits]
      rfl
    · obtain ⟨ms, hcode, -⟩ := h
      cases hcode

end Release

namespace Outcome

variable {code : CodeStream} {reach o between stop : Nat} {f g : Frame} {s t : State}
  {r : Except Source.NoEnding Source.Ending}

private theorem elsewhere_slot (base : Word) (hfits : f.above + reach ≤ 2 ^ 61) {k : Int}
    (hk : k = 0 ∨ k = 1) : Elsewhere f.above reach base (slot base k) := by
  intro j hlow hhigh h0 h1
  have habove := f.paramCount_lt_above
  apply apart_slot base <;> omega

/-- Code before that only moves on leaves the outcome. -/
theorem of_reaches (h : Outcome code reach f between stop t r) (hfits : f.above + reach ≤ 2 ^ 61)
    (hreaches : Reaches code ⟨o, s⟩ ⟨between, t⟩) (hsteady : Steady f.above reach s t) :
    Outcome code reach f o stop s r := by
  match r, h with
  | .ok (.goesOn env), ⟨u, hu, hresting, hsteady'⟩ =>
    exact ⟨u, hreaches.trans hu, hresting, hsteady.trans hsteady'⟩
  | .ok (.returns value), ⟨c, hc, hr⟩ =>
    have hsaved := hsteady.words _ (elsewhere_slot _ hfits (.inl rfl))
    have hreturn := hsteady.words _ (elsewhere_slot _ hfits (.inr rfl))
    rw [slot_zero] at hsaved
    refine ⟨c, hreaches.trans hc, ?_, ?_, ?_, hr.value, fun x hx ↦ ?_⟩
    · rw [hr.counter, hsteady.rbp, hreturn]
    · rw [hr.rbp, hsteady.rbp, hsaved]
    · rw [hr.rsp, hsteady.rbp]
    · rw [hr.words x (hsteady.rbp.symm ▸ hx), hsteady.words x hx]
  | .error .outOfFuel, _ => trivial
  | .error (.noValue .division), _ => trivial

/-- A jump at the end leads on. -/
theorem jumps (h : Outcome code reach f o between s r) (hjump : JumpsTo code between stop) :
    Outcome code reach f o stop s r := by
  match r, h with
  | .ok (.goesOn env), ⟨u, hu, hresting, hsteady⟩ =>
    exact ⟨u, hu.trans (hjump u), hresting, hsteady⟩
  | .ok (.returns value), ⟨c, hc, hr⟩ => exact ⟨c, hc, hr⟩
  | .error .outOfFuel, _ => trivial
  | .error (.noValue .division), _ => trivial

/-- The outcome of what depends on a value. -/
theorem value {p : Program} {env : Source.Environment} {e : Expression}
    {k : Word → Except Source.NoEnding Source.Ending}
    (h : Gives (Source.evaluate p env e) fun v ↦ Outcome code reach f o stop s (k v)) :
    Outcome code reach f o stop s (Source.value p env e >>= k) := by
  rw [Source.value]
  match he : Source.evaluate p env e, h with
  | .ok v, h => exact h
  | .error .division, _ => trivial

/-- Statements go on where the ones before them end. -/
theorem andThen {k : Source.Environment → Except Source.NoEnding Source.Ending}
    (h : Outcome code reach f o between s r) (habove : g.above = f.above)
    (hfits : f.above + reach ≤ 2 ^ 61)
    (hk : ∀ env t, Resting f env t → Outcome code reach g between stop t (k env)) :
    Outcome code reach g o stop s (Source.andThen r k) := by
  match r, h with
  | .ok (.goesOn env), ⟨t, ht, hresting, hsteady⟩ =>
    exact (hk env t hresting).of_reaches (habove ▸ hfits) ht (habove ▸ hsteady)
  | .ok (.returns value), ⟨c, hc, hr⟩ => exact ⟨c, hc, habove ▸ hr⟩
  | .error .outOfFuel, _ => trivial
  | .error (.noValue .division), _ => trivial

/-- At the end of a scope its locals are taken off the stack. -/
theorem inScope {base : UInt64} {new : List VarId}
    (h : Outcome code reach (f.extended new) o between s r)
    (hrelease : Located code base between (releaseSteps ((f.extended new).beyond f.live)) stop) :
    Outcome code reach f o stop s (Source.inScope f.live r) := by
  match r, h with
  | .ok (.goesOn env), ⟨t, ht, hresting, hsteady⟩ =>
    obtain ⟨u, hu, hrsp, hrbp, hm⟩ := hrelease.release t
    refine ⟨u, ht.trans hu, ⟨?_, hresting.frame.leave hrbp hm⟩, hsteady.trans ⟨hrbp, ?_⟩⟩
    · rw [hrsp, hrbp, hresting.rsp, slot_slot, Frame.beyond_extended, Frame.live_extended]
      congr 1
      omega
    · intro x _
      rw [hm]
  | .ok (.returns value), ⟨c, hc, hr⟩ => exact ⟨c, hc, hr⟩
  | .error .outOfFuel, _ => trivial
  | .error (.noValue .division), _ => trivial

end Outcome

section Simple

variable {p : Program} {code : CodeStream} {base : UInt64} {reach o stop : Nat} {f : Frame}
  {env : Source.Environment} {s : State} {e : Expression} {isEntry : Bool}

private theorem isLine_scalar (sur : Surroundings) (g : Frame) (hscalar : Source.isScalar e) :
    (lowerExpression sur g e).all Step.isLine :=
  isLine_lowerExpression sur g e (isPlain_of_isScalar hscalar)

private theorem run_store {a v : Word} {base r : Register} {offset : Int32}
    (ha : s.registers base + extend offset = a) (hv : s.registers r = v) :
    run [.store base offset r] s = .ok { s with memory := s.memory.store a v } := by
  rw [← ha, ← hv]
  rfl

/-- The code of a declaration. -/
theorem outcome_declare {id : VarId}
    (h : Located code base o (.emit (.pushImm 0) ::
      lowerExpression ⟨p, .ofProgram p, isEntry⟩ (f.declare id) e ++
        emitAll [.popReg result, .store frameBase (f.declare id).latestOffset result]) stop)
    (hscalar : Source.isScalar e) (hreach : InReach p (f.declare id) (Source.expressionUses e))
    (hle : f.live + (operandWords e + 1) ≤ reach) (hfits : f.above + reach ≤ 2 ^ 61)
    (hs : Resting f env s) :
    Outcome code reach (f.declare id) o stop s
      (Source.value p (env.declare id 0) e >>= fun v ↦ return .goesOn (env.declare id v)) := by
  have hpush : [Step.emit (.pushImm 0)].all Step.isLine := rfl
  obtain ⟨is, his, hrun⟩ := h.line
    (isLine_append (isLine_append hpush (isLine_scalar _ _ hscalar)) (isLine_emitAll rfl))
  obtain ⟨js, hjs, rfl⟩ := straight?_append_emitAll his
  obtain ⟨ks, hks, rfl⟩ := Option.map_eq_some_iff.mp hjs
  have hputs : Puts 0 s (s.push 0) := puts_push 0 rfl rfl rfl
  obtain ⟨hpushed, hsteady⟩ := hs.declare id hfits (by omega) hputs
  have hle' : (f.declare id).live + operandWords e ≤ reach := by
    rw [Frame.live_declare]
    omega
  apply Outcome.value
  refine (computes_scalar hscalar hreach hks (hpushed.stacked hfits hle') hpushed.frame).gives.imp
    fun v ⟨t, ht, hp⟩ ↦ ?_
  obtain ⟨u, hu, hrax, hkept⟩ := hp.run_pop
  obtain ⟨hu', hsteady'⟩ := hpushed.kept hfits hle' hkept
  let a := slot (u.registers .rbp) ((f.declare id).localSlot 0)
  let w : State := { u with memory := u.memory.store a v }
  have hset : SetsSlot (f.declare id) (env.declare id 0) v ((f.declare id).localSlot 0)
      (env.declare id v) :=
    .live rfl
  have hw : Resting (f.declare id) (env.declare id v) w ∧ Steady f.above reach u w :=
    hu'.set hset hfits (by omega) rfl rfl rfl
  refine ⟨w, hrun s w ?_, hw.1, hsteady.trans (hsteady'.trans hw.2)⟩
  have hstore : run [.store frameBase (f.declare id).latestOffset result] u = .ok w :=
    run_store (Frame.add_extend_latest _ (Nat.succ_pos _) hreach.live) hrax
  change run (ks ++ ([.popReg result] ++ [.store frameBase _ result])) (s.push 0) = _
  rw [run_append, ht]
  change run ([.popReg result] ++ [.store frameBase _ result]) t = _
  rw [run_append, hu]
  exact hstore

private theorem run_slotAddress {a : Word} {offset : Int32}
    (ha : s.registers .rbp + extend offset = a) :
    ∃ t, run [.address result frameBase offset, .pushReg result] s = .ok t ∧ Pushed 1 a s t := by
  refine ⟨(s.set .rax a).push a, ?_, (Kept.refl s).puts (puts_push a rfl rfl rfl) Nat.one_pos⟩
  rw [← ha]
  rfl

private theorem run_variableAddress {target : Reference} {is : List Instruction}
    (hvar : Source.isVariable target)
    (hcode : straight? base (lowerReference ⟨p, .ofProgram p, isEntry⟩ f target .address) = some is)
    (hreach : InReach p f [.target target]) (hframe : Represents f env s) :
    ∃ k, (∃ t, run is s = .ok t ∧ Pushed 1 (slot (s.registers .rbp) k) s t) ∧
      ∀ v, ∃ env', env.assign? v target = some env' ∧ SetsSlot f env v k env' := by
  cases target with
  | localName name =>
    cases name with
    | param position =>
      rw [lowerReference] at hcode
      split at hcode
      · next offset ho =>
        have hcovers := hreach.params _ (List.mem_singleton_self _)
        obtain ⟨hlt, ha⟩ := Frame.add_extend_param (s.registers .rbp) (hcovers _ rfl) ho
        cases hcode
        refine ⟨_, run_slotAddress ha, fun v ↦ ⟨_, ?_, .param hlt⟩⟩
        exact if_pos (hframe.paramCount ▸ hlt)
      · cases hcode
    | var id =>
      rw [lowerReference] at hcode
      split at hcode
      · next offset ho =>
        obtain ⟨k, hk, -, ha⟩ := Frame.add_extend_local (s.registers .rbp) hreach.live ho
        obtain ⟨hk', hid, -⟩ := List.findIdx?_eq_some_iff_getElem.mp hk
        have hget : f.locals[k]? = some id := by
          rw [List.getElem?_eq_getElem hk', beq_iff_eq.mp hid]
        cases hcode
        refine ⟨_, run_slotAddress ha, fun v ↦ ⟨_, ?_, .live hget⟩⟩
        rw [Source.Environment.assign?, hframe.names, hk]
        rfl
      · cases hcode
  | this | field | qualified | classAt | method | println => cases hvar

/-- The code of an assignment. -/
theorem outcome_assign {target : Reference}
    (h : Located code base o (lowerReference ⟨p, .ofProgram p, isEntry⟩ f target .address ++
      lowerExpression ⟨p, .ofProgram p, isEntry⟩ f e ++
        emitAll [.popReg scratch, .popReg result, .store result 0 scratch]) stop)
    (hvar : Source.isVariable target) (hscalar : Source.isScalar e)
    (hreach : InReach p f (.target target :: Source.expressionUses e))
    (hle : f.live + (operandWords e + 1) ≤ reach) (hfits : f.above + reach ≤ 2 ^ 61)
    (hs : Resting f env s) :
    Outcome code reach f o stop s (Source.value p env e >>= fun v ↦
      match env.assign? v target with
      | some env => return .goesOn env
      | none => .error (.noValue .meaningless)) := by
  obtain ⟨is, his, hrun⟩ := h.line (isLine_append
    (isLine_append (isLine_lowerReference _ _ _ _) (isLine_scalar _ _ hscalar))
    (isLine_emitAll rfl))
  obtain ⟨is, hboth, rfl⟩ := straight?_append_emitAll his
  obtain ⟨js, ks, hjs, hks, rfl⟩ := straight?_append_eq_some hboth
  obtain ⟨k, ⟨t, ht, haddress⟩, hset⟩ := run_variableAddress hvar hjs hreach.head hs.frame
  have hstack := hs.stacked hfits hle
  have hframe := hs.frame.congr hstack haddress.rbp (haddress.mono (Nat.le_add_left 1 _)).words
  apply Outcome.value
  refine (computes_scalar hscalar hreach.tail hks (hstack.pushed haddress) hframe).gives.imp
    fun v ⟨u, hu, hp⟩ ↦ ?_
  obtain ⟨env', henv, hset⟩ := hset v
  obtain ⟨w, hw, hrax, hrcx, hkept⟩ :=
    (haddress.mono (Nat.le_add_left 1 _)).run_pop_two hp (Nat.lt_succ_self _) (by omega)
  obtain ⟨hw', hsteady⟩ := hs.kept hfits hle hkept
  let a := slot (s.registers .rbp) k
  let last : State := { w with memory := w.memory.store a v }
  have hlast : Resting f env' last ∧ Steady f.above reach w last :=
    hw'.set hset hfits (by omega) rfl rfl (by rw [hkept.rbp])
  simp only [henv]
  refine ⟨last, hrun s last ?_, hlast.1, hsteady.trans hlast.2⟩
  have hstore : run [.store result 0 scratch] w = .ok last := by
    have ha : w.registers .rax + extend 0 = a := by
      rw [hrax]
      exact BitVec.add_zero _
    exact run_store ha hrcx
  rw [List.append_assoc, run_append, ht]
  change run (ks ++ ([.popReg scratch, .popReg result] ++ [.store result 0 scratch])) t = _
  rw [run_append, hu]
  change run ([.popReg scratch, .popReg result] ++ [.store result 0 scratch]) u = _
  rw [run_append, hw]
  exact hstore

/-- The code of a condition leaves in the flags whether it is zero. -/
theorem gives_condition
    (h : Located code base o (lowerCondition ⟨p, .ofProgram p, isEntry⟩ f e) stop)
    (hscalar : Source.isScalar e) (hreach : InReach p f (Source.expressionUses e))
    (hle : f.live + operandWords e ≤ reach) (hfits : f.above + reach ≤ 2 ^ 61)
    (hs : Resting f env s) :
    Gives (Source.evaluate p env e) fun v ↦
      ∃ t, Reaches code ⟨o, s⟩ ⟨stop, t⟩ ∧ t.flags.holds? .equal = some (v == 0) ∧
        Resting f env t ∧ Steady f.above reach s t := by
  obtain ⟨is, his, hrun⟩ := h.line (isLine_append (isLine_scalar _ _ hscalar) (isLine_emitAll rfl))
  obtain ⟨js, hjs, rfl⟩ := straight?_append_emitAll his
  refine (computes_scalar hscalar hreach hjs (hs.stacked hfits hle) hs.frame).gives.imp
    fun v ⟨t, ht, hp⟩ ↦ ?_
  obtain ⟨u, hu, hrax, hkept⟩ := hp.run_pop
  let w : State := { u with flags := (combine .cmp (u.registers .rax) 0).2 }
  have hw : Kept (operandWords e) s w := ⟨hkept.rsp, hkept.rbp, hkept.words⟩
  refine ⟨w, hrun s w ?_, ?_, hs.kept hfits hle hw⟩
  · rw [run_append, ht]
    change run ([.popReg result] ++ [.aluRegImm .cmp result 0]) t = _
    rw [run_append, hu]
    rfl
  · rw [holds?_cmp, hrax]
    rfl

/-- The end of a routine closes its frame and goes to the return address. -/
theorem Located.leave (h : Located code base o (leaveSteps ⟨p, .ofProgram p, false⟩) stop)
    (s : State) : ∃ c, Reaches code ⟨o, s⟩ c ∧
      c.counter = (s.memory.word (slot (s.registers .rbp) 1)).toNat ∧
      c.state.registers .rbp = s.memory.word (s.registers .rbp) ∧
      c.state.registers .rsp = slot (s.registers .rbp) 2 ∧
      c.state.registers .rax = s.registers .rax ∧ c.state.memory = s.memory := by
  obtain ⟨e₁, hi₁, rfl, hat₁, h⟩ := h.frame
  obtain ⟨e₂, hi₂, hs₂, hat₂, h⟩ := h.frame
  obtain ⟨e₃, hi₃, hs₃, hat₃, -⟩ := h.frame
  let s₁ := s.set .rsp (s.registers .rbp)
  let s₂ := s₁.drop.set .rbp s₁.top
  have h₁ : Reaches code ⟨e₁.start, s⟩ ⟨e₁.finish, s₁⟩ :=
    .of_perform hat₁ (perform_of_execute (by rw [hi₁]; rfl))
  have h₂ : Reaches code ⟨e₂.start, s₁⟩ ⟨e₂.finish, s₂⟩ :=
    .of_perform (hs₂ ▸ hat₂) (perform_of_execute (by rw [hi₂]; rfl))
  have h₃ : Reaches code ⟨e₃.start, s₂⟩ ⟨s₂.top.toNat, s₂.drop⟩ :=
    .of_perform (hs₃ ▸ hat₃) (by rw [perform, hi₃]; rfl)
  rw [hs₂] at h₂
  rw [hs₃] at h₃
  refine ⟨_, (h₁.trans h₂).trans h₃, ?_, ?_, ?_, ?_, ?_⟩
  · rfl
  · rfl
  · change slot (slot (s.registers .rbp) 1) 1 = _
    rw [slot_slot]
    rfl
  · rfl
  · rfl

/-- The code of a return without a value. -/
theorem outcome_leave {value : Option Word}
    (h : Located code base o (leaveSteps ⟨p, .ofProgram p, false⟩) stop)
    (hvalue : ∀ v, value = some v → s.registers .rax = v) :
    Outcome code reach f o stop s (.ok (.returns value)) := by
  obtain ⟨c, hc, hcounter, hrbp, hrsp, hrax, hm⟩ := h.leave s
  refine ⟨c, hc, hcounter, hrbp, hrsp, fun v hv ↦ ?_, fun x _ ↦ by rw [hm]⟩
  rw [hrax, hvalue v hv]

/-- The code of a return with a value. -/
theorem outcome_giveBack
    (h : Located code base o (lowerExpression ⟨p, .ofProgram p, false⟩ f e ++
      emitAll [.popReg result] ++ leaveSteps ⟨p, .ofProgram p, false⟩) stop)
    (hscalar : Source.isScalar e) (hreach : InReach p f (Source.expressionUses e))
    (hle : f.live + operandWords e ≤ reach) (hfits : f.above + reach ≤ 2 ^ 61)
    (hs : Resting f env s) :
    Outcome code reach f o stop s
      (Source.value p env e >>= fun v ↦ return .returns (some v)) := by
  obtain ⟨between, hvalue, hleave⟩ := h.append
  obtain ⟨is, his, hrun⟩ :=
    hvalue.line (isLine_append (isLine_scalar _ _ hscalar) (isLine_emitAll rfl))
  obtain ⟨js, hjs, rfl⟩ := straight?_append_emitAll his
  apply Outcome.value
  refine (computes_scalar hscalar hreach hjs (hs.stacked hfits hle) hs.frame).gives.imp
    fun v ⟨t, ht, hp⟩ ↦ ?_
  obtain ⟨u, hu, hrax, hkept⟩ := hp.run_pop
  have hreaches : Reaches code ⟨o, s⟩ ⟨between, u⟩ := by
    apply hrun
    rw [run_append, ht]
    exact hu
  have hleft : Outcome code reach f between stop u (.ok (.returns (some v))) :=
    outcome_leave hleave fun w hw ↦ by rw [hrax, Option.some.inj hw]
  exact hleft.of_reaches hfits hreaches (hs.kept hfits hle hkept).2

end Simple

end NativeBackend
