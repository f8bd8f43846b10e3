import NativeBackend.Proofs.Code.Calls
import NativeBackend.Proofs.Linking.ByReference
import NativeBackend.Proofs.Preservation.Routines

/-!
# Frames of calls

Caller and callee agree on the frame of a call. The caller pushes arguments and receiver in
the order in which the callee counts its parameters from the frame base, no local of the
callee gets a slot among them, and what the callee leaves on the stack when it returns is
what the caller takes off.
-/

namespace NativeBackend

open Machine NativeBackend.Tree Convention Execution

/-- The words of the frame of a method that are there before its first local. -/
inductive FrameWord (m : MethodDecl) (base : Word) : Word → Prop
  | savedBase : FrameWord m base base
  | returnAddress : FrameWord m base (base + 8)
  | receiver {offset : Int32} (h : (Frame.ofMethod m).receiver? = some offset) :
      FrameWord m base (base + extend offset)
  | param {position : Nat} {offset : Int32} (h : (Frame.ofMethod m).param? position = some offset) :
      FrameWord m base (base + extend offset)

/-- The frame of a method holds what was passed, and no local gets a slot among its words, as long
as the offset of the slot is a displacement. -/
structure Receives (m : MethodDecl) (receiver : Option Word) (values : List Word) (t : State) :
    Prop where
  arguments : ∀ (i : Nat) (v : Word), values[i]? = some v →
    ∃ offset, (Frame.ofMethod m).param? i = some offset ∧
      t.memory.word (t.registers .rbp + extend offset) = v
  receiver : ∀ offset, (Frame.ofMethod m).receiver? = some offset →
    receiver = some (t.memory.word (t.registers .rbp + extend offset))
  apart : ∀ x, FrameWord m (t.registers .rbp) x → ∀ (g : Frame) (id : VarId),
    g.live < 2 ^ 28 ∨ 2 ^ 31 ≤ g.live →
      Apart x (t.registers .rbp + extend (g.declare id).latestOffset)

/-- Wherever a routine leaves its frame, with the saved words as they were in one state, the
processor gets to an offset with the stack pointer and the frame base of another state. -/
def ReturnsTo (p : Program) (entry : Routine) (code : Code) (i : Nat) (r : Routine) (stop : Nat)
    (s t : State) : Prop :=
  ∀ c d w, Stage p entry i (leaveSteps (surroundings p entry r)) c d →
    w.registers .rbp = t.registers .rbp →
    w.memory.word (w.registers .rbp) = t.memory.word (w.registers .rbp) →
    w.memory.word (w.registers .rbp + 8) = t.memory.word (w.registers .rbp + 8) →
    ∃ z, Reaches code.stream ⟨c.stream.size, w⟩ ⟨stop, z⟩ ∧
      z.registers .rsp = s.registers .rsp ∧ z.registers .rbp = s.registers .rbp

section Frames

variable {m : MethodDecl} {base x : Word}

private theorem paramSlot_lt_of_passedWords (hfits : passedWords m + 2 ≤ 2 ^ 28) (position : Nat) :
    (Frame.ofMethod m).paramSlot position < 2 ^ 28 := by
  have habove := above_ofMethod m
  unfold Frame.paramSlot
  omega

private theorem FrameWord.exists_slot (h : FrameWord m base x)
    (hfits : passedWords m + 2 ≤ 2 ^ 28) : ∃ k : Int, 0 ≤ k ∧ k < 2 ^ 28 ∧ x = slot base k := by
  cases h with
  | savedBase => exact ⟨0, by omega, by omega, (slot_zero base).symm⟩
  | returnAddress => exact ⟨1, by omega, by omega, rfl⟩
  | receiver h => exact ⟨2, by omega, by omega, (Frame.add_extend_receiver base h).2⟩
  | @param position _ h =>
    have hslot := paramSlot_lt_of_passedWords hfits position
    obtain ⟨hlt, hx⟩ := Frame.add_extend_param base (by omega) h
    refine ⟨_, ?_, hslot, hx⟩
    have hcount := (Frame.ofMethod m).paramCount_lt_above
    unfold Frame.paramSlot
    omega

-- Beyond the slots that 32 bits count, all locals get the last one.
private theorem exists_localSlot (base : Word) (g : Frame) (id : VarId)
    (h : g.live < 2 ^ 28 ∨ 2 ^ 31 ≤ g.live) :
    ∃ k : Int, -2 ^ 28 ≤ k ∧ k < 0 ∧ base + extend (g.declare id).latestOffset = slot base k := by
  have hlive : (g.declare id).live = g.live + 1 := rfl
  obtain hfits | hmany := h
  · refine ⟨_, ?_, ?_, Frame.add_extend_latest base (by omega) (by omega)⟩
    · unfold Frame.localSlot
      omega
    · unfold Frame.localSlot
      omega
  · have hlast : (g.declare id).latestOffset = Int32.ofInt (8 * -2 ^ 28) := by
      rw [Frame.latestOffset, Frame.localOffset, if_neg (by omega)]
      rfl
    rw [hlast]
    exact ⟨_, Int.le_refl _, by omega, add_extend_ofInt base (by omega) (by omega)⟩

/-- A frame that was opened for what was passed holds it. -/
theorem Entered.receives {env : Source.Environment} {s : State} (h : Entered m env s)
    (hfits : passedWords m + 2 ≤ 2 ^ 28) : Receives m env.receiver env.params (opened s) := by
  have hframe := (h.resting (by omega)).frame
  have habove := above_ofMethod m
  refine ⟨fun i v hv ↦ ?_, fun offset hoffset ↦ ?_, fun x hx g id hlive ↦ ?_⟩
  · have hlt : i < (Frame.ofMethod m).paramCount :=
      hframe.paramCount ▸ (List.getElem?_eq_some_iff.mp hv).1
    have hcount := (Frame.ofMethod m).paramCount_lt_above
    obtain ⟨offset, hoffset⟩ : ∃ offset, (Frame.ofMethod m).param? i = some offset := by
      rw [Frame.param?, if_pos ⟨hlt, by omega⟩]
      exact ⟨_, rfl⟩
    have hslot := paramSlot_lt_of_passedWords hfits i
    refine ⟨offset, hoffset, ?_⟩
    rw [(Frame.add_extend_param _ (by omega) hoffset).2]
    exact hframe.params i v hv
  · obtain ⟨hreceiver, hslot⟩ := Frame.add_extend_receiver ((opened s).registers .rbp) hoffset
    rw [hframe.receiver, if_pos hreceiver, hslot]
  · obtain ⟨k, hlow, hhigh, rfl⟩ := hx.exists_slot hfits
    obtain ⟨k', hlow', hhigh', hslot⟩ := exists_localSlot ((opened s).registers .rbp) g id hlive
    rw [hslot]
    exact apart_slot _ (by omega) (by omega) (by omega)

end Frames

section Entering

variable {m : MethodDecl} {values : List Word} {receiver : Option Word} {address : Word}
  {s u : State}

private theorem passedWords_eq {α : Type} {receiver : Option α}
    (h : receiver.isSome = !m.isStatic) :
    passedWords m = m.params.length + receiver.elim 0 fun _ ↦ 1 := by
  have hstatic : m.isStatic = !receiver.isSome := by rw [h, Bool.not_not]
  cases receiver with
  | none | some _ =>
    rw [passedWords, hstatic]
    rfl

private theorem length_passed (hcount : values.length = m.params.length)
    (hreceiver : receiver.isSome = !m.isStatic) :
    (values ++ receiver.toList).length = passedWords m := by
  rw [List.length_append, hcount, passedWords_eq hreceiver]
  cases receiver with
  | none | some _ => rfl

/-- What a call pushes is what its callee is entered with. -/
theorem PushedAll.entered (h : PushedAll 0 (values ++ receiver.toList ++ [address]) s u)
    (hcount : values.length = m.params.length) (hreceiver : receiver.isSome = !m.isStatic) :
    Entered m ⟨receiver, values, [], fun _ ↦ 0, 0⟩ u := by
  have hpassed := length_passed hcount hreceiver
  have hlength : (values ++ receiver.toList ++ [address]).length = passedWords m + 1 := by
    rw [List.length_append, hpassed]
    rfl
  have hword {i : Nat} {v : Word} (hv : (values ++ receiver.toList ++ [address])[i]? = some v) :
      u.memory.word (slot (u.registers .rsp) (passedWords m - i)) = v := by
    rw [← h.word hv, hlength]
    congr 2
    omega
  refine ⟨?_, hcount, fun i v hv ↦ ?_, rfl⟩
  · cases receiver with
    | none =>
      have hstatic : m.isStatic = true := by simpa using hreceiver.symm
      rw [if_pos hstatic]
    | some w =>
      have hstatic : m.isStatic = false := by simpa using hreceiver.symm
      have hlast := hword (i := values.length) (v := w) (by simp)
      have hone : (passedWords m : Int) - values.length = 1 := by
        rw [← hpassed]
        simp
      rw [hone] at hlast
      simp [hstatic, hlast]
  · refine hword ?_
    rw [List.append_assoc, List.getElem?_append_left (List.getElem?_eq_some_iff.mp hv).1]
    exact hv

end Entering

section Callees

variable {p : Program} {callee : Reference} {m : MethodRef} {qualifier : Option Reference}
  {decl : MethodDecl}

private theorem receiver?_isSome (hcallee : calledMethod? callee = some (m, qualifier))
    (hdecl : p.method? m = some decl) :
    (Source.receiver? p callee).isSome = !decl.isStatic := by
  obtain ⟨rfl, rfl⟩ | ⟨b, rfl, rfl⟩ := calledMethod?_cases hcallee
  · cases h : decl.isStatic <;> simp [Source.receiver?, hdecl, h]
  · cases h : decl.isStatic <;> simp [Source.receiver?, hdecl, h]

private theorem passedCount_eq (hcallee : calledMethod? callee = some (m, qualifier))
    (hdecl : p.method? m = some decl) :
    passedCount p callee decl.params.length = passedWords decl :=
  (passedWords_eq (receiver?_isSome hcallee hdecl)).symm

private theorem lowerCall_declared (sur : Surroundings) (f : Frame) (args : List Step) (count : Nat)
    {name : String} (hcallee : calledMethod? callee = some (m, qualifier))
    (hdecl : sur.program.method? m = some decl) (hname : sur.program.routineName? m = some name) :
    lowerCall sur f callee args count =
      args ++ receiverSteps sur f callee ++ [.call name]
        ++ releaseSteps (passedCount sur.program callee count) := by
  have hof : callee? sur.program callee = some (calleeOf sur.program m qualifier) := by
    obtain ⟨rfl, rfl⟩ | ⟨b, rfl, rfl⟩ := calledMethod?_cases hcallee
    · rfl
    · rfl
  have hroutine : (calleeOf sur.program m qualifier).routine = name ∧
      (calleeOf sur.program m qualifier).declared = true := by
    rw [calleeOf, hdecl, hname]
    exact ⟨rfl, rfl⟩
  rw [lowerCall_eq sur f args count hof, hroutine.1, if_pos hroutine.2, List.nil_append]

end Callees

section Calls

variable {p : Program} {o : Options} {entry r r' : Routine} {code : Code} {z : Assembly} {i j : Nat}
  {a b c d : Assembly} {base : UInt64} {parts : List Part} {f : Frame} {callee : Reference}
  {m : MethodRef} {qualifier : Option Reference} {decl : MethodDecl} {name : String}
  {args : List Expression} {values : List Word} {receiver : Option Word} {s s₁ u w : State}

/-- A call passes its arguments, its receiver and the offset behind itself. -/
theorem Stage.passes (hprogram : Runs (Assemble.program p o entry) .empty code z)
    (hlinked : Linked code base parts) (hsources : sources parts = routineSteps p entry)
    (hsize : code.stream.size < wordLimit) (hcallee : calledMethod? callee = some (m, qualifier))
    (hdecl : p.method? m = some decl) (hname : p.routineName? m = some name)
    (hmem : name ∈ Source.routineNames p) (hfew : args.length < 2 ^ 28)
    (h : Stage p entry j (lowerCall (surroundings p entry r) f callee
      (lowerArguments (surroundings p entry r) f args) args.length) a b)
    (hargs : DeliversAll code.stream (surroundings p entry r) f 0 a.stream.size args values s s₁) :
    ∃ c target u receiver, Stage p entry j (releaseSteps (passedCount p callee args.length)) c b ∧
      c.stream.size < wordLimit ∧
      resolve? code.begun (Builtin.routines.length + j) name = some target ∧
      Reaches code.stream ⟨a.stream.size, s⟩ ⟨target, u⟩ ∧
      PushedAll 0 (values ++ receiver.toList ++ [BitVec.ofNat 64 c.stream.size]) s u ∧
      Option.Rel (fun q v ↦ Evaluates p base (Assemble.samePlace r entry) f q s₁ v)
        (Source.receiver? p callee) receiver := by
  rw [lowerCall_declared (surroundings p entry r) f _ args.length hcallee hdecl hname] at h
  obtain ⟨c, hpassing, hrelease⟩ := h.split
  obtain ⟨a₂, hwords, hcall⟩ := hpassing.split
  obtain ⟨a₁, hvalues, hreceiver⟩ := hwords.split
  obtain ⟨hlength, hpushed⟩ := hargs.pushedAll
  have hcount : 0 + values.length < 2 ^ 60 := by omega
  obtain ⟨receiver, s₂, hreaches, hpushed', hrel⟩ :=
    (hreceiver.located hprogram hlinked hsources).pushesReceiver s₁ hcount
  obtain ⟨hlt, target, htarget, hcalls⟩ := hcall.calls hprogram hlinked hsources hsize hmem
  have hfirst := hargs.reaches
  rw [← size_of_steps hvalues.runs] at hfirst
  refine ⟨c, target, _, receiver, hrelease, hlt, htarget, (hfirst.trans hreaches).trans (hcalls s₂),
    (hpushed.append hpushed').append (.push s₂ _ ?_), hrel⟩
  have hone : receiver.toList.length ≤ 1 := by cases receiver <;> simp
  rw [List.length_append]
  omega

/-- When a callee leaves its frame, the caller goes on behind the call and takes off what it
passed. -/
theorem PushedAll.returns {passed : List Word}
    (h : PushedAll 0 (passed ++ [BitVec.ofNat 64 c.stream.size]) s u)
    (hprogram : Runs (Assemble.program p o entry) .empty code z)
    (hlinked : Linked code base parts) (hsources : sources parts = routineSteps p entry)
    (hsize : c.stream.size < wordLimit)
    (hrelease : Stage p entry j (releaseSteps passed.length) c b)
    (hother : Assemble.samePlace r' entry = false) :
    ReturnsTo p entry code i r' b.stream.size s (opened u) := by
  intro a d w hleave hrbp hsaved hreturn
  have hleft := hleave.located hprogram hlinked hsources
  rw [surroundings, hother] at hleft
  obtain ⟨⟨counter, v⟩, hreaches, hcounter, hbase, hpointer, -, -⟩ := hleft.leave w
  simp only at hcounter hbase hpointer
  obtain ⟨t, hreaches', hrsp, hrbp', -⟩ :=
    (hrelease.located hprogram hlinked hsources).release v
  have hback : counter = c.stream.size := by
    have hword : w.memory.word (slot (w.registers .rbp) 1) = BitVec.ofNat 64 c.stream.size := by
      rw [hrbp] at hreturn ⊢
      exact hreturn.trans ((return_opened u).trans h.top)
    rw [hcounter, hword, BitVec.toNat_ofNat]
    exact Nat.mod_eq_of_lt hsize
  subst hback
  refine ⟨t, hreaches.trans hreaches', ?_, ?_⟩
  · rw [hrsp, hpointer, hrbp, rbp_opened, h.rsp, slot_slot, slot_slot, slot_slot]
    have hzero : -((passed ++ [BitVec.ofNat 64 c.stream.size]).length : Int) +
        (-1 + (2 + passed.length)) = 0 := by
      rw [List.length_append, List.length_singleton]
      omega
    rw [hzero, slot_zero]
  · rw [hrbp', hbase, hsaved, hrbp, saved_opened, h.rbp]

private theorem not_samePlace (hat : Source.isAt m r' = true)
    (hentry : Source.isAt m entry = false) : Assemble.samePlace r' entry = false := by
  rw [Bool.eq_false_iff]
  intro hsame
  rw [samePlace_iff] at hsame
  rw [Source.isAt, ← hsame.1, ← hsame.2, ← Source.isAt, hat] at hentry
  cases hentry

private theorem Linked.opens (h : Linked code base parts)
    (hsources : sources parts = routineSteps p entry) (hr : p.routines[i]? = some r') (s : State) :
    ∃ start, code.begun[Builtin.routines.length + i]? = some (r'.name, start) ∧
      Reaches code.stream ⟨start, s⟩
        ⟨start + stepsSize (Builtin.prologue.map .frame), opened s⟩ := by
  obtain ⟨start, stop, hstart, hlocated⟩ := h.routine hsources hr
  rw [lowerMethod, List.append_assoc] at hlocated
  obtain ⟨between, hprologue, -⟩ := hlocated.append
  have hbetween := hprologue.stop_eq
  rw [← List.append_nil (Builtin.prologue.map Step.frame)] at hprologue
  obtain ⟨body, hbody, hreaches⟩ := hprologue.opens s
  rw [← hbody.nil, hbetween] at hreaches
  exact ⟨start, hstart, hreaches⟩

/-- Caller and callee agree on the frame of a call, which comes to the callee unless another routine
hides it. What was passed lies where the callee looks for it, apart from its locals as long as their
offsets are displacements, and is taken off when it returns. -/
theorem frames_agree (hentry : entryCandidates p o = [entry])
    (hcode : (generate p o).result = .ok code) (hsize : code.stream.size < wordLimit)
    (hcallee : calledMethod? callee = some (m, qualifier)) (hdecl : p.method? m = some decl)
    (hother : Source.isAt m entry = false) (hcount : args.length = decl.params.length)
    (hfew : args.length < 2 ^ 28 - 4)
    (hcall : Stage p entry j (lowerCall (surroundings p entry r) f callee
      (lowerArguments (surroundings p entry r) f args) args.length) a b)
    (hargs : DeliversAll code.stream (surroundings p entry r) f 0 a.stream.size args values s s₁) :
    ∃ i r' start target receiver u t,
      p.routines[i]? = some r' ∧ Source.isAt m r' = true ∧ r'.method = decl ∧
      code.begun[Builtin.routines.length + i]? = some (r'.name, start) ∧
      Reaches code.stream ⟨a.stream.size, s⟩ ⟨target, u⟩ ∧
      (¬Hidden (Source.routineNames p) (Builtin.routines.length + j)
        (Builtin.routines.length + i) → target = start) ∧
      Reaches code.stream ⟨start, u⟩ ⟨start + stepsSize (Builtin.prologue.map .frame), t⟩ ∧
      Option.Rel
        (fun q v ↦ Evaluates p (Image.codeAddress o.loadAddress (staticAreaOffset code.stream.size))
          (Assemble.samePlace r entry) f q s₁ v) (Source.receiver? p callee) receiver ∧
      Receives decl receiver values t ∧ ReturnsTo p entry code i r' b.stream.size s t := by
  obtain ⟨z, hprogram, -⟩ := runs_of_generate hentry hcode
  obtain ⟨parts, hsources, hlinked, -⟩ := exists_linked hentry hcode
  obtain ⟨i, r', -, hr', hat, hmethod, hname⟩ := exists_routine hdecl
  have hplace := not_samePlace hat hother
  have hmem : r'.name ∈ Source.routineNames p :=
    List.mem_cons_of_mem _ (List.mem_cons_of_mem _
      (List.mem_map_of_mem (List.mem_of_getElem? hr')))
  obtain ⟨c, target, u, receiver, hrelease, hlt, htarget, hreaches, hpushed, hreceiver⟩ :=
    hcall.passes hprogram hlinked hsources hsize hcallee hdecl hname hmem (by omega) hargs
  obtain ⟨start, hstart, hopens⟩ := hlinked.opens hsources hr' u
  obtain ⟨hlength, -⟩ := hargs.pushedAll
  have hpresent : receiver.isSome = !decl.isStatic := by
    rw [← receiver?_isSome hcallee hdecl]
    generalize Source.receiver? p callee = q at hreceiver
    cases hreceiver with
    | some _ | none => rfl
  have hvalues : values.length = decl.params.length := hlength.trans hcount
  have hpassed := length_passed hvalues hpresent
  have hfits : passedWords decl + 2 ≤ 2 ^ 28 := by
    unfold passedWords
    split <;> omega
  rw [hcount, passedCount_eq hcallee hdecl, ← hpassed] at hrelease
  refine ⟨i, r', start, target, receiver, u, opened u, hr', hat, hmethod, hstart, hreaches, ?_,
    hopens, hreceiver, (hpushed.entered hvalues hpresent).receives hfits,
    hpushed.returns hprogram hlinked hsources hlt hrelease hplace⟩
  intro hshown
  rw [← hlinked.begun_names hsources] at hshown
  have hresolve := resolve?_eq_some_iff.mpr ⟨_, hstart, hshown⟩
  exact Option.some.inj (htarget.symm.trans hresolve)

end Calls

/-- A method with one parameter and the name of the entry. -/
def namesakeMethod : MethodDecl := ⟨"main", .void, true, false, [⟨"n", .int⟩], []⟩

/-- A program with that method and an entry that calls it. -/
def namesakeProgram : Program :=
  ⟨[⟨"Main", [], [namesakeMethod, ⟨"main", .void, true, false,
    [⟨"args", .array (.object "String")⟩], [.call (.method ⟨0, 0⟩) [.literal (.int 1)]]⟩]⟩]⟩

private theorem latestOffset_wraps {f : Frame} (id : VarId) (h : f.live = 2 ^ 29 - 3) :
    (f.declare id).latestOffset = 16 := by
  have hlive : (f.declare id).live - 1 = f.live := by rw [Frame.live_declare, Nat.add_sub_cancel]
  rw [Frame.latestOffset, hlive, h]
  decide

private theorem generate_namesake :
    ∃ code, (generate namesakeProgram {}).result = .ok code ∧
      code.begun[2]? = some ("Main.main", 80) ∧ code.begun[3]? = some ("Main.main", 89) ∧
      (code.callsIn 3).map (fun e ↦ e.instruction.branchTarget? e.start) = [some 89] := by
  have hfacts : (generate namesakeProgram {}).result.toOption.map (fun code ↦
      (code.begun[2]?, code.begun[3]?,
        (code.callsIn 3).map fun e ↦ e.instruction.branchTarget? e.start)) =
      some (some ("Main.main", 80), some ("Main.main", 89), [some 89]) := by
    decide +kernel
  obtain ⟨code, hcode, hvalues⟩ := exists_ok_of_map hfacts
  obtain ⟨hcallee, hrest⟩ := Prod.mk.inj hvalues
  obtain ⟨hentry, htargets⟩ := Prod.mk.inj hrest
  exact ⟨code, hcode, hcallee, hentry, htargets⟩

/-- Two things keep a frame from being agreed on. After 2^29 - 3 locals the next one gets the slot
of the argument, and a call of a method that the entry hides comes to the entry. -/
theorem frames_disagree :
    (∃ offset, (Frame.ofMethod namesakeMethod).param? 0 = some offset ∧
      ∀ (base : Word) (id : VarId), ¬Apart (base + extend offset) (base + extend
        (((Frame.ofMethod namesakeMethod).extended (List.replicate (2 ^ 29 - 3) id)).declare
          id).latestOffset)) ∧
    ∃ code e start, (generate namesakeProgram {}).result = .ok code ∧ code.callsIn 3 = [e] ∧
      ¬LandsOn namesakeProgram code e (.call (.method ⟨0, 0⟩)) ∧
      code.begun[3]? = some ("Main.main", start) ∧
      e.instruction.branchTarget? e.start = some start := by
  constructor
  · refine ⟨16, rfl, fun base id hapart ↦ ?_⟩
    have hlive : ((Frame.ofMethod namesakeMethod).extended
        (List.replicate (2 ^ 29 - 3) id)).live = 2 ^ 29 - 3 := by
      rw [Frame.live_extended, List.length_replicate]
      exact Nat.add_zero _
    rw [latestOffset_wraps id hlive] at hapart
    have hself : base + extend 16 - (base + extend 16) = 0 := BitVec.sub_self _
    have hle := hapart.1
    rw [hself] at hle
    exact absurd hle (by decide)
  · obtain ⟨code, hcode, hcallee, hentry, htargets⟩ := generate_namesake
    obtain ⟨e, he, htarget⟩ := List.map_eq_singleton_iff.mp htargets
    refine ⟨code, e, 89, hcode, he, ?_, hentry, htarget⟩
    rintro ⟨j, name, start, hj, hstart, hlands⟩
    have hplace : 2 = j := Option.some.inj hj
    rw [← hplace, hcallee] at hstart
    cases hstart
    cases hlands.symm.trans htarget

/-- The code of constants as arguments pushes them. -/
theorem Located.deliversConstants {code : CodeStream} {base : UInt64} {sur : Surroundings}
    {f : Frame} {o stop count : Nat} {constants : List Literal}
    (h : Located code base o (lowerArguments sur f (constants.map .literal)) stop) (s : State)
    (hcount : count + constants.length ≤ 2 ^ 60) :
    ∃ t, DeliversAll code sur f count o (constants.map .literal)
      (constants.map fun l ↦ extend (literalValue l)) s t := by
  induction constants generalizing o count s with
  | nil => exact ⟨s, .nil⟩
  | cons l constants ih =>
    rw [List.length_cons] at hcount
    obtain ⟨between, hfirst, hrest⟩ := Located.append h
    obtain ⟨is, his, hrun⟩ := hfirst.line rfl
    cases his
    rw [hfirst.stop_eq] at hrest hrun
    have hmore : count + 1 + constants.length ≤ 2 ^ 60 := by omega
    obtain ⟨t, ht⟩ := ih hrest (s.push (extend (literalValue l))) hmore
    exact ⟨t, .cons ⟨hrun s _ rfl, .push s _ (by omega)⟩ ht⟩

/-- A method of an object with two parameters. -/
def addMethod : MethodDecl :=
  ⟨"add", .int, false, false, [⟨"n", .int⟩, ⟨"k", .int⟩],
    [.giveBack (some (.binary .add (.ref (.localName (.param 0))) (.ref (.localName (.param 1)))))]⟩

/-- The callee of a call of that method on the object of a local. -/
def addCallee : Reference := .qualified (.localName (.var ⟨0⟩)) (.method ⟨0, 0⟩)

/-- An entry that calls it on a new object. -/
def addingEntry : MethodDecl :=
  ⟨"main", .void, true, false, [⟨"args", .array (.object "String")⟩],
    [.declare ⟨"adder", .object "Adder", ⟨0⟩⟩ (.newObject 0),
      .call addCallee [.literal (.int 3), .literal (.int 4)]]⟩

/-- A program with that method and that entry. -/
def addingProgram : Program := ⟨[⟨"Adder", [], [addMethod]⟩, ⟨"Main", [], [addingEntry]⟩]⟩

/-- The entry of that program. -/
def addingRoutine : Routine := ⟨1, 0, "Main", addingEntry⟩

/-- The frame of the entry with its local. -/
def addingFrame : Frame := (Frame.ofMethod addingEntry).declare ⟨0⟩

private theorem exists_addingCall {code : Code} {z : Assembly}
    (hprogram : Runs (Assemble.program addingProgram {} addingRoutine) .empty code z) :
    ∃ a b, Stage addingProgram addingRoutine 1
      (lowerCall (surroundings addingProgram addingRoutine addingRoutine) addingFrame addCallee
        (lowerArguments (surroundings addingProgram addingRoutine addingRoutine) addingFrame
          [.literal (.int 3), .literal (.int 4)]) 2) a b := by
  have hr : addingProgram.routines[1]? = some addingRoutine := rfl
  obtain ⟨a, b, hbody⟩ := exists_stage hprogram hr
  obtain ⟨_, hbody, -⟩ := hbody.split
  obtain ⟨_, -, hstatements⟩ := hbody.split
  obtain ⟨_, -, hrest⟩ := hstatements.split
  obtain ⟨_, hstatement, -⟩ := hrest.split
  obtain ⟨b, hcall, -⟩ := hstatement.split
  exact ⟨_, b, hcall⟩

private theorem exists_addingArguments {code : Code} {z a b : Assembly} {base : UInt64}
    {parts : List Part}
    (hprogram : Runs (Assemble.program addingProgram {} addingRoutine) .empty code z)
    (hlinked : Linked code base parts)
    (hsources : sources parts = routineSteps addingProgram addingRoutine)
    (h : Stage addingProgram addingRoutine 1
      (lowerCall (surroundings addingProgram addingRoutine addingRoutine) addingFrame addCallee
        (lowerArguments (surroundings addingProgram addingRoutine addingRoutine) addingFrame
          [.literal (.int 3), .literal (.int 4)]) 2) a b) (s : State) :
    ∃ t, DeliversAll code.stream (surroundings addingProgram addingRoutine addingRoutine)
      addingFrame 0 a.stream.size [.literal (.int 3), .literal (.int 4)] [3, 4] s t := by
  rw [lowerCall_declared _ _ _ _ rfl rfl rfl] at h
  obtain ⟨_, h, -⟩ := h.split
  obtain ⟨_, h, -⟩ := h.split
  obtain ⟨c, h, -⟩ := h.split
  have hlocated : Located code.stream base a.stream.size
      (lowerArguments (surroundings addingProgram addingRoutine addingRoutine) addingFrame
        ([Literal.int 3, .int 4].map .literal)) c.stream.size :=
    h.located hprogram hlinked hsources
  exact hlocated.deliversConstants s (by decide)

/-- A state in which the entry is running. -/
def addingState : State := ⟨fun _ ↦ 0x7000, .undefined, fun _ ↦ 0⟩

/-- The callee finds three and four at the offsets of its parameters, and returns to the entry. -/
theorem frames_agree_adding :
    ∃ code a b start r t,
      (generate addingProgram {}).result = .ok code ∧
      Reaches code.stream ⟨a, addingState⟩ ⟨start + 4, t⟩ ∧
      t.memory.word (t.registers .rbp + 32) = 3 ∧ t.memory.word (t.registers .rbp + 24) = 4 ∧
      ReturnsTo addingProgram addingRoutine code 0 r b addingState t := by
  have hfacts : (generate addingProgram {}).result.toOption.map
      (fun code ↦ decide (code.stream.size < wordLimit)) = some true := by
    decide +kernel
  have hentry : entryCandidates addingProgram {} = [addingRoutine] := rfl
  obtain ⟨code, hcode, hfits⟩ := exists_ok_of_map hfacts
  have hsize : code.stream.size < wordLimit := of_decide_eq_true hfits
  obtain ⟨z, hprogram, -⟩ := runs_of_generate hentry hcode
  obtain ⟨parts, hsources, hlinked, -⟩ := exists_linked hentry hcode
  obtain ⟨a, b, hcall⟩ := exists_addingCall hprogram
  obtain ⟨s₁, hargs⟩ := exists_addingArguments hprogram hlinked hsources hcall addingState
  obtain ⟨i, r, start, target, receiver, u, t, hr, hat, hmethod, -, hreaches, hlands, hopens, -,
    hreceives, hreturns⟩ :=
    frames_agree hentry hcode hsize rfl rfl rfl rfl (by decide) hcall hargs
  have hi : i = 0 := by
    match i, hr with
    | 0, _ => rfl
    | 1, hr =>
      cases hr
      cases hat
  subst hi
  obtain ⟨first, hfirst, hthree⟩ := hreceives.arguments 0 3 rfl
  obtain ⟨second, hsecond, hfour⟩ := hreceives.arguments 1 4 rfl
  cases hfirst
  cases hsecond
  obtain rfl := hlands (by decide)
  exact ⟨code, a.stream.size, b.stream.size, target, r, t, hcode, hreaches.trans hopens, hthree,
    hfour, hreturns⟩

end NativeBackend
