import NativeBackend.Proofs.Branches.Placement
import NativeBackend.Proofs.ControlFlow.Passing
import NativeBackend.Proofs.ControlFlow.StackPointer

/-!
# Integrity of control flow

Control that has entered a routine stays in it until an instruction leaves it: a return, or
in the entry the end of the process. Jumps lead to instructions of their routine that find
the operand stack as deep as it is behind the jump. So the depth at an instruction is the
same on every path that leads there, it is the one that was tracked when the instruction was
emitted, and it tells where the stack pointer is.
-/

namespace NativeBackend

open Machine Execution NativeBackend.Tree Convention

/-- Control stays in the routine at a position of the code until its last instruction leaves it,
given the offsets of the routine and of the entry. -/
structure Contained (code : Code) (entry k start : Nat) : Prop where
  /-- Jumps lead to where the operand stack is as deep as behind the jump. -/
  jumps : ∀ e ∈ code.entriesIn k, e.instruction.isJump = true → ∃ e' ∈ code.entriesIn k,
    e.instruction.branchTarget? e.start = some e'.start ∧
      code.depthFrom start e'.start = code.depthFrom start e.finish
  ends : ∃ es e, code.entriesIn k = es ++ [e] ∧
    e.instruction = if start = entry then .syscall else .ret

/-- The routine at a position of the program keeps its frame, given the offsets of the routine and
of the entry. -/
structure WellFramed (p : Program) (main : Routine) (code : Code) (entry j start : Nat) :
    Prop where
  /-- The operand stack is empty behind the prologue. -/
  opens : ∃ e e' es, code.entriesIn (Builtin.routines.length + j) = e :: e' :: es ∧
    e.start = start ∧ [e.instruction, e'.instruction] = Builtin.prologue ∧
      code.depthFrom start e'.finish = 0
  closes : (if start = entry then Builtin.exit else Builtin.epilogue) <:+
    (code.entriesIn (Builtin.routines.length + j)).map Emitted.instruction
  /-- The entry has no return, and no other routine ends the process. -/
  leaves : ∀ e ∈ code.entriesIn (Builtin.routines.length + j),
    e.instruction ≠ if start = entry then .ret else .syscall
  /-- Every instruction was emitted in some state. -/
  emitted : ∀ e ∈ code.entriesIn (Builtin.routines.length + j),
    ∃ a, Passes p main j a ∧ a.stream.size = e.start
  /-- The depth that was tracked in a state is the one of the finished code. -/
  tracked : ∀ a, Passes p main j a → code.depthFrom start a.stream.size = a.depth.words
  /-- On every path the stack pointer is where the depth says. -/
  paths : ∀ base c c', c.counter = start → c.state.registers .rsp = slot base 1 →
    Relation.ReflTransGen (Advances code.stream) c c' →
      ∃ e ∈ code.entriesIn (Builtin.routines.length + j), e.start = c'.counter ∧
        Framed base (code.depthFrom start e.start) e.instruction c'.state

/-- Control flow of code is in order, given the program, its entry and the offset of that. -/
structure Integrity (p : Program) (main : Routine) (code : Code) (entry : Nat) : Prop where
  /-- The routines are the built-in ones and those of the program. -/
  names : code.begun.map Prod.fst = Source.routineNames p
  begins : ∃ j, p.routines[j]? = some main ∧
    code.begun[Builtin.routines.length + j]? = some (main.name, entry)
  /-- Every instruction belongs to a routine. -/
  covers : code.stream.entries.toList =
    (List.range code.begun.length).flatMap code.entriesIn
  contained : ∀ k name start, code.begun[k]? = some (name, start) → Contained code entry k start
  framed : ∀ j name start, code.begun[Builtin.routines.length + j]? = some (name, start) →
    WellFramed p main code entry j start

section Builtins

variable {o : Nat} {is : List Instruction} {ms : List Marked}

private theorem instructions_of_frames (h : Assembled o (is.map .frame) ms) :
    (ms.map Marked.entry).map Emitted.instruction = is := by
  induction is generalizing o ms with
  | nil =>
    cases h
    rfl
  | cons i is ih =>
    cases h with
    | frame _ rest => exact congrArg (i :: ·) (ih rest)

private theorem builtin_returns {b : String × List Instruction} (hb : b ∈ Builtin.routines) :
    (∀ i ∈ b.2, i.isJump = false) ∧ ∃ is, b.2 = is ++ [.ret] := by
  rcases List.mem_cons.mp hb with rfl | hb
  · exact ⟨by decide, List.getLast?_eq_some_iff.mp rfl⟩
  · cases List.mem_singleton.mp hb
    exact ⟨by decide, List.getLast?_eq_some_iff.mp rfl⟩

end Builtins

section Flow

variable {p : Program} {main : Routine} {code : Code} {base : UInt64} {parts : List Part}
  {k entry : Nat} {q : Part}

private theorem Linked.contained_builtin (h : Linked code base parts) (hq : parts[k]? = some q)
    {b : String × List Instruction} (hb : b ∈ Builtin.routines)
    (hsteps : q.steps = b.2.map .frame) (hother : q.start ≠ entry) :
    Contained code entry k q.start := by
  have hinstructions := instructions_of_frames (hsteps ▸ q.assembled)
  rw [← h.entriesIn hq] at hinstructions
  obtain ⟨hplain, is, his⟩ := builtin_returns hb
  constructor
  · intro e he hjump
    have hmem : e.instruction ∈ b.2 := hinstructions ▸ List.mem_map_of_mem he
    rw [hplain _ hmem] at hjump
    cases hjump
  · rw [his] at hinstructions
    obtain ⟨es, _, hes, -, hlast⟩ := List.map_eq_append_iff.mp hinstructions
    obtain ⟨e, _, rfl, hi, hnil⟩ := List.map_eq_cons_iff.mp hlast
    cases List.map_eq_nil_iff.mp hnil
    rw [if_neg hother]
    exact ⟨es, e, hes, hi⟩

private theorem Linked.flow {o : Options} {z : Assembly} {j start : Nat} {name : String}
    (h : Linked code base parts) (hsources : sources parts = routineSteps p main)
    (hprogram : Runs (Assemble.program p o main) .empty code z) (hmain : main ∈ p.routines)
    (hentry : code.entry = some entry)
    (hbegun : code.begun[Builtin.routines.length + j]? = some (name, start)) :
    Begins start (· = .pushReg frameBase) (code.entriesIn (Builtin.routines.length + j)) ∧
      ∀ l e r, code.entriesIn (Builtin.routines.length + j) = l ++ e :: r →
        Flow (decide (start = entry)) l e r := by
  obtain ⟨q, r, hq, rfl, hr, hsteps⟩ := h.declared_part hsources hbegun
  obtain ⟨hbegins, hflow⟩ := flow_lowerMethod (hsteps ▸ q.assembled)
  rw [← h.entriesIn hq] at hbegins hflow
  refine ⟨hbegins, fun l e r hsplit ↦ ?_⟩
  rw [← h.samePlace_eq hsources hprogram hmain hentry hr hbegun]
  have hat := hflow.at hsplit
  rwa [List.nil_append, List.append_nil] at hat

private theorem Begins.ne_nil {o : Nat} {P : Instruction → Prop} {es : List Emitted}
    (h : Begins o P es) : es ≠ [] := by
  obtain ⟨e, es', rfl, -⟩ := h
  exact List.cons_ne_nil e es'

-- What is last among the instructions of a routine, if control flows from each.
private theorem exists_last {isEntry : Bool} {es : List Emitted} (hne : es ≠ [])
    (hflow : ∀ l e r, es = l ++ e :: r → Flow isEntry l e r) :
    ∃ l e, es = l ++ [e] ∧ Flow isEntry l e [] :=
  ⟨es.dropLast, es.getLast hne, (List.dropLast_append_getLast hne).symm,
    hflow _ _ _ (List.dropLast_append_getLast hne).symm⟩

private theorem Linked.contained_of_flow (h : Linked code base parts) (hq : parts[k]? = some q)
    (hne : code.entriesIn k ≠ [])
    (hflow : ∀ l e r, code.entriesIn k = l ++ e :: r → Flow (decide (q.start = entry)) l e r) :
    Contained code entry k q.start := by
  constructor
  · intro e he hjump
    obtain ⟨l, r, hsplit⟩ := List.append_of_mem he
    obtain ⟨l', e', r', hinside, haimed, heffect⟩ := (hflow l e r hsplit).lands_of_isJump hjump
    have hsplit' := hsplit.trans hinside
    refine ⟨e', hsplit' ▸ List.mem_append_right _ List.mem_cons_self, haimed, ?_⟩
    rw [(h.depthFrom_of_split hq hsplit').1, (h.depthFrom_of_split hq hsplit).2, heffect]
    simp [(framed_of_isJump hjump).2]
  · obtain ⟨l, e, hsplit, hlast⟩ := exists_last hne hflow
    refine ⟨l, e, hsplit, ?_⟩
    simpa only [decide_eq_true_eq] using hlast.last.1

private theorem Linked.contained {o : Options} {z : Assembly} {start : Nat} {name : String}
    (h : Linked code base parts) (hsources : sources parts = routineSteps p main)
    (hprogram : Runs (Assemble.program p o main) .empty code z) (hmain : main ∈ p.routines)
    (hentry : code.entry = some entry) (hbegun : code.begun[k]? = some (name, start)) :
    Contained code entry k start := by
  obtain ⟨q, hq, rfl, hsteps⟩ := h.part hsources hbegun
  rcases Nat.lt_or_ge k Builtin.routines.length with hlt | hge
  · rw [routineSteps, List.getElem?_append_left (by simpa using hlt), List.getElem?_map,
      Option.map_eq_some_iff] at hsteps
    obtain ⟨b, hb, hsource⟩ := hsteps
    refine h.contained_builtin hq (List.mem_of_getElem? hb) (congrArg Prod.snd hsource).symm ?_
    -- the entry is behind all built-in routines, and no two routines begin at one offset
    rintro rfl
    obtain ⟨j, -, hbegun'⟩ := exists_begun_entry hprogram hmain hentry
    have hposition := h.start_injective hsources hbegun hbegun'
    omega
  · obtain ⟨j, rfl⟩ := Nat.exists_eq_add_of_le hge
    obtain ⟨hbegins, hflow⟩ := h.flow hsources hprogram hmain hentry hbegun
    exact h.contained_of_flow hq hbegins.ne_nil hflow

end Flow

section Frame

variable {p : Program} {main : Routine} {code : Code} {base : UInt64} {parts : List Part}
  {k start entry : Nat} {q : Part}

private theorem Linked.opens_of_flow (h : Linked code base parts) (hq : parts[k]? = some q)
    {isEntry : Bool} (hbegins : Begins q.start (· = .pushReg frameBase) (code.entriesIn k))
    (hflow : ∀ l e r, code.entriesIn k = l ++ e :: r → Flow isEntry l e r) :
    ∃ e e' es, code.entriesIn k = e :: e' :: es ∧ e.start = q.start ∧
      [e.instruction, e'.instruction] = Builtin.prologue ∧
        code.depthFrom q.start e'.finish = 0 := by
  obtain ⟨e, _, hsplit, hstart, hpush⟩ := hbegins
  obtain ⟨e', es, rfl, -, hmove⟩ := (hflow [] _ _ hsplit).begins_of_push hpush
  have hdepth := (h.depthFrom_of_split (l := [e]) hq hsplit).2
  refine ⟨e, e', es, hsplit, hstart, by rw [hpush, hmove]; rfl, ?_⟩
  rw [hdepth, List.singleton_append, operandEffect_cons, operandEffect_cons, hpush, hmove]
  rfl

-- Along every path the stack pointer is where the depth says.
private theorem Linked.path_of_flow (h : Linked code base parts) (hq : parts[k]? = some q)
    {isEntry : Bool} (hbegins : Begins q.start (· = .pushReg frameBase) (code.entriesIn k))
    (hflow : ∀ l e r, code.entriesIn k = l ++ e :: r → Flow isEntry l e r) {frame : Word}
    {c c' : Configuration} (hcounter : c.counter = q.start)
    (hrsp : c.state.registers .rsp = slot frame 1)
    (hpath : Relation.ReflTransGen (Advances code.stream) c c') :
    ∃ e ∈ code.entriesIn k, e.start = c'.counter ∧
      Framed frame (code.depthFrom q.start e.start) e.instruction c'.state := by
  have hat : ∀ e ∈ code.entriesIn k, code.stream.at? e.start = some e := by
    intro e he
    rw [h.entriesIn hq] at he
    obtain ⟨m, hm, rfl⟩ := List.mem_map.mp he
    exact (h.holding (List.mem_of_getElem? hq) m hm).1
  have hfirst : InRoutine (code.entriesIn k) frame c := by
    obtain ⟨e, es, hsplit, hstart, hpush⟩ := hbegins
    refine ⟨[], e, es, hsplit, hstart.trans hcounter.symm, ?_⟩
    rw [hpush]
    exact framed_push.mpr hrsp
  obtain ⟨l, e, r, hsplit, hstart, hframed⟩ := hfirst.path hat hflow hpath
  refine ⟨e, hsplit ▸ List.mem_append_right _ List.mem_cons_self, hstart, ?_⟩
  rwa [(h.depthFrom_of_split hq hsplit).1]

private theorem Linked.wellFramed {o : Options} {z : Assembly} {j : Nat} {name : String}
    (h : Linked code base parts) (hsources : sources parts = routineSteps p main)
    (hprogram : Runs (Assemble.program p o main) .empty code z) (hmain : main ∈ p.routines)
    (hentry : code.entry = some entry)
    (hbegun : code.begun[Builtin.routines.length + j]? = some (name, start)) :
    WellFramed p main code entry j start := by
  obtain ⟨hbegins, hflow⟩ := h.flow hsources hprogram hmain hentry hbegun
  obtain ⟨q, hq, rfl, -⟩ := h.part hsources hbegun
  constructor
  · exact h.opens_of_flow hq hbegins hflow
  · obtain ⟨l, e, hsplit, hlast⟩ := exists_last hbegins.ne_nil hflow
    rw [hsplit]
    simpa only [decide_eq_true_eq] using hlast.last.2
  · intro e he
    obtain ⟨l, r, hsplit⟩ := List.append_of_mem he
    simpa only [decide_eq_true_eq] using (hflow l e r hsplit).ne_leave
  · exact fun e he ↦ h.exists_passes hsources hprogram hbegun he
  · intro a ha
    obtain ⟨r', a₀, hstarted, hdepth⟩ := ha.depthFrom_eq hprogram h
    rwa [hstarted.size_eq hprogram hbegun] at hdepth
  · exact fun frame c c' ↦ h.path_of_flow hq hbegins hflow

end Frame

/-- The control flow of generated code with an entry is in order. -/
theorem integrity_of_generate {p : Program} {o : Options} {code : Code} {entry : Nat}
    (hcode : (generate p o).result = .ok code) (hentry : code.entry = some entry) :
    ∃ main, entryCandidates p o = [main] ∧ Integrity p main code entry := by
  obtain ⟨main, hmain⟩ := exists_entryCandidates hcode hentry
  obtain ⟨parts, hsources, hlinked, -⟩ := exists_linked hmain hcode
  obtain ⟨z, hprogram, -⟩ := runs_of_generate hmain hcode
  have hmem : main ∈ p.routines := by
    have hcandidate : main ∈ entryCandidates p o := hmain ▸ List.mem_singleton_self main
    exact List.mem_of_mem_filter hcandidate
  exact ⟨main, hmain, hlinked.begun_names hsources, exists_begun_entry hprogram hmem hentry,
    hlinked.entries_eq_flatMap,
    fun k name start ↦ hlinked.contained hsources hprogram hmem hentry,
    fun j name start ↦ hlinked.wellFramed hsources hprogram hmem hentry⟩

/-- So is that of a program with a loop and branches. -/
theorem integrity_hailstone :
    ∃ code entry, (generate hailstoneProgram {}).result = .ok code ∧ code.entry = some entry ∧
      Integrity hailstoneProgram ⟨0, 0, "Main", hailstoneEntry⟩ code entry := by
  have hfacts : (generate hailstoneProgram {}).result.toOption.map (·.entry.isSome) =
      some true := by
    decide +kernel
  obtain ⟨code, hcode, hsome⟩ := exists_ok_of_map hfacts
  obtain ⟨entry, hentry⟩ := Option.isSome_iff_exists.mp hsome
  obtain ⟨main, hmain, hintegrity⟩ := integrity_of_generate hcode hentry
  cases hmain
  exact ⟨code, entry, hcode, hentry, hintegrity⟩

end NativeBackend
