import NativeBackend.Proofs.Emission.Reach
import NativeBackend.Proofs.Emission.Stages
import NativeBackend.Proofs.Storage.Loads

/-!
# Forms of code

The form of code is what is left of it without the distances of calls and the addresses that
it loads. It is known from the steps alone: a branch around steps goes over their bytes,
wherever they lie, and whether a jump back takes two bytes or five depends on how far back it
goes. So a routine has the same form in whatever state of the assembly it is begun.
-/

namespace NativeBackend

open Machine NativeBackend.Tree

/-- An instruction without the distance of a call or the address that it loads. -/
def Machine.Instruction.unaimed : Instruction → Instruction
  | .call _ => .call 0
  | .movAbs dst _ => .movAbs dst 0
  | i => i

/-- The conditional jump ahead over a count of bytes. -/
def skipOver (bytes : Nat) : Instruction := .jcc .equal (.near (Int32.ofInt bytes))

/-- The jump back over a count of bytes and itself. -/
def backOver (bytes : Nat) : Instruction :=
  if bytes + 2 ≤ 128 then .jmp (.short (Int8.ofInt (-(bytes + 2))))
  else .jmp (.near (Int32.ofInt (-(bytes + 5))))

mutual

/-- The form of the code of a step. -/
def Step.form : Step → List Instruction
  | .emit i | .frame i => [i.unaimed]
  | .call _ => [.call 0]
  | .staticAddress _ => [.movAbs .rax 0]
  | .undeclared _ | .refuse _ | .settle _ => []
  | .when body => skipOver (stepsSize body) :: stepsForm body
  | .choose yes no =>
    skipOver (stepsSize yes + 5) :: (stepsForm yes ++
      .jmp (.near (Int32.ofInt (stepsSize no))) :: stepsForm no)
  | .loop cond body =>
    let bytes := stepsSize cond + 6 + stepsSize body
    stepsForm cond ++ skipOver (stepsSize body + backLength bytes) ::
      (stepsForm body ++ [backOver bytes])

/-- The form of the code of steps. -/
def stepsForm : List Step → List Instruction
  | [] => []
  | x :: xs => x.form ++ stepsForm xs

end

/-- The instructions of a state beyond those of an earlier one. -/
def Assembly.since (b a : Assembly) : List Emitted :=
  b.stream.entries.toList.drop a.stream.length

/-- Two runs append the same code, apart from the distances of calls and the addresses that are
loaded. -/
structure SameForm (a b a' b' : Assembly) : Prop where
  grows : a.stream.length ≤ b.stream.length ∧ a'.stream.length ≤ b'.stream.length
  form : (b.since a).map (·.instruction.unaimed) = (b'.since a').map (·.instruction.unaimed)
  lengths : (b.since a).map (·.bytes.length) = (b'.since a').map (·.bytes.length)
  inOrder : InOrder a.stream.size (b.since a) ∧ InOrder a'.stream.size (b'.since a')

section Distances

variable {o bytes length : Nat} {d : Int32} {i j : Instruction}

/-- The distance of a branch ahead is the count of bytes that it goes over. -/
theorem distance_ahead (h : distance o (o + length + bytes) length = .ok d)
    (hlength : length ≤ 6) : d = Int32.ofInt bytes := by
  obtain ⟨-, hlt, hd, -⟩ := distance_eq_ok h
  rw [hd, endOffset_eq_add (by omega) hlength]
  congr 1
  omega

private theorem jccNear_ahead (h : Instruction.jccNear .equal o (o + 6 + bytes) = .ok i) :
    i = skipOver bytes := by
  obtain ⟨d, hd, rfl⟩ := jccNear_eq_ok h
  rw [distance_ahead hd (by omega), skipOver]

private theorem jmpNear_ahead (h : Instruction.jmpNear o (o + 5 + bytes) = .ok i) :
    i = .jmp (.near (Int32.ofInt bytes)) := by
  obtain ⟨d, hd, rfl⟩ := jmpNear_eq_ok h
  rw [distance_ahead hd (by omega)]

/-- The distance of a branch back is the count of bytes that it goes over, its own among them. -/
theorem distance_back (h : distance (o + bytes) o length = .ok d) (hlt : o + bytes < signedLimit)
    (hlength : length ≤ 6) :
    d = Int32.ofInt (-(bytes + length)) ∧ d.toInt = -(bytes + length) := by
  obtain ⟨-, -, hd, hsum⟩ := distance_eq_ok h
  rw [endOffset_eq_add hlt hlength] at hd hsum
  refine ⟨?_, by omega⟩
  rw [hd]
  congr 1
  omega

/-- What a jump back is depends on the bytes that it goes over, and not on where it lies. -/
theorem jmpFitted_back (h : Instruction.jmpFitted (o + bytes) o = .ok j)
    (hlt : o + bytes < signedLimit) : j = backOver bytes := by
  obtain ⟨d, hd, hj⟩ := bind_eq_ok h
  have hback := (distance_back hd hlt (by omega)).2
  split at hj
  · next hshort =>
    cases hj
    have hform : d.toInt8 = Int8.ofInt (-(bytes + 2)) := by
      apply Int8.toInt_inj.mp
      rw [toInt_toInt8_of_le hshort.1 hshort.2, hback, Int8.toInt_ofInt_of_le (by omega) (by omega)]
      rfl
    rw [backOver, if_pos (by omega), hform]
  · next hlong =>
    obtain ⟨d', hd', rfl⟩ := jmpNear_eq_ok hj
    rw [backOver, if_neg (by omega), (distance_back hd' hlt (by omega)).1]
    rfl

end Distances

section Forms

variable {o : Nat} {xs : List Step} {ms : List Marked}

@[simp] private theorem unaimed_skipOver (bytes : Nat) :
    (skipOver bytes).unaimed = skipOver bytes := rfl

@[simp] private theorem unaimed_backOver (bytes : Nat) :
    (backOver bytes).unaimed = backOver bytes := by
  unfold backOver
  split <;> rfl

/-- The form of an instruction has the length of its encoding. -/
theorem size_unaimed (i : Instruction) : i.unaimed.size = i.size := by
  cases i <;> rfl

/-- The form of code is that of its steps, at every offset. -/
theorem Assembled.form_eq (h : Assembled o xs ms) :
    ms.map (·.entry.instruction.unaimed) = stepsForm xs := by
  induction h with
  | nil => rfl
  | emit _ _ ih => rw [List.map_cons, ih]; rfl
  | frame _ _ ih => rw [List.map_cons, ih]; rfl
  | call _ ih => rw [List.map_cons, ih]; rfl
  | staticAddress _ ih => rw [List.map_cons, ih]; rfl
  | undeclared _ ih => exact ih
  | settle _ ih => exact ih
  | «when» encoded body_code aimed _ ihbody ih =>
    cases encoded
    rw [body_code.extent_eq] at aimed
    have hskip := jccNear_ahead aimed
    rw [List.map_cons, List.map_append, ihbody, ih, Marked.entry_plain, hskip, unaimed_skipOver]
    rfl
  | @choose o start _ _ _ _ yes no _ first second _ encoded yes_code encoded' start_eq no_code
      aimed aimed' _ ihyes ihno ih =>
    cases encoded
    cases encoded'
    have hstart : start = o + 6 + (stepsSize yes + 5) := by
      rw [start_eq, yes_code.extent_eq]
      change o + 6 + stepsSize yes + 5 = _
      omega
    have hleave : start + stepsSize no = o + 6 + stepsSize yes + 5 + stepsSize no := by
      omega
    rw [hstart] at aimed
    rw [yes_code.extent_eq, no_code.extent_eq, hleave] at aimed'
    simp only [List.map_cons, List.map_append, Marked.entry_plain, ihyes, ihno, ih,
      jccNear_ahead aimed, jmpNear_ahead aimed', unaimed_skipOver]
    simp [stepsForm, Step.form, Instruction.unaimed]
  | @loop o test stop _ _ _ back cond body _ first second _ cond_code test_eq encoded body_code
      stop_eq aimed' encoded' aimed _ ihcond ihbody ih =>
    cases encoded
    obtain ⟨htest, hstop⟩ := cond_code.loop_offsets test_eq body_code stop_eq
    obtain ⟨_, hd, -⟩ := jccNear_eq_ok aimed
    have hlt := (Nat.le_add_right _ _).trans_lt (distance_eq_ok hd).2.1
    rw [hstop] at aimed' hlt
    obtain ⟨hlength, -⟩ := length_jmpFitted aimed' encoded' hlt
    have hend : stop + back.length = test + 6 +
        (stepsSize body + backLength (stepsSize cond + 6 + stepsSize body)) := by
      rw [hlength, hstop, htest]
      omega
    rw [hend] at aimed
    simp only [List.map_cons, List.map_append, Marked.entry_plain, ihcond, ihbody, ih,
      jccNear_ahead aimed, jmpFitted_back aimed' hlt, unaimed_skipOver, unaimed_backOver]
    simp [stepsForm, Step.form]

/-- The lengths of instructions are those of the form. -/
theorem Assembled.lengths_eq (h : Assembled o xs ms) :
    ms.map (·.entry.bytes.length) = (stepsForm xs).map Instruction.size := by
  rw [← h.form_eq, List.map_map]
  refine List.map_congr_left fun m hm ↦ ?_
  exact (size_eq_length (h.encodes m hm)).symm.trans (size_unaimed _).symm

end Forms

section Runs

variable {a b a' b' : Assembly}

/-- What a routine appends is the code of its steps, wherever it begins. -/
theorem exists_since_of_routine {p : Program} {l : FieldLayout} {isEntry : Bool} {r : Routine}
    (h : Runs (Assemble.routine p l isEntry r) a () b) :
    ∃ ms, b.since a = ms.map Marked.entry ∧ a.stream.length ≤ b.stream.length ∧
      Assembled a.stream.size (lowerMethod ⟨p, l, isEntry⟩ r.method) ms := by
  obtain ⟨start, c, d, log, hstart, hsteps, rfl⟩ := Assemble.runs_routine h
  obtain ⟨-, c', log', hall, rfl⟩ := Assemble.runs_startRoutine hstart
  obtain ⟨_, _, rfl, hlength, hsize⟩ := state_of_retargetAll hall
  obtain ⟨ms, happends, hcode⟩ := assembled_steps _ hsteps
  refine ⟨ms, ?_, ?_, hcode.at_offset hsize⟩
  · rw [Assembly.since, ← hlength]
    exact (congrArg _ happends.entries).trans (List.drop_left' rfl)
  · have hgrows := length_le_of_steps hsteps
    rwa [← hlength]

/-- A routine has the same form in whatever states its two runs begin. -/
theorem sameForm_of_routine {p : Program} {l : FieldLayout} {isEntry : Bool} {r : Routine}
    (h : Runs (Assemble.routine p l isEntry r) a () b)
    (h' : Runs (Assemble.routine p l isEntry r) a' () b') : SameForm a b a' b' := by
  obtain ⟨ms, hms, hgrows, hcode⟩ := exists_since_of_routine h
  obtain ⟨ms', hms', hgrows', hcode'⟩ := exists_since_of_routine h'
  refine ⟨⟨hgrows, hgrows'⟩, ?_, ?_, ?_⟩
  · rw [hms, hms', List.map_map, List.map_map]
    exact hcode.form_eq.trans hcode'.form_eq.symm
  · rw [hms, hms', List.map_map, List.map_map]
    exact hcode.lengths_eq.trans hcode'.lengths_eq.symm
  · rw [hms, hms']
    exact ⟨hcode.laid.inOrder hcode.encodes, hcode'.laid.inOrder hcode'.encodes⟩

end Runs

/-- A method with a loop that is jumped back over in two bytes and one that is not, which refers to
a static field, prints and calls itself. -/
def countdownMethod : MethodDecl :=
  let n : Reference := .localName (.param 0)
  let total : Reference := .field ⟨0, 0⟩
  let constant (value : Int32) : Expression := .literal (.int value)
  ⟨"count", .void, true, false, [⟨"n", .int⟩],
    [.loop (.binary .gt (.ref n) (constant 9)) (.assign n (constant 9)),
      .loop (.binary .gt (.ref n) (constant 0)) (.block
        [.assign total (.binary .add (.ref total) (.ref n)),
          .call .println [.ref n],
          .call .println [.ref total],
          .assign n (.binary .sub (.ref n) (constant 1))]),
      .branch (.binary .ne (.ref n) (constant 0)) (.call (.method ⟨0, 1⟩) [constant 0]) none]⟩

/-- The entry counts down from three. -/
def countdownEntry : MethodDecl :=
  ⟨"main", .void, true, false, [⟨"args", .array (.object "String")⟩],
    [.call (.method ⟨0, 1⟩) [.literal (.int 3)]]⟩

/-- A program with these methods. -/
def countdownProgram : Program :=
  ⟨[⟨"Main", [⟨"total", .int, true, false⟩], [countdownEntry, countdownMethod]⟩]⟩

/-- The code of that method in some state. -/
def countdown : Assemble Unit :=
  Assemble.routine countdownProgram (.ofProgram countdownProgram) false
    ⟨0, 1, "Main", countdownMethod⟩

/-- The state after the built-in routines and the entry, in which a call waits. -/
def countdownBegun : Assembly :=
  ((Assemble.builtins Builtin.routines >>= fun _ ↦
    Assemble.routine countdownProgram (.ofProgram countdownProgram) true
      ⟨0, 0, "Main", countdownEntry⟩).run.run .empty).2

/-- The method has one form at the start of the code and after other routines, although its calls
that print are aimed in the second place only. -/
theorem sameForm_countdown :
    ∃ b b', Runs countdown .empty () b ∧ Runs countdown countdownBegun () b' ∧
      (b.since .empty).map (·.instruction) ≠ (b'.since countdownBegun).map (·.instruction) ∧
        SameForm .empty b countdownBegun b' := by
  have hfirst : (countdown.run.run .empty).1.isOk := by decide +kernel
  have hlater : (countdown.run.run countdownBegun).1.isOk := by decide +kernel
  have hdiffer : ((countdown.run.run .empty).2.since .empty).map (·.instruction) ≠
      ((countdown.run.run countdownBegun).2.since countdownBegun).map (·.instruction) := by
    decide +kernel
  obtain ⟨b, h⟩ := Runs.of_isOk hfirst
  obtain ⟨b', h'⟩ := Runs.of_isOk hlater
  rw [h, h'] at hdiffer
  exact ⟨b, b', h, h', hdiffer, sameForm_of_routine h h'⟩

end NativeBackend
