import NativeBackend.Proofs.Code.Expressions
import NativeBackend.Proofs.Emission.Leaves

/-!
# Expressions keep their meaning

The instructions that generation emits for an expression, in whatever state it is,
compute the value of the expression once the static addresses are filled in.
-/

namespace NativeBackend

open Machine NativeBackend.Tree Execution

/-- The emitted code of an expression without calls and allocations pushes the value of the
expression, stops at a division exactly when there is none, and otherwise changes memory only below
the stack pointer. -/
theorem run_emitted_expression {p : Program} {f : Frame} {isEntry : Bool} {e : Expression}
    {a b : Assembly} (hplain : Source.isPlain e) (hreach : InReach p f (Source.expressionUses e))
    (hfields : p.fieldCount ≤ 2 ^ 28)
    (hemitted : Runs (Assemble.steps (lowerExpression ⟨p, .ofProgram p, isEntry⟩ f e)) a () b)
    (base : UInt64) (env : Source.Environment) (s : State)
    (hstatics : env.statics = base.toBitVec)
    (hstack : Stacked f a.depth.words (operandWords e) s) (hframe : Represents f env s)
    (hholds : Holds env s (operandWords e) (Source.reads p env e)) :
    ∃ c, Runs (Assemble.fillStatics base (b.staticLoads.toList.drop a.staticLoads.size)) b () c ∧
      Computes (operandWords e) (Source.evaluate p env e) s
        (run (c.stream.instructions.drop a.stream.length) s) := by
  obtain ⟨ms, happends, hcode⟩ := assembled_steps _ hemitted
  have hloads : b.staticLoads.toList.drop a.staticLoads.size =
      staticLoads a.stream.entries.toList.length ms := by
    rw [happends.loads, ← Array.length_toList, List.drop_left, Array.length_toList]
    rfl
  rw [hloads]
  have hsound := (follows_lowerExpression ⟨p, .ofProgram p, isEntry⟩ f e).sound rfl
  refine ⟨_, runs_fillStatics base _ ms (fun m hm ↦ (happends.aimed m hm).loadsStatic)
    (hcode.nonneg_of_staticLoads hsound) happends.entries, ?_⟩
  have hinstructions : (CodeStream.instructions ⟨(a.stream.entries.toList ++
      (ms.map (Marked.filled base)).map Marked.entry).toArray, b.stream.size⟩).drop
        a.stream.length = ms.map fun m ↦ (m.filled base).entry.instruction := by
    simp [CodeStream.instructions, CodeStream.length]
  rw [hinstructions]
  exact computes_expression e hplain hreach (fun _ ↦ ⟨hfields, hstatics⟩)
    (straight?_of_assembled base hcode (isLine_lowerExpression _ _ e hplain)) hstack hframe hholds

/-- A class with a static and an instance field. -/
def boxProgram : Program :=
  ⟨[⟨"Box", [⟨"total", .int, true, false⟩, ⟨"value", .int, false, false⟩], []⟩]⟩

/-- The frame of an instance routine with one live local. -/
def boxFrame : Frame := ⟨true, 0, [⟨0⟩]⟩

/-- The quotient of the instance field and a local, less the static field. -/
def boxQuotient : Expression :=
  .binary .sub (.binary .div (.ref (.field ⟨0, 1⟩)) (.ref (.localName (.var ⟨0⟩))))
    (.ref (.field ⟨0, 0⟩))

/-- Every byte of memory is one, so every word is the same. -/
def boxState : State :=
  ⟨fun r ↦ match r with
    | .rbp => 0x2000
    | .rsp => 0x1FF8
    | _ => 0, .undefined, fun _ ↦ 1⟩

/-- The environment of that frame in that state. -/
def boxEnvironment : Source.Environment :=
  let ones : Word := 0x0101010101010101
  ⟨some ones, [], [(⟨0⟩, ones)], fun _ ↦ ones, 0x10000⟩

/-- Generation after the declaration of that local. -/
def boxAssembly : Assembly := { Assembly.empty with depth := ⟨1, 1⟩ }

private theorem boxState_word (x : Word) : boxState.memory.word x = 0x0101010101010101 := by
  simp only [boxState, Memory.word, Memory.bytes]
  decide

private theorem reads_boxQuotient : Source.reads boxProgram boxEnvironment boxQuotient =
    [0x0101010101010101, 0x10000] := by
  decide +kernel

private theorem boxState_outside {x : Word}
    (hx : x ∈ Source.reads boxProgram boxEnvironment boxQuotient) :
    Outside (boxState.registers .rsp) (operandWords boxQuotient) x := by
  have hvalue : ∀ k < 2, Apart 0x0101010101010101 (slot 0x1FF8 (-1 - (k : Nat))) := by
    decide +kernel
  have htotal : ∀ k < 2, Apart 0x10000 (slot 0x1FF8 (-1 - (k : Nat))) := by
    decide +kernel
  simp only [reads_boxQuotient, List.mem_cons, List.not_mem_nil, or_false] at hx
  rcases hx with rfl | rfl
  · exact hvalue
  · exact htotal

/-- That quotient, in that state: it is one, and one less the static field is left. -/
theorem run_emitted_boxQuotient :
    ∃ b c, Runs (Assemble.steps (lowerExpression ⟨boxProgram, .ofProgram boxProgram, false⟩ boxFrame
        boxQuotient)) boxAssembly () b ∧
      Runs (Assemble.fillStatics 0x10000 b.staticLoads.toList) b () c ∧
      Computes 2 (.ok (1 - 0x0101010101010101)) boxState (run c.stream.instructions boxState) := by
  obtain ⟨b, hemitted⟩ : ∃ b, Runs (Assemble.steps (lowerExpression
      ⟨boxProgram, .ofProgram boxProgram, false⟩ boxFrame boxQuotient)) boxAssembly () b :=
    Runs.of_isOk (by decide +kernel)
  have hreach : InReach boxProgram boxFrame (Source.expressionUses boxQuotient) :=
    ⟨by decide, by decide⟩
  have hstack : Stacked boxFrame boxAssembly.depth.words (operandWords boxQuotient) boxState :=
    ⟨by decide, by decide, by decide⟩
  have hframe : Represents boxFrame boxEnvironment boxState := by
    refine ⟨?_, rfl, ?_, rfl, ?_⟩
    · rw [boxState_word]
      rfl
    · intro i v h
      cases h
    · intro k y h
      rw [boxState_word]
      match k, h with
      | 0, h =>
        cases h
        rfl
  obtain ⟨c, hfilled, hc⟩ := run_emitted_expression rfl hreach (by decide) hemitted 0x10000
    boxEnvironment boxState rfl hstack hframe fun y hy ↦ ⟨boxState_word y, boxState_outside hy⟩
  exact ⟨b, c, hemitted, hfilled, hc⟩

end NativeBackend
