import NativeBackend.Proofs.Code.Bodies
import NativeBackend.Proofs.Code.Opening

/-!
# Routines keep their meaning

A call of a routine in the finished code of a program does what the body of the routine
does: the processor comes back to the return address with the value that the body
returns, and leaves the stack of the caller as it was.
-/

namespace NativeBackend

open Machine NativeBackend.Tree Convention Execution

/-- A routine is entered with the words of an environment on the stack: the return address on top,
then the receiver, if there is one, and the arguments with the last one first. -/
structure Entered (m : MethodDecl) (env : Source.Environment) (s : State) : Prop where
  receiver : env.receiver =
    if m.isStatic then none else some (s.memory.word (slot (s.registers .rsp) 1))
  count : env.params.length = m.params.length
  arguments : ∀ (i : Nat) (v : Word), env.params[i]? = some v →
    s.memory.word (slot (s.registers .rsp) (passedWords m - i)) = v
  fresh : env.locals = []

section Entry

variable {code : CodeStream} {base : UInt64} {o stop : Nat} {m : MethodDecl}
  {env : Source.Environment} {s : State}

/-- A frame that was just opened represents what was passed. -/
theorem Entered.resting (h : Entered m env s) (hfits : passedWords m + 2 ≤ 2 ^ 61) :
    Resting (Frame.ofMethod m) env (opened s) := by
  have hslot : ∀ k : Int, 1 ≤ k → k ≤ passedWords m →
      (opened s).memory.word (slot ((opened s).registers .rbp) (k + 1)) =
        s.memory.word (slot (s.registers .rsp) k) := by
    intro k hlow hhigh
    have he : -1 + (k + 1) = k := by omega
    rw [rbp_opened, slot_slot, he, word_opened (by omega) (by omega)]
  refine ⟨?_, ?_, h.count, fun i v hi ↦ ?_, ?_, fun k x hx ↦ ?_⟩
  · rw [rsp_opened, rbp_opened]
    exact (slot_zero _).symm
  · rw [h.receiver]
    cases hstatic : m.isStatic with
    | true => simp [Frame.ofMethod, hstatic]
    | false =>
      have hpos : 1 ≤ passedWords m := by simp [passedWords, hstatic]
      have hword := hslot 1 (by omega) (by omega)
      simp [Frame.ofMethod, hstatic, ← hword]
  · have hlt : i < m.params.length := h.count ▸ (List.getElem?_eq_some_iff.mp hi).1
    have hle : m.params.length ≤ passedWords m := by unfold passedWords; omega
    have hword := hslot (passedWords m - i) (by omega) (by omega)
    rw [h.arguments i v hi] at hword
    rw [← hword, Frame.paramSlot, above_ofMethod]
    congr 2
    omega
  · rw [h.fresh]
    rfl
  · rw [h.fresh] at hx
    cases hx

private theorem Entered.outcome {p : Program} {reach : Nat} (fuel : Nat) (h : Entered m env s)
    (hcode : Located code base o (lowerMethod ⟨p, .ofProgram p, false⟩ m) stop)
    (hbody : Source.areStructured m.body)
    (hfits : Fits p reach (.ofMethod m) (Source.methodUses m) (Source.peakAll · 0 m.body)) :
    ∃ start, Reaches code ⟨o, s⟩ ⟨start, opened s⟩ ∧
      Outcome code reach (.ofMethod m) start stop (opened s)
        (Source.andThen (Source.executeAll p fuel env m.body) fun _ ↦ return .returns none) := by
  rw [lowerMethod, List.append_assoc] at hcode
  obtain ⟨start, hrest, hopens⟩ := hcode.opens s
  obtain ⟨between, hstatements, hleave⟩ := hrest.append
  have hresting := h.resting (by have := hfits.address; rw [above_ofMethod] at this; omega)
  have hout := (simulated fuel).2 m.body hstatements hbody hfits hresting
  obtain ⟨new, hnew⟩ := (Frame.ofMethod m).foldl_after_eq_extended m.body
  rw [hnew] at hout
  exact ⟨start, hopens, hout.andThen rfl hfits.address fun _ _ _ ↦
    outcome_leave hleave fun _ hv ↦ nomatch hv⟩

private theorem Returned.of_opened {reach : Nat} {value : Option Word} {c : Configuration}
    (h : Returned (Frame.ofMethod m).above reach value (opened s) c) :
    c.counter = s.top.toNat ∧ c.state.registers .rbp = s.registers .rbp ∧
      c.state.registers .rsp = slot (s.registers .rsp) 1 ∧
      ∀ x, (∀ k : Int, -(reach + 1) ≤ k → k ≤ passedWords m → k ≠ 0 →
          Apart x (slot (s.registers .rsp) k)) →
        c.state.memory.word x = s.memory.word x := by
  have hm : (opened s).memory = s.memory.store (slot (s.registers .rsp) (-1)) (s.registers .rbp) :=
    rfl
  refine ⟨?_, ?_, ?_, fun x hx ↦ ?_⟩
  · rw [h.counter, return_opened]
  · rw [h.rbp, saved_opened]
  · rw [h.rsp, rbp_opened, slot_slot]
    rfl
  · rw [h.words x, hm, Memory.word_store_apart _ _ (hx (-1) (by omega) (by omega) (by omega))]
    intro k hlow hhigh h0 h1
    rw [above_ofMethod] at hhigh
    rw [rbp_opened, slot_slot]
    exact hx (-1 + k) (by omega) (by omega) (by omega)

end Entry

/-- The code of a routine of a program, in its place. -/
theorem Linked.routine {p : Program} {entry r : Routine} {code : Code} {base : UInt64}
    {parts : List Part} {j : Nat} (h : Linked code base parts)
    (hsources : sources parts = routineSteps p entry) (hr : p.routines[j]? = some r) :
    ∃ start stop,
      code.routines.started.reverse[Builtin.routines.length + j]? = some (r.name, start) ∧
      Located code.stream base start
        (lowerMethod ⟨p, .ofProgram p, Assemble.samePlace r entry⟩ r.method) stop := by
  have hget : (sources parts)[Builtin.routines.length + j]? =
      some (r.name, lowerMethod ⟨p, .ofProgram p, Assemble.samePlace r entry⟩ r.method) := by
    rw [hsources, routineSteps, List.getElem?_append_right (by simp), List.length_map,
      Nat.add_sub_cancel_left, List.getElem?_map, hr]
    rfl
  rw [sources, List.getElem?_map, Option.map_eq_some_iff] at hget
  obtain ⟨q, hq, hsource⟩ := hget
  obtain ⟨hname, hsteps⟩ := Prod.mk.inj hsource
  refine ⟨q.start, q.start + extent q.marks, ?_, q.marks, ?_, ?_, rfl⟩
  · rw [h.started, List.reverse_reverse, starts, List.getElem?_map, hq, ← hname]
    rfl
  · rw [← hsteps]
    exact q.assembled
  · exact h.holding (List.mem_of_getElem? hq)

/-- The finished code of a routine that is not the entry, made of declarations, assignments to
variables, branches, loops and returns over scalar expressions, comes back to its caller whenever
the body ends without a division that has no result. The value that the body returns is in its
register, the frame base and the stack pointer are those of the caller, and no word is changed but
the passed ones and those below the return address. -/
theorem reaches_caller {p : Program} {o : Options} {entry r : Routine} {code : Code} {j fuel : Nat}
    {env : Source.Environment} {s : State} (hentry : entryCandidates p o = [entry])
    (hcode : (generate p o).result = .ok code) (hr : p.routines[j]? = some r)
    (hother : Assemble.samePlace r entry = false) (hbody : Source.areStructured r.method.body)
    (hparams : ∀ u ∈ Source.methodUses r.method, (Frame.ofMethod r.method).Covers p u.2)
    (hlive : Source.peakAll Source.declared 0 r.method.body ≤ 2 ^ 28)
    (hstack : passedWords r.method + 2 + Source.peakAll stackWords 0 r.method.body ≤ 2 ^ 61)
    (hentered : Entered r.method env s)
    (hends : Source.executeAll p fuel env r.method.body ≠ .error .outOfFuel)
    (hdivides : Source.executeAll p fuel env r.method.body ≠ .error (.noValue .division)) :
    ∃ start ending c,
      code.routines.started.reverse[Builtin.routines.length + j]? = some (r.name, start) ∧
      Source.executeAll p fuel env r.method.body = .ok ending ∧
      Reaches code.stream ⟨start, s⟩ c ∧ c.counter = s.top.toNat ∧
      (∀ v, ending = .returns (some v) → c.state.registers .rax = v) ∧
      c.state.registers .rbp = s.registers .rbp ∧
      c.state.registers .rsp = slot (s.registers .rsp) 1 ∧
      ∀ x, (∀ k : Int, -(Source.peakAll stackWords 0 r.method.body + 1) ≤ k →
          k ≤ passedWords r.method → k ≠ 0 → Apart x (slot (s.registers .rsp) k)) →
        c.state.memory.word x = s.memory.word x := by
  obtain ⟨parts, hsources, hlinked, -⟩ := exists_linked hentry hcode
  obtain ⟨start, stop, hstart, hlocated⟩ := hlinked.routine hsources hr
  rw [hother] at hlocated
  have hfits : Fits p (Source.peakAll stackWords 0 r.method.body) (.ofMethod r.method)
      (Source.methodUses r.method) (Source.peakAll · 0 r.method.body) := by
    refine ⟨hparams, ?_, hlive, Nat.le_refl _⟩
    rwa [above_ofMethod]
  obtain ⟨start', hopens, hout⟩ := hentered.outcome fuel hlocated hbody hfits
  generalize Source.executeAll p fuel env r.method.body = result at hends hdivides hout ⊢
  match result, hout with
  | .ok (.goesOn env'), ⟨c, hc, hreturned⟩ =>
    obtain ⟨hcounter, hrbp, hrsp, hwords⟩ := hreturned.of_opened
    exact ⟨start, _, c, hstart, rfl, hopens.trans hc, hcounter, (fun _ hv ↦ nomatch hv), hrbp,
      hrsp, hwords⟩
  | .ok (.returns value), ⟨c, hc, hreturned⟩ =>
    obtain ⟨hcounter, hrbp, hrsp, hwords⟩ := hreturned.of_opened
    refine ⟨start, _, c, hstart, rfl, hopens.trans hc, hcounter, fun v hv ↦ ?_, hrbp, hrsp, hwords⟩
    cases hv
    exact hreturned.value v rfl
  | .error .outOfFuel, _ => exact (hends rfl).elim
  | .error (.noValue .division), _ => exact (hdivides rfl).elim

/-- The sum of the squares up to a parameter, with a local in the scope of a loop. -/
def squaresBody : List Statement :=
  let n : Reference := .localName (.param 0)
  let total : Reference := .localName (.var ⟨0⟩)
  let square : Reference := .localName (.var ⟨1⟩)
  [.declare ⟨"total", .int, ⟨0⟩⟩ (.literal (.int 0)),
    .loop (.binary .lt (.literal (.int 0)) (.ref n)) (.block
      [.declare ⟨"square", .int, ⟨1⟩⟩ (.binary .mul (.ref n) (.ref n)),
        .assign total (.binary .add (.ref total) (.ref square)),
        .assign n (.binary .sub (.ref n) (.literal (.int 1)))]),
    .giveBack (some (.ref total))]

/-- A method with that body. -/
def squaresMethod : MethodDecl := ⟨"squares", .int, true, false, [⟨"n", .int⟩], squaresBody⟩

/-- A program with that method beside its entry. -/
def squaresProgram : Program :=
  ⟨[⟨"Main", [], [⟨"main", .void, true, false, [⟨"args", .array (.object "String")⟩], []⟩,
    squaresMethod]⟩]⟩

/-- The routine is entered with the argument three and the return address zero. -/
def squaresState : State := ⟨fun _ ↦ 0x1000, .undefined, fun x ↦ if x = 0x1008 then 3 else 0⟩

/-- The environment of that call. -/
def squaresEnvironment : Source.Environment := ⟨none, [3], [], fun _ ↦ 0, 0⟩

private theorem execute_squares :
    Source.executeAll squaresProgram 12 squaresEnvironment squaresMethod.body =
      .ok (.returns (some 14)) := by
  rfl

private theorem entered_squares :
    Entered squaresMethod squaresEnvironment squaresState := by
  refine ⟨rfl, rfl, fun i v hi ↦ ?_, rfl⟩
  match i, hi with
  | 0, hi =>
    cases hi
    decide +kernel

/-- That call gives fourteen. -/
theorem reaches_caller_of_squares :
    ∃ code start c, (generate squaresProgram {}).result = .ok code ∧
      code.routines.started.reverse[3]? = some ("Main.squares", start) ∧
      Reaches code.stream ⟨start, squaresState⟩ c ∧ c.counter = 0 ∧
      c.state.registers .rax = 14 ∧ c.state.registers .rsp = 0x1008 := by
  have hok : (generate squaresProgram {}).result.isOk = true := by decide +kernel
  obtain ⟨code, hcode⟩ := exists_ok_of_isOk hok
  have hr : squaresProgram.routines[1]? = some ⟨0, 1, "Main", squaresMethod⟩ := rfl
  have hends : Source.executeAll squaresProgram 12 squaresEnvironment squaresMethod.body ≠
      .error .outOfFuel := by
    rw [execute_squares]
    nofun
  have hdivides : Source.executeAll squaresProgram 12 squaresEnvironment squaresMethod.body ≠
      .error (.noValue .division) := by
    rw [execute_squares]
    nofun
  obtain ⟨start, ending, c, hstart, hending, hc, hcounter, hvalue, -, hrsp, -⟩ :=
    reaches_caller rfl hcode hr rfl rfl (by decide) (by decide) (by decide) entered_squares hends
      hdivides
  rw [execute_squares] at hending
  refine ⟨code, start, c, hcode, hstart, hc, ?_, hvalue 14 (Except.ok.inj hending).symm, ?_⟩
  · rw [hcounter]
    decide +kernel
  · rw [hrsp]
    decide +kernel

end NativeBackend
