import NativeBackend.Proofs.Code.Placement
import NativeBackend.Proofs.Emission.Stages
import NativeBackend.Proofs.OperandStack.Balance

/-!
# Flow of control in a routine

Where control goes from every instruction of a routine, and what that does to the words on
the operand stack. `Flow` looks at an instruction together with all those before it and
behind it in its routine. Jumps lead to instructions of the routine that find as many words
as the one behind the jump, and only the two ways to leave a routine have nothing behind
them. The parts of a routine are put together by lemmas that hold in any surroundings.
-/

namespace NativeBackend

open Machine NativeBackend.Tree Convention

/-- The words that an instruction adds to the operand stack. The frame base of the caller, which is
saved below it, does not count. -/
def Machine.Instruction.operandEffect (i : Instruction) : Int :=
  if i = .pushReg frameBase ∨ i = .popReg frameBase then 0 else i.stackEffect

/-- The words that instructions add to the operand stack. -/
def operandEffect (es : List Emitted) : Int := (es.map (·.instruction.operandEffect)).sum

/-- Whether an instruction is met before the frame of a routine is there, or when it is given up. -/
def Machine.Instruction.isUnframed (i : Instruction) : Bool :=
  [.pushReg frameBase, .move frameBase stackPointer, .popReg frameBase, .ret].contains i

/-- Instructions begin at an offset with one that meets a condition. -/
def Begins (o : Nat) (P : Instruction → Prop) (es : List Emitted) : Prop :=
  ∃ e es', es = e :: es' ∧ e.start = o ∧ P e.instruction

/-- Instructions begin at an offset in the frame of their routine. -/
def Opens (o : Nat) (es : List Emitted) : Prop := Begins o (·.isUnframed = false) es

/-- Where control goes from an instruction of a routine, given those before it and behind it. -/
inductive Flow (isEntry : Bool) (l : List Emitted) (e : Emitted) (r : List Emitted) : Prop
  | saves (instruction : e.instruction = .pushReg frameBase)
      (next : Begins e.finish (· = .move frameBase stackPointer) r)
  | opens (instruction : e.instruction = .move frameBase stackPointer)
      (empty : operandEffect l = 0) (next : Opens e.finish r)
  | steady (instruction : e.instruction.keepsFrame = true ∨ e.instruction.isCall = true)
      (next : Opens e.finish r)
  | jumps {target : Nat} {l' r' : List Emitted} (instruction : e.instruction.isJump = true)
      (encoded : e.instruction.encode = .ok e.bytes) (inRange : e.finish < wordLimit)
      (next : Opens e.finish r) (aimed : e.instruction.branchTarget? e.start = some target)
      (inside : l ++ e :: r = l' ++ r') (lands : Opens target r')
      (effect : operandEffect l' = operandEffect l)
  | closes (instruction : e.instruction = .move stackPointer frameBase) (inner : isEntry = false)
      (next : Begins e.finish (· = .popReg frameBase) r)
  | restores (instruction : e.instruction = .popReg frameBase) (inner : isEntry = false)
      (next : Begins e.finish (· = .ret) r)
  | returns (instruction : e.instruction = .ret) (inner : isEntry = false)
      (sequence : Builtin.epilogue <:+ (l ++ [e]).map Emitted.instruction)
  | exits (instruction : e.instruction = .syscall) (outer : isEntry = true)
      (sequence : Builtin.exit <:+ (l ++ [e]).map Emitted.instruction)

/-- A statement about every instruction in a list with those before it and behind it, given what
stands before and behind the list. -/
def Everywhere (P : List Emitted → Emitted → List Emitted → Prop) :
    List Emitted → List Emitted → List Emitted → Prop
  | _, [], _ => True
  | l, e :: es, r => P l e (es ++ r) ∧ Everywhere P (l ++ [e]) es r

section Lists

variable {P : List Emitted → Emitted → List Emitted → Prop} {l es es' r : List Emitted}

private theorem everywhere_append : Everywhere P l (es ++ es') r ↔
    Everywhere P l es (es' ++ r) ∧ Everywhere P (l ++ es) es' r := by
  induction es generalizing l with
  | nil => simp [Everywhere]
  | cons e es ih => simp [Everywhere, ih, and_assoc]

/-- What holds everywhere holds at an instruction between others. -/
theorem Everywhere.at (h : Everywhere P l es r) {l' r' : List Emitted} {e : Emitted}
    (he : es = l' ++ e :: r') : P (l ++ l') e (r' ++ r) := by
  rw [he, everywhere_append] at h
  exact h.2.1

@[simp] private theorem operandEffect_nil : operandEffect [] = 0 := rfl

/-- The effect of code is that of its first instruction and of the rest. -/
@[simp] theorem operandEffect_cons (e : Emitted) :
    operandEffect (e :: es) = e.instruction.operandEffect + operandEffect es := by
  simp [operandEffect]

/-- The effects of code in a row add up. -/
@[simp] theorem operandEffect_append :
    operandEffect (es ++ es') = operandEffect es + operandEffect es' := by
  simp [operandEffect]

end Lists

@[simp] private theorem Machine.Instruction.operandEffect_jmp (d : Distance) :
    (jmp d).operandEffect = 0 := rfl

@[simp] private theorem Machine.Instruction.operandEffect_jcc (cond : Condition) (d : Distance) :
    (jcc cond d).operandEffect = 0 := rfl

/-- Instructions that keep the frame are met in it. -/
theorem framed_of_keepsFrame {i : Instruction} (h : i.keepsFrame = true) :
    i.isUnframed = false := by
  rw [Bool.eq_false_iff]
  intro hi
  rw [Instruction.isUnframed, List.contains_iff_mem] at hi
  simp only [List.mem_cons, List.not_mem_nil, or_false] at hi
  rcases hi with rfl | rfl | rfl | rfl <;> cases h

/-- So are calls, and the operand stack is as before when they come back. -/
theorem framed_of_isCall {i : Instruction} (h : i.isCall = true) :
    i.isUnframed = false ∧ i.operandEffect = 0 := by
  cases i with
  | call => exact ⟨rfl, rfl⟩
  | _ => cases h

/-- So are jumps, and they leave the operand stack as it is. -/
theorem framed_of_isJump {i : Instruction} (h : i.isJump = true) :
    i.isUnframed = false ∧ i.operandEffect = 0 := by
  cases i with
  | jmp | jcc => exact ⟨rfl, rfl⟩
  | _ => cases h

/-- What counts for instructions that keep the frame is how they move the stack pointer. -/
theorem operandEffect_of_keepsFrame {i : Instruction} (h : i.keepsFrame = true) :
    i.operandEffect = i.stackEffect := by
  refine if_neg ?_
  rintro (rfl | rfl) <;> cases h

namespace Flow

variable {isEntry : Bool} {l r : List Emitted} {e : Emitted}

/-- Behind a call there is an instruction that is met in the frame. -/
theorem opens_of_isCall (h : Flow isEntry l e r) (hcall : e.instruction.isCall = true) :
    Opens e.finish r := by
  cases h with
  | steady _ next | opens _ _ next | jumps _ _ _ next => exact next
  | saves hi | closes hi | restores hi | returns hi | exits hi =>
    rw [hi] at hcall
    cases hcall

/-- A jump leads to an instruction of the routine that finds the same operand stack. -/
theorem lands_of_isJump (h : Flow isEntry l e r) (hjump : e.instruction.isJump = true) :
    ∃ l' e' r', l ++ e :: r = l' ++ e' :: r' ∧
      e.instruction.branchTarget? e.start = some e'.start ∧
      operandEffect l' = operandEffect l := by
  cases h with
  | jumps _ _ _ _ aimed inside lands effect =>
    obtain ⟨e', r', rfl, rfl, -⟩ := lands
    exact ⟨_, e', r', inside, aimed, effect⟩
  | steady hi _ =>
    cases hi' : e.instruction with
    | jmp | jcc =>
      rw [hi'] at hi
      rcases hi with hi | hi <;> cases hi
    | _ =>
      rw [hi'] at hjump
      cases hjump
  | saves hi | opens hi | closes hi | restores hi | returns hi | exits hi =>
    rw [hi] at hjump
    cases hjump

/-- When the frame base is saved, the frame is opened. -/
theorem begins_of_push (h : Flow isEntry l e r) (hi : e.instruction = .pushReg frameBase) :
    Begins e.finish (· = .move frameBase stackPointer) r := by
  cases h with
  | saves _ next => exact next
  | steady hi' _ =>
    rw [hi] at hi'
    rcases hi' with hi' | hi' <;> cases hi'
  | jumps hi' =>
    rw [hi] at hi'
    cases hi'
  | opens hi' | closes hi' | restores hi' | returns hi' | exits hi' => cases hi.symm.trans hi'

/-- The entry never returns, and no other routine ends the process. -/
theorem ne_leave (h : Flow isEntry l e r) : e.instruction ≠ if isEntry then .ret else .syscall := by
  intro hi
  cases h with
  | returns hi' inner =>
    rw [inner] at hi
    cases hi.symm.trans hi'
  | exits hi' outer =>
    rw [outer] at hi
    cases hi.symm.trans hi'
  | steady hi' _ =>
    rw [hi] at hi'
    cases isEntry <;> rcases hi' with hi' | hi' <;> cases hi'
  | jumps hi' =>
    rw [hi] at hi'
    cases isEntry <;> cases hi'
  | saves hi' | opens hi' | closes hi' | restores hi' =>
    cases isEntry <;> cases hi.symm.trans hi'

/-- What is last leaves the routine. -/
theorem last (h : Flow isEntry l e []) :
    e.instruction = (if isEntry then .syscall else .ret) ∧
      (if isEntry then Builtin.exit else Builtin.epilogue) <:+
        (l ++ [e]).map Emitted.instruction := by
  cases h with
  | returns hi inner sequence =>
    subst inner
    exact ⟨hi, sequence⟩
  | exits hi outer sequence =>
    subst outer
    exact ⟨hi, sequence⟩
  | saves _ next | opens _ _ next | steady _ next | jumps _ _ _ next | closes _ _ next
  | restores _ _ next =>
    obtain ⟨_, _, hnil, -⟩ := next
    cases hnil

end Flow

/-- Control flows through instructions at an offset in any surroundings, if what is behind them is
met in the frame. They add some words to the operand stack. -/
structure Flowing (isEntry : Bool) (o : Nat) (ms : List Marked) (words : Int) : Prop where
  effect : operandEffect (ms.map Marked.entry) = words
  opens : ∀ r, Opens (o + extent ms) r → Opens o (ms.map Marked.entry ++ r)
  flows : ∀ l r, Opens (o + extent ms) r → Everywhere (Flow isEntry) l (ms.map Marked.entry) r

namespace Flowing

variable {isEntry : Bool} {o : Nat} {ms ms' : List Marked} {n n' : Int}

private theorem nil : Flowing isEntry o [] 0 := ⟨rfl, fun _ h ↦ h, fun _ _ _ ↦ trivial⟩

private theorem append (h : Flowing isEntry o ms n) (h' : Flowing isEntry (o + extent ms) ms' n') :
    Flowing isEntry o (ms ++ ms') (n + n') := by
  rw [← h.effect, ← h'.effect]
  constructor
  · rw [List.map_append, operandEffect_append]
  · intro r hr
    rw [extent_append, ← Nat.add_assoc] at hr
    rw [List.map_append, List.append_assoc]
    exact h.opens _ (h'.opens r hr)
  · intro l r hr
    rw [extent_append, ← Nat.add_assoc] at hr
    rw [List.map_append, everywhere_append]
    exact ⟨h.flows l _ (h'.opens r hr), h'.flows _ r hr⟩

/-- An instruction that leads to the next one. -/
theorem steady {e : Emitted} {purpose : Purpose} (hstart : e.start = o)
    (hi : e.instruction.keepsFrame = true ∨ e.instruction.isCall = true)
    (hrest : Flowing isEntry e.finish ms n) :
    Flowing isEntry o (⟨e, purpose⟩ :: ms) (e.instruction.operandEffect + n) := by
  have hframed : e.instruction.isUnframed = false := by
    rcases hi with hkeeps | hcall
    · exact framed_of_keepsFrame hkeeps
    · exact (framed_of_isCall hcall).1
  refine ⟨?_, fun r _ ↦ ⟨_, _, rfl, hstart, hframed⟩, fun l r hr ↦ ?_⟩
  · rw [List.map_cons, operandEffect_cons, hrest.effect]
  · rw [extent_cons, ← Nat.add_assoc, ← hstart] at hr
    exact ⟨.steady hi (hrest.opens r hr), hrest.flows _ r hr⟩

-- The branch is not beyond the range of offsets: the distance to one behind it could be taken.
private theorem branch {i : Instruction} {bs : List UInt8} {l r : List Emitted}
    {target bound : Nat} (l' r' : List Emitted) (hjump : i.isJump = true)
    (hencoded : i.encode = .ok bs) (hbound : bound < signedLimit) (hle : o + bs.length ≤ bound)
    (hnext : Opens (o + bs.length) r) (haimed : i.branchTarget? o = some target)
    (hinside : l ++ ⟨i, o, bs⟩ :: r = l' ++ r') (hlands : Opens target r')
    (heffect : operandEffect l' = operandEffect l) : Flow isEntry l ⟨i, o, bs⟩ r := by
  have hlimit : signedLimit < wordLimit := by decide
  have hrange : o + bs.length < wordLimit := by omega
  exact .jumps hjump hencoded hrange hnext haimed hinside hlands heffect

/-- A branch over instructions that leave the operand stack as it is. -/
theorem when {d : Int32} {bs : List UInt8}
    (hencoded : (Instruction.jcc .equal (.near d)).encode = .ok bs)
    (hbody : Flowing isEntry (o + bs.length) ms 0)
    (haimed : Instruction.jccNear .equal o (o + bs.length + extent ms) =
      .ok (.jcc .equal (.near d))) :
    Flowing isEntry o (.plain (.jcc .equal (.near d)) o bs :: ms) 0 := by
  obtain ⟨d', hd, hi⟩ := jccNear_eq_ok haimed
  cases hi
  have hbound := (distance_eq_ok hd).2.1
  have heffect : operandEffect ((Marked.plain (.jcc .equal (.near d)) o bs :: ms).map
      Marked.entry) = 0 := by
    simp [hbody.effect]
  refine ⟨heffect, fun r _ ↦ ⟨_, _, rfl, rfl, rfl⟩, fun l r hr ↦ ?_⟩
  rw [extent_cons, ← Nat.add_assoc] at hr
  refine ⟨?_, hbody.flows _ r hr⟩
  refine branch (l ++ (Marked.plain (.jcc .equal (.near d)) o bs :: ms).map Marked.entry) r rfl
    hencoded hbound (Nat.le_add_right _ _) (hbody.opens r hr)
    (branchTarget?_of_distance hd rfl) ?_ hr ?_
  · simp
  · rw [operandEffect_append, heffect, Int.add_zero]

/-- Two branches around two parts that leave the operand stack as it is. -/
theorem choose {start : Nat} {d d' : Int32} {bs bs' : List UInt8}
    (hencoded : (Instruction.jcc .equal (.near d)).encode = .ok bs)
    (hyes : Flowing isEntry (o + bs.length) ms 0)
    (hencoded' : (Instruction.jmp (.near d')).encode = .ok bs')
    (hstart : start = o + bs.length + extent ms + bs'.length)
    (hno : Flowing isEntry start ms' 0)
    (haimed : Instruction.jccNear .equal o start = .ok (.jcc .equal (.near d)))
    (haimed' : Instruction.jmpNear (o + bs.length + extent ms) (start + extent ms') =
      .ok (.jmp (.near d'))) :
    Flowing isEntry o (.plain (.jcc .equal (.near d)) o bs :: (ms ++
      .plain (.jmp (.near d')) (o + bs.length + extent ms) bs' :: ms')) 0 := by
  obtain ⟨_, hd, hi⟩ := jccNear_eq_ok haimed
  cases hi
  obtain ⟨_, hd', hi'⟩ := jmpNear_eq_ok haimed'
  cases hi'
  have hbound := (distance_eq_ok hd').2.1
  -- the second part with the jump over it, and with the first part before it
  let leave := Marked.plain (.jmp (.near d')) (o + bs.length + extent ms) bs'
  let skip := Marked.plain (.jcc .equal (.near d)) o bs
  have heffect : operandEffect ((skip :: (ms ++ leave :: ms')).map Marked.entry) = 0 := by
    simp [skip, leave, hyes.effect, hno.effect]
  refine ⟨heffect, fun r _ ↦ ⟨_, _, rfl, rfl, rfl⟩, fun l r hr ↦ ?_⟩
  have hsize : o + extent (skip :: (ms ++ leave :: ms')) = start + extent ms' := by
    rw [extent_cons, extent_append, extent_cons, hstart]
    simp only [skip, leave, Marked.plain]
    omega
  rw [hsize] at hr
  have hother : Opens start (ms'.map Marked.entry ++ r) := hno.opens r hr
  have hjump : Opens (o + bs.length + extent ms) (leave.entry :: (ms'.map Marked.entry ++ r)) :=
    ⟨_, _, rfl, rfl, rfl⟩
  have hfirst := hyes.opens _ hjump
  simp only [List.map_cons, List.map_append, Everywhere, everywhere_append, List.append_assoc,
    List.cons_append]
  refine ⟨?_, hyes.flows _ _ hjump, ?_, hno.flows _ r hr⟩
  · refine branch (l ++ (skip :: (ms ++ [leave])).map Marked.entry) _ rfl hencoded hbound
      (by omega) hfirst (branchTarget?_of_distance hd rfl) ?_ hother ?_
    · simp [skip, leave]
    · simp [skip, leave, hyes.effect]
  · refine branch (l ++ (skip :: (ms ++ leave :: ms')).map Marked.entry) r rfl hencoded' hbound
      (by omega) (hstart ▸ hother) (branchTarget?_of_distance hd' rfl) ?_ hr ?_
    · simp [skip, leave]
    · simp [skip, leave, hyes.effect, hno.effect]

/-- Two branches around a condition and a part that leave the operand stack as it is. -/
theorem loop {test stop : Nat} {d : Int32} {i : Instruction} {bs bs' : List UInt8}
    (hcond : Flowing isEntry o ms 0) (htest : test = o + extent ms)
    (hencoded : (Instruction.jcc .equal (.near d)).encode = .ok bs)
    (hbody : Flowing isEntry (test + bs.length) ms' 0)
    (hstop : stop = test + bs.length + extent ms')
    (haimed' : Instruction.jmpFitted stop o = .ok i) (hencoded' : i.encode = .ok bs')
    (haimed : Instruction.jccNear .equal test (stop + bs'.length) =
      .ok (.jcc .equal (.near d))) :
    Flowing isEntry o (ms ++ .plain (.jcc .equal (.near d)) test bs ::
      (ms' ++ [.plain i stop bs'])) 0 := by
  obtain ⟨_, hd, hi⟩ := jccNear_eq_ok haimed
  cases hi
  obtain ⟨⟨d', rfl⟩, hleads⟩ := branchTarget?_jmpFitted haimed'
  have hbound := (distance_eq_ok hd).2.1
  let exit := Marked.plain (.jcc .equal (.near d)) test bs
  let back := Marked.plain (.jmp d') stop bs'
  have heffect : operandEffect ((ms ++ exit :: (ms' ++ [back])).map Marked.entry) = 0 := by
    simp [exit, back, hcond.effect, hbody.effect]
  have hexit (r : List Emitted) : Opens (o + extent ms) (exit.entry :: r) :=
    ⟨_, _, rfl, htest, rfl⟩
  have hopens (r : List Emitted) :
      Opens o ((ms ++ exit :: (ms' ++ [back])).map Marked.entry ++ r) := by
    rw [List.map_append, List.append_assoc]
    exact hcond.opens _ (hexit _)
  refine ⟨heffect, fun r _ ↦ hopens r, fun l r hr ↦ ?_⟩
  have hsize : o + extent (ms ++ exit :: (ms' ++ [back])) = stop + bs'.length := by
    simp only [extent_append, extent_cons, extent_nil, exit, back, Marked.plain]
    omega
  rw [hsize] at hr
  have hback : Opens (test + bs.length + extent ms') (back.entry :: r) :=
    ⟨_, _, rfl, hstop, rfl⟩
  have hinside := hbody.opens _ hback
  simp only [List.map_cons, List.map_append, Everywhere, everywhere_append, List.append_assoc,
    List.cons_append, List.map_nil, List.nil_append, and_true]
  refine ⟨hcond.flows l _ (hexit _), ?_, hbody.flows _ _ hback, ?_⟩
  · refine branch (l ++ (ms ++ exit :: (ms' ++ [back])).map Marked.entry) r rfl hencoded hbound
      (by omega) hinside (branchTarget?_of_distance hd rfl) ?_ hr ?_
    · simp [exit, back]
    · simp [exit, back, hcond.effect, hbody.effect]
  · refine branch l ((ms ++ exit :: (ms' ++ [back])).map Marked.entry ++ r) rfl hencoded' hbound
      le_rfl hr hleads ?_ (hopens r) ?_
    · simp [exit, back]
    · simp [hcond.effect, hbody.effect]

end Flowing

/-- Control flows through the code of steps without branches. -/
theorem Stretch.flowing {d d' : Nat} {xs : List Step} (h : Stretch d xs d') (isEntry : Bool)
    {o : Nat} {ms : List Marked} (hcode : Assembled o xs ms) :
    Flowing isEntry o ms (d' - d) := by
  induction h generalizing o ms with
  | nil =>
    cases hcode
    rw [Int.sub_self]
    exact .nil
  | @emit d d₁ d' i xs keeps effect rest ih =>
    cases hcode with
    | @emit _ _ bs _ ms encoded rest =>
      have hwords : (d' : Int) - d = i.operandEffect + (d' - d₁) := by
        rw [operandEffect_of_keepsFrame keeps]
        omega
      rw [hwords]
      exact .steady rfl (.inl keeps) (ih rest)
  | call _ ih =>
    cases hcode with
    | call rest =>
      rw [← Int.zero_add (_ - _)]
      exact .steady rfl (.inr rfl) (ih rest)
  | staticAddress _ ih =>
    cases hcode with
    | staticAddress rest =>
      rw [← Int.zero_add (_ - _)]
      exact .steady rfl (.inl rfl) (ih rest)
  | undeclared _ ih =>
    cases hcode with
    | undeclared rest => exact ih rest
  | refuse => cases hcode

private theorem Assembled.of_frame {o : Nat} {i : Instruction} {xs : List Step}
    {ms : List Marked} (h : Assembled o (.frame i :: xs) ms) :
    ∃ bs ms', ms = .plain i o bs :: ms' ∧ Assembled (o + bs.length) xs ms' := by
  cases h with
  | frame _ rest => exact ⟨_, _, rfl, rest⟩

/-- Control that leaves a routine needs nothing behind it. -/
theorem flow_leaveSteps {s : Surroundings} {o : Nat} {ms : List Marked}
    (hcode : Assembled o (leaveSteps s) ms) :
    operandEffect (ms.map Marked.entry) = 0 ∧ ∀ l r, Opens o (ms.map Marked.entry ++ r) ∧
      Everywhere (Flow s.isEntry) l (ms.map Marked.entry) r := by
  rw [leaveSteps] at hcode
  cases hentry : s.isEntry with
  | true =>
    rw [hentry, if_pos rfl] at hcode
    obtain ⟨bs₁, _, rfl, hcode₁⟩ := hcode.of_frame
    obtain ⟨bs₂, _, rfl, hcode₂⟩ := hcode₁.of_frame
    obtain ⟨bs₃, _, rfl, hcode₃⟩ := hcode₂.of_frame
    cases hcode₃
    refine ⟨rfl, fun l r ↦ ⟨⟨_, _, rfl, rfl, rfl⟩, ?_, ?_, ?_, trivial⟩⟩
    · exact .steady (.inl rfl) ⟨_, _, rfl, rfl, rfl⟩
    · exact .steady (.inl rfl) ⟨_, _, rfl, rfl, rfl⟩
    · exact .exits rfl rfl ⟨l.map Emitted.instruction, by simp [Builtin.exit]⟩
  | false =>
    rw [hentry, if_neg Bool.false_ne_true] at hcode
    obtain ⟨bs₁, _, rfl, hcode₁⟩ := hcode.of_frame
    obtain ⟨bs₂, _, rfl, hcode₂⟩ := hcode₁.of_frame
    obtain ⟨bs₃, _, rfl, hcode₃⟩ := hcode₂.of_frame
    cases hcode₃
    refine ⟨rfl, fun l r ↦ ⟨⟨_, _, rfl, rfl, rfl⟩, ?_, ?_, ?_, trivial⟩⟩
    · exact .closes rfl rfl ⟨_, _, rfl, rfl, rfl⟩
    · exact .restores rfl rfl ⟨_, _, rfl, rfl, rfl⟩
    · exact .returns rfl rfl ⟨l.map Emitted.instruction, by simp [Builtin.epilogue]⟩

/-- Control flows through the code of a body. -/
theorem Balanced.flowing {s : Surroundings} {d d' : Nat} {xs : List Step} (h : Balanced s d xs d')
    {o : Nat} {ms : List Marked} (hcode : Assembled o xs ms) :
    Flowing s.isEntry o ms (d' - d) := by
  induction h generalizing o ms with
  | @nil d =>
    cases hcode
    rw [Int.sub_self]
    exact .nil
  | @stretch d d₁ d' xs ys first _ ih =>
    obtain ⟨ms₁, ms₂, rfl, hfirst, hrest⟩ := hcode.of_append
    have hwords : (d' : Int) - d = (d₁ - d) + (d' - d₁) := by omega
    rw [hwords]
    exact (first.flowing s.isEntry hfirst).append (ih hrest)
  | leave _ ih =>
    obtain ⟨ms₁, ms₂, rfl, hleave, hrest⟩ := hcode.of_append
    obtain ⟨heffect, hflow⟩ := flow_leaveSteps hleave
    rw [← Int.zero_add (_ - _)]
    exact Flowing.append ⟨heffect, fun r _ ↦ (hflow [] r).1, fun l r _ ↦ (hflow l r).2⟩ (ih hrest)
  | settle _ ih =>
    cases hcode with
    | settle rest => exact ih rest
  | when _ _ ihbody ih =>
    obtain ⟨ms₁, ms₂, rfl, hfirst, hrest⟩ := hcode.of_cons
    rw [Int.sub_self] at ihbody
    rw [← Int.zero_add (_ - _)]
    refine Flowing.append ?_ (ih hrest)
    cases hfirst with
    | when encoded body_code aimed rest =>
      cases rest
      rw [List.append_nil]
      exact .when encoded (ihbody body_code) aimed
  | choose _ _ _ ihyes ihno ih =>
    obtain ⟨ms₁, ms₂, rfl, hfirst, hrest⟩ := hcode.of_cons
    rw [Int.sub_self] at ihyes ihno
    rw [← Int.zero_add (_ - _)]
    refine Flowing.append ?_ (ih hrest)
    cases hfirst with
    | choose encoded yes_code encoded' start_eq no_code aimed aimed' rest =>
      cases rest
      rw [List.append_nil]
      exact .choose encoded (ihyes yes_code) encoded' start_eq (ihno no_code) aimed aimed'
  | loop test _ _ ihbody ih =>
    obtain ⟨ms₁, ms₂, rfl, hfirst, hrest⟩ := hcode.of_cons
    rw [Int.sub_self] at ihbody
    rw [← Int.zero_add (_ - _)]
    refine Flowing.append ?_ (ih hrest)
    cases hfirst with
    | loop cond_code test_eq encoded body_code stop_eq aimed' encoded' aimed rest =>
      cases rest
      have hcond := test.flowing s.isEntry cond_code
      rw [Int.sub_self] at hcond
      exact .loop hcond test_eq encoded (ihbody body_code) stop_eq aimed' encoded' aimed

/-- Control flows through every routine, from where its frame is not there yet. -/
theorem flow_lowerMethod {s : Surroundings} {m : MethodDecl} {start : Nat} {ms : List Marked}
    (hcode : Assembled start (lowerMethod s m) ms) :
    Begins start (· = .pushReg frameBase) (ms.map Marked.entry) ∧
      Everywhere (Flow s.isEntry) [] (ms.map Marked.entry) [] := by
  rw [lowerMethod, List.append_assoc] at hcode
  obtain ⟨bs₁, _, rfl, hcode₁⟩ := Assembled.of_frame hcode
  obtain ⟨bs₂, ms, rfl, hcode₂⟩ := Assembled.of_frame hcode₁
  have hrest : Assembled (start + bs₁.length + bs₂.length)
      ((lowerStatements s (.ofMethod m) m.body).1 ++ leaveSteps s) ms := hcode₂
  obtain ⟨body, leave, rfl, hbody, hleave⟩ := hrest.of_append
  have hflowing := (balanced_lowerStatements s m.body (.ofMethod m)).flowing hbody
  obtain ⟨-, hflow⟩ := flow_leaveSteps hleave
  have hopens := (hflow [] []).1
  refine ⟨⟨_, _, rfl, rfl, rfl⟩, .saves rfl ⟨_, _, rfl, rfl, rfl⟩, .opens rfl rfl ?_, ?_⟩
  · rw [List.map_append, List.append_assoc]
    exact hflowing.opens _ hopens
  · rw [List.map_append, everywhere_append]
    exact ⟨hflowing.flows _ _ hopens, (hflow _ []).2⟩

end NativeBackend
