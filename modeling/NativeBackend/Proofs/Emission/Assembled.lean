import NativeBackend.Proofs.Emission.Runs

/-!
# Assembled code

What the assembly of steps leaves behind. `Assembled` relates steps to the instructions
they become at an offset, each marked with what it is there for: branches around steps
lead where the steps end, and only the distance of a call and the value of a static
address are left open. `Appends` says how code in the making grows by such
instructions, with the calls that wait and the addresses that are to be filled in.
-/

namespace NativeBackend

open Machine

/-- What an instruction in the code is there for. -/
inductive Purpose
  | plain
  /-- To call a routine by its name. -/
  | call (routine : String)
  /-- To bring the address of a word of the static area into the result register. -/
  | static (offset : Int32)
  deriving DecidableEq, Repr

/-- An instruction in its place in the code, with its purpose. -/
structure Marked where
  entry : Emitted
  purpose : Purpose
  deriving DecidableEq, Repr

/-- The bytes of instructions. -/
def byteCount (es : List Emitted) : Nat := (es.map (·.bytes.length)).sum

/-- The count of bytes of code. -/
def extent (ms : List Marked) : Nat := (ms.map (·.entry.bytes.length)).sum

/-- An instruction that serves its routine alone. -/
def Marked.plain (i : Instruction) (origin : Nat) (bytes : List UInt8) : Marked :=
  ⟨⟨i, origin, bytes⟩, .plain⟩

/-- A call at an offset. -/
def callAt (origin : Nat) (d : Int32) : Emitted := ⟨.call d, origin, 0xE8 :: dwordBytes d⟩

/-- The load of a static address at an offset. -/
def loadAt (origin : Nat) (address : UInt64) : Emitted :=
  ⟨.movAbs .rax address, origin, 0x48 :: 0xB8 :: qwordBytes address⟩

/-- Steps become marked instructions at an offset. -/
inductive Assembled : Nat → List Step → List Marked → Prop
  | nil {o : Nat} : Assembled o [] []
  | emit {o : Nat} {i : Instruction} {bs : List UInt8} {steps : List Step} {ms : List Marked}
      (encoded : i.encode = .ok bs) (rest : Assembled (o + bs.length) steps ms) :
      Assembled o (.emit i :: steps) (.plain i o bs :: ms)
  | frame {o : Nat} {i : Instruction} {bs : List UInt8} {steps : List Step} {ms : List Marked}
      (encoded : i.encode = .ok bs) (rest : Assembled (o + bs.length) steps ms) :
      Assembled o (.frame i :: steps) (.plain i o bs :: ms)
  | call {o : Nat} {name : String} {d : Int32} {steps : List Step} {ms : List Marked}
      (rest : Assembled (o + (callAt o d).bytes.length) steps ms) :
      Assembled o (.call name :: steps) (⟨callAt o d, .call name⟩ :: ms)
  | staticAddress {o : Nat} {offset : Int32} {address : UInt64} {steps : List Step}
      {ms : List Marked} (rest : Assembled (o + (loadAt o address).bytes.length) steps ms) :
      Assembled o (.staticAddress offset :: steps) (⟨loadAt o address, .static offset⟩ :: ms)
  | undeclared {o : Nat} {name : String} {steps : List Step} {ms : List Marked}
      (rest : Assembled o steps ms) : Assembled o (.undeclared name :: steps) ms
  | settle {o live : Nat} {steps : List Step} {ms : List Marked}
      (rest : Assembled o steps ms) : Assembled o (.settle live :: steps) ms
  | when {o : Nat} {d : Int32} {bs : List UInt8} {body steps : List Step} {inner ms : List Marked}
      (encoded : (Instruction.jcc .equal (.near d)).encode = .ok bs)
      (body_code : Assembled (o + bs.length) body inner)
      (aimed : Instruction.jccNear .equal o (o + bs.length + extent inner) =
        .ok (.jcc .equal (.near d)))
      (rest : Assembled (o + bs.length + extent inner) steps ms) :
      Assembled o (.when body :: steps)
        (.plain (.jcc .equal (.near d)) o bs :: (inner ++ ms))
  | choose {o start : Nat} {d d' : Int32} {bs bs' : List UInt8} {yes no steps : List Step}
      {first second ms : List Marked}
      (encoded : (Instruction.jcc .equal (.near d)).encode = .ok bs)
      (yes_code : Assembled (o + bs.length) yes first)
      (encoded' : (Instruction.jmp (.near d')).encode = .ok bs')
      (start_eq : start = o + bs.length + extent first + bs'.length)
      (no_code : Assembled start no second)
      (aimed : Instruction.jccNear .equal o start = .ok (.jcc .equal (.near d)))
      (aimed' : Instruction.jmpNear (o + bs.length + extent first) (start + extent second) =
        .ok (.jmp (.near d')))
      (rest : Assembled (start + extent second) steps ms) :
      Assembled o (.choose yes no :: steps)
        (.plain (.jcc .equal (.near d)) o bs :: (first ++
          .plain (.jmp (.near d')) (o + bs.length + extent first) bs' :: (second ++ ms)))
  | loop {o test stop : Nat} {d : Int32} {j : Instruction} {bs bs' : List UInt8}
      {cond body steps : List Step} {first second ms : List Marked}
      (cond_code : Assembled o cond first)
      (test_eq : test = o + extent first)
      (encoded : (Instruction.jcc .equal (.near d)).encode = .ok bs)
      (body_code : Assembled (test + bs.length) body second)
      (stop_eq : stop = test + bs.length + extent second)
      (aimed' : Instruction.jmpFitted stop o = .ok j)
      (encoded' : j.encode = .ok bs')
      (aimed : Instruction.jccNear .equal test (stop + bs'.length) = .ok (.jcc .equal (.near d)))
      (rest : Assembled (stop + bs'.length) steps ms) :
      Assembled o (.loop cond body :: steps)
        (first ++ .plain (.jcc .equal (.near d)) test bs ::
          (second ++ .plain j stop bs' :: ms))

/-- The call at an index that waits for its routine, if it is one. -/
def Marked.waiting? (t : RoutineTable) (index : Nat) (m : Marked) : Option (String × Site) :=
  match m.purpose with
  | .call name => if (t.start? name).isSome then none else some (name, ⟨index, m.entry.start⟩)
  | _ => none

/-- The load of a static address at an index, if it is one. -/
def Marked.load? (index : Nat) (m : Marked) : Option StaticLoad :=
  match m.purpose with
  | .static offset => some ⟨index, offset⟩
  | _ => none

/-- The calls among marked instructions that wait for their routine. -/
def waitingCalls (t : RoutineTable) (index : Nat) (ms : List Marked) : List (String × Site) :=
  (ms.zipIdx index).filterMap fun (m, k) ↦ m.waiting? t k

/-- The loads of static addresses among marked instructions. -/
def staticLoads (index : Nat) (ms : List Marked) : List StaticLoad :=
  (ms.zipIdx index).filterMap fun (m, k) ↦ m.load? k

/-- How an instruction is emitted first, given the routines that have started. -/
def FirstAimed (t : RoutineTable) (m : Marked) : Prop :=
  match m.purpose with
  | .plain => True
  | .call name =>
    match t.start? name with
    | some target => Instruction.callTo m.entry.start target = .ok m.entry.instruction
    | none => m.entry = callAt m.entry.start 0
  | .static _ => m.entry = loadAt m.entry.start 0

/-- Code in the making grows by marked instructions. -/
structure Appends (a b : Assembly) (ms : List Marked) : Prop where
  entries : b.stream.entries.toList = a.stream.entries.toList ++ ms.map Marked.entry
  size : b.stream.size = a.stream.size + extent ms
  routines : b.routines = a.routines
  entry : b.entry = a.entry
  reporter : b.reporter = a.reporter
  pending : b.pending.waiting =
    a.pending.waiting ++ waitingCalls a.routines a.stream.length ms
  loads : b.staticLoads.toList = a.staticLoads.toList ++ staticLoads a.stream.length ms
  aimed : ∀ m ∈ ms, FirstAimed a.routines m

/-- The instruction of a plain mark. -/
@[simp] theorem Marked.entry_plain (i : Instruction) (o : Nat) (bs : List UInt8) :
    (Marked.plain i o bs).entry = ⟨i, o, bs⟩ := rfl

@[simp] private theorem Marked.purpose_plain (i : Instruction) (o : Nat) (bs : List UInt8) :
    (Marked.plain i o bs).purpose = .plain := rfl

section Extent

variable (m : Marked) (ms ms' : List Marked)

/-- No instructions have no bytes. -/
@[simp] theorem extent_nil : extent [] = 0 := rfl

/-- The bytes of instructions are those of the first and of the rest. -/
@[simp] theorem extent_cons : extent (m :: ms) = m.entry.bytes.length + extent ms := by
  simp [extent]

/-- The bytes of instructions in a row add up. -/
@[simp] theorem extent_append : extent (ms ++ ms') = extent ms + extent ms' := by
  simp [extent]

/-- Marks do not change the count of bytes. -/
theorem extent_eq_byteCount (ms : List Marked) : extent ms = byteCount (ms.map Marked.entry) := by
  rw [extent, byteCount, List.map_map]
  rfl

end Extent

/-- Code that is assembled at an offset is so at an equal one. -/
theorem Assembled.at_offset {o o' : Nat} {xs : List Step} {ms : List Marked}
    (h : Assembled o xs ms) (ho : o = o') : Assembled o' xs ms := ho ▸ h

/-- Steps after other steps become code after theirs. -/
theorem Assembled.append {o : Nat} {xs ys : List Step} {ms ms' : List Marked}
    (h : Assembled o xs ms) (h' : Assembled (o + extent ms) ys ms') :
    Assembled o (xs ++ ys) (ms ++ ms') := by
  induction h with
  | nil => exact h'
  | emit encoded _ ih =>
    apply Assembled.emit encoded (ih _)
    rwa [extent_cons, ← Nat.add_assoc] at h'
  | frame encoded _ ih =>
    apply Assembled.frame encoded (ih _)
    rwa [extent_cons, ← Nat.add_assoc] at h'
  | call _ ih =>
    apply Assembled.call (ih _)
    rwa [extent_cons, ← Nat.add_assoc] at h'
  | staticAddress _ ih =>
    apply Assembled.staticAddress (ih _)
    rwa [extent_cons, ← Nat.add_assoc] at h'
  | undeclared _ ih => exact .undeclared (ih h')
  | settle _ ih => exact .settle (ih h')
  | when encoded body_code aimed _ _ ih =>
    simp only [List.cons_append, List.append_assoc]
    apply Assembled.when encoded body_code aimed (ih _)
    rwa [extent_cons, extent_append, ← Nat.add_assoc, ← Nat.add_assoc] at h'
  | choose encoded yes_code encoded' start_eq no_code aimed aimed' _ _ _ ih =>
    simp only [List.cons_append, List.append_assoc]
    apply Assembled.choose encoded yes_code encoded' start_eq no_code aimed aimed' (ih _)
    apply h'.at_offset
    simp only [extent_cons, extent_append, Marked.plain, start_eq]
    omega
  | loop cond_code test_eq encoded body_code stop_eq aimed' encoded' aimed _ _ _ ih =>
    simp only [List.cons_append, List.append_assoc]
    apply Assembled.loop cond_code test_eq encoded body_code stop_eq aimed' encoded' aimed (ih _)
    apply h'.at_offset
    simp only [extent_cons, extent_append, Marked.plain, test_eq, stop_eq]
    omega

/-- The calls that wait are the first instruction, if it is one, and those of the rest. -/
theorem waitingCalls_cons (t : RoutineTable) (index : Nat) (m : Marked) (ms : List Marked) :
    waitingCalls t index (m :: ms) =
      (m.waiting? t index).toList ++ waitingCalls t (index + 1) ms := by
  simp only [waitingCalls, List.zipIdx_cons, List.filterMap_cons]
  cases m.waiting? t index <;> rfl

/-- The calls that wait in a row are those of both parts. -/
theorem waitingCalls_append (t : RoutineTable) (index : Nat) (ms ms' : List Marked) :
    waitingCalls t index (ms ++ ms') =
      waitingCalls t index ms ++ waitingCalls t (index + ms.length) ms' := by
  rw [waitingCalls, List.zipIdx_append, List.filterMap_append]
  rfl

/-- The loads of static addresses are the first instruction, if it is one, and those of the rest. -/
theorem staticLoads_cons (index : Nat) (m : Marked) (ms : List Marked) :
    staticLoads index (m :: ms) = (m.load? index).toList ++ staticLoads (index + 1) ms := by
  simp only [staticLoads, List.zipIdx_cons, List.filterMap_cons]
  cases m.load? index <;> rfl

/-- The loads of static addresses in a row are those of both parts. -/
theorem staticLoads_append (index : Nat) (ms ms' : List Marked) :
    staticLoads index (ms ++ ms') =
      staticLoads index ms ++ staticLoads (index + ms.length) ms' := by
  rw [staticLoads, List.zipIdx_append, List.filterMap_append]
  rfl

/-- The index of an instruction is the count of those before it. -/
theorem Machine.CodeStream.get?_of_split {s : CodeStream} {before after : List Emitted}
    {e : Emitted} (hs : s.entries.toList = before ++ e :: after) :
    s.get? before.length = some e := by
  rw [CodeStream.get?, ← Array.getElem?_toList, hs]
  simp

/-- What overwriting one instruction of a stream does. -/
theorem Machine.CodeStream.patch_iff {s s' : CodeStream} {before after : List Emitted} {e : Emitted}
    {i : Instruction} (hs : s.entries.toList = before ++ e :: after) :
    s.patch before.length i = .ok s' ↔ ∃ bs, i.encode = .ok bs ∧ bs.length = e.bytes.length ∧
      s' = ⟨(before ++ ⟨i, e.start, bs⟩ :: after).toArray, s.size⟩ := by
  rw [CodeStream.patch, CodeStream.get?_of_split hs]
  cases hi : i.encode with
  | error cause => simp
  | ok bs =>
    have hset : (s.entries.setIfInBounds before.length ⟨i, e.start, bs⟩) =
        (before ++ ⟨i, e.start, bs⟩ :: after).toArray := by
      apply Array.toList_inj.mp
      rw [Array.toList_setIfInBounds, hs]
      simp
    by_cases hl : bs.length = e.bytes.length
    · simp only [hl, if_true, hset, Except.ok.injEq]
      constructor
      · intro h
        exact ⟨bs, rfl, hl, h.symm⟩
      · rintro ⟨bs', rfl, -, h⟩
        exact h.symm
    · simp only [hl, if_false]
      constructor
      · intro h
        cases h
      · rintro ⟨bs', hb, hl', -⟩
        cases hb
        exact (hl hl').elim

/-- What succeeds in two parts succeeds in each. -/
theorem bind_eq_ok {ε α β : Type} {x : Except ε α} {f : α → Except ε β} {v : β}
    (h : x >>= f = .ok v) : ∃ w, x = .ok w ∧ f w = .ok v := by
  cases x with
  | ok w => exact ⟨w, rfl, h⟩
  | error cause => cases h

/-- A distance leads from the end of its branch to the target, both of 63 bits. -/
theorem distance_eq_ok {origin target length : Nat} {d : Int32}
    (h : distance origin target length = .ok d) :
    endOffset origin length < signedLimit ∧ target < signedLimit ∧
      d = Int32.ofInt ((target : Int) - endOffset origin length) ∧
      (endOffset origin length : Int) + d.toInt = target := by
  rw [distance] at h
  split at h
  · cases h
  · split at h
    · cases h
    · split at h
      · cases h
        refine ⟨by omega, by omega, rfl, ?_⟩
        rw [Int32.toInt_ofInt_of_le (by omega) (by omega)]
        omega
      · cases h

/-- A branch over the distance to a target leads there. -/
theorem branchTarget?_of_distance {origin target length : Nat} {d : Int32} {i : Instruction}
    (hd : distance origin target length = .ok d) (hi : i.branch? = some (d.toInt, length)) :
    i.branchTarget? origin = some target := by
  obtain ⟨hend, htarget, -, hsum⟩ := distance_eq_ok hd
  have hrange : endOffset origin length < signedLimit ∧
      0 ≤ (endOffset origin length : Int) + d.toInt ∧
      (endOffset origin length : Int) + d.toInt < signedLimit := by
    omega
  rw [Instruction.branchTarget?, hi]
  change (if _ then some ((endOffset origin length : Int) + d.toInt).toNat else none) = _
  rw [if_pos hrange, hsum, Int.toNat_natCast]

/-- A call that is aimed has the distance to its target. -/
theorem callTo_eq_ok {origin target : Nat} {i : Instruction}
    (h : Instruction.callTo origin target = .ok i) :
    ∃ d, distance origin target Instruction.callLength = .ok d ∧ i = .call d := by
  obtain ⟨d, hd, hi⟩ := bind_eq_ok h
  exact ⟨d, hd, (Except.ok.inj hi).symm⟩

/-- A near conditional jump that is aimed has the distance to its target. -/
theorem jccNear_eq_ok {cond : Condition} {origin target : Nat} {i : Instruction}
    (h : Instruction.jccNear cond origin target = .ok i) :
    ∃ d, distance origin target 6 = .ok d ∧ i = .jcc cond (.near d) := by
  obtain ⟨d, hd, hi⟩ := bind_eq_ok h
  exact ⟨d, hd, (Except.ok.inj hi).symm⟩

/-- A near jump that is aimed has the distance to its target. -/
theorem jmpNear_eq_ok {origin target : Nat} {i : Instruction}
    (h : Instruction.jmpNear origin target = .ok i) :
    ∃ d, distance origin target 5 = .ok d ∧ i = .jmp (.near d) := by
  obtain ⟨d, hd, hi⟩ := bind_eq_ok h
  exact ⟨d, hd, (Except.ok.inj hi).symm⟩

/-- A jump is short if the distance fits a byte, and near otherwise. -/
theorem jmpFitted_eq_ok {origin target : Nat} {i : Instruction}
    (h : Instruction.jmpFitted origin target = .ok i) :
    (∃ d, distance origin target 2 = .ok d ∧ -128 ≤ d.toInt ∧ d.toInt ≤ 127 ∧
      i = .jmp (.short d.toInt8)) ∨ Instruction.jmpNear origin target = .ok i := by
  obtain ⟨d, hd, hi⟩ := bind_eq_ok h
  split at hi
  · next hshort => exact .inl ⟨d, hd, hshort.1, hshort.2, (Except.ok.inj hi).symm⟩
  · exact .inr hi

/-- A distance that one byte holds is the same in one byte. -/
theorem toInt_toInt8_of_le {d : Int32} (hlow : -128 ≤ d.toInt) (hhigh : d.toInt ≤ 127) :
    d.toInt8.toInt = d.toInt := by
  rw [Int32.toInt_toInt8]
  exact Int.bmod_eq_of_le (by omega) (by omega)

/-- A branch that is aimed at a target leads there. -/
theorem branchTarget?_retarget {i i' : Instruction} {origin target : Nat}
    (h : i.retarget origin target = .ok i') : i'.branchTarget? origin = some target := by
  rw [Instruction.retarget.eq_def] at h
  split at h
  · obtain ⟨d, hd, rfl⟩ := jmpNear_eq_ok h
    exact branchTarget?_of_distance hd rfl
  · obtain ⟨d, hd, rfl⟩ := jccNear_eq_ok h
    exact branchTarget?_of_distance hd rfl
  · obtain ⟨d, hd, rfl⟩ := callTo_eq_ok h
    exact branchTarget?_of_distance hd rfl
  · cases h

/-- So does a jump in its shortest form. -/
theorem branchTarget?_jmpFitted {i : Instruction} {origin target : Nat}
    (h : Instruction.jmpFitted origin target = .ok i) :
    (∃ d, i = .jmp d) ∧ i.branchTarget? origin = some target := by
  rcases jmpFitted_eq_ok h with ⟨d, hd, hlow, hhigh, rfl⟩ | hnear
  · refine ⟨⟨_, rfl⟩, branchTarget?_of_distance hd ?_⟩
    rw [← toInt_toInt8_of_le hlow hhigh]
    rfl
  · obtain ⟨d, hd, rfl⟩ := jmpNear_eq_ok hnear
    exact ⟨⟨_, rfl⟩, branchTarget?_of_distance hd rfl⟩

namespace Appends

variable {a b c : Assembly} {ms ms' : List Marked}

private theorem refl (a : Assembly) : Appends a a [] := by
  constructor <;> simp [waitingCalls, staticLoads]

/-- Code grows by as many entries as instructions are appended. -/
theorem length (h : Appends a b ms) : b.stream.length = a.stream.length + ms.length := by
  rw [CodeStream.length, ← Array.length_toList, h.entries]
  simp [CodeStream.length]

/-- What is appended in two parts is appended together. -/
theorem trans (h : Appends a b ms) (h' : Appends b c ms') : Appends a c (ms ++ ms') := by
  refine ⟨?_, ?_, h'.routines.trans h.routines, h'.entry.trans h.entry,
    h'.reporter.trans h.reporter, ?_, ?_, ?_⟩
  · rw [h'.entries, h.entries, List.map_append, List.append_assoc]
  · rw [h'.size, h.size, extent_append, Nat.add_assoc]
  · rw [h'.pending, h.pending, h.routines, h.length, waitingCalls_append, List.append_assoc]
  · rw [h'.loads, h.loads, h.length, staticLoads_append, List.append_assoc]
  · intro m hm
    rcases List.mem_append.mp hm with hm | hm
    · exact h.aimed m hm
    · exact h.routines ▸ h'.aimed m hm

private theorem of_log (log : Array Event) : Appends a { a with log } [] := by
  constructor <;> simp [waitingCalls, staticLoads]

private theorem entries_push (s : CodeStream) (i : Instruction) (bs : List UInt8) :
    (s.push i bs).entries.toList = s.entries.toList ++ [⟨i, s.size, bs⟩] := by
  simp [CodeStream.push]

private theorem push_plain (i : Instruction) (bs : List UInt8) (depth : OperandDepth) :
    Appends a { a with stream := a.stream.push i bs, depth } [.plain i a.stream.size bs] :=
  ⟨entries_push _ _ _, rfl, rfl, rfl, rfl, (List.append_nil _).symm, (List.append_nil _).symm,
    fun _ hm ↦ List.mem_singleton.mp hm ▸ trivial⟩

/-- An instruction whose effect on the operand stack counts. -/
theorem of_emit {i : Instruction} {n : Nat} (h : Runs (Assemble.emit i) a n b) :
    n = a.stream.length ∧
      ∃ bs, i.encode = .ok bs ∧ Appends a b [.plain i a.stream.size bs] := by
  obtain ⟨hn, bs, depth, hbs, rfl⟩ := Assemble.runs_emit h
  exact ⟨hn, bs, hbs, push_plain i bs depth⟩

/-- An instruction that sets up or takes down a frame. -/
theorem of_append {i : Instruction} {n : Nat} (h : Runs (Assemble.append i) a n b) :
    ∃ bs, i.encode = .ok bs ∧ Appends a b [.plain i a.stream.size bs] := by
  obtain ⟨hn, bs, hbs, rfl⟩ := Assemble.runs_append.mp h
  exact ⟨bs, hbs, push_plain i bs a.depth⟩

/-- A branch whose target is still to come. -/
theorem of_forward {i : Instruction} {site : Site} (h : Runs (Assemble.forward i) a site b) :
    site = ⟨a.stream.length, a.stream.size⟩ ∧
      ∃ bs, i.encode = .ok bs ∧ Appends a b [.plain i a.stream.size bs] := by
  rw [Assemble.forward, Assemble.position_bind] at h
  simp only [Runs.bind_iff, Runs.pure_iff] at h
  obtain ⟨n, _, hemit, rfl, rfl⟩ := h
  obtain ⟨rfl, hb⟩ := of_emit hemit
  exact ⟨rfl, hb⟩

/-- A call of a routine, aimed if the routine has started. -/
theorem of_call {name : String} {u : Unit} (h : Runs (Assemble.call name) a u b) :
    ∃ d, Appends a b [⟨callAt a.stream.size d, .call name⟩] := by
  rw [Assemble.call, Assemble.position_bind, Runs.get_bind] at h
  split at h
  · next target ht =>
    split at h
    · next i hi =>
      obtain ⟨_, hemit⟩ := Runs.discard_iff.mp h
      obtain ⟨hn, bs, depth, hbs, rfl⟩ := Assemble.runs_emit hemit
      obtain ⟨d, -, rfl⟩ := callTo_eq_ok hi
      cases hbs
      refine ⟨d, entries_push _ _ _, rfl, rfl, rfl, rfl, ?_, (List.append_nil _).symm, ?_⟩
      · simp [waitingCalls, Marked.waiting?, ht]
      · intro m hm
        rw [List.mem_singleton.mp hm, FirstAimed]
        simp only [ht]
        exact hi
    · exact (Runs.not_throw h).elim
  · next ht =>
    obtain ⟨n, c, hemit, hrecord⟩ := Runs.bind_iff.mp h
    obtain ⟨rfl, bs, depth, hbs, rfl⟩ := Assemble.runs_emit hemit
    cases hbs
    cases Runs.modify_iff.mp hrecord
    refine ⟨0, entries_push _ _ _, rfl, rfl, rfl, rfl, ?_, (List.append_nil _).symm, ?_⟩
    · simp [waitingCalls, Marked.waiting?, ht, PendingCalls.record, callAt]
    · intro m hm
      rw [List.mem_singleton.mp hm, FirstAimed]
      simp only [ht]
      rfl

/-- The address of a word of the static area. -/
theorem of_staticAddress {offset : Int32} {u : Unit}
    (h : Runs (Assemble.staticAddress offset) a u b) :
    Appends a b [⟨loadAt a.stream.size 0, .static offset⟩] := by
  obtain ⟨n, c, hemit, hrecord⟩ := Runs.bind_iff.mp h
  obtain ⟨rfl, bs, depth, hbs, rfl⟩ := Assemble.runs_emit hemit
  cases hbs
  cases Runs.modify_iff.mp hrecord
  refine ⟨entries_push _ _ _, rfl, rfl, rfl, rfl, (List.append_nil _).symm, ?_, ?_⟩
  · simp [staticLoads, Marked.load?]
  · intro m hm
    rw [List.mem_singleton.mp hm]
    rfl

/-- Aiming an earlier branch of the code that was appended. -/
theorem of_retarget {m : Marked} {origin target : Nat} {u : Unit}
    (h : Appends a b (ms ++ m :: ms')) (hm : m.purpose = .plain)
    (hr : Runs (Assemble.retarget ⟨a.stream.length + ms.length, origin⟩ target) b u c) :
    ∃ i bs, m.entry.instruction.retarget origin target = .ok i ∧ i.encode = .ok bs ∧
      bs.length = m.entry.bytes.length ∧ Appends a c (ms ++ .plain i m.entry.start bs :: ms') := by
  obtain ⟨e, i, stream, log, hget, hi, hpatch, rfl⟩ := Assemble.runs_retarget hr
  have hsplit : b.stream.entries.toList =
      (a.stream.entries.toList ++ ms.map Marked.entry) ++ m.entry :: ms'.map Marked.entry := by
    rw [h.entries, List.map_append, List.map_cons, List.append_assoc]
  have hindex : a.stream.length + ms.length =
      (a.stream.entries.toList ++ ms.map Marked.entry).length := by
    simp [CodeStream.length]
  simp only [hindex] at hget hpatch
  rw [CodeStream.get?_of_split hsplit] at hget
  cases hget
  obtain ⟨bs, hbs, hlength, rfl⟩ := (CodeStream.patch_iff hsplit).mp hpatch
  refine ⟨i, bs, hi, hbs, hlength, ?_, ?_, h.routines, h.entry, h.reporter, ?_, ?_, ?_⟩
  · simp [Marked.plain]
  · simp only [h.size, extent_append, extent_cons, Marked.plain, hlength]
  · simp only [h.pending, waitingCalls_append, waitingCalls_cons, Marked.waiting?, hm,
      Marked.purpose_plain]
  · simp only [h.loads, staticLoads_append, staticLoads_cons, Marked.load?, hm,
      Marked.purpose_plain]
  · intro m' hm'
    rcases List.mem_append.mp hm' with hl | hl
    · exact h.aimed m' (List.mem_append_left _ hl)
    · rcases List.mem_cons.mp hl with rfl | hl
      · trivial
      · exact h.aimed m' (List.mem_append_right _ (List.mem_cons_of_mem _ hl))

end Appends

/-- Aiming an earlier branch of the code that was appended at the next instruction. -/
theorem Appends.of_land {a b c : Assembly} {i₀ : Instruction} {o : Nat} {bs : List UInt8}
    (ms ms' : List Marked) {u : Unit} (h : Appends a b (ms ++ .plain i₀ o bs :: ms'))
    (hr : Runs (Assemble.land ⟨a.stream.length + ms.length, o⟩) b u c) :
    ∃ i bs', i₀.retarget o (a.stream.size + extent (ms ++ .plain i₀ o bs :: ms')) = .ok i ∧
      i.encode = .ok bs' ∧ bs'.length = bs.length ∧ Appends a c (ms ++ .plain i o bs' :: ms') := by
  rw [Assemble.land, Assemble.position_bind] at hr
  rw [← h.size]
  exact h.of_retarget rfl hr

/-- A jump back to an earlier target. -/
theorem Appends.of_jumpBack {a b : Assembly} {target : Nat} {u : Unit}
    (h : Runs (Assemble.jumpBack target) a u b) :
    ∃ i bs, Instruction.jmpFitted a.stream.size target = .ok i ∧ i.encode = .ok bs ∧
      Appends a b [.plain i a.stream.size bs] := by
  rw [Assemble.jumpBack, Assemble.position_bind] at h
  split at h
  · next i hi =>
    obtain ⟨_, hemit⟩ := Runs.discard_iff.mp h
    obtain ⟨-, bs, hbs, hb⟩ := Appends.of_emit hemit
    exact ⟨i, bs, hi, hbs, hb⟩
  · exact (Runs.not_throw h).elim

private theorem assembled_when {a b : Assembly} {body : List Step} {u : Unit}
    (ih : ∀ {a b : Assembly} {u : Unit}, Runs (Assemble.steps body) a u b →
      ∃ ms, Appends a b ms ∧ Assembled a.stream.size body ms)
    (h : Runs (Assemble.step (.when body)) a u b) :
    ∃ ms, Appends a b ms ∧ Assembled a.stream.size [.when body] ms := by
  simp only [Assemble.step, Runs.bind_iff] at h
  obtain ⟨site, a₁, hskip, _, a₂, hbody, hland⟩ := h
  obtain ⟨rfl, bs, hbs, h₁⟩ := Appends.of_forward hskip
  obtain ⟨ms, h₂, hcode⟩ := ih hbody
  obtain ⟨i, bs', hi, hbs', hlength, h₃⟩ := Appends.of_land [] ms (h₁.trans h₂) hland
  obtain ⟨d, -, rfl⟩ := jccNear_eq_ok hi
  refine ⟨_, h₃, ?_⟩
  rw [← ms.append_nil]
  simp only [h₁.size, List.nil_append, extent_cons, extent_nil, Marked.plain, ← hlength,
    Nat.add_zero, ← Nat.add_assoc] at hcode hi
  exact .when hbs' hcode hi .nil

private theorem assembled_choose {a b : Assembly} {yes no : List Step} {u : Unit}
    (ihyes : ∀ {a b : Assembly} {u : Unit}, Runs (Assemble.steps yes) a u b →
      ∃ ms, Appends a b ms ∧ Assembled a.stream.size yes ms)
    (ihno : ∀ {a b : Assembly} {u : Unit}, Runs (Assemble.steps no) a u b →
      ∃ ms, Appends a b ms ∧ Assembled a.stream.size no ms)
    (h : Runs (Assemble.step (.choose yes no)) a u b) :
    ∃ ms, Appends a b ms ∧ Assembled a.stream.size [.choose yes no] ms := by
  simp only [Assemble.step, Runs.bind_iff] at h
  obtain ⟨site, a₁, hskip, _, a₂, hyes, site', a₃, hleave, _, a₄, hland, _, a₅, hno, hland'⟩ := h
  obtain ⟨rfl, bs, hbs, h₁⟩ := Appends.of_forward hskip
  obtain ⟨first, h₂, hfirst⟩ := ihyes hyes
  obtain ⟨rfl, cs, hcs, h₃⟩ := Appends.of_forward hleave
  have hindex : a₂.stream.length = a.stream.length + (first.length + 1) := (h₁.trans h₂).length
  let leave := Marked.plain (.jmp (.near 0)) a₂.stream.size cs
  have h₁₃ : Appends a a₃ ([] ++ .plain (.jcc .equal (.near 0)) a.stream.size bs ::
    (first ++ [leave])) := h₁.trans (h₂.trans h₃)
  obtain ⟨i, bs', hi, hbs', hlength, h₄⟩ := Appends.of_land [] (first ++ [leave]) h₁₃ hland
  obtain ⟨d, -, rfl⟩ := jccNear_eq_ok hi
  obtain ⟨second, h₅, hsecond⟩ := ihno hno
  let skip := Marked.plain (.jcc .equal (.near d)) a.stream.size bs'
  have h₆ : Appends a a₅ ((skip :: first) ++ leave :: second) := by
    simpa using h₄.trans h₅
  rw [hindex] at hland'
  obtain ⟨j, cs', hj, hcs', hlength', h₇⟩ := Appends.of_land (skip :: first) second h₆ hland'
  obtain ⟨d', -, rfl⟩ := jmpNear_eq_ok hj
  have hsize₁ : a₁.stream.size = a.stream.size + bs'.length := by rw [h₁.size, hlength]; simp
  have hsize₂ : a₂.stream.size = a.stream.size + bs'.length + extent first := by
    rw [h₂.size, hsize₁]
  have hsize₃ : a.stream.size + extent ([] ++ .plain (.jcc .equal (.near 0)) a.stream.size bs ::
      (first ++ [leave])) = a₂.stream.size + cs'.length := by
    rw [hsize₂, hlength, hlength']
    simp [leave, Nat.add_assoc]
  have hsize₄ : a₄.stream.size = a₂.stream.size + cs'.length := by
    rw [← hsize₃, h₄.size]
    simp [hlength]
  have hsize₅ : a.stream.size + extent ((skip :: first) ++ leave :: second) =
      a₂.stream.size + cs'.length + extent second := by
    rw [hsize₂, hlength']
    simp [skip, leave, Nat.add_assoc]
  rw [hsize₃] at hi
  rw [hsize₅] at hj
  rw [hsize₁] at hfirst
  rw [hsize₄] at hsecond
  rw [hsize₂] at hi hj hsecond h₇
  have hcode := Assembled.choose hbs' hfirst hcs' rfl hsecond hi hj .nil
  rw [List.append_nil] at hcode
  exact ⟨_, h₇, hcode⟩

private theorem assembled_loop {a b : Assembly} {cond body : List Step} {u : Unit}
    (ihcond : ∀ {a b : Assembly} {u : Unit}, Runs (Assemble.steps cond) a u b →
      ∃ ms, Appends a b ms ∧ Assembled a.stream.size cond ms)
    (ihbody : ∀ {a b : Assembly} {u : Unit}, Runs (Assemble.steps body) a u b →
      ∃ ms, Appends a b ms ∧ Assembled a.stream.size body ms)
    (h : Runs (Assemble.step (.loop cond body)) a u b) :
    ∃ ms, Appends a b ms ∧ Assembled a.stream.size [.loop cond body] ms := by
  rw [Assemble.step, Assemble.position_bind] at h
  simp only [Runs.bind_iff] at h
  obtain ⟨_, a₁, hcond, site, a₂, hexit, _, a₃, hbody, _, a₄, hback, hland⟩ := h
  obtain ⟨first, h₁, hfirst⟩ := ihcond hcond
  obtain ⟨rfl, bs, hbs, h₂⟩ := Appends.of_forward hexit
  obtain ⟨second, h₃, hsecond⟩ := ihbody hbody
  obtain ⟨j, cs, hj, hcs, h₄⟩ := Appends.of_jumpBack hback
  let back := Marked.plain j a₃.stream.size cs
  have h₁₄ : Appends a a₄ (first ++ .plain (.jcc .equal (.near 0)) a₁.stream.size bs ::
    (second ++ [back])) := h₁.trans (h₂.trans (h₃.trans h₄))
  rw [h₁.length] at hland
  obtain ⟨i, bs', hi, hbs', hlength, h₅⟩ := Appends.of_land first (second ++ [back]) h₁₄ hland
  obtain ⟨d, -, rfl⟩ := jccNear_eq_ok hi
  have hsize₂ : a₂.stream.size = a₁.stream.size + bs'.length := by rw [h₂.size, hlength]; simp
  have hsize₃ : a₃.stream.size = a₁.stream.size + bs'.length + extent second := by
    rw [h₃.size, hsize₂]
  have hsize₄ : a.stream.size + extent (first ++ .plain (.jcc .equal (.near 0)) a₁.stream.size bs ::
      (second ++ [back])) = a₃.stream.size + cs.length := by
    rw [hsize₃, h₁.size, hlength]
    simp [back, Nat.add_assoc]
  rw [hsize₄] at hi
  rw [hsize₂] at hsecond
  have hcode := Assembled.loop hfirst h₁.size hbs' hsecond hsize₃ hj hcs hi .nil
  exact ⟨_, h₅, hcode⟩

mutual

/-- What a step becomes. -/
theorem assembled_step {a b : Assembly} {u : Unit} (s : Step) (h : Runs (Assemble.step s) a u b) :
    ∃ ms, Appends a b ms ∧ Assembled a.stream.size [s] ms := by
  match s with
  | .emit i =>
    rw [Assemble.step, Runs.discard_iff] at h
    obtain ⟨_, h⟩ := h
    obtain ⟨-, bs, hbs, hb⟩ := Appends.of_emit h
    exact ⟨_, hb, .emit hbs .nil⟩
  | .frame i =>
    rw [Assemble.step, Runs.discard_iff] at h
    obtain ⟨_, h⟩ := h
    obtain ⟨bs, hbs, hb⟩ := Appends.of_append h
    exact ⟨_, hb, .frame hbs .nil⟩
  | .call name =>
    obtain ⟨d, hb⟩ := Appends.of_call h
    exact ⟨_, hb, .call .nil⟩
  | .staticAddress offset =>
    exact ⟨_, Appends.of_staticAddress h, .staticAddress .nil⟩
  | .undeclared name =>
    cases Runs.modify_iff.mp h
    exact ⟨[], .of_log _, .undeclared .nil⟩
  | .refuse fault => exact (Runs.not_throw h).elim
  | .settle live =>
    cases Assemble.runs_settle h
    exact ⟨[], .refl a, .settle .nil⟩
  | .when body => exact assembled_when (assembled_steps body) h
  | .choose yes no => exact assembled_choose (assembled_steps yes) (assembled_steps no) h
  | .loop cond body => exact assembled_loop (assembled_steps cond) (assembled_steps body) h

/-- What steps become. -/
theorem assembled_steps {a b : Assembly} {u : Unit} (ss : List Step)
    (h : Runs (Assemble.steps ss) a u b) :
    ∃ ms, Appends a b ms ∧ Assembled a.stream.size ss ms := by
  match ss with
  | [] =>
    obtain ⟨-, rfl⟩ := Runs.pure_iff.mp h
    exact ⟨[], .refl _, .nil⟩
  | s :: ss =>
    obtain ⟨_, c, hs, hss⟩ := Runs.bind_iff.mp h
    obtain ⟨ms, hms, hcode⟩ := assembled_step s hs
    obtain ⟨ms', hms', hcode'⟩ := assembled_steps ss hss
    rw [hms.size] at hcode'
    exact ⟨ms ++ ms', hms.trans hms', hcode.append hcode'⟩

end

end NativeBackend
