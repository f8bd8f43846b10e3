import NativeBackend.Proofs.ControlFlow.Flow
import NativeBackend.Proofs.Linking.CallSites

/-!
# The tracked depth of the operand stack

While a routine is emitted, the count of words on its operand stack is tracked. Through all
stages of the routine that count is the sum of what the instructions since its start do to
the operand stack, and the code that is emitted later does not change the sum. So the
tracked count can be read off the final code.
-/

namespace NativeBackend

open Machine NativeBackend.Tree Convention

/-- Steps that are counted while they are carried out as in the finished code: what opens or closes
a frame is not. Nothing is asked of what stands behind a refusal. -/
inductive Counted : List Step → Prop
  | nil : Counted []
  | emit {i : Instruction} {xs : List Step} (effect : i.operandEffect = i.stackEffect)
      (rest : Counted xs) : Counted (.emit i :: xs)
  | frame {i : Instruction} {xs : List Step} (effect : i.operandEffect = 0)
      (rest : Counted xs) : Counted (.frame i :: xs)
  | call {name : String} {xs : List Step} (rest : Counted xs) : Counted (.call name :: xs)
  | staticAddress {offset : Int32} {xs : List Step} (rest : Counted xs) :
      Counted (.staticAddress offset :: xs)
  | undeclared {name : String} {xs : List Step} (rest : Counted xs) :
      Counted (.undeclared name :: xs)
  | refuse {fault : Fault} {xs : List Step} : Counted (.refuse fault :: xs)
  | settle {live : Nat} {xs : List Step} (rest : Counted xs) : Counted (.settle live :: xs)
  | when {body xs : List Step} (inner : Counted body) (rest : Counted xs) :
      Counted (.when body :: xs)
  | choose {yes no xs : List Step} (first : Counted yes) (second : Counted no)
      (rest : Counted xs) : Counted (.choose yes no :: xs)
  | loop {cond body xs : List Step} (test : Counted cond) (inner : Counted body)
      (rest : Counted xs) : Counted (.loop cond body :: xs)

namespace Counted

variable {xs ys : List Step}

private theorem append (h : Counted xs) (h' : Counted ys) : Counted (xs ++ ys) := by
  induction h with
  | nil => exact h'
  | emit effect _ ih => exact .emit effect ih
  | frame effect _ ih => exact .frame effect ih
  | call _ ih => exact .call ih
  | staticAddress _ ih => exact .staticAddress ih
  | undeclared _ ih => exact .undeclared ih
  | refuse => exact .refuse
  | settle _ ih => exact .settle ih
  | when inner _ _ ih => exact .when inner ih
  | choose first second _ _ _ ih => exact .choose first second ih
  | loop test inner _ _ _ ih => exact .loop test inner ih

private theorem left (h : Counted (xs ++ ys)) : Counted xs := by
  induction xs with
  | nil => exact .nil
  | cons x xs ih =>
    cases h with
    | emit effect rest => exact .emit effect (ih rest)
    | frame effect rest => exact .frame effect (ih rest)
    | call rest => exact .call (ih rest)
    | staticAddress rest => exact .staticAddress (ih rest)
    | undeclared rest => exact .undeclared (ih rest)
    | refuse => exact .refuse
    | settle rest => exact .settle (ih rest)
    | when inner rest => exact .when inner (ih rest)
    | choose first second rest => exact .choose first second (ih rest)
    | loop test inner rest => exact .loop test inner (ih rest)

/-- Steps behind ones that are carried out are counted too. -/
theorem right {a b : Assembly} (h : Counted (xs ++ ys))
    (hrun : Runs (Assemble.steps xs) a () b) : Counted ys := by
  induction xs generalizing a with
  | nil => exact h
  | cons x xs ih =>
    obtain ⟨_, c, hfirst, hrest⟩ := Runs.bind_iff.mp hrun
    cases h with
    | refuse => exact (Runs.not_throw hfirst).elim
    | emit _ rest | frame _ rest | call rest | staticAddress rest | undeclared rest
    | settle rest | when _ rest | choose _ _ rest | loop _ _ rest => exact ih rest hrest

end Counted

private theorem Stretch.counted {d d' : Nat} {xs : List Step} (h : Stretch d xs d') : Counted xs :=
  by
  induction h with
  | nil => exact .nil
  | emit keeps _ _ ih => exact .emit (operandEffect_of_keepsFrame keeps) ih
  | call _ ih => exact .call ih
  | staticAddress _ ih => exact .staticAddress ih
  | undeclared _ ih => exact .undeclared ih
  | refuse => exact .refuse

private theorem counted_leaveSteps (s : Surroundings) : Counted (leaveSteps s) := by
  rw [leaveSteps]
  split <;> exact .frame rfl (.frame rfl (.frame rfl .nil))

private theorem Balanced.counted {s : Surroundings} {d d' : Nat} {xs : List Step}
    (h : Balanced s d xs d') : Counted xs := by
  induction h with
  | nil => exact .nil
  | stretch first _ ih => exact first.counted.append ih
  | leave _ ih => exact (counted_leaveSteps s).append ih
  | settle _ ih => exact .settle ih
  | when _ _ ihbody ih => exact .when ihbody ih
  | choose _ _ _ ihyes ihno ih => exact .choose ihyes ihno ih
  | loop test _ _ ihbody ih => exact .loop test.counted ihbody ih

/-- The steps of a whole routine are counted. -/
theorem counted_lowerMethod (s : Surroundings) (m : MethodDecl) : Counted (lowerMethod s m) := by
  have hopen : Counted (Builtin.prologue.map .frame) := .frame rfl (.frame rfl .nil)
  exact (hopen.append (balanced_lowerStatements s m.body (.ofMethod m)).counted).append
    (counted_leaveSteps s)

/-- The steps of every stage are. -/
theorem Stage.counted {p : Program} {entry : Routine} {j : Nat} {xs : List Step} {a b : Assembly}
    (h : Stage p entry j xs a b) : Counted xs := by
  induction h with
  | routine _ _ => exact counted_lowerMethod _ _
  | first _ _ _ ih => exact ih.left
  | last _ before _ ih => exact ih.right before
  | when _ _ ih =>
    cases ih with
    | when inner _ => exact inner
  | yes _ _ ih =>
    cases ih with
    | choose first _ _ => exact first
  | no _ _ ih =>
    cases ih with
    | choose _ second _ => exact second
  | test _ _ ih =>
    cases ih with
    | loop test _ _ => exact test
  | loop _ _ ih =>
    cases ih with
    | loop _ inner _ => exact inner

/-- Instructions that are written with an operand that is not known yet leave the operand stack as
it is. -/
theorem Revised.operandEffect {e e' : Emitted} (h : Revised e e') :
    e'.instruction.operandEffect = e.instruction.operandEffect := by
  have hopen {i : Instruction} (hi : i.isPatchable = true) : i.operandEffect = 0 := by
    cases i with
    | jmp | jcc | call | movAbs => rfl
    | _ => cases hi
  rcases h.form with rfl | ⟨hold, hnew⟩
  · rfl
  · rw [hopen hold, hopen hnew]

/-- What does not change when an instruction is revised can be read off the code that evolves. -/
theorem Evolves.map_take {β : Type} {low high : Nat} {s t : CodeStream}
    (h : Evolves low high s t) {f : Emitted → β} (hf : ∀ e e', Revised e e' → f e' = f e) :
    (t.entries.toList.take s.length).map f = s.entries.toList.map f := by
  refine List.ext_getElem? fun k ↦ ?_
  rw [List.getElem?_map, List.getElem?_map, List.getElem?_take, Array.getElem?_toList,
    Array.getElem?_toList]
  cases hk : s.entries[k]? with
  | some e =>
    obtain ⟨e', he', hrevised, -⟩ := h k e hk
    have hlt : k < s.length := (Array.getElem?_eq_some_iff.mp hk).1
    have he' : t.entries[k]? = some e' := he'
    rw [if_pos hlt, he']
    exact congrArg some (hf e e' hrevised)
  | none =>
    have hge : ¬k < s.length := Nat.not_lt.mpr (Array.getElem?_eq_none_iff.mp hk)
    rw [if_neg hge]

/-- The words that are tracked are those the code puts on the operand stack, counted from some
point, and the code has the bytes of its instructions. -/
structure Tracking (n : Int) (a : Assembly) : Prop where
  words : (a.depth.words : Int) = n + operandEffect a.stream.entries.toList
  size : a.stream.size = byteCount a.stream.entries.toList

namespace Tracking

variable {n : Int} {a b : Assembly} {i : Instruction}

private theorem congr (h : Tracking n a) (hs : b.stream = a.stream) (hd : b.depth = a.depth) :
    Tracking n b := by
  obtain ⟨hwords, hsize⟩ := h
  rw [← hs, ← hd] at hwords
  rw [← hs] at hsize
  exact ⟨hwords, hsize⟩

private theorem words_of_adjust {effect : Int} {u : Unit}
    (h : Runs (Assemble.adjust effect) a u b) :
    (b.depth.words : Int) = a.depth.words + effect ∧ b.stream = a.stream := by
  simp only [Assemble.adjust, Runs.get_bind] at h
  split at h
  · cases Runs.modify_iff.mp h
    refine ⟨?_, rfl⟩
    change ((a.depth.words + effect.toNat : Nat) : Int) = _
    omega
  · split at h
    · next depth hdepth =>
      cases Runs.modify_iff.mp h
      refine ⟨?_, rfl⟩
      simp only [OperandDepth.pop?] at hdepth
      split at hdepth
      · cases hdepth
        change ((a.depth.words - effect.natAbs : Nat) : Int) = _
        omega
      · cases hdepth
    · exact (Runs.not_throw h).elim

private theorem push {bs : List UInt8} {effect : Int} (h : Tracking n a)
    (hi : i.operandEffect = effect) (hs : b.stream = a.stream.push i bs)
    (hd : (b.depth.words : Int) = a.depth.words + effect) : Tracking n b := by
  have hentries : b.stream.entries.toList =
      a.stream.entries.toList ++ [⟨i, a.stream.size, bs⟩] := by
    rw [hs]
    exact Array.toList_push
  constructor
  · rw [hd, h.words, hentries, operandEffect_append, ← hi]
    simp [Int.add_assoc]
  · rw [hentries, hs, byteCount, List.map_append, List.sum_append]
    change a.stream.size + bs.length = _
    rw [h.size]
    simp [byteCount]

/-- An instruction that is counted. -/
theorem emit {k : Nat} (h : Tracking n a) (hi : i.operandEffect = i.stackEffect)
    (hr : Runs (Assemble.emit i) a k b) : Tracking n b := by
  simp only [Assemble.emit, Runs.bind_iff, Runs.pure_iff] at hr
  obtain ⟨_, c, happend, _, _, hadjust, rfl, rfl⟩ := hr
  obtain ⟨-, bs, -, rfl⟩ := Assemble.runs_append.mp happend
  obtain ⟨hwords, hstream⟩ := words_of_adjust hadjust
  exact h.push hi hstream hwords

/-- An instruction that is not counted. -/
theorem frame {k : Nat} (h : Tracking n a) (hi : i.operandEffect = 0)
    (hr : Runs (Assemble.append i) a k b) : Tracking n b := by
  obtain ⟨-, bs, -, rfl⟩ := Assemble.runs_append.mp hr
  exact h.push hi rfl (Int.add_zero _).symm

private theorem forward {site : Site} (h : Tracking n a) (hi : i.operandEffect = i.stackEffect)
    (hr : Runs (Assemble.forward i) a site b) : Tracking n b := by
  rw [Assemble.forward, Assemble.position_bind] at hr
  simp only [Runs.bind_iff, Runs.pure_iff] at hr
  obtain ⟨k, c, hemit, -, rfl⟩ := hr
  exact h.emit hi hemit

private theorem land {site : Site} (h : Tracking n a) (hr : Runs (Assemble.land site) a () b) :
    Tracking n b := by
  have hevolves : Evolves 0 0 a.stream b.stream := .of_land hr (.inr (Nat.zero_le _))
  obtain ⟨hlength, hsize⟩ := length_of_land hr
  have hall : b.stream.entries.toList.take a.stream.length = b.stream.entries.toList := by
    rw [← hlength]
    exact List.take_length
  have hdepth : b.depth = a.depth := by
    rw [Assemble.land, Assemble.position_bind] at hr
    obtain ⟨e, i, stream, log, -, -, -, rfl⟩ := Assemble.runs_retarget hr
    rfl
  have heffect := hevolves.map_take fun e e' h ↦ h.operandEffect
  have hbytes := hevolves.map_take (f := fun e ↦ e.bytes.length) fun e e' h ↦ h.length
  rw [hall] at heffect hbytes
  constructor
  · rw [hdepth, h.words, operandEffect, operandEffect, heffect]
  · rw [hsize, h.size, byteCount, byteCount, hbytes]

private theorem jumpBack {target : Nat} (h : Tracking n a)
    (hr : Runs (Assemble.jumpBack target) a () b) : Tracking n b := by
  rw [Assemble.jumpBack, Assemble.position_bind] at hr
  split at hr
  · next i hi =>
    obtain ⟨⟨d, rfl⟩, -⟩ := branchTarget?_jmpFitted hi
    obtain ⟨k, hemit⟩ := Runs.discard_iff.mp hr
    exact h.emit rfl hemit
  · exact (Runs.not_throw hr).elim

private theorem call {name : String} (h : Tracking n a) (hr : Runs (Assemble.call name) a () b) :
    Tracking n b := by
  rw [Assemble.call, Assemble.position_bind, Runs.get_bind] at hr
  split at hr
  · split at hr
    · next i hi =>
      obtain ⟨d, -, rfl⟩ := callTo_eq_ok hi
      obtain ⟨k, hemit⟩ := Runs.discard_iff.mp hr
      exact h.emit rfl hemit
    · exact (Runs.not_throw hr).elim
  · obtain ⟨k, c, hemit, hrecord⟩ := Runs.bind_iff.mp hr
    cases Runs.modify_iff.mp hrecord
    exact (h.emit rfl hemit).congr rfl rfl

private theorem staticAddress {offset : Int32} (h : Tracking n a)
    (hr : Runs (Assemble.staticAddress offset) a () b) : Tracking n b := by
  obtain ⟨k, c, hemit, hrecord⟩ := Runs.bind_iff.mp hr
  cases Runs.modify_iff.mp hrecord
  exact (h.emit rfl hemit).congr rfl rfl

end Tracking

/-- Steps that are counted keep track. -/
theorem Counted.tracking {n : Int} {xs : List Step} (h : Counted xs) {a b : Assembly}
    (ha : Tracking n a) (hr : Runs (Assemble.steps xs) a () b) : Tracking n b := by
  induction h generalizing a b with
  | nil =>
    cases (Runs.pure_iff.mp hr).2
    exact ha
  | emit effect _ ih =>
    obtain ⟨_, c, hfirst, hrest⟩ := Runs.bind_iff.mp hr
    obtain ⟨k, hemit⟩ := Runs.discard_iff.mp hfirst
    exact ih (ha.emit effect hemit) hrest
  | frame effect _ ih =>
    obtain ⟨_, c, hfirst, hrest⟩ := Runs.bind_iff.mp hr
    obtain ⟨k, happend⟩ := Runs.discard_iff.mp hfirst
    exact ih (ha.frame effect happend) hrest
  | call _ ih =>
    obtain ⟨_, c, hfirst, hrest⟩ := Runs.bind_iff.mp hr
    exact ih (ha.call hfirst) hrest
  | staticAddress _ ih =>
    obtain ⟨_, c, hfirst, hrest⟩ := Runs.bind_iff.mp hr
    exact ih (ha.staticAddress hfirst) hrest
  | undeclared _ ih =>
    obtain ⟨_, c, hfirst, hrest⟩ := Runs.bind_iff.mp hr
    cases Runs.modify_iff.mp hfirst
    refine ih ?_ hrest
    exact ha.congr rfl rfl
  | refuse =>
    obtain ⟨_, c, hfirst, -⟩ := Runs.bind_iff.mp hr
    exact (Runs.not_throw hfirst).elim
  | settle _ ih =>
    obtain ⟨_, c, hfirst, hrest⟩ := Runs.bind_iff.mp hr
    cases Assemble.runs_settle hfirst
    exact ih ha hrest
  | when _ _ ihbody ih =>
    obtain ⟨_, c, hfirst, hrest⟩ := Runs.bind_iff.mp hr
    obtain ⟨a₁, a₂, _, hskip, hbody, hland⟩ := exists_runsWhen (runs_steps_singleton.mpr hfirst)
    exact ih ((ihbody (ha.forward rfl hskip) hbody).land hland) hrest
  | choose _ _ _ ihyes ihno ih =>
    obtain ⟨_, c, hfirst, hrest⟩ := Runs.bind_iff.mp hr
    obtain ⟨a₁, a₂, a₃, a₄, a₅, _, _, hskip, hyes, hleave, hland, hno, hland'⟩ :=
      exists_runsChoose (runs_steps_singleton.mpr hfirst)
    have hfirst := (ihyes (ha.forward rfl hskip) hyes).forward rfl hleave
    exact ih ((ihno (hfirst.land hland) hno).land hland') hrest
  | loop _ _ _ ihtest ihbody ih =>
    obtain ⟨_, c, hfirst, hrest⟩ := Runs.bind_iff.mp hr
    obtain ⟨a₁, a₂, a₃, a₄, _, hcond, hexit, hbody, hback, hland⟩ :=
      exists_runsLoop (runs_steps_singleton.mpr hfirst)
    have hinside := ihbody ((ihtest ha hcond).forward rfl hexit) hbody
    exact ih ((hinside.jumpBack hback).land hland) hrest

section Stages

variable {p : Program} {entry : Routine} {j : Nat} {r : Routine} {xs : List Step} {a b : Assembly}

/-- Tracking begins anew with every routine. -/
theorem Started.tracking (h : Started p entry j r a) :
    Tracking (-operandEffect a.stream.entries.toList) a := by
  obtain @⟨a₀, a₁, a₂, start, -, builtins, earlier, started⟩ := h
  obtain ⟨parts₀, h₀, -⟩ := Built.empty.builtins builtins
  obtain ⟨parts₁, h₁, -⟩ := h₀.routines earlier
  obtain ⟨-, f, hf, h₂⟩ := h₁.startRoutine started
  refine ⟨(Int.add_left_neg _).symm, ?_⟩
  change _ = byteCount a₂.stream.entries.toList
  rw [h₂.entries, ← extent_eq_byteCount]
  exact h₂.size

/-- Both ends of a stage keep track from where its routine began. -/
theorem Stage.tracking (h : Stage p entry j xs a b) :
    ∃ r a₀, Started p entry j r a₀ ∧ a₀.stream.length ≤ a.stream.length ∧
      Tracking (-operandEffect a₀.stream.entries.toList) a ∧
      Tracking (-operandEffect a₀.stream.entries.toList) b := by
  have hcounted := h.counted
  have hruns := h.runs
  suffices hfirst : ∃ r a₀, Started p entry j r a₀ ∧ a₀.stream.length ≤ a.stream.length ∧
      Tracking (-operandEffect a₀.stream.entries.toList) a by
    obtain ⟨r, a₀, hstarted, hle, ha⟩ := hfirst
    exact ⟨r, a₀, hstarted, hle, ha, hcounted.tracking ha hruns⟩
  clear hcounted hruns
  induction h with
  | routine begins _ => exact ⟨_, _, begins, le_rfl, begins.tracking⟩
  | first _ _ _ ih => exact ih
  | last whole before _ ih =>
    obtain ⟨r, a₀, hstarted, hle, ha⟩ := ih
    exact ⟨r, a₀, hstarted, hle.trans (length_le_of_steps before),
      whole.counted.left.tracking ha before⟩
  | when _ run ih =>
    obtain ⟨r, a₀, hstarted, hle, ha⟩ := ih
    obtain ⟨skip, hskip, -, -⟩ := run
    obtain ⟨-, hlength⟩ := length_of_forward hskip
    exact ⟨r, a₀, hstarted, by omega, ha.forward rfl hskip⟩
  | yes _ run ih =>
    obtain ⟨r, a₀, hstarted, hle, ha⟩ := ih
    obtain ⟨skip, leave, hskip, -⟩ := run
    obtain ⟨-, hlength⟩ := length_of_forward hskip
    exact ⟨r, a₀, hstarted, by omega, ha.forward rfl hskip⟩
  | no whole run ih =>
    obtain ⟨r, a₀, hstarted, hle, ha⟩ := ih
    have hyes := (whole.yes run).counted
    obtain ⟨skip, leave, hskip, hruns, hleave, hland, -⟩ := run
    obtain ⟨-, h₁⟩ := length_of_forward hskip
    have h₂ := length_le_of_steps hruns
    obtain ⟨-, h₃⟩ := length_of_forward hleave
    obtain ⟨h₄, -⟩ := length_of_land hland
    have hfirst := hyes.tracking (ha.forward rfl hskip) hruns
    exact ⟨r, a₀, hstarted, by omega, (hfirst.forward rfl hleave).land hland⟩
  | test _ _ ih => exact ih
  | loop whole run ih =>
    obtain ⟨r, a₀, hstarted, hle, ha⟩ := ih
    have htest := (whole.test run).counted
    obtain ⟨exit, hcond, hexit, -⟩ := run
    have h₁ := length_le_of_steps hcond
    obtain ⟨-, h₂⟩ := length_of_forward hexit
    exact ⟨r, a₀, hstarted, by omega, (htest.tracking ha hcond).forward rfl hexit⟩

end Stages

/-- The words on the operand stack at an offset of finished code, counted from the start of a
routine. -/
def Code.depthFrom (code : Code) (start offset : Nat) : Int :=
  operandEffect (code.stream.entries.toList.filter fun e ↦
    decide (start ≤ e.start) && decide (e.start < offset))

section FinishedCode

variable {code : Code} {base : UInt64} {parts : List Part} {o : Nat} {ms ms' ms'' : List Marked}

/-- Both parts of laid instructions are laid. -/
theorem Laid.of_append (h : Laid o (ms ++ ms')) : Laid o ms ∧ Laid (o + extent ms) ms' := by
  induction ms generalizing o with
  | nil => exact ⟨trivial, h⟩
  | cons m ms ih =>
    obtain ⟨hstart, hpos, hrest⟩ := h
    obtain ⟨hfirst, hlast⟩ := ih hrest
    refine ⟨⟨hstart, hpos, hfirst⟩, ?_⟩
    rwa [extent_cons, ← Nat.add_assoc, ← hstart]

/-- The instructions between two offsets of code. -/
theorem Laid.filter_between (h : Laid o (ms ++ (ms' ++ ms''))) :
    ((ms ++ (ms' ++ ms'')).map Marked.entry).filter (fun e ↦ decide (o + extent ms ≤ e.start) &&
      decide (e.start < o + extent ms + extent ms')) = ms'.map Marked.entry := by
  obtain ⟨hfirst, hrest⟩ := h.of_append
  obtain ⟨hmiddle, hlast⟩ := hrest.of_append
  rw [List.filter_map, List.filter_append, List.filter_append, List.filter_eq_nil_iff.mpr,
    List.filter_eq_self.mpr, List.filter_eq_nil_iff.mpr]
  · simp
  · intro m hm
    have hge := hlast.start_ge m hm
    simp only [Function.comp, Bool.and_eq_true, decide_eq_true_eq]
    omega
  · intro m hm
    have hge := hmiddle.start_ge m hm
    have hlt := hmiddle.start_lt m hm
    simp only [Function.comp, Bool.and_eq_true, decide_eq_true_eq]
    exact ⟨hge, hlt⟩
  · intro m hm
    have hlt := hfirst.start_lt m hm
    simp only [Function.comp, Bool.and_eq_true, decide_eq_true_eq]
    omega

/-- The words that a part of finished code adds to the operand stack. -/
theorem Linked.depthFrom_eq (h : Linked code base parts)
    (hsplit : allMarks parts = ms ++ (ms' ++ ms'')) :
    code.depthFrom (extent ms) (extent ms + extent ms') = operandEffect (ms'.map Marked.entry) := by
  have hlaid := h.contiguous.laid
  rw [hsplit] at hlaid
  have hfilter := hlaid.filter_between
  rw [Nat.zero_add] at hfilter
  rw [Code.depthFrom, h.entries, hsplit, hfilter]

/-- An instruction of a routine in the whole of finished code. -/
theorem Linked.exists_split (h : Linked code base parts) {k : Nat} {q : Part}
    (hq : parts[k]? = some q) {l r : List Emitted} {e : Emitted}
    (hsplit : code.entriesIn k = l ++ e :: r) :
    ∃ before inside m behind, allMarks parts = before ++ (inside ++ m :: behind) ∧
      extent before = q.start ∧ inside.map Marked.entry = l ∧ m.entry = e ∧
      e.start = q.start + extent inside := by
  rw [h.entriesIn hq] at hsplit
  obtain ⟨inside, _, hmarks, rfl, htail⟩ := List.map_eq_append_iff.mp hsplit
  obtain ⟨m, rest, rfl, rfl, rfl⟩ := List.map_eq_cons_iff.mp htail
  have hparts := eq_take_append_cons hq
  have hcontiguous := h.contiguous
  rw [hparts, contiguous_append, Nat.zero_add] at hcontiguous
  have hlaid := q.assembled.laid
  rw [hmarks] at hlaid
  refine ⟨allMarks (parts.take k), inside, m, rest ++ allMarks (parts.drop (k + 1)), ?_,
    hcontiguous.2.1.symm, rfl, rfl, hlaid.of_append.2.1⟩
  conv_lhs => rw [hparts]
  rw [allMarks_append_cons, hmarks, List.append_assoc]
  rfl

/-- The depth of the operand stack at an instruction of a routine and behind it. -/
theorem Linked.depthFrom_of_split (h : Linked code base parts) {k : Nat} {q : Part}
    (hq : parts[k]? = some q) {l r : List Emitted} {e : Emitted}
    (hsplit : code.entriesIn k = l ++ e :: r) :
    code.depthFrom q.start e.start = operandEffect l ∧
      code.depthFrom q.start e.finish = operandEffect (l ++ [e]) := by
  obtain ⟨before, inside, m, behind, hall, hbefore, rfl, rfl, hstart⟩ := h.exists_split hq hsplit
  have hfinish : m.entry.finish = q.start + extent (inside ++ [m]) := by
    rw [Emitted.finish, hstart, extent_append, extent_cons, Nat.add_assoc]
    rfl
  have hall' : allMarks parts = before ++ ((inside ++ [m]) ++ behind) := by
    rw [hall, List.append_assoc inside]
    rfl
  rw [hfinish, hstart, ← hbefore]
  refine ⟨h.depthFrom_eq hall, ?_⟩
  simpa using h.depthFrom_eq hall'

/-- Code that evolves into finished code is as long as the part it became, and adds as many words to
the operand stack. -/
theorem Linked.take_of_evolves (h : Linked code base parts) {s : CodeStream}
    (hs : Evolves 0 0 s code.stream) (hsize : s.size = byteCount s.entries.toList) :
    extent ((allMarks parts).take s.length) = s.size ∧
      operandEffect (((allMarks parts).take s.length).map Marked.entry) =
        operandEffect s.entries.toList := by
  have hbytes := hs.map_take (f := fun e ↦ e.bytes.length) fun e e' h ↦ h.length
  have heffect := hs.map_take fun e e' h ↦ h.operandEffect
  rw [h.entries, ← List.map_take] at hbytes heffect
  constructor
  · rw [extent_eq_byteCount, byteCount, hbytes, hsize, byteCount]
  · rw [operandEffect, operandEffect, heffect]

/-- The words between two states of code that both evolve into finished code. -/
theorem Linked.depthFrom_of_evolves (h : Linked code base parts) {s t : CodeStream}
    (hs : Evolves 0 0 s code.stream) (ht : Evolves 0 0 t code.stream)
    (hsize : s.size = byteCount s.entries.toList) (hsize' : t.size = byteCount t.entries.toList)
    (hle : s.length ≤ t.length) : code.depthFrom s.size t.size =
      operandEffect t.entries.toList - operandEffect s.entries.toList := by
  obtain ⟨hextent, heffect⟩ := h.take_of_evolves hs hsize
  obtain ⟨hextent', heffect'⟩ := h.take_of_evolves ht hsize'
  let between := ((allMarks parts).take t.length).drop s.length
  have hinner : (allMarks parts).take t.length = (allMarks parts).take s.length ++ between := by
    rw [← List.take_append_drop s.length ((allMarks parts).take t.length), List.take_take,
      Nat.min_eq_left hle]
  have hsplit : allMarks parts =
      (allMarks parts).take s.length ++ (between ++ (allMarks parts).drop t.length) := by
    rw [← List.append_assoc, ← hinner, List.take_append_drop]
  have hdepth := h.depthFrom_eq hsplit
  rw [← extent_append, ← hinner, hextent, hextent'] at hdepth
  rw [hdepth, ← heffect, ← heffect', hinner, List.map_append, operandEffect_append]
  omega

end FinishedCode

section Generated

variable {p : Program} {o : Options} {entry : Routine} {code : Code} {z : Assembly} {base : UInt64}
  {parts : List Part} {j : Nat} {r : Routine} {xs : List Step} {a b : Assembly}

/-- A state that a routine passes keeps track from where the routine began. -/
theorem Passes.tracking (h : Passes p entry j a) :
    ∃ r a₀, Started p entry j r a₀ ∧ a₀.stream.length ≤ a.stream.length ∧
      Tracking (-operandEffect a₀.stream.entries.toList) a := by
  cases h with
  | first stage =>
    obtain ⟨r, a₀, hstarted, hle, ha, -⟩ := stage.tracking
    exact ⟨r, a₀, hstarted, hle, ha⟩
  | last stage =>
    obtain ⟨r, a₀, hstarted, hle, -, hb⟩ := stage.tracking
    exact ⟨r, a₀, hstarted, hle.trans (length_le_of_steps stage.runs), hb⟩

/-- Assembly passes the start of every routine. -/
theorem Started.passes (hprogram : Runs (Assemble.program p o entry) .empty code z)
    (h : Started p entry j r a) : Passes p entry j a := by
  obtain ⟨b, -, -, -, hbody, -⟩ := h.runs hprogram
  exact .first (.routine h hbody)

/-- The code of a state that a routine passes evolves into the final code. -/
theorem Passes.evolves (hprogram : Runs (Assemble.program p o entry) .empty code z)
    (h : Passes p entry j a) : Evolves 0 0 a.stream code.stream := by
  cases h with
  | first stage => exact (Evolves.of_steps 0 0 stage.runs).trans (stage.evolves hprogram).forget
  | last stage => exact (stage.evolves hprogram).forget

/-- The words that are tracked in the course of a routine are those of the finished code. -/
theorem Passes.depthFrom_eq (hprogram : Runs (Assemble.program p o entry) .empty code z)
    (hlinked : Linked code base parts) (h : Passes p entry j a) :
    ∃ r a₀, Started p entry j r a₀ ∧
      code.depthFrom a₀.stream.size a.stream.size = a.depth.words := by
  obtain ⟨r, a₀, hstarted, hle, ha⟩ := h.tracking
  have hstart := (hstarted.passes hprogram).evolves hprogram
  refine ⟨r, a₀, hstarted, ?_⟩
  rw [hlinked.depthFrom_of_evolves hstart (h.evolves hprogram) hstarted.tracking.size ha.size hle,
    ha.words]
  omega

end Generated

end NativeBackend
