import NativeBackend.Proofs.Code.Lines
import NativeBackend.Proofs.Code.Placement

/-!
# Paths through code

How the processor moves through code that holds the instructions of steps. `Located`
says that code has some steps from one offset to another; for every kind of step there
is a lemma that takes it apart into the parts it is made of and the moves of the
program counter between them.
-/

namespace NativeBackend

open Machine Execution

/-- Code has steps from an offset to another. -/
def Located (code : CodeStream) (base : UInt64) (o : Nat) (steps : List Step) (stop : Nat) : Prop :=
  ∃ ms, Assembled o steps ms ∧ Holding code base ms ∧ stop = o + extent ms

/-- A test for equality at an offset leads to one of two others. -/
def BranchesTo (code : CodeStream) (o equal unequal : Nat) : Prop :=
  ∀ s b, s.flags.holds? .equal = some b → Reaches code ⟨o, s⟩ ⟨if b then equal else unequal, s⟩

/-- A jump at an offset leads to another. -/
def JumpsTo (code : CodeStream) (o target : Nat) : Prop :=
  ∀ s, Reaches code ⟨o, s⟩ ⟨target, s⟩

variable {code : CodeStream} {base : UInt64} {o stop target : Nat} {x : Step}
  {xs ys steps : List Step} {ms ms' : List Marked}

private theorem Holding.append : Holding code base (ms ++ ms') ↔
    Holding code base ms ∧ Holding code base ms' := List.forall_mem_append

private theorem Holding.cons {m : Marked} : Holding code base (m :: ms) ↔
    (code.at? m.entry.start = some m.entry ∧ m.filled base = m) ∧ Holding code base ms :=
  List.forall_mem_cons

section Jumps

private theorem branchesTo_of_jccNear {d : Int32} {bs : List UInt8}
    (hencoded : (Instruction.jcc .equal (.near d)).encode = .ok bs)
    (haimed : Instruction.jccNear .equal o target = .ok (.jcc .equal (.near d)))
    (hlt : o + bs.length < wordLimit)
    (hheld : code.at? o = some ⟨.jcc .equal (.near d), o, bs⟩) :
    BranchesTo code o target (o + bs.length) := by
  obtain ⟨d', hd, hi⟩ := jccNear_eq_ok haimed
  cases hi
  have htarget : ((o + bs.length : Nat) : Int) + d.toInt = target := by
    cases hencoded
    exact add_distance hd hlt
  intro s b hb
  let e : Emitted := ⟨.jcc .equal (.near d), o, bs⟩
  have hperform : perform e s = .ok ⟨if b then target else e.finish, s⟩ :=
    perform_jcc rfl hb htarget
  exact Reaches.of_perform hheld hperform

private theorem jumpsTo_of_jmpNear {d : Int32} {bs : List UInt8}
    (hencoded : (Instruction.jmp (.near d)).encode = .ok bs)
    (haimed : Instruction.jmpNear o target = .ok (.jmp (.near d)))
    (hlt : o + bs.length < wordLimit)
    (hheld : code.at? o = some ⟨.jmp (.near d), o, bs⟩) : JumpsTo code o target := by
  obtain ⟨d', hd, hi⟩ := jmpNear_eq_ok haimed
  cases hi
  have htarget : ((o + bs.length : Nat) : Int) + d.toInt = target := by
    cases hencoded
    exact add_distance hd hlt
  intro s
  let e : Emitted := ⟨.jmp (.near d), o, bs⟩
  have hperform : perform e s = .ok ⟨target, s⟩ := perform_jmp rfl htarget
  exact Reaches.of_perform hheld hperform

private theorem jumpsTo_of_jmpFitted {j : Instruction} {bs : List UInt8}
    (haimed : Instruction.jmpFitted o target = .ok j) (hencoded : j.encode = .ok bs)
    (hlt : o + bs.length < wordLimit) (hheld : code.at? o = some ⟨j, o, bs⟩) :
    JumpsTo code o target := by
  obtain ⟨d, hd, hlow, hhigh, rfl⟩ | hnear := jmpFitted_eq_ok haimed
  · have htarget : ((o + bs.length : Nat) : Int) + d.toInt8.toInt = target := by
      cases hencoded
      rw [toInt_toInt8_of_le hlow hhigh]
      exact add_distance hd hlt
    intro s
    let e : Emitted := ⟨.jmp (.short d.toInt8), o, bs⟩
    have hperform : perform e s = .ok ⟨target, s⟩ := perform_jmp rfl htarget
    exact Reaches.of_perform hheld hperform
  · obtain ⟨d', -, rfl⟩ := jmpNear_eq_ok hnear
    exact jumpsTo_of_jmpNear hencoded hnear hlt hheld

end Jumps

private theorem Laid.reaches (hlaid : Laid o ms) (hheld : Holding code base ms) {s s' : State}
    (hrun : run (ms.map fun m ↦ m.entry.instruction) s = .ok s') :
    Reaches code ⟨o, s⟩ ⟨o + extent ms, s'⟩ := by
  induction ms generalizing o s with
  | nil =>
    cases hrun
    exact .refl
  | cons m ms ih =>
    obtain ⟨rfl, -, hlaid⟩ := hlaid
    obtain ⟨⟨hat, -⟩, hheld⟩ := Holding.cons.mp hheld
    rw [List.map_cons, run] at hrun
    obtain ⟨t, ht, hrun⟩ := bind_eq_ok hrun
    have hrest := ih hlaid hheld hrun
    rw [extent_cons, ← Nat.add_assoc]
    exact (Reaches.of_perform hat (perform_of_execute ht)).trans hrest

namespace Located

/-- No steps end where they begin. -/
theorem nil (h : Located code base o [] stop) : stop = o := by
  obtain ⟨ms, hcode, -, rfl⟩ := h
  cases hcode
  rfl

/-- The code of steps in a row is that of the first part and behind it that of the second. -/
theorem append (h : Located code base o (xs ++ ys) stop) :
    ∃ between, Located code base o xs between ∧ Located code base between ys stop := by
  obtain ⟨ms, hcode, hheld, rfl⟩ := h
  obtain ⟨ms₁, ms₂, rfl, hxs, hys⟩ := hcode.of_append
  obtain ⟨h₁, h₂⟩ := Holding.append.mp hheld
  refine ⟨_, ⟨ms₁, hxs, h₁, rfl⟩, ms₂, hys, h₂, ?_⟩
  rw [extent_append, Nat.add_assoc]

/-- A check of the depth has no code. -/
theorem settle {live : Nat} (h : Located code base o (.settle live :: steps) stop) :
    Located code base o steps stop := by
  obtain ⟨ms, hcode, hheld, rfl⟩ := h
  cases hcode with
  | settle rest => exact ⟨ms, rest, hheld, rfl⟩

/-- Straight code is run from its first instruction to its end. -/
theorem line (h : Located code base o steps stop) (hline : steps.all Step.isLine) :
    ∃ is, straight? base steps = some is ∧
      ∀ s s', run is s = .ok s' → Reaches code ⟨o, s⟩ ⟨stop, s'⟩ := by
  obtain ⟨ms, hcode, hheld, rfl⟩ := h
  refine ⟨_, straight?_of_assembled base hcode hline, fun s s' hrun ↦ ?_⟩
  have hfilled : ms.map (fun m ↦ (m.filled base).entry.instruction) =
      ms.map fun m ↦ m.entry.instruction :=
    List.map_congr_left fun m hm ↦ by rw [(hheld m hm).2]
  rw [hfilled] at hrun
  exact hcode.laid.reaches hheld hrun

/-- An instruction of the frame is the one at its offset. -/
theorem frame {i : Instruction} (h : Located code base o (.frame i :: steps) stop) :
    ∃ e, e.instruction = i ∧ e.start = o ∧ code.at? o = some e ∧
      Located code base e.finish steps stop := by
  obtain ⟨ms, hcode, hheld, rfl⟩ := h
  cases hcode with
  | frame encoded rest =>
    obtain ⟨⟨hat, -⟩, hrest⟩ := Holding.cons.mp hheld
    refine ⟨_, rfl, rfl, hat, _, rest, hrest, ?_⟩
    rw [extent_cons, ← Nat.add_assoc]
    rfl

/-- The code of steps under a condition begins with a branch around them. -/
theorem when {body : List Step} (h : Located code base o [.when body] stop) :
    ∃ start, Located code base start body stop ∧ BranchesTo code o stop start := by
  obtain ⟨ms, hcode, hheld, hstop⟩ := h
  cases hcode with
  | @when _ d bs _ _ inner _ encoded body_code aimed rest =>
    cases rest
    rw [List.append_nil, extent_cons, ← Nat.add_assoc] at hstop
    obtain ⟨⟨hat, -⟩, hinner⟩ := Holding.cons.mp (List.append_nil inner ▸ hheld)
    have hlt : o + bs.length + extent inner < signedLimit := by
      obtain ⟨_, hd, -⟩ := jccNear_eq_ok aimed
      exact target_lt hd
    refine ⟨_, ⟨inner, body_code, hinner, hstop⟩, ?_⟩
    rw [hstop]
    refine branchesTo_of_jccNear encoded aimed ?_ hat
    unfold signedLimit at hlt
    unfold wordLimit
    omega

/-- The code of a choice branches to one part, and the first jumps over the second. -/
theorem choose {yes no : List Step} (h : Located code base o [.choose yes no] stop) :
    ∃ start finish start', Located code base start yes finish ∧
      Located code base start' no stop ∧ BranchesTo code o start' start ∧
      JumpsTo code finish stop := by
  obtain ⟨ms, hcode, hheld, hstop⟩ := h
  cases hcode with
  | @choose _ start' _ _ bs bs' _ _ _ first second _ encoded yes_code encoded' start_eq no_code
      aimed aimed' rest =>
    cases rest
    rw [List.append_nil] at hheld
    obtain ⟨⟨hat, -⟩, hheld⟩ := Holding.cons.mp hheld
    obtain ⟨hfirst, hheld⟩ := Holding.append.mp hheld
    obtain ⟨⟨hat', -⟩, hsecond⟩ := Holding.cons.mp hheld
    have hstop' : stop = start' + extent second := by
      simp only [hstop, start_eq, List.append_nil, extent_cons, extent_append, Marked.plain]
      omega
    have hlt : start' + extent second < signedLimit := by
      obtain ⟨_, hd, -⟩ := jmpNear_eq_ok aimed'
      exact target_lt hd
    unfold signedLimit at hlt
    refine ⟨_, _, _, ⟨first, yes_code, hfirst, rfl⟩, ⟨second, no_code, hsecond, hstop'⟩, ?_, ?_⟩
    · refine branchesTo_of_jccNear encoded aimed ?_ hat
      unfold wordLimit
      omega
    · rw [hstop']
      refine jumpsTo_of_jmpNear encoded' aimed' ?_ hat'
      unfold wordLimit
      omega

/-- The code of a loop branches out behind its condition, and its body jumps back. -/
theorem loop {cond body : List Step} (h : Located code base o [.loop cond body] stop) :
    ∃ test start finish, Located code base o cond test ∧
      Located code base start body finish ∧ BranchesTo code test stop start ∧
      JumpsTo code finish o := by
  obtain ⟨ms, hcode, hheld, hstop⟩ := h
  cases hcode with
  | @loop _ test finish _ _ bs bs' _ _ _ first second _ cond_code test_eq encoded body_code
      stop_eq aimed' encoded' aimed rest =>
    cases rest
    obtain ⟨hfirst, hheld⟩ := Holding.append.mp hheld
    obtain ⟨⟨hat, -⟩, hheld⟩ := Holding.cons.mp hheld
    obtain ⟨hsecond, hheld⟩ := Holding.append.mp hheld
    obtain ⟨⟨hat', -⟩, -⟩ := Holding.cons.mp hheld
    have hstop' : stop = finish + bs'.length := by
      simp only [hstop, stop_eq, test_eq, extent_nil, extent_cons, extent_append, Marked.plain]
      omega
    have hlt : finish + bs'.length < signedLimit := by
      obtain ⟨_, hd, -⟩ := jccNear_eq_ok aimed
      exact target_lt hd
    unfold signedLimit at hlt
    refine ⟨_, _, _, ⟨first, cond_code, hfirst, test_eq⟩, ⟨second, body_code, hsecond, stop_eq⟩,
      ?_, ?_⟩
    · rw [hstop']
      refine branchesTo_of_jccNear encoded aimed ?_ hat
      unfold wordLimit
      omega
    · refine jumpsTo_of_jmpFitted aimed' encoded' ?_ hat'
      unfold wordLimit
      omega

end Located

end NativeBackend
