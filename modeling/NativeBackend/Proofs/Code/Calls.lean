import NativeBackend.Proofs.Code.Expressions
import NativeBackend.Proofs.Code.StageCode
import NativeBackend.Proofs.Emission.Leaves

/-!
# Calls in code

A call pushes words one after the other: its arguments, its receiver if the callee has one,
and the offset behind itself. `PushedAll` says what the stack is after that. What the code of
an argument does is its own affair, as long as it pushes a value and leaves the words that
were pushed before it; the code of a receiver pushes a word from any state.
-/

namespace NativeBackend

open Machine NativeBackend.Tree Convention Execution

/-- Words were pushed one after the other, and a count of words at the stack pointer and above are
as they were. -/
structure PushedAll (count : Nat) (values : List Word) (s t : State) : Prop where
  rsp : t.registers .rsp = slot (s.registers .rsp) (-values.length)
  rbp : t.registers .rbp = s.registers .rbp
  pushed : ∀ (i : Nat) (v : Word), values[i]? = some v →
    t.memory.word (slot (s.registers .rsp) (-1 - i)) = v
  kept : ∀ k : Nat, k < count →
    t.memory.word (slot (s.registers .rsp) k) = s.memory.word (slot (s.registers .rsp) k)

namespace PushedAll

variable {count : Nat} {values more : List Word} {v : Word} {s t u : State}

private theorem nil : PushedAll count [] s s :=
  ⟨(slot_zero _).symm, rfl, (fun _ _ h ↦ nomatch h), fun _ _ ↦ rfl⟩

/-- Words are pushed onto others. -/
theorem append (h : PushedAll count values s t) (h' : PushedAll (count + values.length) more t u) :
    PushedAll count (values ++ more) s u := by
  have hword : ∀ k : Int, -values.length ≤ k → k < count →
      u.memory.word (slot (s.registers .rsp) k) = t.memory.word (slot (s.registers .rsp) k) := by
    intro k hlow hhigh
    obtain ⟨n, hn⟩ := Int.eq_ofNat_of_zero_le (show 0 ≤ values.length + k by omega)
    have hkept := h'.kept n (by omega)
    rw [h.rsp, slot_slot, ← hn, Int.neg_add_cancel_left] at hkept
    exact hkept
  refine ⟨?_, h'.rbp.trans h.rbp, fun i v hv ↦ ?_, fun k hk ↦ ?_⟩
  · rw [h'.rsp, h.rsp, slot_slot, List.length_append]
    congr 1
    omega
  · by_cases hi : i < values.length
    · rw [List.getElem?_append_left hi] at hv
      rw [hword _ (by omega) (by omega), h.pushed i v hv]
    · rw [List.getElem?_append_right (by omega)] at hv
      have hpushed := h'.pushed _ v hv
      rw [h.rsp, slot_slot] at hpushed
      rw [← hpushed]
      congr 2
      omega
  · rw [hword k (by omega) (by omega), h.kept k hk]

/-- A pushed word counted from the stack pointer up. -/
theorem word (h : PushedAll count values s t) {i : Nat} (hv : values[i]? = some v) :
    t.memory.word (slot (t.registers .rsp) (values.length - 1 - i)) = v := by
  rw [h.rsp, slot_slot, ← h.pushed i v hv]
  congr 2
  omega

/-- The word that was pushed last is on top. -/
theorem top (h : PushedAll count (values ++ [v]) s t) : t.top = v := by
  have hlast := h.word (i := values.length) (v := v) (by simp)
  have hzero : ((values ++ [v]).length : Int) - 1 - values.length = 0 := by
    rw [List.length_append, List.length_singleton]
    omega
  rwa [hzero, slot_zero] at hlast

private theorem of_pushed (h : Pushed 1 v s t) (hcount : count < 2 ^ 60) :
    PushedAll count [v] s t := by
  refine ⟨h.rsp, h.rbp, fun i w hw ↦ ?_, fun k hk ↦ ?_⟩
  · have htop := h.top
    rw [State.top, h.rsp] at htop
    rw [List.getElem?_singleton] at hw
    split at hw
    · next hi =>
      rw [hi, ← Option.some.inj hw]
      exact htop
    · cases hw
  · have houtside : Outside (slot (s.registers .rsp) 0) 1 (slot (s.registers .rsp) k) :=
      .of_slot _ (by omega) (by omega)
    rw [slot_zero] at houtside
    exact h.words _ houtside

/-- A push is the pushing of one word. -/
theorem push (s : State) (v : Word) (hcount : count < 2 ^ 60) : PushedAll count [v] s (s.push v) :=
  of_pushed ((Kept.refl s).puts (puts_push v rfl rfl rfl) Nat.one_pos) hcount

end PushedAll

section Arguments

variable {code : CodeStream} {sur : Surroundings} {f : Frame} {count o : Nat}

/-- Code between two offsets pushes a value and leaves a count of words at the stack pointer and
above. -/
def Delivers (code : CodeStream) (count o stop : Nat) (v : Word) (s t : State) : Prop :=
  Reaches code ⟨o, s⟩ ⟨stop, t⟩ ∧ PushedAll count [v] s t

/-- The code of arguments, from an offset on, pushes their values. Each of them leaves the words
that were pushed before it, of which a count is there at the first. -/
inductive DeliversAll (code : CodeStream) (sur : Surroundings) (f : Frame) :
    Nat → Nat → List Expression → List Word → State → State → Prop
  | nil {count o : Nat} {s : State} : DeliversAll code sur f count o [] [] s s
  | cons {count o : Nat} {e : Expression} {args : List Expression} {v : Word} {values : List Word}
      {s t u : State}
      (first : Delivers code count o (o + stepsSize (lowerExpression sur f e)) v s t)
      (rest : DeliversAll code sur f (count + 1) (o + stepsSize (lowerExpression sur f e)) args
        values t u) : DeliversAll code sur f count o (e :: args) (v :: values) s u

/-- Arguments that deliver their values take the processor behind their code. -/
theorem DeliversAll.reaches {args : List Expression} {values : List Word} {s t : State}
    (h : DeliversAll code sur f count o args values s t) :
    Reaches code ⟨o, s⟩ ⟨o + stepsSize (lowerArguments sur f args), t⟩ := by
  induction h with
  | nil => exact .refl
  | cons first _ ih =>
    rw [Nat.add_assoc, ← stepsSize_append] at ih
    exact first.1.trans ih

/-- Arguments that deliver their values push one word each. -/
theorem DeliversAll.pushedAll {args : List Expression} {values : List Word} {s t : State}
    (h : DeliversAll code sur f count o args values s t) :
    values.length = args.length ∧ PushedAll count values s t := by
  induction h with
  | nil => exact ⟨rfl, .nil⟩
  | cons first _ ih => exact ⟨congrArg (· + 1) ih.1, first.2.append ih.2⟩

end Arguments

section Receivers

variable {base : UInt64} {sur : Surroundings} {f : Frame} {is : List Instruction}

private theorem pushes_word (r : Register) (offset : Int32) {s t : State} (h : Kept 1 s t) :
    ∃ v u, run [.pushMem r offset] t = .ok u ∧ Pushed 1 v s u :=
  ⟨_, _, rfl, h.puts (puts_push _ rfl rfl rfl) Nat.one_pos⟩

private theorem pushes_field {field : FieldRef} {object : List Step} (s : State)
    (hobject : ∀ js, straight? base object = some js → ∃ t, run js s = .ok t ∧ Kept 1 s t)
    (hcode : straight? base (lowerField sur field object .value) = some is) :
    ∃ v t, run is s = .ok t ∧ Pushed 1 v s t := by
  rw [lowerField] at hcode
  split at hcode
  · cases hcode
  · next offset _ =>
    cases hcode
    exact pushes_word result 0 (s := s) (t := s.set result _) ⟨rfl, rfl, fun _ _ ↦ rfl⟩
  · next offset _ =>
    obtain ⟨js, hjs, rfl⟩ := straight?_append_emitAll hcode
    obtain ⟨t, ht, hkept⟩ := hobject js hjs
    rw [run_append, ht]
    exact pushes_word result offset hkept

/-- The code of a reference pushes a word, whatever the state. -/
theorem pushes_reference (r : Reference)
    (hcode : straight? base (lowerReference sur f r .value) = some is) (s : State) :
    ∃ v t, run is s = .ok t ∧ Pushed 1 v s t := by
  have hslot (offset : Int32) : ∃ v t, run [.pushMem frameBase offset] s = .ok t ∧ Pushed 1 v s t :=
    pushes_word frameBase offset (.refl s)
  induction r generalizing is with
  | this =>
    rw [lowerReference, lowerThis] at hcode
    split at hcode
    · cases hcode
      exact hslot _
    · cases hcode
  | localName name =>
    cases name with
    | param _ | var _ =>
      rw [lowerReference] at hcode
      split at hcode
      · cases hcode
        exact hslot _
      · cases hcode
  | field field =>
    refine pushes_field s (fun js hjs ↦ ?_) hcode
    rw [loadReceiver] at hjs
    split at hjs
    · cases hjs
      exact ⟨_, rfl, rfl, rfl, fun _ _ ↦ rfl⟩
    · cases hjs
  | qualified object member ih =>
    cases member with
    | field field =>
      refine pushes_field s (fun js hjs ↦ ?_) hcode
      obtain ⟨ks, hks, rfl⟩ := straight?_append_emitAll hjs
      obtain ⟨v, t, ht, hpushed⟩ := ih hks
      obtain ⟨u, hu, -, hkept⟩ := hpushed.run_pop
      rw [run_append, ht]
      exact ⟨u, hu, hkept⟩
    | method _ => cases hcode
  | classAt _ | method _ | println => cases hcode

/-- What the code of a reference pushes: if a state represents an environment, the value of the
reference there. -/
structure Evaluates (p : Program) (base : UInt64) (isEntry : Bool) (f : Frame) (r : Reference)
    (s : State) (v : Word) : Prop where
  pushes : ∃ is t, straight? base (lowerReference ⟨p, .ofProgram p, isEntry⟩ f r .value) = some is ∧
    run is s = .ok t ∧ Pushed 1 v s t
  means : ∀ env, InReach p f [.value r] → (Source.isVariable r = false → FieldsInReach p env base) →
    Represents f env s → Holds env s 1 (Source.referenceReads p env r) →
      Source.reference? p env r = some v

/-- The code of a reference in its place evaluates it. -/
theorem Located.evaluates {p : Program} {isEntry : Bool} {code : CodeStream} {o stop : Nat}
    {r : Reference}
    (h : Located code base o (lowerReference ⟨p, .ofProgram p, isEntry⟩ f r .value) stop)
    (s : State) :
    ∃ v t, Reaches code ⟨o, s⟩ ⟨stop, t⟩ ∧ Pushed 1 v s t ∧ Evaluates p base isEntry f r s v := by
  obtain ⟨is, his, hrun⟩ := h.line (isLine_lowerReference _ f r .value)
  obtain ⟨v, t, ht, hpushed⟩ := pushes_reference r his s
  refine ⟨v, t, hrun s t ht, hpushed, ⟨is, t, his, ht, hpushed⟩,
    fun env hreach hfields hframe hholds ↦ ?_⟩
  have hcomputes := computes_reference r hreach hfields his hframe hholds
  cases hvalue : Source.reference? p env r with
  | none =>
    rw [hvalue] at hcomputes
    exact hcomputes.elim
  | some w =>
    rw [hvalue] at hcomputes
    obtain ⟨t', ht', hpushed'⟩ := hcomputes
    obtain rfl := Except.ok.inj (ht.symm.trans ht')
    rw [← hpushed.top, ← hpushed'.top]

/-- The code of a receiver pushes it, if there is one. -/
theorem Located.pushesReceiver {p : Program} {isEntry : Bool} {code : CodeStream}
    {o stop count : Nat} {callee : Reference}
    (h : Located code base o (receiverSteps ⟨p, .ofProgram p, isEntry⟩ f callee) stop) (s : State)
    (hcount : count < 2 ^ 60) :
    ∃ receiver t, Reaches code ⟨o, s⟩ ⟨stop, t⟩ ∧ PushedAll count receiver.toList s t ∧
      Option.Rel (fun r v ↦ Evaluates p base isEntry f r s v) (Source.receiver? p callee)
        receiver := by
  rw [receiverSteps] at h
  cases hreceiver : Source.receiver? p callee with
  | none =>
    rw [hreceiver] at h
    refine ⟨none, s, ?_, .nil, .none⟩
    rw [h.nil]
    exact .refl
  | some r =>
    rw [hreceiver] at h
    obtain ⟨v, t, hreaches, hpushed, hvalue⟩ := Located.evaluates h s
    exact ⟨some v, t, hreaches, .of_pushed hpushed hcount, .some hvalue⟩

end Receivers

section Transfers

variable {p : Program} {o : Options} {entry : Routine} {code : Code} {z : Assembly} {j : Nat}
  {name : String} {a b : Assembly} {base : UInt64} {parts : List Part}

private theorem Laid.finish_le {o : Nat} {ms : List Marked} (h : Laid o ms) :
    ∀ m ∈ ms, m.entry.finish ≤ o + extent ms := by
  induction ms generalizing o with
  | nil => exact fun m hm ↦ nomatch hm
  | cons m ms ih =>
    obtain ⟨hstart, -, hrest⟩ := h
    have hfinish : m.entry.finish = o + m.entry.bytes.length := by
      rw [← hstart]
      rfl
    rw [extent_cons]
    refine List.forall_mem_cons.mpr ⟨by omega, fun m' hm' ↦ ?_⟩
    have hle := ih hrest m' hm'
    omega

private theorem Linked.finish_le (h : Linked code base parts) {offset : Nat} {e : Emitted}
    (he : code.stream.at? offset = some e) : e.finish ≤ code.stream.size := by
  have hmem := List.mem_of_find?_eq_some he
  rw [h.entries] at hmem
  obtain ⟨m, hm, rfl⟩ := List.mem_map.mp hmem
  have hle := h.contiguous.laid.finish_le m hm
  rwa [Nat.zero_add, ← h.size] at hle

private theorem perform_call {e : Emitted} {d : Int32} {target : Nat} (hi : e.instruction = .call d)
    (htarget : (e.finish : Int) + d.toInt = target) (s : State) :
    perform e s = .ok ⟨target, s.push (BitVec.ofNat 64 e.finish)⟩ := by
  rw [perform, hi]
  simp only [displaced, htarget, Int.natCast_nonneg, if_true, Int.toNat_natCast]
  rfl

/-- A call pushes the offset behind itself and goes where its name resolves to. -/
theorem Stage.calls (hprogram : Runs (Assemble.program p o entry) .empty code z)
    (hlinked : Linked code base parts) (hsources : sources parts = routineSteps p entry)
    (hsize : code.stream.size < wordLimit) (hname : name ∈ Source.routineNames p)
    (h : Stage p entry j [.call name] a b) :
    b.stream.size < wordLimit ∧
      ∃ target, resolve? code.begun (Builtin.routines.length + j) name = some target ∧
        ∀ s, Reaches code.stream ⟨a.stream.size, s⟩
          ⟨target, s.push (BitVec.ofNat 64 b.stream.size)⟩ := by
  obtain ⟨ms, hcode, hheld, hstop, haimed⟩ := h.assembled hprogram hlinked hsources
  cases hcode with
  | @call _ _ d _ ms rest =>
    cases rest
    let e : Emitted := callAt a.stream.size d
    have hat : code.stream.at? a.stream.size = some e := (hheld _ (List.mem_singleton_self _)).1
    have hfinish : b.stream.size = e.finish := hstop
    have hlt : e.finish < wordLimit := (hlinked.finish_le hat).trans_lt hsize
    have haim := haimed _ (List.mem_singleton_self _)
    refine ⟨hfinish ▸ hlt, ?_⟩
    cases hr : resolve? code.begun (Builtin.routines.length + j) name with
    | none =>
      rw [← hlinked.begun_names hsources] at hname
      exact absurd hname (resolve?_eq_none_iff.mp hr)
    | some target =>
      simp only [Aimed, hr] at haim
      obtain ⟨d', hd, hi⟩ := callTo_eq_ok haim
      cases hi
      have htarget : (e.finish : Int) + d.toInt = target := add_distance hd hlt
      refine ⟨target, rfl, fun s ↦ ?_⟩
      rw [hfinish]
      exact .of_perform hat (perform_call rfl htarget s)

end Transfers

end NativeBackend
