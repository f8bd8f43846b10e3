import NativeBackend.Proofs.Code.Expressions
import NativeBackend.Proofs.Source.Statements

/-!
# Frames in motion

What declarations, assignments and the ends of scopes do to the words of a frame.
Between two statements the stack pointer is at the latest local, which is what
`Resting` says. A routine writes nothing but its locals, what it has on the stack
below them and its parameters: `Steady` says that other words are unchanged.
-/

namespace NativeBackend

open Machine NativeBackend.Tree Convention Execution

/-- A word is none of those that a routine may write, given the count of words from the base of its
frame up and down. The saved base and the return address are not to be written. -/
def Elsewhere (above reach : Nat) (base x : Word) : Prop :=
  ∀ k : Int, -reach ≤ k → k < above → k ≠ 0 → k ≠ 1 → Apart x (slot base k)

/-- A state differs from another at most in words that a routine may write. -/
structure Steady (above reach : Nat) (s t : State) : Prop where
  rbp : t.registers .rbp = s.registers .rbp
  words : ∀ x, Elsewhere above reach (s.registers .rbp) x → t.memory.word x = s.memory.word x

/-- The frame of a routine between two statements. -/
structure Resting (f : Frame) (env : Source.Environment) (s : State) : Prop where
  rsp : s.registers .rsp = slot (s.registers .rbp) (-f.live)
  frame : Represents f env s

/-- The slot that an assignment to a variable writes, and the environment after it. -/
inductive SetsSlot (f : Frame) (env : Source.Environment) (v : Word) :
    Int → Source.Environment → Prop
  | param {position : Nat} (h : position < f.paramCount) :
      SetsSlot f env v (f.paramSlot position) { env with params := env.params.set position v }
  | live {k : Nat} {id : VarId} (h : f.locals[k]? = some id) :
      SetsSlot f env v (f.localSlot k) { env with locals := env.locals.set k (id, v) }

/-- The frame after a statement. -/
def Frame.after (f : Frame) : Statement → Frame
  | .declare decl _ => f.declare decl.id
  | _ => f

/-- The frame with more locals. -/
def Frame.extended (f : Frame) (new : List VarId) : Frame := { f with locals := new ++ f.locals }

namespace Frame

variable (f : Frame) (new : List VarId)

/-- A declaration makes one more local live. -/
@[simp] theorem live_declare (id : VarId) : (f.declare id).live = f.live + 1 := rfl

/-- More locals leave the words above the frame base as they are. -/
@[simp] theorem above_extended : (f.extended new).above = f.above := rfl

/-- More locals are live by their count. -/
@[simp] theorem live_extended : (f.extended new).live = new.length + f.live :=
  List.length_append

/-- What is beyond the old locals are the new ones. -/
@[simp] theorem beyond_extended : (f.extended new).beyond f.live = new.length := by
  rw [beyond, live_extended, Nat.add_sub_cancel]

/-- Releasing the new locals gives the old frame back. -/
@[simp] theorem release_extended : (f.extended new).release f.live = f := by
  rw [release, beyond_extended]
  unfold extended
  rw [List.drop_left]

/-- A statement adds to the frame the local that it declares, if any. -/
theorem after_eq_extended (st : Statement) :
    ∃ new, f.after st = f.extended new ∧ new.length = Source.declared st := by
  cases st with
  | declare decl _ => exact ⟨[decl.id], rfl, rfl⟩
  | block | assign | assignElement | call | giveBack | branch | loop => exact ⟨[], rfl, rfl⟩

/-- Statements in order add locals to the frame and nothing else. -/
theorem foldl_after_eq_extended (sts : List Statement) :
    ∃ new, sts.foldl Frame.after f = f.extended new := by
  induction sts generalizing f with
  | nil => exact ⟨[], rfl⟩
  | cons st sts ih =>
    obtain ⟨first, hfirst, -⟩ := f.after_eq_extended st
    obtain ⟨rest, hrest⟩ := ih (f.after st)
    refine ⟨rest ++ first, ?_⟩
    rw [List.foldl_cons, hrest, hfirst]
    unfold extended
    rw [List.append_assoc]

end Frame

mutual

/-- Lowering a statement tracks the frame after it. -/
theorem lowerStatement_frame (s : Surroundings) (f : Frame) :
    (st : Statement) → (lowerStatement s f st).2 = f.after st
  | .block body => by
    obtain ⟨new, hnew⟩ := f.foldl_after_eq_extended body
    simp only [lowerStatement, settled, inScope, lowerStatements_frame s f body, hnew,
      Frame.release_extended]
    rfl
  | .declare _ _ | .assign _ _ | .assignElement _ _ _ | .call _ _ | .giveBack none
  | .giveBack (some _) => rfl
  | .branch _ yes none => by
    obtain ⟨new, hnew, -⟩ := f.after_eq_extended yes
    simp only [lowerStatement, settled, inScope, lowerStatement_frame s f yes, hnew,
      Frame.release_extended]
    rfl
  | .branch _ yes (some no) => by
    obtain ⟨new, hnew, -⟩ := f.after_eq_extended yes
    obtain ⟨new', hnew', -⟩ := f.after_eq_extended no
    simp only [lowerStatement, settled, inScope, lowerStatement_frame s f yes, hnew,
      Frame.release_extended, lowerStatement_frame s f no, hnew']
    rfl
  | .loop _ body => by
    obtain ⟨new, hnew, -⟩ := f.after_eq_extended body
    simp only [lowerStatement, settled, inScope, lowerStatement_frame s f body, hnew,
      Frame.release_extended]
    rfl

/-- The frame behind statements is what they make of it in order. -/
theorem lowerStatements_frame (s : Surroundings) (f : Frame) :
    (sts : List Statement) → (lowerStatements s f sts).2 = sts.foldl Frame.after f
  | [] => rfl
  | st :: sts => by
    simp only [lowerStatements, lowerStatement_frame s f st,
      lowerStatements_frame s (f.after st) sts]
    rfl

end

namespace Steady

variable {above reach : Nat} {s t u : State}

/-- Nothing changes while nothing happens. -/
theorem refl (s : State) : Steady above reach s s := ⟨rfl, fun _ _ ↦ rfl⟩

/-- What two parts of a run leave unchanged, both together do. -/
theorem trans (h : Steady above reach s t) (k : Steady above reach t u) :
    Steady above reach s u := by
  refine ⟨k.rbp.trans h.rbp, fun x hx ↦ ?_⟩
  rw [k.words x (h.rbp.symm ▸ hx), h.words x hx]

/-- Words below the stack pointer are words that a routine may write. -/
theorem of_outside {depth count : Nat}
    (hrsp : s.registers .rsp = slot (s.registers .rbp) (-depth)) (hle : depth + count ≤ reach)
    (hrbp : t.registers .rbp = s.registers .rbp)
    (hw : ∀ x, Outside (s.registers .rsp) count x → t.memory.word x = s.memory.word x) :
    Steady above reach s t := by
  refine ⟨hrbp, fun x hx ↦ hw x fun k hk ↦ ?_⟩
  rw [hrsp, slot_slot]
  exact hx _ (by omega) (by omega) (by omega) (by omega)

/-- So are the other slots of its frame. -/
theorem of_store {k : Int} {v : Word} (hlow : -reach ≤ k) (hhigh : k < above) (h0 : k ≠ 0)
    (h1 : k ≠ 1) (hrbp : t.registers .rbp = s.registers .rbp)
    (hm : t.memory = s.memory.store (slot (s.registers .rbp) k) v) : Steady above reach s t := by
  refine ⟨hrbp, fun x hx ↦ ?_⟩
  rw [hm, Memory.word_store_apart _ _ (hx k hlow hhigh h0 h1)]

end Steady

section Slots

variable {f : Frame}

private theorem paramSlot_bounds {position : Nat} (h : position < f.paramCount) :
    (if f.hasReceiver then 3 else 2) ≤ f.paramSlot position ∧ f.paramSlot position < f.above := by
  unfold Frame.paramSlot Frame.above
  split <;> omega

private theorem localSlot_bounds {k : Nat} (h : k < f.live) :
    -f.live ≤ f.localSlot k ∧ f.localSlot k < 0 := by
  unfold Frame.localSlot
  omega

private theorem two_lt_above (h : f.hasReceiver = true) : 2 < f.above := by
  unfold Frame.above
  rw [if_pos h]
  omega

private theorem SetsSlot.bounds {env env' : Source.Environment} {v : Word} {k : Int}
    (h : SetsSlot f env v k env') : -f.live ≤ k ∧ k < f.above ∧ k ≠ 0 ∧ k ≠ 1 := by
  cases h with
  | param hlt =>
    have hb := paramSlot_bounds hlt
    split at hb <;> omega
  | live hget =>
    have hb := localSlot_bounds (List.getElem?_eq_some_iff.mp hget).1
    unfold Frame.above
    omega

end Slots

namespace Represents

variable {f : Frame} {env env' : Source.Environment} {s t : State} {v : Word}

private theorem lt_paramCount (h : Represents f env s) {i : Nat} (hi : env.params[i]? = some v) :
    i < f.paramCount :=
  h.paramCount ▸ (List.getElem?_eq_some_iff.mp hi).1

private theorem lt_live (h : Represents f env s) {k : Nat} {x : VarId × Word}
    (hk : env.locals[k]? = some x) : k < f.live := by
  rw [Frame.live, ← h.names, List.length_map]
  exact (List.getElem?_eq_some_iff.mp hk).1

/-- An assignment writes one slot and leaves all others. -/
theorem set {k : Int} (h : Represents f env s) (hset : SetsSlot f env v k env')
    (hfits : f.above + f.live ≤ 2 ^ 61) (hrbp : t.registers .rbp = s.registers .rbp)
    (hm : t.memory = s.memory.store (slot (s.registers .rbp) k) v) : Represents f env' t := by
  have hself : t.memory.word (slot (t.registers .rbp) k) = v := by
    rw [hm, hrbp, Memory.word_store_self]
  have hother : ∀ j : Int, -f.live ≤ j → j < f.above → j ≠ k →
      t.memory.word (slot (t.registers .rbp) j) = s.memory.word (slot (s.registers .rbp) j) := by
    intro j hlow hhigh hne
    obtain ⟨hlow', hhigh', -⟩ := hset.bounds
    rw [hm, hrbp]
    exact Memory.word_store_apart _ _ (apart_slot _ hne (by omega) (by omega))
  have hreceiver (hr : f.hasReceiver = true → 2 ≠ k) : env.receiver =
      if f.hasReceiver then some (t.memory.word (slot (t.registers .rbp) 2)) else none := by
    rw [h.receiver]
    split
    · next hf => rw [hother 2 (by omega) (by have := two_lt_above hf; omega) (hr hf)]
    · rfl
  cases hset with
  | @param position hlt =>
    have hb := paramSlot_bounds hlt
    refine ⟨hreceiver fun hr ↦ ?_, ?_, fun i w hi ↦ ?_, h.names, fun j x hj ↦ ?_⟩
    · rw [if_pos hr] at hb
      omega
    · rw [List.length_set, h.paramCount]
    · by_cases he : position = i
      · subst he
        rw [List.getElem?_set_self (h.paramCount ▸ hlt)] at hi
        rw [hself, Option.some.inj hi]
      · rw [List.getElem?_set_ne he] at hi
        have hi' := paramSlot_bounds (h.lt_paramCount hi)
        rw [hother _ (by split at hi' <;> omega) hi'.2 (by unfold Frame.paramSlot; omega)]
        exact h.params i w hi
    · have hj' := localSlot_bounds (h.lt_live hj)
      rw [hother _ hj'.1 (by omega) (by split at hb <;> omega)]
      exact h.locals j x hj
  | @live k id hget =>
    obtain ⟨hlt, hid⟩ := List.getElem?_eq_some_iff.mp hget
    have hb := localSlot_bounds hlt
    refine ⟨hreceiver fun _ ↦ by omega, h.paramCount, fun i w hi ↦ ?_, ?_, fun j x hj ↦ ?_⟩
    · have hi' := paramSlot_bounds (h.lt_paramCount hi)
      rw [hother _ (by split at hi' <;> omega) hi'.2 (by split at hi' <;> omega)]
      exact h.params i w hi
    · rw [List.map_set, h.names]
      rw [← hid, List.set_getElem_self]
    · by_cases he : k = j
      · subst he
        rw [List.getElem?_set_self (by rwa [← h.names, List.length_map] at hlt)] at hj
        rw [hself, ← Option.some.inj hj]
      · rw [List.getElem?_set_ne he] at hj
        have hj' := localSlot_bounds (h.lt_live hj)
        rw [hother _ hj'.1 (by omega) (by unfold Frame.localSlot; omega)]
        exact h.locals j x hj

/-- A declaration puts a word below the frame and leaves the others. -/
theorem declare {id : VarId} (h : Represents f env s)
    (hrsp : s.registers .rsp = slot (s.registers .rbp) (-f.live))
    (hfits : f.above + f.live < 2 ^ 61) (hp : Puts v s t) :
    Represents (f.declare id) (env.declare id v) t := by
  have hself : t.memory.word (slot (t.registers .rbp) (-f.live - 1)) = v := by
    rw [hp.memory, hp.rbp, hrsp, slot_slot]
    exact Memory.word_store_self _ _ _
  have hother : ∀ j : Int, -f.live ≤ j → j < f.above →
      t.memory.word (slot (t.registers .rbp) j) = s.memory.word (slot (s.registers .rbp) j) := by
    intro j hlow hhigh
    rw [hp.memory, hp.rbp, hrsp, slot_slot]
    exact Memory.word_store_apart _ _ (apart_slot _ (by omega) (by omega) (by omega))
  refine ⟨?_, h.paramCount, fun i w hi ↦ ?_, congrArg (id :: ·) h.names, fun j x hj ↦ ?_⟩
  · change env.receiver = if f.hasReceiver then _ else none
    rw [h.receiver]
    split
    · next hf => rw [hother 2 (by omega) (by have := two_lt_above hf; omega)]
    · rfl
  · have hi' := paramSlot_bounds (h.lt_paramCount hi)
    change t.memory.word (slot (t.registers .rbp) (f.paramSlot i)) = w
    rw [hother _ (by split at hi' <;> omega) hi'.2]
    exact h.params i w hi
  · have hslot : (f.declare id).localSlot j = (j : Int) - f.live - 1 := by
      unfold Frame.localSlot Frame.live Frame.declare
      rw [List.length_cons]
      omega
    rw [hslot]
    cases j with
    | zero =>
      cases hj
      rw [← hself]
      congr 2
      omega
    | succ j =>
      have hj' := localSlot_bounds (h.lt_live hj)
      rw [← h.locals j x hj, ← hother _ hj'.1 (by omega)]
      congr 2
      unfold Frame.localSlot
      omega

/-- At the end of a scope the locals from before it are left. -/
theorem leave {new : List VarId} (h : Represents (f.extended new) env s)
    (hrbp : t.registers .rbp = s.registers .rbp) (hm : t.memory = s.memory) :
    Represents f (env.leave f.live) t := by
  have hlength : env.locals.length = new.length + f.live := by
    rw [← List.length_map Prod.fst, h.names, ← f.live_extended new, Frame.live]
  have hcount : env.locals.length - f.live = new.length := by omega
  refine ⟨?_, h.paramCount, fun i w hi ↦ ?_, ?_, fun j x hj ↦ ?_⟩
  · rw [hm, hrbp]
    exact h.receiver
  · rw [hm, hrbp]
    exact h.params i w hi
  · rw [Source.Environment.leave, hcount, List.map_drop, h.names, Frame.extended, List.drop_left]
  · rw [Source.Environment.leave, hcount, List.getElem?_drop] at hj
    rw [hm, hrbp, ← h.locals _ x hj]
    congr 2
    rw [Frame.localSlot, Frame.localSlot, Frame.live_extended]
    omega

end Represents

namespace Resting

variable {f : Frame} {env env' : Source.Environment} {s t : State} {v : Word} {count reach : Nat}

/-- A frame at rest has the stack right below its locals. -/
theorem stacked (h : Resting f env s) (hfits : f.above + reach ≤ 2 ^ 61)
    (hle : f.live + count ≤ reach) : Stacked f f.live count s :=
  ⟨h.rsp, Nat.le_refl _, by omega⟩

/-- Work below the stack pointer leaves the frame. -/
theorem kept (h : Resting f env s) (hfits : f.above + reach ≤ 2 ^ 61)
    (hle : f.live + count ≤ reach) (hk : Kept count s t) :
    Resting f env t ∧ Steady f.above reach s t := by
  refine ⟨⟨?_, h.frame.congr (h.stacked hfits hle) hk.rbp hk.words⟩,
    .of_outside h.rsp hle hk.rbp hk.words⟩
  rw [hk.rsp, h.rsp, hk.rbp]

/-- A pushed word is the slot of a new local. -/
theorem declare (h : Resting f env s) (id : VarId) (hfits : f.above + reach ≤ 2 ^ 61)
    (hle : f.live < reach) (hp : Puts v s t) :
    Resting (f.declare id) (env.declare id v) t ∧ Steady f.above reach s t := by
  refine ⟨⟨?_, h.frame.declare h.rsp (by omega) hp⟩, ?_⟩
  · rw [hp.rsp, h.rsp, slot_slot, hp.rbp, Frame.live_declare]
    congr 1
    omega
  · have hm : t.memory = s.memory.store (slot (s.registers .rbp) (-f.live + -1)) v := by
      rw [hp.memory, h.rsp, slot_slot]
    exact .of_store (by omega) (by omega) (by omega) (by omega) hp.rbp hm

/-- A variable is written. -/
theorem set {k : Int} (h : Resting f env s) (hset : SetsSlot f env v k env')
    (hfits : f.above + reach ≤ 2 ^ 61) (hle : f.live ≤ reach)
    (hrsp : t.registers .rsp = s.registers .rsp) (hrbp : t.registers .rbp = s.registers .rbp)
    (hm : t.memory = s.memory.store (slot (s.registers .rbp) k) v) :
    Resting f env' t ∧ Steady f.above reach s t := by
  obtain ⟨hlow, hhigh, h0, h1⟩ := hset.bounds
  refine ⟨⟨?_, h.frame.set hset (by omega) hrbp hm⟩, .of_store (by omega) hhigh h0 h1 hrbp hm⟩
  rw [hrsp, hrbp, h.rsp]

end Resting

end NativeBackend
