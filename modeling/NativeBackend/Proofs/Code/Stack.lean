import NativeBackend.Proofs.Code.Operators
import NativeBackend.Proofs.Layout.FrameSlots

/-!
# The stack under running code

Code that works on the stack may overwrite a number of words just below the stack
pointer and nothing else. `Outside` says that a word is none of these, `Kept` that
two states differ at most there, and `Pushed` that one has in addition a word pushed.
`Stacked` places the stack pointer below a frame with room for more words, and
`Represents` says that the words of the frame are those of an environment.
-/

namespace NativeBackend

open Machine Convention Execution

/-- A word is none of the words just below a stack pointer. -/
def Outside (sp : Word) (count : Nat) (x : Word) : Prop :=
  ∀ k : Nat, k < count → Apart x (slot sp (-1 - k))

/-- A state differs from another at most in registers that carry no value over, in flags, and in
the words just below the stack pointer. -/
structure Kept (count : Nat) (s t : State) : Prop where
  rsp : t.registers .rsp = s.registers .rsp
  rbp : t.registers .rbp = s.registers .rbp
  words : ∀ x, Outside (s.registers .rsp) count x → t.memory.word x = s.memory.word x

/-- A word was pushed, and apart from it a state is kept. -/
structure Pushed (count : Nat) (v : Word) (s t : State) : Prop where
  rsp : t.registers .rsp = slot (s.registers .rsp) (-1)
  rbp : t.registers .rbp = s.registers .rbp
  top : t.top = v
  words : ∀ x, Outside (s.registers .rsp) count x → t.memory.word x = s.memory.word x

/-- A frame with a number of words below its base and room for more. -/
structure Stacked (f : Frame) (depth room : Nat) (s : State) : Prop where
  rsp : s.registers .rsp = slot (s.registers .rbp) (-depth)
  live : f.live ≤ depth
  /-- The stack does not reach around the address space. -/
  fits : depth + room + f.above ≤ 2 ^ 61

/-- The words of a frame are those of an environment. -/
structure Represents (f : Frame) (env : Source.Environment) (s : State) : Prop where
  receiver : env.receiver =
    if f.hasReceiver then some (s.memory.word (slot (s.registers .rbp) 2)) else none
  paramCount : env.params.length = f.paramCount
  params : ∀ i v, env.params[i]? = some v →
    s.memory.word (slot (s.registers .rbp) (f.paramSlot i)) = v
  names : env.locals.map Prod.fst = f.locals
  locals : ∀ k x, env.locals[k]? = some x →
    s.memory.word (slot (s.registers .rbp) (f.localSlot k)) = x.2

variable {sp x v w : Word} {count more : Nat} {s t u : State}

namespace Outside

/-- A word outside more words is outside fewer. -/
theorem mono (h : Outside sp count x) (hle : more ≤ count) : Outside sp more x :=
  fun k hk ↦ h k (by omega)

/-- A word outside is so for the words below the first one. -/
theorem below (h : Outside sp (count + 1) x) : Outside (slot sp (-1)) count x := by
  intro k hk
  have ha := h (k + 1) (by omega)
  rw [slot_slot]
  have he : (-1 : Int) - ((k + 1 : Nat) : Int) = -1 + (-1 - k) := by omega
  rwa [he] at ha

/-- A word at or above the stack pointer, within the address space. -/
theorem of_slot (base : Word) {i d : Int} (hd : d ≤ i) (hi : i - d + count < 2 ^ 61) :
    Outside (slot base d) count (slot base i) := by
  intro k hk
  rw [slot_slot]
  exact apart_slot base (by omega) (by omega) (by omega)

end Outside

namespace Kept

/-- A state is kept while nothing happens. -/
theorem refl (s : State) : Kept count s s := ⟨rfl, rfl, fun _ _ ↦ rfl⟩

/-- Pushing onto a kept state. -/
theorem puts (h : Kept count s t) (hp : Puts v t u) (hc : 0 < count) : Pushed count v s u := by
  refine ⟨?_, ?_, ?_, ?_⟩
  · rw [hp.rsp, h.rsp]
  · rw [hp.rbp, h.rbp]
  · rw [State.top, hp.rsp, hp.memory, Memory.word_store_self]
  · intro x hx
    have ha : Apart x (slot (s.registers .rsp) (-1)) := by simpa using hx 0 hc
    rw [hp.memory, h.rsp, Memory.word_store_apart _ _ ha, h.words x hx]

end Kept

namespace Pushed

/-- Code that overwrites fewer words may overwrite more. -/
theorem mono (h : Pushed more v s t) (hle : more ≤ count) : Pushed count v s t :=
  ⟨h.rsp, h.rbp, h.top, fun x hx ↦ h.words x (hx.mono hle)⟩

private theorem kept_of_rsp (h : Pushed count v s t)
    (hrsp : u.registers .rsp = slot (t.registers .rsp) 1)
    (hrbp : u.registers .rbp = t.registers .rbp) (hm : u.memory = t.memory) : Kept count s u := by
  refine ⟨?_, ?_, ?_⟩
  · rw [hrsp, h.rsp, slot_slot]
    exact slot_zero _
  · rw [hrbp, h.rbp]
  · intro x hx
    rw [hm, h.words x hx]

/-- Taking a pushed word off again. -/
theorem run_pop (h : Pushed count v s t) :
    ∃ u, run [.popReg result] t = .ok u ∧ u.registers .rax = v ∧ Kept count s u := by
  refine ⟨t.drop.set .rax t.top, rfl, ?_, ?_⟩
  · rw [State.registers_set_self, h.top]
  · apply h.kept_of_rsp
    · rw [State.registers_set_ne _ _ (by decide), State.rsp_drop]
    · rw [State.registers_set_ne _ _ (by decide), State.registers_drop _ (by decide)]
    · rfl

/-- Taking two pushed words off again. -/
theorem run_pop_two (h : Pushed count v s t) (k : Pushed more w t u) (hle : more < count)
    (hfits : more < 2 ^ 61) :
    ∃ u', run [.popReg scratch, .popReg result] u = .ok u' ∧
      u'.registers .rax = v ∧ u'.registers .rcx = w ∧ Kept count s u' := by
  let once := u.drop.set .rcx u.top
  have hrsp : once.registers .rsp = t.registers .rsp := by
    rw [State.registers_set_ne _ _ (by decide), State.rsp_drop, k.rsp, slot_slot]
    exact slot_zero _
  have hrbp : once.registers .rbp = t.registers .rbp := by
    rw [State.registers_set_ne _ _ (by decide), State.registers_drop _ (by decide), k.rbp]
  have htop : once.top = v := by
    have ho : Outside (slot (t.registers .rsp) 0) more (slot (t.registers .rsp) 0) :=
      .of_slot _ (by omega) (by omega)
    rw [slot_zero] at ho
    rw [State.top, hrsp, ← h.top]
    exact k.words _ ho
  have hp : Pushed count v s once := by
    refine ⟨hrsp.trans h.rsp, hrbp.trans h.rbp, htop, fun x hx ↦ ?_⟩
    have ho : Outside (t.registers .rsp) more x := h.rsp ▸ (hx.mono hle).below
    exact (k.words x ho).trans (h.words x hx)
  obtain ⟨u', hrun, hrax, hkept⟩ := hp.run_pop
  refine ⟨u', hrun, hrax, ?_, hkept⟩
  rw [← Except.ok.inj hrun]
  exact k.top

end Pushed

namespace Stacked

variable {f : Frame} {depth room : Nat}

/-- Where there is room for more words, there is for fewer. -/
theorem mono (h : Stacked f depth room s) (hle : more ≤ room) : Stacked f depth more s :=
  ⟨h.rsp, h.live, by have := h.fits; omega⟩

/-- A pushed word takes one word of the room. -/
theorem pushed (h : Stacked f depth (room + 1) s) (hp : Pushed count v s t) :
    Stacked f (depth + 1) room t := by
  refine ⟨?_, Nat.le_succ_of_le h.live, by have := h.fits; omega⟩
  rw [hp.rsp, h.rsp, slot_slot, hp.rbp]
  congr 1
  omega

/-- The words of a frame are not overwritten. -/
theorem outside (h : Stacked f depth room s) {k : Int} (hlow : -f.live ≤ k) (hhigh : k < f.above) :
    Outside (s.registers .rsp) room (slot (s.registers .rbp) k) := by
  have hl := h.live
  have hf := h.fits
  rw [h.rsp]
  exact Outside.of_slot _ (by omega) (by omega)

end Stacked

/-- A frame represents its environment as long as only words below the stack pointer change. -/
theorem Represents.congr {f : Frame} {env : Source.Environment} {depth room : Nat}
    (h : Represents f env s) (hs : Stacked f depth room s)
    (hrbp : t.registers .rbp = s.registers .rbp)
    (hw : ∀ x, Outside (s.registers .rsp) room x → t.memory.word x = s.memory.word x) :
    Represents f env t := by
  refine ⟨?_, h.paramCount, ?_, h.names, ?_⟩
  · rw [h.receiver, hrbp]
    split
    · next hr =>
      have ha : f.above = f.paramCount + 3 := by rw [Frame.above, if_pos hr]
      rw [hw _ (hs.outside (by omega) (by omega))]
    · rfl
  · intro i v hv
    have hi : i < f.paramCount := h.paramCount ▸ (List.getElem?_eq_some_iff.mp hv).1
    have ha := f.paramCount_lt_above
    rw [hrbp, hw _ (hs.outside ?_ ?_), h.params i v hv]
    · unfold Frame.paramSlot; omega
    · unfold Frame.paramSlot; omega
  · intro k x hx
    have hk : k < f.live := by
      rw [Frame.live, ← h.names, List.length_map]
      exact (List.getElem?_eq_some_iff.mp hx).1
    rw [hrbp, hw _ (hs.outside ?_ ?_), h.locals k x hx]
    · unfold Frame.localSlot; omega
    · unfold Frame.localSlot; omega

end NativeBackend
