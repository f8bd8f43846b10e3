import NativeBackend.Proofs.Code.Paths
import NativeBackend.Proofs.Layout.FrameSlots

/-!
# Opening a frame

The instructions that open the frame of a routine save the frame base of the caller and
make the stack pointer the new one. The words that the caller has passed stay as they
are, above the saved frame base and the return address.
-/

namespace NativeBackend

open Machine NativeBackend.Tree Execution

/-- The words that a caller passes to a method: its receiver, if it has one, and its arguments. -/
def passedWords (m : MethodDecl) : Nat := m.params.length + if m.isStatic then 0 else 1

/-- The processor after the instructions that open a frame. -/
def opened (s : State) : State :=
  (s.push (s.registers .rbp)).set .rbp (slot (s.registers .rsp) (-1))

/-- Above the base of a frame lie the passed words, the saved base and the return address. -/
theorem above_ofMethod (m : MethodDecl) : (Frame.ofMethod m).above = passedWords m + 2 := by
  unfold Frame.above Frame.ofMethod passedWords
  cases m.isStatic <;> rfl

section Opened

variable {code : CodeStream} {base : UInt64} {o stop : Nat}

/-- Code that opens a frame leads to what comes after. -/
theorem Located.opens {steps : List Step}
    (h : Located code base o (Builtin.prologue.map .frame ++ steps) stop) (s : State) :
    ∃ start, Located code base start steps stop ∧ Reaches code ⟨o, s⟩ ⟨start, opened s⟩ := by
  obtain ⟨e₁, hi₁, rfl, hat₁, h⟩ := h.frame
  obtain ⟨e₂, hi₂, hs₂, hat₂, h⟩ := h.frame
  have h₁ : Reaches code ⟨e₁.start, s⟩ ⟨e₁.finish, s.push (s.registers .rbp)⟩ :=
    .of_perform hat₁ (perform_of_execute (by rw [hi₁]; rfl))
  have h₂ : Reaches code ⟨e₂.start, s.push (s.registers .rbp)⟩ ⟨e₂.finish, opened s⟩ :=
    .of_perform (hs₂ ▸ hat₂) (perform_of_execute (by rw [hi₂]; rfl))
  rw [hs₂] at h₂
  exact ⟨_, h, h₁.trans h₂⟩

/-- An opened frame has the stack pointer at the saved base. -/
theorem rsp_opened (s : State) : (opened s).registers .rsp = slot (s.registers .rsp) (-1) := by
  rw [opened, State.registers_set_ne _ _ (by decide), State.rsp_push]

/-- So it has the frame base. -/
theorem rbp_opened (s : State) : (opened s).registers .rbp = slot (s.registers .rsp) (-1) :=
  State.registers_set_self _ _ _

/-- The words at the stack pointer and above it stay as they are. -/
theorem word_opened {s : State} {k : Int} (hlow : 0 ≤ k) (hhigh : k + 1 < 2 ^ 61) :
    (opened s).memory.word (slot (s.registers .rsp) k) =
      s.memory.word (slot (s.registers .rsp) k) :=
  Memory.word_store_apart _ _ (apart_slot _ (by omega) (by omega) (by omega))

/-- The frame base of the caller is saved at the new one. -/
theorem saved_opened (s : State) :
    (opened s).memory.word ((opened s).registers .rbp) = s.registers .rbp := by
  rw [rbp_opened]
  exact Memory.word_store_self ..

/-- The return address is above it. -/
theorem return_opened (s : State) :
    (opened s).memory.word (slot ((opened s).registers .rbp) 1) = s.top := by
  have hword := word_opened (s := s) (Int.le_refl 0) (by omega)
  rw [slot_zero] at hword
  rw [rbp_opened, slot_slot, State.top, ← hword]
  exact congrArg (opened s).memory.word (slot_zero _)

end Opened

end NativeBackend
