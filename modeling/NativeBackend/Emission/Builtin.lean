import NativeBackend.Layout.Convention

/-!
# Built-in routines

Routines that every program carries, called by name like its own, and the
instructions that open and close a frame.
-/

namespace NativeBackend.Builtin

open Machine Instruction Convention

/-- The name of the routine that allocates. -/
def allocateName : String := "_alloc"

/-- The name of the routine that writes a byte. -/
def printName : String := "System.out.println"

/-- A small constant as an immediate value. -/
def immediate (n : Nat) : Int32 := Int32.ofNat n

/-- Opens a frame. -/
def prologue : List Instruction := [pushReg frameBase, move frameBase stackPointer]

/-- Closes a frame and returns. -/
def epilogue : List Instruction := [move stackPointer frameBase, popReg frameBase, ret]

/-- Ends the process with status zero; the entry has nowhere to return to. -/
def exit : List Instruction :=
  [setReg result (immediate sysExit), aluReg .xor .rdi .rdi, syscall]

/-- Maps fresh memory, filled with zeros, and returns its address. Every allocation has the same
size, whatever it is for. -/
def allocate : List Instruction :=
  [setReg result (immediate sysMap), aluReg .xor .rdi .rdi,
    setReg .rsi (immediate allocationSize), setReg .rdx (immediate mapProtection),
    setReg .r10 (immediate mapFlags), setReg .r8 (-1), aluReg .xor .r9 .r9, syscall, ret]

/-- Writes the low byte of its one argument to standard output, straight from the caller's
stack. -/
def print : List Instruction :=
  prologue
    ++ [setReg result (immediate sysWrite), setReg .rdi (immediate standardOutput),
      address .rsi frameBase (immediate frameHeaderSize), setReg .rdx 1, syscall]
    ++ epilogue

/-- The built-in routines in the order they are emitted. -/
def routines : List (String × List Instruction) := [(allocateName, allocate), (printName, print)]

end NativeBackend.Builtin
