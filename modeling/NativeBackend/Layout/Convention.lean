import NativeBackend.Machine.Instruction

/-!
# Calling convention

The registers with a fixed job, the shape of a frame, and the numbers of the
operating system calls that generated code makes.
-/

namespace NativeBackend.Convention

open Machine

/-- Parameters lie above this register and locals below it. -/
def frameBase : Register := .rbp

/-- The top of the machine stack, on which every expression leaves one word. -/
def stackPointer : Register := .rsp

/-- The result of a routine, and the left operand of an operator. -/
def result : Register := .rax

/-- The right operand of an operator, and the index of an element. -/
def scratch : Register := .rcx

/-- The value that is stored into an element. -/
def stored : Register := .rbx

/-- The truth of a comparison. -/
def flag : Register := .rdx

/-- The bytes of a word. -/
def wordSize : Nat := 8

/-- The bytes of the saved frame base and the return address. -/
def frameHeaderSize : Nat := 16

/-- The offset of the receiver of an instance routine from the frame base. -/
def receiverOffset : Int := frameHeaderSize

/-- The offset of the first local; later ones lie below it. -/
def firstLocalOffset : Int := -wordSize

/-- The call that writes bytes to a file. -/
def sysWrite : Nat := 1

/-- The call that maps memory. -/
def sysMap : Nat := 9

/-- The call that ends the process. -/
def sysExit : Nat := 60

/-- The file of standard output. -/
def standardOutput : Nat := 1

/-- The bytes of every allocation. -/
def allocationSize : Nat := 0x1000

/-- Mapped memory can be read and written. -/
def mapProtection : Nat := 0x3

/-- Mapped memory is private and belongs to no file. -/
def mapFlags : Nat := 0x22

end NativeBackend.Convention
