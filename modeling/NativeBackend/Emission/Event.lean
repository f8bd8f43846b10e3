import NativeBackend.Diagnostic
import NativeBackend.Text.Hex

/-!
# Events

What happens during generation, in order, for whoever watches it.
-/

namespace NativeBackend

/-- How much an event matters. -/
inductive Level
  | trace | debug | info | warn
  deriving DecidableEq, Repr

/-- The written name of a level. -/
def Level.name : Level → String
  | trace => "trace"
  | debug => "debug"
  | info => "info"
  | warn => "warn"

/-- Something that happens during generation. -/
inductive Event
  /-- A branch or call got its target. -/
  | retargeted (index origin target : Nat)
  /-- A routine starts, and calls that waited for it were aimed at it. -/
  | routineStarted (name : String) (start waiting : Nat)
  /-- A routine of the program is complete. -/
  | routineFinished (name : String) (bytes deepest : Nat)
  /-- A call names a routine that the program does not declare. -/
  | undeclaredCall (name : String)
  /-- A problem was reported. -/
  | reported (diagnostic : Diagnostic)
  /-- All code is complete. -/
  | generated (codeLength routines : Nat) (entry : Option Nat) (staticSize : Nat)
  deriving DecidableEq, Repr

namespace Event

/-- How much the event matters. -/
def level : Event → Level
  | retargeted _ _ _ | routineFinished _ _ _ => .trace
  | routineStarted _ _ _ | undeclaredCall _ => .debug
  | reported _ => .warn
  | generated _ _ _ _ => .info

/-- An offset that may be missing. -/
def offsetText : Option Nat → String
  | some n => "Some(" ++ toString n ++ ")"
  | none => "None"

/-- The event in words. -/
def message : Event → String
  | retargeted index origin target =>
    "patch #" ++ toString index ++ " at " ++ Hex.marked origin ++ " -> " ++ Hex.marked target
  | routineStarted name start waiting =>
    "routine " ++ name ++ " at " ++ Hex.marked start ++ " (" ++ toString waiting
      ++ " earlier call site(s) patched)"
  | routineFinished name bytes deepest =>
    "routine " ++ name ++ ": " ++ toString bytes ++ " bytes, max operand depth " ++ toString deepest
  | undeclaredCall name => "call to undeclared routine " ++ name
  | reported diagnostic => diagnostic.message
  | generated codeLength routines entry staticSize =>
    "generated " ++ toString codeLength ++ " bytes in " ++ toString routines ++ " routines, entry "
      ++ offsetText entry ++ ", " ++ toString staticSize ++ " bytes of statics"

end Event

end NativeBackend
