import NativeBackend.CommandLine.Arguments
import NativeBackend.Image.Elf
import NativeBackend.Tree.Reading

/-!
# Running a command

A command reads one file and may write another. How files are reached is left open,
so that the same definition runs on a disk and on a file tree that is only a value.
-/

namespace NativeBackend.CommandLine

/-- How a command reaches files. A failure is given by the words of the system for it. -/
structure Files (m : Type → Type) where
  /-- The text of the file at a path. -/
  read : String → m (Except String String)
  /-- An executable file at a path. -/
  write : String → List UInt8 → m (Except String Unit)

/-- Why a run fails. -/
inductive Failure
  | unreadable (path cause : String)
  | invalidTree (path : String)
  | compilation (fault : Fault)
  | unwritable (path cause : String)
  deriving DecidableEq, Repr

namespace Failure

/-- What was being done. -/
def headline : Failure → String
  | unreadable path _ => "Failed to read " ++ path
  | invalidTree path => path ++ ": invalid program tree"
  | compilation _ => "Compilation failed"
  | unwritable path _ => "Failed to write output to " ++ path

/-- What stood in the way, the nearest cause first. -/
def causes : Failure → List String
  | unreadable _ cause => [cause]
  | invalidTree _ => []
  | compilation fault => [fault.message]
  | unwritable _ cause => ["I/O error: " ++ cause, cause]

/-- A cause under a mark, with its further lines set in as far. -/
def causeText (mark indent cause : String) : String :=
  mark ++ String.intercalate ("\n" ++ indent) (cause.splitOn "\n")

/-- The causes in lines; several are numbered. -/
def causeLines : List String → List String
  | [] => []
  | [cause] => [causeText "    " "    " cause]
  | several =>
    several.zipIdx.map fun (cause, i) ↦ causeText ("    " ++ toString i ++ ": ") "       " cause

/-- The failure as it is printed. -/
def text (f : Failure) : String :=
  "Error: " ++ f.headline
    ++ (if f.causes.isEmpty then "" else "\n\nCaused by:\n")
    ++ String.intercalate "\n" (causeLines f.causes) ++ "\n"

end Failure

/-- How to use the program. -/
def helpText : String :=
  "Compiles resolved miniJava programs to x86-64 Linux executables\n\n"
    ++ "Usage: <COMMAND>\n\n"
    ++ "Commands:\n"
    ++ "  compile  Compile a program tree into an executable\n"
    ++ "  listing  Print the generated instructions without writing an executable\n"
    ++ "  help     Print this message or the help of the given subcommand(s)\n\n"
    ++ "Options:\n"
    ++ "  -h, --help  Print help\n"

/-- The code of a program without reported problems. -/
def generateChecked (p : Tree.Program) (o : Options) : Except Failure Code :=
  let g := generate p o
  match g.result with
  | .error fault => .error (.compilation fault)
  | .ok code =>
    if g.reporter.hasErrors then .error (.compilation (.compilationFailed g.reporter.diagnostics))
    else .ok code

/-- The program in the text of a file. -/
def programOf (path : String) : Except String String → Except Failure Tree.Program
  | .error cause => .error (.unreadable path cause)
  | .ok text =>
    match Tree.Program.read? text with
    | some p => .ok p
    | none => .error (.invalidTree path)

/-- The line that tells of a written executable. -/
def compiledLine (input output : String) (i : Image) : String :=
  "Compiled " ++ input ++ " -> " ++ output ++ " (" ++ toString i.code.length
    ++ " bytes of code, entry " ++ Hex.marked i.entryAddress.toNat ++ ")\n"

/-- A run of a command: what it prints, and the failure that ended it if one did. -/
def Command.run {m : Type → Type} [Monad m] (files : Files m) :
    Command → m (String × Option Failure)
  | .listing input o => do
    match programOf input (← files.read input) >>= (generateChecked · o) with
    | .error failure => return ("", some failure)
    | .ok code => return (code.listing o.loadAddress, none)
  | .compile input output printing o => do
    match programOf input (← files.read input) >>= (generateChecked · o) with
    | .error failure => return ("", some failure)
    | .ok code =>
      let lines := if printing then code.listing o.loadAddress else ""
      match Image.ofGenerated code o.loadAddress with
      | .error fault => return (lines, some (.compilation fault))
      | .ok image =>
        match ← files.write output image.encode with
        | .error cause => return (lines, some (.unwritable output cause))
        | .ok () => return (lines ++ compiledLine input output image, none)

/-- How a run of the program ends, apart from what it does to files. -/
inductive Outcome
  /-- A command ran, printed something and may have failed. -/
  | ran (output : String) (failure : Option Failure)
  /-- Help was asked for. -/
  | help
  /-- The arguments ask for nothing that can be done. -/
  | refused (cause : UsageFault)
  deriving DecidableEq, Repr

namespace Outcome

/-- The exit status. -/
def status : Outcome → Nat
  | ran _ none | help => 0
  | ran _ (some _) => 1
  | refused _ => 2

/-- What is printed as output. -/
def output : Outcome → String
  | ran text _ => text
  | help => helpText
  | refused _ => ""

/-- What is printed as errors. -/
def errors : Outcome → String
  | ran _ none | help => ""
  | ran _ (some failure) => failure.text
  | refused cause => "error: " ++ cause.message ++ "\n"

end Outcome

/-- A run of the program. -/
def run {m : Type → Type} [Monad m] (files : Files m) (arguments : List String) : m Outcome :=
  match parse arguments with
  | .error .help => return .help
  | .error (.fault cause) => return .refused cause
  | .ok command => do
    let (output, failure) ← command.run files
    return .ran output failure

end NativeBackend.CommandLine
