import NativeBackend.Text.Quoted

/-!
# Diagnostics

What is wrong with a program as its author would be told. Diagnostics are collected
rather than thrown, so that one run can report all it finds.
-/

namespace NativeBackend

/-- A problem of a program. -/
inductive Diagnostic
  /-- No method has the shape of an entry. -/
  | noEntry (name : String)
  /-- Several methods have the shape of an entry. -/
  | manyEntries (name : String) (candidates : List String)
  /-- A routine is called that never starts. -/
  | unresolvedCall (routine : String) (sites : Nat)
  deriving DecidableEq, Repr

namespace Diagnostic

/-- The problem in words. -/
def message : Diagnostic → String
  | noEntry name =>
    "no entry routine `" ++ name ++ "` found (expected `public static void " ++ name
      ++ "(String[] args)`)"
  | manyEntries name candidates =>
    "multiple entry routines named `" ++ name ++ "`: " ++ String.intercalate ", " candidates
  | unresolvedCall routine sites =>
    "call to undefined routine `" ++ routine ++ "` (" ++ toString sites ++ " call site(s))"

/-- The kind of problem. -/
def kind : Diagnostic → String
  | noEntry _ => "NoEntryPoint"
  | manyEntries _ _ => "MultipleEntryPoints"
  | unresolvedCall _ _ => "UnresolvedCall"

/-- The problem with all its parts named. -/
def describe (d : Diagnostic) : String :=
  match d with
  | noEntry name => d.kind ++ " \x7b name: " ++ Quoted.text name ++ " \x7d"
  | manyEntries name candidates =>
    d.kind ++ " \x7b name: " ++ Quoted.text name ++ ", candidates: " ++ Quoted.list candidates
      ++ " \x7d"
  | unresolvedCall routine sites =>
    d.kind ++ " \x7b routine: " ++ Quoted.text routine ++ ", sites: " ++ toString sites ++ " \x7d"

/-- Several problems with all their parts named. -/
def describeAll (ds : List Diagnostic) : String :=
  "[" ++ String.intercalate ", " (ds.map describe) ++ "]"

/-- Several problems in one line of words. -/
def summary (ds : List Diagnostic) : String := String.intercalate "; " (ds.map message)

end Diagnostic

/-- The problems found so far and not yet taken. -/
structure Reporter where
  diagnostics : List Diagnostic
  deriving DecidableEq, Repr

namespace Reporter

/-- The reporter before anything is found. -/
def empty : Reporter := ⟨[]⟩

/-- The reporter with one more problem. -/
def report (r : Reporter) (d : Diagnostic) : Reporter := ⟨r.diagnostics ++ [d]⟩

/-- Whether anything was found. -/
def hasErrors (r : Reporter) : Bool := !r.diagnostics.isEmpty

/-- All problems found, and the reporter without them. -/
def drain (r : Reporter) : List Diagnostic × Reporter := (r.diagnostics, empty)

end Reporter

end NativeBackend
