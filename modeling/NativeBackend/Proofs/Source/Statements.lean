import NativeBackend.Proofs.Source.Evaluation

/-!
# Execution of statements

What a body of declarations, assignments, branches, loops and returns does, over
expressions of constants, locals and parameters. The live locals are a list with the
latest declaration first, and a name means the first of its declarations there; a
local is zero while its own initial value is computed. What a scope declares is gone
at its end. A loop may not end, so execution is given an amount of fuel.
-/

namespace NativeBackend.Source

open NativeBackend.Tree Execution

namespace Environment

/-- The environment with one more local. -/
def declare (env : Environment) (id : VarId) (v : Word) : Environment :=
  { env with locals := (id, v) :: env.locals }

/-- The environment with the earliest of its locals alone. -/
def leave (env : Environment) (count : Nat) : Environment :=
  { env with locals := env.locals.drop (env.locals.length - count) }

/-- The environment after an assignment to a parameter or to the latest declaration of a local. -/
def assign? (env : Environment) (v : Word) : Reference → Option Environment
  | .localName (.param position) =>
    if position.toNat < env.params.length then
      some { env with params := env.params.set position.toNat v }
    else none
  | .localName (.var id) =>
    ((env.locals.map Prod.fst).findIdx? (· == id)).map fun k ↦
      { env with locals := env.locals.set k (id, v) }
  | _ => none

end Environment

/-- How a statement ends. -/
inductive Ending
  | goesOn (env : Environment)
  /-- The routine returns, with a value or without. -/
  | returns (value : Option Word)

/-- Why a statement does not end. -/
inductive NoEnding
  | noValue (cause : NoValue)
  | outOfFuel
  deriving DecidableEq, Repr

/-- An ending at the end of a scope, where so many locals stay. -/
def Ending.leaving (count : Nat) : Ending → Ending
  | goesOn env => goesOn (env.leave count)
  | returns value => returns value

/-- What is done in a scope, with so many locals before it. -/
def inScope (count : Nat) (r : Except NoEnding Ending) : Except NoEnding Ending :=
  r.map (Ending.leaving count)

/-- What is done after something, unless that returns. -/
def andThen (r : Except NoEnding Ending) (k : Environment → Except NoEnding Ending) :
    Except NoEnding Ending := do
  match ← r with
  | .goesOn env => k env
  | .returns value => return .returns value

/-- The value of an expression in a statement. -/
def value (p : Program) (env : Environment) (e : Expression) : Except NoEnding Word :=
  (evaluate p env e).mapError .noValue

mutual

/-- What a statement does. -/
def execute (p : Program) : Nat → Environment → Statement → Except NoEnding Ending
  | 0, _, _ => .error .outOfFuel
  | fuel + 1, env, .block body => inScope env.locals.length (executeAll p fuel env body)
  | _ + 1, env, .declare decl init => do
    let v ← value p (env.declare decl.id 0) init
    return .goesOn (env.declare decl.id v)
  | _ + 1, env, .assign target e => do
    let v ← value p env e
    match env.assign? v target with
    | some env => return .goesOn env
    | none => .error (.noValue .meaningless)
  | _ + 1, _, .giveBack none => return .returns none
  | _ + 1, env, .giveBack (some e) => return .returns (some (← value p env e))
  | fuel + 1, env, .branch cond yes none => do
    let v ← value p env cond
    if v = 0 then return .goesOn env
    else inScope env.locals.length (execute p fuel env yes)
  | fuel + 1, env, .branch cond yes (some no) => do
    let v ← value p env cond
    if v = 0 then inScope env.locals.length (execute p fuel env no)
    else inScope env.locals.length (execute p fuel env yes)
  | fuel + 1, env, .loop cond body => do
    let v ← value p env cond
    if v = 0 then return .goesOn env
    else andThen (inScope env.locals.length (execute p fuel env body)) fun env ↦
      execute p fuel env (.loop cond body)
  | _ + 1, _, .assignElement _ _ _ | _ + 1, _, .call _ _ => .error (.noValue .meaningless)

/-- What statements in order do. -/
def executeAll (p : Program) : Nat → Environment → List Statement → Except NoEnding Ending
  | 0, _, _ => .error .outOfFuel
  | _ + 1, env, [] => return .goesOn env
  | fuel + 1, env, st :: sts =>
    andThen (execute p fuel env st) fun env ↦ executeAll p fuel env sts

end

mutual

/-- Whether a statement is made of declarations, assignments to variables, branches, loops and
returns over scalar expressions. -/
def isStructured : Statement → Bool
  | .block body => areStructured body
  | .declare _ init => isScalar init
  | .assign target e => isVariable target && isScalar e
  | .giveBack none => true
  | .giveBack (some e) => isScalar e
  | .branch cond yes none => isScalar cond && isStructured yes
  | .branch cond yes (some no) => isScalar cond && isStructured yes && isStructured no
  | .loop cond body => isScalar cond && isStructured body
  | .assignElement _ _ _ | .call _ _ => false

/-- Whether all of some statements are. -/
def areStructured : List Statement → Bool
  | [] => true
  | st :: sts => isStructured st && areStructured sts

end

/-- The locals that a statement leaves behind. -/
def declared : Statement → Nat
  | .declare _ _ => 1
  | _ => 0

mutual

/-- The most words in use at once in a statement, given how many locals are live before it and how
many words each statement in it needs above those that are live there. -/
def peak (need : Statement → Nat) (live : Nat) : Statement → Nat
  | .block body => max (live + need (.block body)) (peakAll need live body)
  | .branch cond yes none => max (live + need (.branch cond yes none)) (peak need live yes)
  | .branch cond yes (some no) =>
    max (live + need (.branch cond yes (some no))) (max (peak need live yes) (peak need live no))
  | .loop cond body => max (live + need (.loop cond body)) (peak need live body)
  | st => live + need st

/-- The most words in use at once in statements in order. -/
def peakAll (need : Statement → Nat) (live : Nat) : List Statement → Nat
  | [] => live
  | st :: sts => max (peak need live st) (peakAll need (live + declared st) sts)

end

end NativeBackend.Source
