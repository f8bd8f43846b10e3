import NativeBackend.Address
import NativeBackend.Emission.Generation

/-!
# Arguments

The two commands and their options. An option's value follows it as the next
argument or after an equals sign; the value of a one-letter option may also follow the
letter at once. A value in an argument of its own must not look like an option. Options
and flags are given at most once, and two dashes alone end them.
-/

namespace NativeBackend.CommandLine

/-- What the program is asked to do. -/
inductive Command
  /-- Write an executable, and print its listing too if asked. -/
  | compile (input output : String) (listing : Bool) (options : Options)
  /-- Print the listing. -/
  | listing (input : String) (options : Options)
  deriving DecidableEq, Repr

/-- An option that has a value. -/
inductive OptionName
  | output | loadAddress | entryName | entryClass
  deriving DecidableEq, Repr

/-- The option as written in full. -/
def OptionName.text : OptionName → String
  | output => "--output"
  | loadAddress => "--load-address"
  | entryName => "--entry-name"
  | entryClass => "--entry-class"

/-- Why arguments are refused. -/
inductive UsageFault
  | noCommand
  | unknownCommand (name : String)
  | unexpected (argument : String)
  | missingValue (option : OptionName)
  | repeated (option : String)
  | badAddress (cause : Address.Fault)
  | emptyPath
  | missing (argument : String)
  deriving DecidableEq, Repr

/-- The cause in words. -/
def UsageFault.message : UsageFault → String
  | noCommand => "a command is required"
  | unknownCommand name => "unrecognized command '" ++ name ++ "'"
  | unexpected argument => "unexpected argument '" ++ argument ++ "'"
  | missingValue option => "a value is required for '" ++ option.text ++ "'"
  | repeated option => "the argument '" ++ option ++ "' cannot be used multiple times"
  | badAddress cause => "invalid value for '--load-address': " ++ cause.message
  | emptyPath => "a path must not be empty"
  | missing argument => "the required argument '" ++ argument ++ "' was not provided"

/-- What ends the reading of arguments early. -/
inductive Stop
  | help
  | fault (cause : UsageFault)
  deriving DecidableEq, Repr

/-- What has been read of the arguments of a command. -/
structure Collected where
  input : Option String := none
  output : Option String := none
  listing : Bool := false
  loadAddress : Option UInt64 := none
  entryName : Option String := none
  entryClass : Option String := none
  deriving DecidableEq, Repr

namespace Collected

/-- The input path. -/
def setInput (c : Collected) (path : String) : Except Stop Collected :=
  if c.input.isSome then .error (.fault (.unexpected path))
  else if path.isEmpty then .error (.fault .emptyPath)
  else .ok { c with input := some path }

/-- A value of an option. -/
def setOption (c : Collected) (o : OptionName) (value : String) : Except Stop Collected :=
  match o with
  | .output =>
    if c.output.isSome then .error (.fault (.repeated o.text))
    else if value.isEmpty then .error (.fault .emptyPath)
    else .ok { c with output := some value }
  | .loadAddress =>
    if c.loadAddress.isSome then .error (.fault (.repeated o.text))
    else
      match Address.parse value with
      | .ok address => .ok { c with loadAddress := some address }
      | .error cause => .error (.fault (.badAddress cause))
  | .entryName =>
    if c.entryName.isSome then .error (.fault (.repeated o.text))
    else .ok { c with entryName := some value }
  | .entryClass =>
    if c.entryClass.isSome then .error (.fault (.repeated o.text))
    else .ok { c with entryClass := some value }

/-- The flag that asks for a listing. -/
def setListing (c : Collected) : Except Stop Collected :=
  if c.listing then .error (.fault (.repeated "--listing")) else .ok { c with listing := true }

/-- What was asked of generation. -/
def options (c : Collected) : Options :=
  { loadAddress := c.loadAddress.getD Image.defaultLoadAddress
    entryName := c.entryName.getD "main"
    entryClass := c.entryClass }

end Collected

/-- Which command arguments belong to. -/
inductive CommandName
  | compile | listing
  deriving DecidableEq, Repr

/-- One argument as it looks before its meaning is known. -/
inductive Shape
  /-- Two dashes alone. -/
  | endOfOptions
  /-- A name after two dashes, and a value after an equals sign if there is one. -/
  | long (name : String) (value : Option String)
  /-- A letter after one dash and what follows it. -/
  | short (letter : Char) (rest : List Char)
  | plain
  deriving DecidableEq, Repr

/-- A name and the value after its first equals sign. -/
def splitValue (cs : List Char) : String × Option String :=
  match cs.dropWhile (· != '=') with
  | [] => (String.ofList cs, none)
  | _ :: value => (String.ofList (cs.takeWhile (· != '=')), some (String.ofList value))

/-- How an argument looks. -/
def shapeOf (argument : String) : Shape :=
  match argument.toList with
  | ['-', '-'] => .endOfOptions
  | '-' :: '-' :: cs => .long (splitValue cs).1 (splitValue cs).2
  | '-' :: c :: cs => .short c cs
  | _ => .plain

/-- The option of a command that a name after two dashes stands for. -/
def longOption? : CommandName → String → Option OptionName
  | .compile, "output" => some .output
  | _, "load-address" => some .loadAddress
  | _, "entry-name" => some .entryName
  | _, "entry-class" => some .entryClass
  | _, _ => none

/-- The value that follows a one-letter option at once. -/
def attachedValue? : List Char → Option String
  | [] => none
  | '=' :: cs => some (String.ofList cs)
  | cs => some (String.ofList cs)

/-- What one argument that is no waited-for value does: a new collection, and the option that waits
for its value if one does. -/
def takeArgument (command : CommandName) (c : Collected) (argument : String) :
    Shape → Except Stop (Collected × Option OptionName)
  | .endOfOptions => .ok (c, none)
  | .long "help" none => .error .help
  | .long name value =>
    if name = "listing" ∧ command = .compile ∧ value = none then c.setListing.map (·, none)
    else
      match longOption? command name, value with
      | some o, some v => (c.setOption o v).map (·, none)
      | some o, none => .ok (c, some o)
      | none, _ => .error (.fault (.unexpected argument))
  | .short 'h' _ => .error .help
  | .short 'o' rest =>
    match command, attachedValue? rest with
    | .compile, some v => (c.setOption .output v).map (·, none)
    | .compile, none => .ok (c, some .output)
    | .listing, _ => .error (.fault (.unexpected argument))
  | .short _ _ => .error (.fault (.unexpected argument))
  | .plain => (c.setInput argument).map (·, none)

/-- The arguments after two dashes alone, none of which is an option. -/
def collectPlain (c : Collected) : List String → Except Stop Collected
  | [] => .ok c
  | argument :: rest =>
    match c.setInput argument with
    | .ok c => collectPlain c rest
    | .error stop => .error stop

/-- The arguments of a command, while an option may wait for its value. -/
def collect (command : CommandName) (c : Collected) (waiting : Option OptionName) :
    List String → Except Stop Collected
  | [] =>
    match waiting with
    | some o => .error (.fault (.missingValue o))
    | none => .ok c
  | argument :: rest =>
    match waiting, shapeOf argument with
    | some o, .plain =>
      match c.setOption o argument with
      | .ok c => collect command c none rest
      | .error stop => .error stop
    | some o, _ => .error (.fault (.missingValue o))
    | none, .endOfOptions => collectPlain c rest
    | none, shape =>
      match takeArgument command c argument shape with
      | .ok (c, waiting) => collect command c waiting rest
      | .error stop => .error stop

/-- The command that its arguments make complete. -/
def CommandName.complete (command : CommandName) (c : Collected) : Except Stop Command :=
  match command, c.input, c.output with
  | _, none, _ => .error (.fault (.missing "<INPUT>"))
  | .compile, some _, none => .error (.fault (.missing "--output <OUTPUT>"))
  | .compile, some input, some output => .ok (.compile input output c.listing c.options)
  | .listing, some input, _ => .ok (.listing input c.options)

/-- The names after a request for help. -/
def helpTopic : List String → Except Stop Command
  | [] => .error .help
  | name :: rest =>
    if name ∈ ["compile", "listing", "help"] ∧ rest = [] then .error .help
    else .error (.fault (.unknownCommand name))

/-- The command that all arguments ask for. -/
def parse : List String → Except Stop Command
  | [] => .error (.fault .noCommand)
  | "compile" :: rest => do CommandName.compile.complete (← collect .compile {} none rest)
  | "listing" :: rest => do CommandName.listing.complete (← collect .listing {} none rest)
  | "help" :: rest => helpTopic rest
  | argument :: _ =>
    match shapeOf argument with
    | .long "help" none | .short 'h' _ => .error .help
    | .plain => .error (.fault (.unknownCommand argument))
    | .endOfOptions => .error (.fault .noCommand)
    | _ => .error (.fault (.unexpected argument))

end NativeBackend.CommandLine
