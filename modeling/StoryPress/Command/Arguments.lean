import StoryPress.Route.Mode
import StoryPress.Text.Pieces

/-!
# Command-line options

A command has options, and no other arguments. An option with a value takes it from the same word or from the
next; a word that looks like an option is never a value. A value is checked when the next option is met, or at
the end: an unknown option is reported before a value that came earlier.
-/

namespace StoryPress

/-- Why arguments are refused. -/
inductive UsageFault where
  /-- A value is missing or empty where it may not be. -/
  | invalidValue
  /-- No option of the command, or not an option at all. -/
  | unknownArgument
  /-- An option is given twice that may be given once. -/
  | conflict
  /-- A value is not among those that are allowed. -/
  | rejectedValue
  /-- A flag is given a value. -/
  | unneededValue
  /-- No command, or none of this name. -/
  | noCommand
deriving DecidableEq, Inhabited, Repr

/-- What stops the reading of arguments: a fault, or that help is asked for instead. -/
inductive Stop where
  | fault (f : UsageFault)
  | help
  | version
deriving DecidableEq, Inhabited, Repr

/-- What an option expects. -/
inductive Expectation where
  | nothing
  | help
  | text
  /-- A path, which may not be empty. -/
  | path
  | mode
deriving DecidableEq, Inhabited

/-- An option of a command. -/
structure OptionSpec where
  name : String
  short : Option Char := none
  expects : Expectation := .nothing
  repeatable : Bool := false
deriving DecidableEq, Inhabited

namespace OptionSpec

def takesValue (o : OptionSpec) : Bool :=
  match o.expects with
  | .nothing | .help => false
  | .text | .path | .mode => true

/-- Whether a value can be used. -/
def check (o : OptionSpec) (value : String) : Except Stop Unit :=
  match o.expects with
  | .path => if value.isEmpty then .error (.fault .invalidValue) else .ok ()
  | .mode =>
    match RouteMode.parse value with
    | .ok _ => .ok ()
    | .error _ => .error (.fault .rejectedValue)
  | .nothing | .help | .text => .ok ()

end OptionSpec

/-- The option that every command has. -/
def helpOption : OptionSpec := { name := "help", short := some 'h', expects := .help }

/-- Options with their values, in order; a flag has an empty value. -/
abbrev Given := List (String × String)

namespace Given

def has (g : Given) (name : String) : Bool := g.any (·.1 == name)

def value? (g : Given) (name : String) : Option String := g.lookup name

def values (g : Given) (name : String) : List String := (g.filter (·.1 == name)).map (·.2)

end Given

/-- Arguments as far as they have been read. -/
structure ArgumentState where
  given : Given := []
  /-- The last option that takes its value from the next word, and the value if it has come. -/
  pending : Option (OptionSpec × Option String) := none
deriving Inhabited

namespace ArgumentState

/-- Records an option. -/
def record (s : ArgumentState) (o : OptionSpec) (value : String) : Except Stop ArgumentState := do
  if !o.repeatable && s.given.has o.name then .error (.fault .conflict)
  o.check value
  return { s with given := s.given ++ [(o.name, value)] }

/-- Records the option that has waited for its value. -/
def settle (s : ArgumentState) : Except Stop ArgumentState :=
  match s.pending with
  | none => .ok s
  | some (_, none) => .error (.fault .invalidValue)
  | some (o, some value) => { s with pending := none }.record o value

/-- Takes an option whose value, if it takes one, is in the same word or in the next. -/
def take (s : ArgumentState) (o : OptionSpec) (attached : Option String) : Except Stop ArgumentState := do
  let s ← s.settle
  match o.expects, attached with
  | .help, _ => .error .help
  | .nothing, _ => s.record o ""
  | _, some value => s.record o value
  | _, none => return { s with pending := some (o, none) }

/-- Takes a word with two hyphens, without these. -/
def takeLong (specs : List OptionSpec) (s : ArgumentState) (word : String) : Except Stop ArgumentState :=
  let (name, attached) :=
    match Text.splitFirst? '=' word with
    | some (name, value) => (name, some value)
    | none => (word, none)
  match specs.find? (·.name == name) with
  | none => .error (.fault .unknownArgument)
  | some o => if !o.takesValue && attached.isSome then .error (.fault .unneededValue) else s.take o attached

/-- Takes a word with one hyphen, without it: flags one after the other, and at most one option with a value,
which is what is left of the word. -/
def takeShort (specs : List OptionSpec) (s : ArgumentState) : List Char → Except Stop ArgumentState
  | [] => .ok s
  | c :: rest =>
    match specs.find? (·.short == some c) with
    | none => .error (.fault .unknownArgument)
    | some o =>
      if o.takesValue then
        match rest with
        | [] => s.take o none
        | '=' :: value => s.take o (some (String.ofList value))
        | value => s.take o (some (String.ofList value))
      else do takeShort specs (← s.take o none) rest

/-- Reads words one after the other. After two hyphens that stand alone, nothing may follow. -/
def read (specs : List OptionSpec) (s : ArgumentState) : List String → Except Stop ArgumentState
  | [] => s.settle
  | w :: rest =>
    match w.toList with
    | ['-', '-'] => if rest.isEmpty then s.settle else .error (.fault .unknownArgument)
    | '-' :: '-' :: name => do read specs (← s.takeLong specs (String.ofList name)) rest
    | '-' :: c :: more => do read specs (← s.takeShort specs (c :: more)) rest
    | _ =>
      match s.pending with
      | some (o, none) => read specs { s with pending := some (o, some w) } rest
      | _ => .error (.fault .unknownArgument)

end ArgumentState

/-- Reads the arguments of a command with these options. -/
def readArguments (specs : List OptionSpec) (words : List String) : Except Stop Given :=
  (({} : ArgumentState).read (helpOption :: specs) words).map (·.given)

end StoryPress
