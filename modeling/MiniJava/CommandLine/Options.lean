/-!
# Command-line options

Arguments are read from left to right. The first one that is wrong, or that asks
for help or for the version, decides what happens. Options with a value take it
from the rest of their argument or from the next one; `--` ends the options.
-/

namespace MiniJava.CommandLine

/-- What the arguments ask of a compilation. -/
structure Options where
  file? : Option String
  output? : Option String
  isPretty : Bool
  isVerbose : Bool
  deriving DecidableEq, Repr

/-- What a run of the program is for. -/
inductive Request
  | compile (options : Options)
  | help
  | version
  /-- The arguments make no sense. -/
  | misuse
  deriving DecidableEq, Repr

namespace Options

/-- No option given. -/
def none : Options := ⟨.none, .none, false, false⟩

/-- Where the executable goes. -/
def output (o : Options) : String := o.output?.getD "a.out"

/-- Sets the source file, which must be given once and not be empty. -/
def setFile? (o : Options) (path : String) : Option Options :=
  if o.file?.isSome || path.isEmpty then .none else some { o with file? := some path }

/-- Sets the output, which may be given once and must not be empty. -/
def setOutput? (o : Options) (path : String) : Option Options :=
  if o.output?.isSome || path.isEmpty then .none else some { o with output? := some path }

/-- Sets a flag, which may be given once. -/
def setPretty? (o : Options) : Option Options :=
  if o.isPretty then .none else some { o with isPretty := true }

/-- Sets a flag, which may be given once. -/
def setVerbose? (o : Options) : Option Options :=
  if o.isVerbose then .none else some { o with isVerbose := true }

end Options

/-- What one argument amounts to. -/
inductive Argument
  /-- The end of the options. -/
  | endOfOptions
  /-- A long option, with the value that an equals sign attaches to it. -/
  | long (name : String) (value? : Option String)
  /-- Short options in one argument. -/
  | short (letters : List Char)
  /-- Anything else, a single dash included. -/
  | plain (text : String)
  deriving DecidableEq, Repr

/-- Splits a long option at its first equals sign. -/
def longOption (text : List Char) : Argument :=
  .long (String.ofList (text.takeWhile (· ≠ '=')))
    (match text.dropWhile (· ≠ '=') with
      | [] => none
      | _ :: value => some (String.ofList value))

/-- Classifies an argument. -/
def Argument.ofText (text : String) : Argument :=
  match text.toList with
  | ['-', '-'] => .endOfOptions
  | '-' :: '-' :: name => longOption name
  | '-' :: letter :: letters => .short (letter :: letters)
  | _ => .plain text

/-- How reading goes on behind an argument. -/
inductive Reading
  /-- With more options. -/
  | go (options : Options)
  /-- With the output as the next argument. -/
  | needsOutput (options : Options)
  /-- With plain arguments only. -/
  | plainOnly (options : Options)
  /-- Not at all. -/
  | done (request : Request)
  deriving DecidableEq, Repr

/-- Goes on if the options make sense. -/
def Reading.ofOptions? : Option Options → Reading
  | some options => .go options
  | none => .done .misuse

/-- Reads a long option. -/
def readLong (o : Options) (name : String) (value? : Option String) : Reading :=
  match name, value? with
  | "output", some value => .ofOptions? (o.setOutput? value)
  | "output", none => .needsOutput o
  | "pretty", none => .ofOptions? o.setPretty?
  | "verbose", none => .ofOptions? o.setVerbose?
  | "help", none => .done .help
  | "version", none => .done .version
  | _, _ => .done .misuse

/-- Reads short options. An equals sign in front of an attached value is dropped. -/
def readShort (o : Options) : List Char → Reading
  | [] => .go o
  | ['o'] => .needsOutput o
  | 'o' :: '=' :: value => .ofOptions? (o.setOutput? (String.ofList value))
  | 'o' :: value => .ofOptions? (o.setOutput? (String.ofList value))
  | 'v' :: letters =>
    match o.setVerbose? with
    | some o => readShort o letters
    | none => .done .misuse
  | 'h' :: _ => .done .help
  | 'V' :: _ => .done .version
  | _ => .done .misuse

/-- Reads one argument. -/
def readArg (o : Options) (arg : String) : Reading :=
  match Argument.ofText arg with
  | .endOfOptions => .plainOnly o
  | .long name value? => readLong o name value?
  | .short letters => readShort o letters
  | .plain text => .ofOptions? (o.setFile? text)

/-- Sets the output from an argument of its own, which must not look like an
option. -/
def readOutput? (o : Options) (arg : String) : Option Options :=
  match Argument.ofText arg with
  | .plain text => o.setOutput? text
  | _ => none

/-- Reads arguments behind the end of the options. -/
def readPlain (o : Options) : List String → Request
  | [] => .compile o
  | arg :: args =>
    match o.setFile? arg with
    | some o => readPlain o args
    | none => .misuse

/-- Reads arguments. -/
def readArgs (o : Options) : List String → Request
  | [] => .compile o
  | arg :: args =>
    match readArg o arg with
    | .go o => readArgs o args
    | .plainOnly o => readPlain o args
    | .done request => request
    | .needsOutput o =>
      match args with
      | [] => .misuse
      | value :: args =>
        match readOutput? o value with
        | some o => readArgs o args
        | none => .misuse

/-- What the arguments ask for. -/
def Request.ofArgs (args : List String) : Request := readArgs Options.none args

end MiniJava.CommandLine
