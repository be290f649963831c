/-!
# Options

The arguments of the command. They are read in order, and the first one that is
wrong decides: a request for help or for the version that comes before it is granted,
one that comes after it is not heard. Options may stand after expressions; after `--`
every argument is an expression, and so is a dash alone.
-/

namespace LineCalc.Command

/-- What is wrong with the arguments. -/
inductive UsageFault where
  | unknownOption (argument : String)
  | missingValue
  | emptyValue
  | repeatedOption
  | unwantedValue (option : String)
  | fileAndExpressions
  deriving DecidableEq, Repr

/-- Where the lines come from and what happens when one fails. -/
structure Options where
  /-- The file to read lines from. -/
  file : Option String := none
  /-- Whether to go on after a line that fails. -/
  keepGoing : Bool := false
  /-- Lines given as arguments. -/
  expressions : List String := []
  deriving DecidableEq, Repr

/-- What the user asks for. -/
inductive Request where
  | help
  | version
  | calculate (options : Options)
  deriving DecidableEq, Repr

/-- What one argument comes to. -/
inductive Argument where
  /-- It is complete, and the options are these now. -/
  | complete (options : Options)
  /-- The name of the file is the argument that follows. -/
  | awaitsFile (options : Options)
  /-- It asks for help. -/
  | help
  /-- It asks for the version. -/
  | version
  deriving DecidableEq, Repr

namespace Options

/-- Take the file to read from, which may be given once. -/
def withFile (o : Options) (path : List Char) : Except UsageFault Argument :=
  if path.isEmpty then .error .emptyValue
  else if o.file.isSome then .error .repeatedOption
  else .ok (.complete { o with file := some (.ofList path) })

/-- Take the wish to go on, which may be given once. -/
def withKeepGoing (o : Options) : Except UsageFault Options :=
  if o.keepGoing then .error .repeatedOption else .ok { o with keepGoing := true }

/-- Read the letters of a cluster of short options. The rest of the cluster
after `f` is the name of the file, without an `=` in between. -/
def readShort : List Char → Options → Except UsageFault Argument
  | [], o => .ok (.complete o)
  | 'k' :: rest, o =>
    match o.withKeepGoing with
    | .ok o => readShort rest o
    | .error fault => .error fault
  | 'v' :: rest, o => readShort rest o
  | 'h' :: _, _ => .ok .help
  | 'V' :: _, _ => .ok .version
  | 'f' :: rest, o =>
    match rest with
    | [] => .ok (.awaitsFile o)
    | '=' :: path => o.withFile path
    | path => o.withFile path
  | letter :: _, _ => .error (.unknownOption (.ofList ['-', letter]))

/-- Read a long option by its name and the value after `=`. -/
def readLong (name : List Char) (value : Option (List Char)) (o : Options) :
    Except UsageFault Argument :=
  match String.ofList name, value with
  | "file", some path => o.withFile path
  | "file", none => .ok (.awaitsFile o)
  | "keep-going", none => o.withKeepGoing.map .complete
  | "verbose", none => .ok (.complete o)
  | "help", none => .ok .help
  | "version", none => .ok .version
  | "keep-going", some _ => .error (.unwantedValue "keep-going")
  | "verbose", some _ => .error (.unwantedValue "verbose")
  | "help", some _ => .error (.unwantedValue "help")
  | "version", some _ => .error (.unwantedValue "version")
  | other, _ => .error (.unknownOption ("--" ++ other))

/-- Divide a long option at its first `=`. -/
def splitLong (option : List Char) : List Char × Option (List Char) :=
  match option.dropWhile (· != '=') with
  | [] => (option, none)
  | _ :: value => (option.takeWhile (· != '='), some value)

/-- Read one argument other than `--`. -/
def readArgument (argument : String) (o : Options) : Except UsageFault Argument :=
  match argument.toList with
  | '-' :: '-' :: option =>
    let (name, value) := splitLong option
    readLong name value o
  | '-' :: letter :: rest => readShort (letter :: rest) o
  | _ => .ok (.complete { o with expressions := o.expressions ++ [argument] })

/-- Whether an argument is read as an option, so that it cannot be the value
of the option before it. -/
def looksLikeOption (argument : String) : Bool :=
  match argument.toList with
  | '-' :: _ :: _ => true
  | _ => false

/-- The request of options that are complete. Lines come from one place only. -/
def request (o : Options) : Except UsageFault Request :=
  if o.file.isSome && !o.expressions.isEmpty then .error .fileAndExpressions
  else .ok (.calculate o)

/-- Read the arguments that are left. -/
def readArguments : List String → Options → Except UsageFault Request
  | [], o => o.request
  | argument :: rest, o =>
    if argument = "--" then { o with expressions := o.expressions ++ rest }.request
    else
      match readArgument argument o with
      | .error fault => .error fault
      | .ok .help => .ok .help
      | .ok .version => .ok .version
      | .ok (.complete o) => readArguments rest o
      | .ok (.awaitsFile o) =>
        match rest with
        | [] => .error .missingValue
        | path :: rest =>
          if looksLikeOption path then .error .missingValue
          else
            match o.withFile path.toList with
            | .ok (.complete o) => readArguments rest o
            | .ok _ => .error .missingValue
            | .error fault => .error fault

end Options

/-- The request that the arguments of the command make. -/
def Request.ofArguments (arguments : List String) : Except UsageFault Request :=
  Options.readArguments arguments {}

end LineCalc.Command
