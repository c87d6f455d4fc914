import Tricode.Code.Text
import Tricode.Compile
import Tricode.Diagnostic.Encode
import Tricode.Json.Writer
import Tricode.Syntax.Decode

/-!
# The command line

Commands check a syntax tree in a file, or check and lower it. Arguments are first read into a
`Command`; a command is then carried out on whatever provides files, and its outcome is an exit
code and what is to be printed. The code is 0 when the work was done, 1 when diagnostics stood in
its way, and 2 when it failed.
-/

namespace Tricode

/-! ## Arguments -/

/-- An option of a command. -/
structure Flag where
  long : Option String
  short : Option Char
  takesPath : Bool
  deriving DecidableEq

/-- The arguments of a command: the flags given, each with its path if it takes one, and the
rest. -/
structure Arguments where
  flags : List (Flag × String)
  operands : List String

namespace Arguments

/-- Nothing is given. -/
def none : Arguments := ⟨[], []⟩

/-- A flag given after the others, with an empty path if it takes none. -/
def addFlag (a : Arguments) (flag : Flag) (path : String) : Arguments :=
  { a with flags := a.flags ++ [(flag, path)] }

/-- An operand given after the others. -/
def addOperand (a : Arguments) (operand : String) : Arguments :=
  { a with operands := a.operands ++ [operand] }

/-- The flag is given. -/
def has (a : Arguments) (flag : Flag) : Bool := (a.flags.lookup flag).isSome

/-- The path given to a flag. -/
def path? (a : Arguments) (flag : Flag) : Option String := a.flags.lookup flag

/-- No flag is given twice and no path is empty. -/
def isSound (a : Arguments) : Bool :=
  (a.flags.map Prod.fst).Nodup && a.operands.all (· != "") &&
    a.flags.all fun (flag, path) ↦ !flag.takesPath || path != ""

end Arguments

/-- What one argument says. -/
inductive Token where
  /-- Only operands follow. -/
  | endOfFlags
  | operand (text : String)
  /-- Flags, the last of which may await its path. -/
  | flags (given : List (Flag × String)) (awaiting : Option Flag)

namespace Token

/-- Letters after one dash. The first one that takes a path takes all that follows it, without a
leading equals sign, or else the next argument. -/
def ofLetters (known : List Flag) (given : List (Flag × String)) : List Char → Option Token
  | [] => some (.flags given none)
  | c :: cs => do
    let flag ← known.find? fun f ↦ f.short == some c
    if flag.takesPath then
      match cs with
      | [] => some (.flags given (some flag))
      | '=' :: path => some (.flags (given ++ [(flag, String.ofList path)]) none)
      | path => some (.flags (given ++ [(flag, String.ofList path)]) none)
    else ofLetters known (given ++ [(flag, "")]) cs

/-- A word after two dashes, with a path after an equals sign or in the next argument. -/
def ofWord (known : List Flag) (word : List Char) : Option Token := do
  let name := word.takeWhile (· != '=')
  let flag ← known.find? fun f ↦ f.long == some (String.ofList name)
  match word.drop name.length, flag.takesPath with
  | [], true => some (.flags [] (some flag))
  | [], false => some (.flags [(flag, "")] none)
  | _ :: path, true => some (.flags [(flag, String.ofList path)] none)
  | _ :: _, false => none

/-- What an argument says, by what it starts with. A single dash is an operand. -/
def ofArgument (known : List Flag) (arg : String) : Option Token :=
  match arg.toList with
  | ['-', '-'] => some .endOfFlags
  | '-' :: '-' :: word => ofWord known word
  | '-' :: c :: cs => ofLetters known [] (c :: cs)
  | _ => some (.operand arg)

end Token

/-- Reads arguments, where `awaiting` is a flag whose path must come next. -/
def readArguments (known : List Flag) (awaiting : Option Flag) (read : Arguments) :
    List String → Option Arguments
  | [] => if awaiting.isSome then none else some read
  | arg :: args => do
    match ← Token.ofArgument known arg, awaiting with
    | .operand text, some flag => readArguments known none (read.addFlag flag text) args
    | _, some _ => none
    | .operand text, none => readArguments known none (read.addOperand text) args
    | .endOfFlags, none => some (args.foldl Arguments.addOperand read)
    | .flags given next, none =>
      readArguments known next (given.foldl (fun a (flag, path) ↦ a.addFlag flag path) read) args

/-! ## Commands -/

/-- What there is to do. -/
inductive Command where
  | version
  | check (input : String) (json : Bool)
  | lower (input : String) (optimize denyWarnings : Bool) (config output : Option String)
  deriving DecidableEq, Repr

namespace Command

/-- With `--json` the report is written as JSON. -/
def jsonFlag : Flag := ⟨some "json", none, false⟩

/-- With `-O` constants are propagated and folded. -/
def optimizeFlag : Flag := ⟨none, some 'O', false⟩

/-- With `--deny-warnings` warnings stand in the way like errors. -/
def denyWarningsFlag : Flag := ⟨some "deny-warnings", none, false⟩

/-- With `--config` the options of a file are used. -/
def configFlag : Flag := ⟨some "config", none, true⟩

/-- With `-o` or `--output` the code goes to a file. -/
def outputFlag : Flag := ⟨some "output", some 'o', true⟩

/-- The one operand of a command and its flags. -/
def readInput (known : List Flag) (args : List String) : Option (String × Arguments) := do
  let read ← readArguments known none .none args
  match read.operands with
  | [input] => if read.isSound then some (input, read) else none
  | _ => none

/-- The command that the arguments give. What follows a request for the version is not looked at. -/
def ofArguments? (args : List String) : Option Command :=
  match args with
  | "check" :: args => do
    let (input, read) ← readInput [jsonFlag] args
    pure (check input (read.has jsonFlag))
  | "lower" :: args => do
    let (input, read) ← readInput [optimizeFlag, denyWarningsFlag, configFlag, outputFlag] args
    pure (lower input (read.has optimizeFlag) (read.has denyWarningsFlag)
      (read.path? configFlag) (read.path? outputFlag))
  | arg :: _ =>
    match arg.toList with
    | '-' :: 'V' :: _ => some version
    | _ => if arg = "--version" then some version else none
  | [] => none

/-- What is reported of arguments that give no command. -/
def usage : String :=
  "usage: jmmc check IN [--json]\n" ++
    "       jmmc lower IN [-O] [--deny-warnings] [--config FILE] [-o FILE]\n" ++
    "       jmmc --version\n"

end Command

/-! ## Files -/

/-- Why a file cannot be read or written. -/
inductive FileError where
  | notFound
  | isDirectory
  | notDirectory
  | nameTooLong
  | noSpace
  | notText
  | other (text : String)
  deriving DecidableEq, Repr

namespace FileError

/-- The error in the words of the system. -/
def message : FileError → String
  | notFound => "No such file or directory (os error 2)"
  | isDirectory => "Is a directory (os error 21)"
  | notDirectory => "Not a directory (os error 20)"
  | nameTooLong => "File name too long (os error 36)"
  | noSpace => "No space left on device (os error 28)"
  | notText => "stream did not contain valid UTF-8"
  | other text => text

end FileError

/-- What provides files. -/
structure Files (m : Type → Type) where
  read : String → m (Except FileError String)
  write : String → String → m (Except FileError Unit)

/-! ## Outcomes -/

/-- Why a command failed. -/
inductive Failure where
  | reading (path : String) (e : FileError)
  | malformedTree (path : String)
  | malformedOptions (path : String)
  | lowering (className : String) (fault : Fault)
  | writing (path : String) (e : FileError)

namespace Failure

/-- The step that failed, what it was about, and the cause if one is known. -/
def message : Failure → String
  | reading path e => "reading " ++ path ++ ": " ++ e.message
  | malformedTree path => "parsing syntax tree " ++ path ++ ": malformed syntax tree"
  | malformedOptions path => "parsing options " ++ path
  | lowering className fault => "lowering " ++ className ++ ": " ++ fault.message
  | writing path e => "writing " ++ path ++ ": " ++ e.message

end Failure

/-- The exit code of a command, what it prints and what it reports. -/
structure Outcome where
  code : UInt8
  output : String
  errors : String

namespace Outcome

/-- A failure after `shown` was printed. -/
def failed (shown : String) (f : Failure) : Outcome :=
  ⟨2, "", shown ++ "Error: " ++ f.message ++ "\n"⟩

end Outcome

/-- Diagnostics one per line. -/
def diagnosticLines (ds : List Diagnostic) : String :=
  String.join (ds.map fun d ↦ d.text ++ "\n")

/-- The outcome of checking. Diagnostics are reported, unless they are printed as JSON. -/
def checkOutcome (p : Program) (json : Bool) : Outcome :=
  let ds := p.check
  let code := if ds.any Diagnostic.isError then 1 else 0
  if json then ⟨code, (Report.toJson ⟨p.decl.name, ds⟩).pretty ++ "\n", ""⟩
  else ⟨code, "", diagnosticLines ds⟩

namespace Command

section

variable {m : Type → Type} [Monad m] (files : Files m)

/-- The unit in a file. -/
def readProgram (path : String) : m (Except Failure Program) := do
  match ← files.read path with
  | .error e => pure (.error (.reading path e))
  | .ok text =>
    match Program.ofText text with
    | some p => pure (.ok p)
    | none => pure (.error (.malformedTree path))

/-- The options of a file, or the default ones. -/
def readOptions (config : Option String) : m (Except Failure Options) := do
  match config with
  | none => pure (.ok .default)
  | some path =>
    match ← files.read path with
    | .error e => pure (.error (.reading path e))
    | .ok text =>
      match Options.ofText text with
      | some o => pure (.ok o)
      | none => pure (.error (.malformedOptions path))

/-- Prints code or writes it to a file, after `shown` was printed. -/
def emit (shown : String) (code : ClassCode) (output : Option String) : m Outcome := do
  match output with
  | none => pure ⟨0, code.text, shown⟩
  | some path =>
    match ← files.write path code.text with
    | .ok () => pure ⟨0, "", shown⟩
    | .error e => pure (.failed shown (.writing path e))

/-- Lowers a unit unless diagnostics stand in the way. They are reported in either case. -/
def runLower (p : Program) (o : Options) (output : Option String) : m Outcome :=
  let ds := p.check
  let shown := diagnosticLines ds
  if o.blocks ds then
    pure ⟨1, "", shown ++ "Lowering skipped: " ++ toString (o.blockingCount ds) ++
      " blocking diagnostic(s)\n"⟩
  else match p.lower p.table o with
    | .error fault => pure (.failed shown (.lowering p.decl.name fault))
    | .ok code => emit files shown code output

/-- Carries a command out. Options are read before the tree. -/
def run (command : Command) : m Outcome := do
  match command with
  | version => pure ⟨0, "jmmc 0.1.0\n", ""⟩
  | check input json =>
    match ← readProgram files input with
    | .error f => pure (.failed "" f)
    | .ok p => pure (checkOutcome p json)
  | lower input optimize denyWarnings config output =>
    match ← readOptions files config with
    | .error f => pure (.failed "" f)
    | .ok o =>
      match ← readProgram files input with
      | .error f => pure (.failed "" f)
      | .ok p =>
        runLower files p ⟨o.foldConstants || optimize, o.warningsAsErrors || denyWarnings⟩ output

end

end Command

end Tricode
