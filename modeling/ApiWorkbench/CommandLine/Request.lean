import ApiWorkbench.CommandLine.Arguments
import ApiWorkbench.CommandLine.Path
import ApiWorkbench.Editor.Store
import ApiWorkbench.Server.Program
import ApiWorkbench.Shape.Conversion

/-!
# Requests

The command line offers five commands. Its arguments and the environment make a request,
or are a misuse of it. What is given in the arguments counts more than the environment.
-/

namespace ApiWorkbench.CommandLine

/-- The commands. -/
inductive Verb where
  | importDocument
  | applyScript
  | generate
  | save
  | undo
deriving DecidableEq, Repr

namespace Verb

/-- All commands. -/
def all : List Verb :=
  [applyScript, generate, importDocument, save, undo]

/-- The name of a command. -/
def name : Verb → String
  | importDocument => "import"
  | applyScript => "apply"
  | generate => "generate"
  | save => "save"
  | undo => "undo"

/-- The options of a command. -/
def options : Verb → List OptionForm
  | importDocument => [output]
  | applyScript => [output]
  | generate => [output, { name := "name" }, { name := "port" }, { name := "base-url" }]
  | save => [{ name := "store" }]
  | undo => [output, { name := "store" }]
where
  output : OptionForm := { name := "output", letter := some 'o' }

/-- The operands of a command. -/
def operands : Verb → List String
  | importDocument => ["SPEC_PATH"]
  | applyScript => ["SPEC_PATH", "COMMANDS_PATH"]
  | generate => ["SPEC_PATH"]
  | save => ["SPEC_PATH"]
  | undo => []

end Verb

/-- The variables of the environment that are looked at. -/
structure Environment where
  store : Option String
  baseUrl : Option String
deriving DecidableEq, Repr

namespace Environment

/-- The variable that names the store. -/
def storeVariable : String := "SPEC_STUDIO_STORE"

/-- The variable with the base address. -/
def baseUrlVariable : String := "SPEC_STUDIO_BASE_URL"

/-- An environment without the variables. -/
def empty : Environment := ⟨none, none⟩

/-- The environment in which variables have values. -/
def ofLookup (value? : String → Option String) : Environment :=
  ⟨value? storeVariable, value? baseUrlVariable⟩

end Environment

/-- What is asked for. -/
inductive Request where
  /-- help on a command, or on all of them -/
  | help (topic : Option Verb)
  | importDocument (document output : GivenPath)
  | applyScript (document script output : GivenPath)
  | generate (document output : GivenPath) (options : Server.Options)
  | save (document store : GivenPath)
  | undo (output store : GivenPath)

/-- Where snapshots are kept unless said otherwise. -/
def defaultStore : String := ".spec-studio"

/-- A variable that is set and not empty. -/
def nonempty? (text : Option String) : Option String :=
  text.filter (!·.isEmpty)

/-- The integer that a text spells. -/
def integer? (text : String) : Option Int := do
  let (negative, digits) :=
    Decimal.readSign (Text.trimBy Text.isNumberBlank text.toList)
  let digits ← Shape.withoutUnderscores digits
  if digits.length ≤ maxDigits then
    let n ← Decimal.readDigits 10 digits
    pure (if negative then -(n : Int) else n)
  else none

/-- The operands, exactly as many as there are names for them. -/
def readOperands : (names operands : List String) → Except Misuse (List GivenPath)
  | [], [] => pure []
  | [], operand :: _ => throw (.unexpectedOperand operand)
  | name :: _, [] => throw (.missingOperand name)
  | _ :: names, operand :: operands => do
    let others ← readOperands names operands
    pure (⟨operand⟩ :: others)

/-- The file or directory to write to, which has to be given. -/
def readOutput (arguments : Arguments) : Except Misuse GivenPath :=
  match arguments.value? "output" with
  | some text => pure ⟨text⟩
  | none => throw (.missingOption "--output")

/-- The directory of the store. -/
def readStore (environment : Environment) (arguments : Arguments) : GivenPath :=
  ⟨((arguments.value? "store").or (nonempty? environment.store)).getD defaultStore⟩

/-- The port of a generated server. -/
def readPort (default : Int) (arguments : Arguments) : Except Misuse Int :=
  match arguments.value? "port" with
  | none => pure default
  | some text =>
    match integer? text with
    | some n => pure n
    | none => throw (.notAnInteger text)

/-- The options of a generated server. -/
def readServerOptions (environment : Environment) (arguments : Arguments) :
    Except Misuse Server.Options := do
  let default : Server.Options := {}
  let port ← readPort default.port arguments
  pure ⟨(arguments.value? "name").getD default.serverName, port,
    (arguments.value? "base-url").or (nonempty? environment.baseUrl)⟩

/-- The request that a command makes. -/
def Verb.request (verb : Verb) (environment : Environment) (arguments : Arguments) :
    Except Misuse Request := do
  let paths ← readOperands verb.operands arguments.operands
  match verb, paths with
  | importDocument, [document] =>
      pure (.importDocument document (← readOutput arguments))
  | applyScript, [document, script] =>
      pure (.applyScript document script (← readOutput arguments))
  | generate, [document] =>
    pure (.generate document (← readOutput arguments)
      (← readServerOptions environment arguments))
  | save, [document] => pure (.save document (readStore environment arguments))
  | undo, [] => pure (.undo (← readOutput arguments) (readStore environment arguments))
  | _, _ => throw .missingCommand

/-- The options before the command. -/
def commonOptions : List OptionForm :=
  [{ name := "verbose", letter := some 'v', takesValue := false }, helpOption]

/-- The request of arguments whose first operand is no command. What looks like options
there is read once more, as options before a command: help may be asked for even so. -/
def readUnknown (name : String) (operands : List String) : Except Misuse Request := do
  let again ← readArguments commonOptions true operands
  if (again.value? helpOption.name).isSome then pure (.help none)
  else throw (.unknownCommand name)

/-- The request that arguments make. -/
def Request.read (environment : Environment) (arguments : List String) :
    Except Misuse Request := do
  let common ← readArguments commonOptions true arguments
  if (common.value? helpOption.name).isSome then pure (.help none)
  else match common.operands with
    | [] => throw .missingCommand
    | name :: rest =>
      match Verb.all.find? (·.name == name) with
      | none => readUnknown name (name :: rest)
      | some verb =>
        let arguments ← readArguments (verb.options ++ [helpOption]) false rest
        if (arguments.value? helpOption.name).isSome then pure (.help (some verb))
        else verb.request environment arguments

/-- The file of the snapshot in a store. -/
def snapshotPath (store : GivenPath) : Path :=
  store.path.entry Editor.Store.fileName

/-- The paths that a request has to be told about. -/
def Request.paths : Request → List Path
  | .help _ => []
  | .importDocument document output => [document.path, output.path]
  | .applyScript document script output => [document.path, script.path, output.path]
  | .generate document output _ => [document.path, output.path]
  | .save document store => [document.path, store.path, snapshotPath store]
  | .undo output store => [output.path, store.path, snapshotPath store]

end ApiWorkbench.CommandLine
