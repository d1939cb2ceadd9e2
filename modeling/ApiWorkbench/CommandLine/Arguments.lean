/-!
# Arguments

Among the arguments of a command are options, which start with a dash, and operands. An
option has a long name and may have a letter; it may take a value, which is part of the
same argument or else the next one. Letters without values can share an argument. After
two dashes everything is an operand.
-/

namespace ApiWorkbench.CommandLine

/-- What is wrong with the use of the command line. -/
inductive Misuse where
  | unknownOption (name : String)
  | missingValue (name : String)
  | unexpectedValue (name : String)
  | missingOption (name : String)
  | missingOperand (name : String)
  | unexpectedOperand (operand : String)
  | missingCommand
  | unknownCommand (name : String)
  | notAnInteger (text : String)
  | noSuchFile (path : String)
  | notAFile (path : String)
  | notADirectory (path : String)
deriving DecidableEq, Repr

namespace Misuse

/-- The wording of a misuse. -/
def message : Misuse → String
  | unknownOption name => "No such option: " ++ name
  | missingValue name => s!"Option '{name}' requires an argument."
  | unexpectedValue name => s!"Option '{name}' does not take a value."
  | missingOption name => s!"Missing option '{name}'."
  | missingOperand name => s!"Missing argument '{name}'."
  | unexpectedOperand operand => s!"Got unexpected extra argument ({operand})"
  | missingCommand => "Missing command."
  | unknownCommand name => s!"No such command '{name}'."
  | notAnInteger text => s!"'{text}' is not a valid integer."
  | noSuchFile path => s!"File '{path}' does not exist."
  | notAFile path => s!"File '{path}' is a directory."
  | notADirectory path => s!"Directory '{path}' is a file."

end Misuse

/-- An option of a command. -/
structure OptionForm where
  name : String
  letter : Option Char := none
  takesValue : Bool := true
deriving DecidableEq, Repr

/-- The option that asks for help. -/
def helpOption : OptionForm :=
  { name := "help", takesValue := false }

/-- Arguments told apart. -/
structure Arguments where
  /-- the options by name, with their values; an empty one for those that take none -/
  options : List (String × String)
  operands : List String
deriving DecidableEq, Repr

namespace Arguments

/-- An option and then the rest. -/
def addOption (name value : String) (arguments : Arguments) : Arguments :=
  { arguments with options := (name, value) :: arguments.options }

/-- Several options and then the rest. -/
def addOptions (options : List (String × String)) (arguments : Arguments) : Arguments :=
  { arguments with options := options ++ arguments.options }

/-- An operand and then the rest. -/
def addOperand (operand : String) (arguments : Arguments) : Arguments :=
  { arguments with operands := operand :: arguments.operands }

/-- The value of an option: the last one counts. -/
def value? (arguments : Arguments) (name : String) : Option String :=
  (arguments.options.reverse.find? (·.1 == name)).map (·.2)

end Arguments

/-- The options in one argument, and the one whose value is still to come. -/
abbrev OptionGroup := List (String × String) × Option OptionForm

/-- The option that a long name stands for, perhaps with its value. -/
def readLongOption (forms : List OptionForm) (argument : List Char) :
    Except Misuse OptionGroup :=
  let name := String.ofList (argument.takeWhile (· != '='))
  let value := match argument.dropWhile (· != '=') with
    | _ :: value => some (String.ofList value)
    | [] => none
  match forms.find? (·.name == name), value with
  | none, _ => throw (.unknownOption ("--" ++ name))
  | some form, some value =>
    if form.takesValue then pure ([(form.name, value)], none)
    else throw (.unexpectedValue ("--" ++ name))
  | some form, none =>
    if form.takesValue then pure ([], some form) else pure ([(form.name, "")], none)

/-- The options that letters stand for, the last of them perhaps with its value. -/
def readLetters (forms : List OptionForm) : List Char → Except Misuse OptionGroup
  | [] => pure ([], none)
  | c :: rest =>
    match forms.find? (·.letter == some c) with
    | none => throw (.unknownOption ("-" ++ c.toString))
    | some form =>
      if form.takesValue then
        if rest.isEmpty then pure ([], some form)
        else pure ([(form.name, String.ofList rest)], none)
      else do
        let (options, open?) ← readLetters forms rest
        pure ((form.name, "") :: options, open?)

/-- The options in an argument that starts with a dash. -/
def readOptions (forms : List OptionForm) : List Char → Except Misuse OptionGroup
  | '-' :: '-' :: name => readLongOption forms name
  | _ :: letters => readLetters forms letters
  | [] => pure ([], none)

/-- Tells arguments apart. With `leading`, options only stand before the first
operand. -/
def readArguments (forms : List OptionForm) (leading : Bool) :
    List String → Except Misuse Arguments
  | [] => pure ⟨[], []⟩
  | argument :: rest =>
    if argument == "--" then pure ⟨[], rest⟩
    else if argument.startsWith "-" && argument != "-" then do
      match ← readOptions forms argument.toList, rest with
      | (options, none), rest =>
          pure ((← readArguments forms leading rest).addOptions options)
      | (options, some form), value :: rest =>
        pure (((← readArguments forms leading rest).addOption form.name
          value).addOptions options)
      | (_, some form), [] => throw (.missingValue form.name)
    else if leading then pure ⟨[], argument :: rest⟩
    else do pure ((← readArguments forms leading rest).addOperand argument)

end ApiWorkbench.CommandLine
