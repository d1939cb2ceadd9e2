import ApiWorkbench.Check.Brackets
import ApiWorkbench.Check.Requirement
import ApiWorkbench.Json.Reader
import ApiWorkbench.Yaml.Reader

/-!
# Checking files

The files of a server are checked by the rules of their format, which their names
tell: Python source, YAML, JSON and lists of requirements. Files of other names are
not looked at.
-/

namespace ApiWorkbench.Check

/-- What is wrong with a file. -/
inductive Finding where
  | brokenSource
  | brokenYaml
  | brokenJson (problem : Json.Problem) (line : Nat)
  | brokenRequirement (line : Nat) (text : String)
deriving DecidableEq, Repr

/-- The wording of a finding. -/
def Finding.message : Finding → String
  | .brokenSource => "SyntaxError"
  | .brokenYaml => "YAMLError"
  | .brokenJson problem line => s!"JSONDecodeError: {problem.message} (line {line})"
  | .brokenRequirement line text => s!"Invalid requirement (line {line}): {text}"

/-- Python source; a blank file is fine. -/
def checkSource (content : String) : Option Finding :=
  if content.toList.all Text.isBlank || isSource content then none
  else some .brokenSource

/-- YAML text. -/
def checkYaml (content : String) : Except Fault (Option Finding) :=
  match Yaml.read content with
  | .ok _ | .error (.circular _ _) => pure none
  | .error .malformed => pure (some .brokenYaml)
  | .error (.meaningless fault) => throw fault

/-- JSON text. -/
def checkJson (content : String) : Except Fault (Option Finding) :=
  match Json.read content with
  | .ok _ => pure none
  | .error (.syntaxProblem problem remaining) =>
    pure (some (.brokenJson problem (Json.lineAt content.toList remaining)))
  | .error .tooManyDigits => throw .notANumber

/-- A list of requirements. -/
def checkRequirements (content : String) : Option Finding :=
  (invalidRequirement content).map fun (line, text) => .brokenRequirement line text

/-- Whether a name is that of a list of requirements: what comes after its last
slash decides. -/
def isRequirementsName (name : String) : Bool :=
  (Text.splitAt '/' name.toList).getLast? == some "requirements.txt".toList

/-- What is wrong with a file of the given name, if anything. -/
def checkFile (name content : String) : Except Fault (Option Finding) :=
  if name.endsWith ".py" then pure (checkSource content)
  else if name.endsWith ".yaml" || name.endsWith ".yml" then checkYaml content
  else if name.endsWith ".json" then checkJson content
  else if isRequirementsName name then pure (checkRequirements content)
  else pure none

/-- What is wrong with files, under their names. -/
def checkFiles : List (String × String) → Except Fault (List (String × Finding))
  | [] => pure []
  | (name, content) :: rest => do
    let finding ← checkFile name content
    let others ← checkFiles rest
    pure (match finding with
      | some finding => (name, finding) :: others
      | none => others)

end ApiWorkbench.Check
