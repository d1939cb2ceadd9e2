import ApiWorkbench.Document.Pruning
import ApiWorkbench.Json.Writer
import ApiWorkbench.Text.Blank
import ApiWorkbench.Yaml.Writer

/-!
# Exporting documents

A document is exported in its pruned form, as JSON or as YAML. The name of the file
decides which.
-/

namespace ApiWorkbench.Document

/-- A document as JSON text. -/
def toJson (document : Value) : Except Fault String := do
  Json.write .indented (← prune document)

/-- A document as YAML text. -/
def toYaml (document : Value) : Except Fault String := do
  Yaml.write (← prune document)

/-- The part of a file name from its last dot on; none for a name that begins or ends
with that dot. -/
def fileSuffix (name : String) : String :=
  let after := name.toList.reverse.takeWhile (· != '.')
  let before := name.toList.reverse.drop (after.length + 1)
  if after.isEmpty || before.isEmpty || after.length == name.length then ""
  else String.ofList ('.' :: after.reverse)

/-- The last part of a path. Empty parts and single points say nothing. -/
def fileName (path : String) : String :=
  let parts := (Text.splitAt '/' path.toList).map String.ofList
  ((parts.filter fun part => part != "" && part != ".").getLast?).getD ""

/-- Whether the name of a file asks for YAML. -/
def isYamlName (path : String) : Bool :=
  let suffix := (fileSuffix (fileName path)).map Char.toLower
  suffix == ".yaml" || suffix == ".yml"

/-- The content of a file of the given name that holds a document in pruned form. -/
def prunedContent (path : String) (document : Value) : Except Fault String := do
  if isYamlName path then Yaml.write document
  else pure ((← Json.write .indented document) ++ "\n")

/-- Whether a file of the given name can hold a document in pruned form. YAML has
escapes for what is torn; JSON text is written without them, and a torn text has no
form in a file. -/
def fitsFile (path : String) (document : Value) : Bool :=
  isYamlName path || document.isWhole

/-- The content of a file of the given name that holds a document. -/
def fileContent (path : String) (document : Value) : Except Fault String := do
  prunedContent path (← prune document)

end ApiWorkbench.Document
