import ApiWorkbench.CommandLine.Request

/-!
# Help

What the command line says about itself, for a page of eighty columns.
-/

namespace ApiWorkbench.CommandLine

/-- What all commands together are for. -/
def programSummary : String :=
  "Spec Studio: edit OpenAPI documents and generate MCP servers from them."

namespace Verb

/-- What a command is for. -/
def summary : Verb → String
  | importDocument =>
      "Import an OpenAPI 3.x or Swagger 2.0 document and write it as OpenAPI 3."
  | applyScript => "Apply a YAML or JSON list of editing commands to a document."
  | generate => "Generate an MCP server project from a document."
  | save => "Save a document as the rollback snapshot."
  | undo => "Restore the saved snapshot into a file."

/-- The lines about the options of a command. -/
def optionLines : Verb → List String
  | importDocument => [
    "  -o, --output FILE  Output file (.json, .yaml or .yml).  [required]",
    "  --help             Show this message and exit."]
  | applyScript => [
    "  -o, --output FILE  Output file (.json, .yaml or .yml).  [required]",
    "  --help             Show this message and exit."]
  | generate => [
    "  -o, --output DIRECTORY  Output directory for the generated server.  [required]",
    "  --name TEXT             Name of the generated server.  [default: openapi-mcp-",
    "                          server]",
    "  --port INTEGER          Default port of the generated server.  [default: 3000]",
    "  --base-url TEXT         API base URL, overriding the document's first server.",
    "  --help                  Show this message and exit."]
  | save => [
    "  --store DIRECTORY  Directory holding the saved snapshot.  [default: .spec-",
    "                     studio]",
    "  --help             Show this message and exit."]
  | undo => [
    "  -o, --output FILE  Output file (.json, .yaml or .yml).  [required]",
    "  --store DIRECTORY  Directory holding the saved snapshot.  [default: .spec-",
    "                     studio]",
    "  --help             Show this message and exit."]

end Verb

/-- The help on a command. -/
def verbHelp (verb : Verb) : List String :=
  [" ".intercalate (["Usage: main", verb.name, "[OPTIONS]"] ++ verb.operands),
    "",
    "  " ++ verb.summary,
    "",
    "Options:"] ++ verb.optionLines

/-- The help on all commands. -/
def programHelp : List String := [
  "Usage: main [OPTIONS] COMMAND [ARGS]...",
  "",
  "  " ++ programSummary,
  "",
  "Options:",
  "  -v, --verbose  Enable debug logging.",
  "  --help         Show this message and exit.",
  "",
  "Commands:",
  "  apply     Apply a YAML or JSON list of editing commands to a document.",
  "  generate  Generate an MCP server project from a document.",
  "  import    Import an OpenAPI 3.x or Swagger 2.0 document and write it as...",
  "  save      Save a document as the rollback snapshot.",
  "  undo      Restore the saved snapshot into a file."]

/-- The help on a topic. -/
def helpLines : Option Verb → List String
  | some verb => verbHelp verb
  | none => programHelp

end ApiWorkbench.CommandLine
