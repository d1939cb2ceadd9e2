import ApiWorkbench.Server.Client
import ApiWorkbench.Server.Manual
import ApiWorkbench.Server.Program
import ApiWorkbench.Value.Wrapped

/-!
# Generated servers

A document becomes the files of a server that offers each operation as a tool. Besides
the modules and the manual there are a list of requirements, an example of the settings,
and the descriptions of the tools by which requests are made.
-/

namespace ApiWorkbench.Server

/-- Lines as the content of a file. -/
def fileOfLines (lines : List String) : String :=
  "\n".intercalate lines ++ "\n"

/-- What a generated server needs to be installed. -/
def requirements : List String :=
  ["fastmcp>=2.10", "httpx>=0.27", "pydantic[email]>=2.6", "python-dotenv>=1.0",
    "typing-extensions>=4.6"]

/-- The address in the example of the settings if none is known. -/
def exampleUrl : String := "https://api.example.com"

/-- The example of the settings. -/
def exampleSettings (options : Options) (baseUrl : Option String) : List String :=
  ["# Server configuration",
    s!"PORT={options.port}",
    "",
    "# API configuration",
    "API_BASE_URL=" ++ textOr exampleUrl baseUrl,
    "",
    "# Authentication",
    "API_KEY=your-api-key-here",
    "# API_AUTH_HEADER=Header-Name:header-value"]

/-- A text, or null. -/
def textOrNull (text : Option String) : Value :=
  (text.map Tree.str).getD .null

/-- The description of a tool by which requests are made. -/
def Tool.config (tool : Tool) : Value :=
  .record [
    ("name", tool.name),
    ("description", tool.description),
    ("method", tool.method.name),
    ("path_template", tool.path),
    ("execution_parameters", .list (tool.placements.map fun place =>
      .record [("name", place.name), ("in", place.location)])),
    ("request_body_content_type", textOrNull tool.contentType),
    ("base_url", textOrNull tool.baseUrl)]

/-- The descriptions of all tools, under their names. -/
def toolConfigs (tools : List Tool) : Value :=
  .record (tools.map fun tool => (tool.name, tool.config))

/-- The module with the descriptions of the tools. -/
def configLines (tools : List Tool) : List String :=
  ["\"\"\"Tool descriptors extracted from the OpenAPI document, keyed by tool name.\"\"\"",
    "", "TOOL_CONFIGS = " ++ (toolConfigs tools).wrappedLiteral]

/-- The base address of a server: the one chosen, or that of its tools. -/
def serverUrl (options : Options) (tools : List Tool) : Option String :=
  match options.baseUrl with
  | some url => if url.isEmpty then tools.head?.bind (·.baseUrl) else some url
  | none => tools.head?.bind (·.baseUrl)

/-- The files of the server for a document, with their names. -/
def scaffold (options : Options) (document : Value) :
    Except ToolError (List (String × String)) := do
  let tools ← toolsOf document options.baseUrl
  let baseUrl := serverUrl options tools
  let files := [
    ("requirements.txt", requirements),
    (".env.example", exampleSettings options baseUrl),
    ("http_client.py", clientLines),
    ("tools_config.py", configLines tools),
    ("server.py", programLines options baseUrl tools),
    ("README.md", manualLines options baseUrl tools)]
  pure (files.map fun (name, lines) => (name, fileOfLines lines))

end ApiWorkbench.Server
