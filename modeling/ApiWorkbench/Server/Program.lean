import ApiWorkbench.Server.Tool
import ApiWorkbench.Shape.Conversion

/-!
# The main module of a generated server

The main module reads its settings from the environment, has a function for every tool
and starts the server. A function takes the inputs of its tool as arguments, required
ones first, and passes them on under their own names.

An argument that is not called like its input carries the name of the input as an alias.

A server has a name and listens on a port. The base address of the requests it sends may
be given too; otherwise it comes from the document.
-/

namespace ApiWorkbench.Server

/-! ## Options -/

/-- What can be chosen for a generated server. -/
structure Options where
  serverName : String := "openapi-mcp-server"
  port : Int := 3000
  baseUrl : Option String := none
deriving DecidableEq, Repr

namespace Options

open Shape

/-- Reads options from an object. -/
def read : Value → Validated Options
  | .object ms =>
    let default : Options := {}
    Options.mk <$> optional "server_name" default.serverName toText ms
      <*> optional "port" default.port toInteger ms
      <*> optional "base_url" default.baseUrl (toNullable toText) ms
  | _ => .fail (.notInstance "ScaffoldOptions")

end Options

/-! ## Functions -/

/-- The arguments for inputs, given the names that are in use. -/
def nameArguments (used : List String) : List Input → List (String × Input)
  | [] => []
  | input :: rest =>
    let name := argumentName used input.name
    (name, input) :: nameArguments (name :: used) rest

/-- The arguments for the inputs of a tool, required ones first. -/
def arguments (inputs : List Input) : List (String × Input) :=
  nameArguments [] (inputs.filter (·.required) ++ inputs.filter (!·.required))

/-- An argument as it is declared. -/
def declaredArgument (name : String) (input : Input) : String :=
  let description := match input.description with
    | some text => if text.isEmpty then [] else ["description=" ++ textLiteral text]
    | none => []
  let ownName := if name == input.name then [] else ["alias=" ++ textLiteral input.name]
  let type :=
    if input.required then input.type.source
    else "Optional[" ++ input.type.source ++ "]"
  let type := match description ++ ownName with
    | [] => type
    | metadata =>
        "Annotated[" ++ type ++ ", Field(" ++ ", ".intercalate metadata ++ ")]"
  if input.required then name ++ ": " ++ type else name ++ ": " ++ type ++ " = None"

/-- The lines that begin the function for a tool. -/
def signature (handler : String) : List (String × Input) → List String
  | [] => ["def " ++ handler ++ "() -> str | dict[str, Any]:"]
  | arguments =>
    ["def " ++ handler ++ "("]
      ++ arguments.map (fun (name, input) =>
        "    " ++ declaredArgument name input ++ ",")
      ++ [") -> str | dict[str, Any]:"]

/-- The arguments under the names of their inputs. -/
def passedArguments (arguments : List (String × Input)) : String :=
  let entries := arguments.map fun (name, input) =>
    textLiteral input.name ++ ": " ++ name
  "\x7b" ++ ", ".intercalate entries ++ "\x7d"

/-- The lines for a tool. -/
def handlerLines (handler : String) (tool : Tool) : List String :=
  let arguments := arguments tool.inputs
  ["", "",
    handler ++ "_input = " ++ (inputType tool.name tool.inputs).source,
    handler ++ "_adapter = TypeAdapter(" ++ handler ++ "_input)",
    "", "",
    "@mcp.tool(name=" ++ textLiteral tool.name ++ ", description=" ++
      textLiteral tool.description ++ ")"]
    ++ signature handler arguments
    ++ ["    return _run(" ++ textLiteral tool.name ++ ", " ++ handler ++ "_adapter, "
      ++ passedArguments arguments ++ ")"]

/-- The tools with the names of their functions, given the names that are in use. -/
def nameHandlers (used : List String) : List Tool → List (String × Tool)
  | [] => []
  | tool :: rest =>
    let handler := handlerName used tool.name
    (handler, tool) :: nameHandlers (handlerNames handler ++ used) rest

/-- The tools with the names of their functions. -/
def handlers (tools : List Tool) : List (String × Tool) :=
  nameHandlers [] tools

/-! ## The module -/

/-- A text as a literal, or the literal of nothing. -/
def optionalLiteral : Option String → String
  | some text => textLiteral text
  | none => "None"

/-- The lines before the functions. -/
def openingLines (options : Options) (baseUrl : Option String) (toolCount : Nat) :
    List String := [
  s!"# {Text.oneLine options.serverName}: MCP server generated from an OpenAPI document ({toolCount} tools).",
  "",
  "import json",
  "import os",
  "import sys",
  "from datetime import date, datetime",
  "from typing import Any, Literal, Optional, Union",
  "",
  "from dotenv import load_dotenv",
  "from fastmcp import FastMCP",
  "from pydantic import AnyUrl, EmailStr, Field, TypeAdapter",
  "from typing_extensions import Annotated, NotRequired, TypedDict",
  "",
  "from http_client import execute_request",
  "from tools_config import TOOL_CONFIGS",
  "",
  "load_dotenv()",
  "",
  s!"PORT = int(os.getenv(\"PORT\", \"{options.port}\"))",
  "",
  "API_CONFIG = \x7b",
  "    \"base_url\": os.getenv(\"API_BASE_URL\") or " ++ optionalLiteral baseUrl ++ ",",
  "    \"headers\": \x7b\x7d,",
  "\x7d",
  "if os.getenv(\"API_KEY\"):",
  "    API_CONFIG[\"headers\"][\"Authorization\"] = f\"Bearer \x7bos.environ['API_KEY']\x7d\"",
  "if os.getenv(\"API_AUTH_HEADER\"):",
  "    _key, _, _value = os.environ[\"API_AUTH_HEADER\"].partition(\":\")",
  "    if _key.strip() and _value.strip():",
  "        API_CONFIG[\"headers\"][_key.strip()] = _value.strip()",
  "",
  "mcp = FastMCP(" ++ textLiteral options.serverName ++ ")",
  "",
  "",
  "def _run(tool_name: str, adapter: TypeAdapter, params: dict) -> str | dict[str, Any]:",
  "    params = \x7bkey: value for key, value in params.items() if value is not None\x7d",
  "    args = adapter.dump_python(adapter.validate_python(params), mode=\"json\")",
  "    result = execute_request(TOOL_CONFIGS[tool_name], args, API_CONFIG)",
  "    data = result[\"data\"]",
  "    if not result[\"ok\"]:",
  "        detail = data if isinstance(data, str) else json.dumps(data, indent=2)",
  "        return f\"Error: \x7bresult['status']\x7d \x7bresult['reason']\x7d\\n\x7bdetail\x7d\"",
  "    if isinstance(data, str):",
  "        return data",
  "    if isinstance(data, dict):",
  "        return data",
  "    return \x7b\"result\": data\x7d"]

/-- The most tools that a server lists when it starts. -/
def bannerToolCount : Nat := 5

/-- What a server prints when it starts. -/
def banner (options : Options) (tools : List Tool) : List String :=
  let more := tools.length - bannerToolCount
  [s!"{Text.oneLine options.serverName} MCP server: {tools.length} tools"]
    ++ (tools.take bannerToolCount).map (fun tool => "  - " ++ tool.name)
    ++ (if more == 0 then [] else [s!"  ... and {more} more"])

/-- The lines after the functions. -/
def closingLines (options : Options) (tools : List Tool) : List String :=
  ["", "", "if __name__ == \"__main__\":"]
    ++ (banner options tools).map
      (fun line => "    print(" ++ textLiteral line ++ ", file=sys.stderr)")
    ++ ["    print(f\"MCP endpoint: http://localhost:\x7bPORT\x7d/mcp\", file=sys.stderr)",
      "    print(f\"API base: \x7bAPI_CONFIG['base_url'] or 'not configured'\x7d\", file=sys.stderr)",
      "    mcp.run(transport=\"http\", host=\"0.0.0.0\", port=PORT)"]

/-- The lines of the main module. -/
def programLines (options : Options) (baseUrl : Option String) (tools : List Tool) :
    List String :=
  openingLines options baseUrl tools.length
    ++ (handlers tools).flatMap (fun (handler, tool) => handlerLines handler tool)
    ++ closingLines options tools

end ApiWorkbench.Server
