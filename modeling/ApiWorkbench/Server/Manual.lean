import ApiWorkbench.Server.Program
import ApiWorkbench.Text.Blank

/-!
# The manual of a generated server

The manual says how a server is started and set up, and lists its tools in a table.
Nothing that stands in a cell of the table breaks the row.
-/

namespace ApiWorkbench.Server

/-- The most characters of a description in the table. -/
def maxSummary : Nat := 50

/-- The description of a tool as a cell of the table. -/
def summaryCell (description : String) : String :=
  let summary := firstChars maxSummary description
  let summary := if description.length > maxSummary then summary ++ "..." else summary
  Text.replaceAll "|" "\\|" (Text.oneLine summary)

/-- A tool as a row of the table. -/
def toolRow (tool : Tool) : String :=
  "| `" ++ tool.name ++ "` | " ++ tool.method.name.map Char.toUpper ++ " | " ++
    tool.path ++ " | " ++ summaryCell tool.description ++ " |"

/-- A text that is there and not empty, or another. -/
def textOr (default : String) : Option String → String
  | some text => if text.isEmpty then default else text
  | none => default

/-- The lines of the manual. -/
def manualLines (options : Options) (baseUrl : Option String) (tools : List Tool) :
    List String :=
  let name := options.serverName
  let port := options.port
  [s!"# {name}",
    "",
    "MCP server generated from an OpenAPI document, built on [FastMCP](https://gofastmcp.com).",
    s!"It exposes {tools.length} tools, one per API operation.",
    "",
    "## Quick start",
    "",
    "```bash",
    "pip install -r requirements.txt",
    "cp .env.example .env   # then fill in your API credentials",
    "python server.py",
    "```",
    "",
    s!"The server listens on http://localhost:{port}/mcp (streamable HTTP).",
    "",
    "## Environment variables",
    "",
    "| Variable | Description | Default |",
    "|----------|-------------|---------|",
    s!"| `PORT` | Server port | {port} |",
    "| `API_BASE_URL` | Base URL for API requests | " ++
      textOr "from the OpenAPI document" baseUrl ++ " |",
    "| `API_KEY` | Bearer token sent as `Authorization` | - |",
    "| `API_AUTH_HEADER` | Extra auth header, `Header-Name:value` | - |",
    "",
    "## Connecting a client",
    "",
    "```json",
    "\x7b",
    "  \"mcpServers\": \x7b",
    "    \"" ++ name ++ "\": \x7b",
    s!"      \"url\": \"http://localhost:{port}/mcp\"",
    "    \x7d",
    "  \x7d",
    "\x7d",
    "```",
    "",
    "## Available tools",
    "",
    "| Tool | Method | Path | Description |",
    "|------|--------|------|-------------|",
    "\n".intercalate (tools.map toolRow),
    "",
    "## Project layout",
    "",
    "```",
    "server.py        FastMCP server and tool registrations",
    "http_client.py   httpx request execution",
    "tools_config.py  tool descriptors extracted from the OpenAPI document",
    "```"]

end ApiWorkbench.Server
