/-!
# The client module of a generated server

Every generated server has the same module for sending requests. It is told by the
description of a tool how a request is made.
-/

namespace ApiWorkbench.Server

/-- The lines of the client module. -/
def clientLines : List String := [
  "\"\"\"HTTP execution for the generated tools.\"\"\"",
  "",
  "import json",
  "from urllib.parse import quote",
  "",
  "import httpx",
  "",
  "TIMEOUT = 30.0",
  "BODY_METHODS = (\"POST\", \"PUT\", \"PATCH\")",
  "",
  "",
  "def build_url(base_url: str, path_template: str, path_params: dict) -> str:",
  "    \"\"\"Substitute `\x7bname\x7d` placeholders with URL-encoded values.\"\"\"",
  "    path = path_template",
  "    for key, value in path_params.items():",
  "        path = path.replace(\"\x7b\" + key + \"\x7d\", quote(str(value), safe=\"\"))",
  "    return base_url.rstrip(\"/\") + \"/\" + path.lstrip(\"/\")",
  "",
  "",
  "def execute_request(tool_config: dict, args: dict, config: dict | None = None) -> dict:",
  "    \"\"\"Run the HTTP request described by `tool_config` with validated `args`.\"\"\"",
  "    config = config or \x7b\x7d",
  "    base_url = config.get(\"base_url\") or tool_config.get(\"base_url\")",
  "    if not base_url:",
  "        raise ValueError(f\"No base URL configured for tool: \x7btool_config['name']\x7d\")",
  "",
  "    path_params, query_params, header_params, cookies = \x7b\x7d, \x7b\x7d, \x7b\x7d, \x7b\x7d",
  "    for param in tool_config.get(\"execution_parameters\") or []:",
  "        value = args.get(param[\"name\"])",
  "        if value is None:",
  "            continue",
  "        location = param[\"in\"]",
  "        if location == \"path\":",
  "            path_params[param[\"name\"]] = value",
  "        elif location == \"query\":",
  "            query_params[param[\"name\"]] = value",
  "        elif location == \"header\":",
  "            header_params[param[\"name\"]] = str(value)",
  "        elif location == \"cookie\":",
  "            cookies[param[\"name\"]] = str(value)",
  "",
  "    method = tool_config[\"method\"].upper()",
  "    headers = \x7b\"Accept\": \"application/json\", **config.get(\"headers\", \x7b\x7d), **header_params\x7d",
  "    request = \x7b\x7d",
  "",
  "    body = args.get(\"requestBody\")",
  "    if body is not None:",
  "        content_type = tool_config.get(\"request_body_content_type\") or \"application/json\"",
  "        headers[\"Content-Type\"] = content_type",
  "        if method in BODY_METHODS:",
  "            if isinstance(body, str):",
  "                request[\"content\"] = body",
  "            elif content_type == \"application/x-www-form-urlencoded\" and isinstance(body, dict):",
  "                request[\"data\"] = body",
  "            else:",
  "                request[\"content\"] = json.dumps(body)",
  "",
  "    url = build_url(base_url, tool_config[\"path_template\"], path_params)",
  "    with httpx.Client(timeout=TIMEOUT) as client:",
  "        response = client.request(",
  "            method, url, params=query_params, headers=headers, cookies=cookies, **request",
  "        )",
  "",
  "    data = response.text",
  "    if \"application/json\" in response.headers.get(\"content-type\", \"\"):",
  "        try:",
  "            data = response.json()",
  "        except ValueError:",
  "            pass",
  "",
  "    return \x7b",
  "        \"status\": response.status_code,",
  "        \"reason\": response.reason_phrase,",
  "        \"data\": data,",
  "        \"ok\": response.is_success,",
  "    \x7d"]

end ApiWorkbench.Server
