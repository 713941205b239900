import YamlSpan.Http.Service

/-!
# Starting the service

The command resolves how the service starts from the environment and says so.  An environment
from which it cannot start is an error.
-/

namespace YamlSpan

def variableNames : List String :=
  ["LOG_LEVEL", "API_SERVER_HOST", "API_SERVER_PORT", "PORT", "DEFAULT_CUSTOM_TAGS",
    "MAX_REQUEST_BODY_BYTES"]

def Issue.line (i : Issue) : String :=
  let step : PathStep → String
    | .name s => s
    | .index n => toString n
  ".".intercalate (i.path.map step) ++ ": " ++ i.kind.message

def LaunchError.message : LaunchError → String
  | .settings .unreadableTags => unreadableTagsMessage
  | .settings (.invalid issues) => "\n".intercalate (issues.map Issue.line)
  | .unknownLevel name => unknownLevelMessage name

def Launch.banner (l : Launch) : String :=
  "YAML service v" ++ serviceVersion ++ " starting (host=" ++ l.host.shown ++ ", port="
    ++ toString l.listenPort ++ ")"

def readVariables : List String → IO (List (String × String))
  | [] => return []
  | name :: rest => do
    let value ← IO.getEnv name
    let more ← readVariables rest
    return (value.map (name, ·)).toList ++ more

end YamlSpan

/-- Resolves how the service starts, and says so. -/
def main : IO UInt32 := do
  let environment ← YamlSpan.readVariables YamlSpan.variableNames
  match YamlSpan.Launch.resolve environment with
  | .ok launch =>
    IO.println launch.banner
    return 0
  | .error e =>
    IO.eprintln e.message
    return 1
