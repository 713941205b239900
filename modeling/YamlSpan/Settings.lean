import YamlSpan.Json.Read
import YamlSpan.Text.UpperCase
import YamlSpan.Validation

/-!
# Settings of the service

Settings come from arguments, else from environment variables, whose names may be in any case,
else from defaults.  The variable for the list of tags holds JSON; all others hold plain texts.

* `Settings.resolve`   the settings of an environment and arguments
* `Launch.resolve`     how the service starts in an environment
-/

namespace YamlSpan

structure Settings where
  logLevel : Text
  host : Text
  configuredPort : Int
  injectedPort : Option Int
  customTags : List Text
  maxBodyBytes : Int
  deriving DecidableEq, Repr

/-- Where to listen: an injected number goes before the configured one. -/
def Settings.effectivePort (s : Settings) : Int := s.injectedPort.getD s.configuredPort

inductive SettingsError where
  | unreadableTags
  | invalid (issues : List Issue)
  deriving DecidableEq, Repr

namespace Settings

/-- The settings where nothing is given. -/
def standard : Settings :=
  { logLevel := "INFO", host := "localhost", configuredPort := 8000, injectedPort := none
    customTags := [], maxBodyBytes := 5 * 1024 * 1024 }

def tagsName : String := "default_custom_tags"

/-- The value under a name that may be written in any case; the last one counts. -/
def value? {α : Type} (pairs : List (String × α)) (name : String) : Option α :=
  (pairs.reverse.find? fun (n, _) => Text.lower n = name).map (·.2)

/-- The tags of an environment; null counts as not given. -/
def tagsOf (environment : List (String × String)) : Except SettingsError (Option Json) :=
  match value? environment tagsName with
  | none => .ok none
  | some text =>
    match Json.read text with
    | .error _ => .error .unreadableTags
    | .ok .null => .ok none
    | .ok value => .ok (some value)

def given (environment : List (String × String)) (arguments : List (String × Json))
    (name : String) : Option Json :=
  (value? arguments name).or ((value? environment name).map fun s => .string s)

/-- A check of a value that may not be given. -/
def checkOr {α : Type} (value : Option Json) (fallback : α) (name : String)
    (check : List PathStep → Json → Check α) : Check α :=
  match value with
  | none => .valid fallback
  | some value => check [.name name] value

/-- An integer that may be null. -/
def checkOptionalInt (path : List PathStep) : Json → Check (Option Int)
  | .null => .valid none
  | value => some <$> checkInt path value

/-- Checks all that is given, the list of tags apart. -/
def check (value : String → Option Json) (tags : Option Json) : Check Settings :=
  Settings.mk <$> checkOr (value "log_level") standard.logLevel "log_level" checkString
    <*> checkOr (value "api_server_host") standard.host "api_server_host" checkString
    <*> checkOr (value "api_server_port") standard.configuredPort "api_server_port" checkInt
    <*> checkOr (value "port") standard.injectedPort "port" checkOptionalInt
    <*> checkOr tags standard.customTags tagsName checkStrings
    <*> checkOr (value "max_request_body_bytes") standard.maxBodyBytes "max_request_body_bytes"
      checkInt

/-- The settings of an environment and of arguments, which go first.  Both may write the names in
any case. -/
def resolve (environment : List (String × String)) (arguments : List (String × Json)) :
    Except SettingsError Settings := do
  let tags ← tagsOf environment
  match check (given environment arguments) ((value? arguments tagsName).or tags) with
  | .valid settings => return settings
  | .invalid issues => throw (.invalid issues)

end Settings

/-! ### starting the service -/

def logLevels : List (String × Nat) :=
  [("CRITICAL", 50), ("FATAL", 50), ("ERROR", 40), ("WARN", 30), ("WARNING", 30), ("INFO", 20),
    ("DEBUG", 10), ("NOTSET", 0)]

/-- How the service is started: what is run, where it listens, and what it logs. -/
structure Launch where
  target : String
  isFactory : Bool
  host : Text
  listenPort : Int
  levelName : Text
  level : Nat
  deriving DecidableEq, Repr

inductive LaunchError where
  | settings (e : SettingsError)
  | unknownLevel (name : Text)
  deriving DecidableEq, Repr

def unreadableTagsMessage : String :=
  "error parsing value for field \"" ++ Settings.tagsName ++ "\" from source \"EnvSettingsSource\""

def unknownLevelMessage (name : Text) : String := "Unknown level: " ++ Text.quoted name

namespace Launch

def ofSettings (s : Settings) : Except LaunchError Launch :=
  let name := Text.upper s.logLevel
  match name.toString?.bind (logLevels.lookup ·) with
  | none => .error (.unknownLevel name)
  | some level =>
    .ok { target := "yamlast.api.app:create_app", isFactory := true, host := s.host
          listenPort := s.effectivePort, levelName := s.logLevel.mapChars Char.toLower
          level := level }

def resolve (environment : List (String × String)) : Except LaunchError Launch :=
  match Settings.resolve environment [] with
  | .ok s => ofSettings s
  | .error e => .error (.settings e)

end Launch

end YamlSpan
