import YamlSpan.Problem

/-!
# Tokens

* `Token`       a token with its span
* `Version`     the version of the language that a text asks for
* `TokenRun`    the tokens of a text, and why they stop
-/

namespace YamlSpan

structure Version where
  major : Nat
  minor : Nat
  deriving DecidableEq, Repr

namespace Version

/-- The version of texts that do not say. -/
def latest : Version := ⟨1, 2⟩

/-- The version with the older rules for flow collections and tags. -/
def older : Version := ⟨1, 1⟩

def isLater (v : Version) : Bool := 1 < v.major || (v.major == 1 && 1 < v.minor)

end Version

inductive Directive where
  | version (v : Version)
  | handle (handle expansion : String)
  | other
  deriving DecidableEq, Repr

inductive TokenKind where
  | directive (d : Directive)
  | documentStart
  | documentEnd
  | streamEnd
  | blockSequenceStart
  | blockMappingStart
  | blockEnd
  | flowSequenceStart
  | flowMappingStart
  | flowSequenceEnd
  | flowMappingEnd
  | key
  | value
  | blockEntry
  | flowEntry
  | reference (name : String)
  | anchor (name : String)
  | tag (handle : Option String) (suffix : String)
  | scalar (value : Text) (plain : Bool)
  deriving DecidableEq, Repr

/-- The name of a kind in messages. -/
def TokenKind.name : TokenKind → String
  | .directive _ => "<directive>"
  | .documentStart => "<document start>"
  | .documentEnd => "<document end>"
  | .streamEnd => "<stream end>"
  | .blockSequenceStart => "<block sequence start>"
  | .blockMappingStart => "<block mapping start>"
  | .blockEnd => "<block end>"
  | .flowSequenceStart => "["
  | .flowMappingStart => "\x7b"
  | .flowSequenceEnd => "]"
  | .flowMappingEnd => "\x7d"
  | .key => "?"
  | .value => ":"
  | .blockEntry => "-"
  | .flowEntry => ","
  | .reference _ => "<alias>"
  | .anchor _ => "<anchor>"
  | .tag .. => "<tag>"
  | .scalar .. => "<scalar>"

structure Token where
  kind : TokenKind
  start : Mark
  stop : Mark
  deriving DecidableEq, Repr

/-- A token, with the version in force when nothing read later can change it any more. -/
structure ReadyToken where
  token : Token
  version : Version
  deriving DecidableEq, Repr

/-- The tokens of a text, and why they stop if it is not at its end. -/
structure TokenRun where
  tokens : List ReadyToken
  halt : Option Halt
  deriving DecidableEq, Repr

end YamlSpan
