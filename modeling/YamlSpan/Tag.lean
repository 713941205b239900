import YamlSpan.Assoc
import YamlSpan.Text.Blank

/-!
# Tags and the kinds of node they apply to

A tag is known by its expanded name: `!!x` stands for `tag:yaml.org,2002:x`.  The core tags are
always known; further ones are registered, written as `<tag> [<kind>]` in a specification.  The
registry keeps the order in which names were first registered.

* `Tag.expand`            the expanded name of a tag
* `TagSpec.parse`         one specification
* `TagRegistry.insert`    registers a tag, replacing the kind of a name registered before
* `TagRegistry.lookup`    the kind of a tag
* `TagRegistry.ofSpecs`   the registry of a list of specifications
-/

namespace YamlSpan

inductive TagKind where
  | scalar
  | mapping
  | sequence
  deriving DecidableEq, Repr

namespace TagKind

def name : TagKind → String
  | .scalar => "scalar"
  | .mapping => "mapping"
  | .sequence => "sequence"

def all : List TagKind := [.scalar, .mapping, .sequence]

def ofName? (s : Text) : Option TagKind := all.find? fun kind => Text.ofString kind.name = s

end TagKind

namespace Tag

/-- The namespace of the core tags. -/
def core : String := "tag:yaml.org,2002:"

/-- The tag of references to other files. -/
def inclusion : String := "!include"

/-- The tag that says nothing about a node. -/
def nonSpecific : String := "!"

def coreName (name : String) : Text := core ++ name

/-- The expanded name of a tag. -/
def expand : Text → Text
  | .char '!' :: .char '!' :: rest => Text.ofString core ++ rest
  | tag => tag

/-- The tags that need no registration. -/
def coreKinds : List (Text × TagKind) :=
  (["str", "int", "float", "bool", "null", "binary", "timestamp", "merge", "value"].map
      fun name => (coreName name, .scalar))
    ++ [(coreName "map", .mapping), (coreName "set", .mapping), (coreName "seq", .sequence),
        (coreName "omap", .sequence), (coreName "pairs", .sequence), (inclusion, .scalar)]

end Tag

inductive TagError where
  | emptySpec
  | malformedSpec (spec : Text)
  | unknownKindInSpec (kind name : Text)
  | unknownKind (kind name : Text)
  deriving DecidableEq, Repr

def TagError.message : TagError → Text
  | .emptySpec => "Empty custom tag specification"
  | .malformedSpec spec => "Invalid custom tag specification '" ++ spec ++ "'"
  | .unknownKindInSpec kind name =>
    "Unknown kind '" ++ kind ++ "' for custom tag '" ++ name ++ "'. Expected one of: "
      ++ ", ".intercalate (TagKind.all.map TagKind.name)
  | .unknownKind kind name => "Unknown kind '" ++ kind ++ "' for custom tag '" ++ name ++ "'"

structure TagSpec where
  name : Text
  kind : TagKind
  deriving DecidableEq, Repr

/-- Reads `<tag> [<kind>]`; the kind is `scalar` when it is left out. -/
def TagSpec.parse (spec : Text) : Except TagError TagSpec :=
  match Text.words spec with
  | [] => .error .emptySpec
  | [name] => .ok ⟨name, .scalar⟩
  | [name, kind] =>
    match TagKind.ofName? kind with
    | some kind => .ok ⟨name, kind⟩
    | none => .error (.unknownKindInSpec kind name)
  | _ => .error (.malformedSpec spec)

/-- The registered tags, by expanded name, in order of first registration. -/
structure TagRegistry where
  custom : List (Text × TagKind)
  deriving DecidableEq, Repr

namespace TagRegistry

/-- Only the core tags. -/
def empty : TagRegistry := ⟨[]⟩

/-- Registers a tag under its expanded name. -/
def insert (r : TagRegistry) (tag : Text) (kind : TagKind) : TagRegistry :=
  ⟨Assoc.put (Tag.expand tag) kind r.custom⟩

/-- Registers a tag for a kind given by name. -/
def register (r : TagRegistry) (tag kind : Text) : Except TagError TagRegistry :=
  match TagKind.ofName? kind with
  | some kind => .ok (r.insert tag kind)
  | none => .error (.unknownKind kind tag)

/-- The kind of node a tag applies to: registered tags go before core tags. -/
def lookup (r : TagRegistry) (tag : Text) : Option TagKind :=
  (r.custom.lookup (Tag.expand tag)).or (Tag.coreKinds.lookup (Tag.expand tag))

def specs (r : TagRegistry) : List TagSpec := r.custom.map fun (name, kind) => ⟨name, kind⟩

/-- Registers specifications in order, up to the first that cannot be read. -/
def insertSpecs (r : TagRegistry) : List Text → Except TagError TagRegistry
  | [] => .ok r
  | spec :: rest =>
    match TagSpec.parse spec with
    | .ok s => insertSpecs (r.insert s.name s.kind) rest
    | .error e => .error e

def ofSpecs (specs : List Text) : Except TagError TagRegistry := empty.insertSpecs specs

end TagRegistry

end YamlSpan
