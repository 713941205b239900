import YamlSpan.Raw.Assembly

/-!
# Loading the raw documents of a text

Events are read from the start of the text.  After a failure, reading starts afresh at the next
document marker, which lies behind the place where the failed run began, so there are at most as
many runs as code points.

* `load`   the raw documents of a text, for any reader of events
-/

namespace YamlSpan

namespace Assembly

/-- Takes in the events of a text that starts at `base`, and says where to go on after a
failure. -/
def takeRun (src : Source) (base : Nat) (run : EventRun) : Action (Option Nat) := do
  moveTo base
  takeAll src run.events
  match run.halt with
  | none => return none
  | some (.failure f) => breakOff src f
  | some (.fault f) => throw f

/-- Takes in runs until one is complete. -/
def takeRuns (read : EventSource) (src : Source) : (fuel base : Nat) → Action Unit
  | 0, _ => pure ()
  | fuel + 1, base => do
    match ← takeRun src base (read (src.text.drop base)) with
    | none => pure ()
    | some resume => takeRuns read src fuel resume

end Assembly

def load (read : EventSource) (tags : TagRegistry) (text : Text) :
    Except Fault (List RawDocument) :=
  match (Assembly.takeRuns read ⟨text, tags⟩ (text.length + 1) 0).run Assembly.initial with
  | .ok _ c => .ok c.documents
  | .error f _ => .error f

end YamlSpan
