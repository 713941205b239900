import YamlSpan.Failure
import YamlSpan.Span
import YamlSpan.Text.CodePoint

/-!
# Events

The events of a text list its documents and nodes from left to right: scalars and references by
one event, collections by one at either end.  A run over a text ends at its end, at a failure or
at a fault, and the events before that count.

* `Event`        one event
* `EventRun`     the events of a text with the way they end
* `EventSource`  a reader of texts
-/

namespace YamlSpan

/-- An event, with its span in the text it was read from. -/
inductive Event where
  | documentStart (span : Span)
  | documentEnd (span : Span)
  | scalar (span : Span) (value : Text) (plain : Bool) (anchor tag : Option String)
  | reference (span : Span) (name : String)
  | sequenceStart (span : Span) (anchor tag : Option String)
  | sequenceEnd (span : Span)
  | mappingStart (span : Span) (anchor tag : Option String)
  | mappingEnd (span : Span)
  deriving DecidableEq, Repr

/-- The events of a text, and why they stop if it is not at its end. -/
structure EventRun where
  events : List Event
  halt : Option Halt
  deriving DecidableEq, Repr

abbrev EventSource := Text → EventRun

end YamlSpan
