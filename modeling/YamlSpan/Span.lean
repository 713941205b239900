/-!
# Spans

* `Span`     the characters from `start` up to `stop`
* `Extent`   the same place as an offset and a length
-/

namespace YamlSpan

/-- The characters from `start` up to `stop`. -/
structure Span where
  start : Int
  stop : Int
  deriving DecidableEq, Repr

structure Extent where
  offset : Int
  length : Int
  deriving DecidableEq, Repr

def Span.extent (s : Span) : Extent := ⟨s.start, s.stop - s.start⟩

namespace Extent

def stop (e : Extent) : Int := e.offset + e.length

/-- Is the offset inside, or just behind when the right bound counts as inside? -/
def covers (e : Extent) (offset : Int) (rightBound : Bool) : Bool :=
  (e.offset ≤ offset && offset < e.stop) || (rightBound && offset == e.stop)

end Extent

end YamlSpan
