import YamlSpan.Raw

/-!
# Errors and warnings

What was reported about a raw document becomes errors and warnings.  Duplicate keys are warnings,
except for the merge key `<<`, which is repeated on purpose and not reported at all.

* `RawDiagnostic.isMergeKey`   a repeated merge key
* `Diagnostics.ofRaw`          the errors and warnings of a document
-/

namespace YamlSpan

def duplicateKey : String := "duplicate key"

def mergeKey : String := "<<"

inductive DiagnosticCode where
  | undefined
  deriving DecidableEq, Repr

def DiagnosticCode.name : DiagnosticCode → String
  | .undefined => "undefined"

structure Diagnostic where
  message : String
  location : Span
  code : DiagnosticCode
  deriving DecidableEq, Repr

namespace RawDiagnostic

def toDiagnostic (d : RawDiagnostic) : Diagnostic := ⟨d.reason, d.span, .undefined⟩

/-- Does a report about a repeated key point at a merge key? -/
def isMergeKey (text : Text) (d : RawDiagnostic) : Bool :=
  d.reason == duplicateKey
    && (Text.ofString mergeKey).isPrefixOf (Text.slice text d.span.start d.span.stop)

def isMinor (d : RawDiagnostic) : Bool := d.reason == duplicateKey || d.isWarning

end RawDiagnostic

structure Diagnostics where
  errors : List Diagnostic
  warnings : List Diagnostic
  deriving DecidableEq, Repr

/-- Sorts reports into errors and warnings, dropping repeated merge keys. -/
def Diagnostics.ofRaw (text : Text) (reports : List RawDiagnostic) : Diagnostics :=
  let kept := reports.filter fun d => !d.isMergeKey text
  ⟨(kept.filter fun d => !d.isMinor).map RawDiagnostic.toDiagnostic,
    (kept.filter fun d => d.isMinor).map RawDiagnostic.toDiagnostic⟩

end YamlSpan
