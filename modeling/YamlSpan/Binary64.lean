/-!
# Double-precision numbers

A number is its 64-bit pattern.  A positive ratio `n / d` is rounded to the nearest number, ties
to the even pattern.  With the exponent `q` of the last place (at least `-1074`) and the rounded
significand `m`, the pattern is `(q + 1074) * 2^52 + m`: below `2^52` the number is subnormal, from
there on the leading bit of `m` steps the exponent field, and a carry out of `m` steps it again.

* `Binary64.ofRatio`     nearest number to a ratio
* `Binary64.ofDecimal`   nearest number to `m * 10^e`
-/

namespace YamlSpan

/-- A double-precision number, by its pattern. -/
structure Binary64 where
  bits : UInt64
  deriving DecidableEq, Repr

namespace Binary64

/-- `2^52`, the number of patterns with one exponent field -/
def binade : Nat := 0x10000000000000

/-- the pattern of infinity, above the patterns of all finite positive numbers -/
def infinityPattern : Nat := 0x7ff * binade

def infinity : Binary64 := ⟨UInt64.ofNat infinityPattern⟩

def nan : Binary64 := ⟨0x7ff8000000000000⟩

def zero : Binary64 := ⟨0⟩

def neg (x : Binary64) : Binary64 := ⟨x.bits ^^^ 0x8000000000000000⟩

def isNaN (x : Binary64) : Bool := (x.bits &&& 0x7fffffffffffffff).toNat > infinityPattern

/-- Neither infinite nor a NaN. -/
def isFinite (x : Binary64) : Bool := (x.bits &&& 0x7fffffffffffffff).toNat < infinityPattern

/-- The quotient rounded to the nearest integer, ties to even. -/
def roundDiv (n d : Nat) : Nat :=
  let q := n / d
  let r := n % d
  if d < 2 * r ∨ (2 * r = d ∧ q % 2 = 1) then q + 1 else q

/-- The numerator and denominator of `n / d / 2^e`. -/
def scaled (n d : Nat) (e : Int) : Nat × Nat :=
  if e < 0 then (n <<< (-e).toNat, d) else (n, d <<< e.toNat)

/-- The exponent `e` with `2^e ≤ n / d < 2^(e+1)`. -/
def exponent (n d : Nat) : Int :=
  let e : Int := (Nat.log2 n : Int) - Nat.log2 d
  let (n', d') := scaled n d e
  if d' ≤ n' then e else e - 1

/-- The number nearest to a ratio. -/
def ofRatio (n d : Nat) : Binary64 :=
  if n = 0 then zero
  else
    let q := max (exponent n d - 52) (-1074)
    let (n', d') := scaled n d q
    let pattern := (q + 1074).toNat * binade + roundDiv n' d'
    if pattern < infinityPattern then ⟨UInt64.ofNat pattern⟩ else infinity

/-- The number nearest to `m * 10^e`, `digits` being the number of decimal digits of `m`.  Beyond
`10^310` the result is infinite and below `10^-330` it is zero, whatever the digits are. -/
def ofDecimal (m digits : Nat) (e : Int) : Binary64 :=
  if m = 0 then zero
  else if 310 < e + digits then infinity
  else if e + digits < -330 then zero
  else if e < 0 then ofRatio m (Nat.pow 10 (-e).toNat) else ofRatio (m * Nat.pow 10 e.toNat) 1

/-- The value of a finite number that is an integer. -/
def toInt? (x : Binary64) : Option Int :=
  let pattern := (x.bits &&& 0x7fffffffffffffff).toNat
  let field := pattern / binade
  let m := if field = 0 then pattern else pattern % binade + binade
  let q : Int := (max field 1 : Nat) - 1075
  let (n, d) := scaled m 1 (-q)
  if n % d = 0 then
    some (if x.bits < 0x8000000000000000 then (n / d : Nat) else -((n / d : Nat) : Int))
  else none

end Binary64

end YamlSpan
