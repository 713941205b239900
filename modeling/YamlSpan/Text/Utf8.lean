import YamlSpan.Text.Quoted

/-!
# UTF-8

Octets are natural numbers below 256.  The reader refuses overlong forms, surrogates and code
points beyond `U+10FFFF`, and says which octets it stopped at and why.

* `Utf8.encode`   the octets of a text
* `Utf8.decode`   the text of a list of octets
-/

namespace YamlSpan.Text.Utf8

inductive Reason where
  | invalidStart
  | invalidContinuation
  | unexpectedEnd
  deriving DecidableEq, Repr

/-- The octets from `start` up to `stop` cannot be read; `first` is the one at `start`. -/
structure Refusal where
  first : Nat
  start : Nat
  stop : Nat
  reason : Reason
  deriving DecidableEq, Repr

def Reason.message : Reason → String
  | .invalidStart => "invalid start byte"
  | .invalidContinuation => "invalid continuation byte"
  | .unexpectedEnd => "unexpected end of data"

def Refusal.message (r : Refusal) : String :=
  let place :=
    if r.stop == r.start + 1 then
      "byte 0x" ++ String.ofList (hexDigits 2 r.first) ++ " in position " ++ toString r.start
    else "bytes in position " ++ toString r.start ++ "-" ++ toString (r.stop - 1)
  "'utf-8' codec can't decode " ++ place ++ ": " ++ r.reason.message

/-- What a first octet announces: how many octets follow, the bounds of the first of them, and
the bits it contributes. -/
structure Lead where
  owed : Nat
  low : Nat
  high : Nat
  bits : Nat

/-- The announcement of a first octet, unless no character starts with it. -/
def lead? (b : Nat) : Option Lead :=
  if b < 0x80 then some ⟨0, 0x80, 0xbf, b⟩
  else if b < 0xc2 then none
  else if b < 0xe0 then some ⟨1, 0x80, 0xbf, b - 0xc0⟩
  else if b == 0xe0 then some ⟨2, 0xa0, 0xbf, 0⟩
  else if b == 0xed then some ⟨2, 0x80, 0x9f, 0xd⟩
  else if b < 0xf0 then some ⟨2, 0x80, 0xbf, b - 0xe0⟩
  else if b == 0xf0 then some ⟨3, 0x90, 0xbf, 0⟩
  else if b < 0xf4 then some ⟨3, 0x80, 0xbf, b - 0xf0⟩
  else if b == 0xf4 then some ⟨3, 0x80, 0x8f, 4⟩
  else none

/-- The character under way: where it began and with which octet, and what is still owed. -/
structure Unfinished where
  start : Nat
  first : Nat
  lead : Lead

/-- Reads octets, the next of which is number `place`; `pending` is the character under way. -/
def decodeFrom : (place : Nat) → (pending : Option Unfinished) → List Nat →
    Except Refusal (List Char)
  | _, none, [] => .ok []
  | place, some u, [] => .error ⟨u.first, u.start, place, .unexpectedEnd⟩
  | place, none, b :: rest =>
    match lead? b with
    | none => .error ⟨b, place, place + 1, .invalidStart⟩
    | some l =>
      if l.owed == 0 then (decodeFrom (place + 1) none rest).map (Char.ofNat l.bits :: ·)
      else decodeFrom (place + 1) (some ⟨place, b, l⟩) rest
  | place, some u, b :: rest =>
    if b < u.lead.low || u.lead.high < b then
      .error ⟨u.first, u.start, place, .invalidContinuation⟩
    else
      let bits := u.lead.bits * 64 + (b - 0x80)
      if u.lead.owed == 1 then (decodeFrom (place + 1) none rest).map (Char.ofNat bits :: ·)
      else decodeFrom (place + 1) (some { u with lead := ⟨u.lead.owed - 1, 0x80, 0xbf, bits⟩ }) rest

def decode (octets : List Nat) : Except Refusal (List Char) := decodeFrom 0 none octets

def encodeChar (c : Char) : List Nat :=
  let n := c.toNat
  if n < 0x80 then [n]
  else if n < 0x800 then [0xc0 + n / 64, 0x80 + n % 64]
  else if n < 0x10000 then [0xe0 + n / 4096, 0x80 + n / 64 % 64, 0x80 + n % 64]
  else [0xf0 + n / 262144, 0x80 + n / 4096 % 64, 0x80 + n / 64 % 64, 0x80 + n % 64]

def encode (text : List Char) : List Nat := text.flatMap encodeChar

end YamlSpan.Text.Utf8
