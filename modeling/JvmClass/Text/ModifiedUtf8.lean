import JvmClass.Bytes
import JvmClass.Text.Quoted

/-!
# Modified UTF-8

Text is stored as UTF-16 code units, each in one to three bytes; the unit zero takes two bytes,
so no byte is zero. Surrogates are encoded one by one, so unpaired ones survive. A unit list has
one encoding, and `decodeUnits` accepts that one only.
-/

namespace JvmClass.Text

def encodeUnit (unit : UInt16) : Bytes :=
  let u := unit.toNat
  if 1 ≤ u ∧ u ≤ 0x7F then [UInt8.ofNat u]
  else if u ≤ 0x7FF then [UInt8.ofNat (0xC0 + u / 64), UInt8.ofNat (0x80 + u % 64)]
  else [UInt8.ofNat (0xE0 + u / 4096), UInt8.ofNat (0x80 + u / 64 % 64),
    UInt8.ofNat (0x80 + u % 64)]

def encodeUnits (units : List UInt16) : Bytes :=
  units.flatMap encodeUnit

/-- The six payload bits of a continuation byte. -/
def continuation? (b : UInt8) : Option Nat :=
  if 0x80 ≤ b.toNat ∧ b.toNat < 0xC0 then some (b.toNat - 0x80) else none

/-- The unit of a two-byte form; only zero may be overlong. -/
def twoByteUnit? (a b : UInt8) : Option UInt16 := do
  let low ← continuation? b
  let u := (a.toNat - 0xC0) * 64 + low
  if u = 0 ∨ 0x80 ≤ u then some (UInt16.ofNat u) else none

/-- The unit of a three-byte form, which may not be overlong. -/
def threeByteUnit? (a b c : UInt8) : Option UInt16 := do
  let mid ← continuation? b
  let low ← continuation? c
  let u := (a.toNat - 0xE0) * 4096 + mid * 64 + low
  if 0x800 ≤ u then some (UInt16.ofNat u) else none

/-- Decodes behind the units read so far, which stand in reverse. -/
def decodeUnitsAfter (units : List UInt16) : Bytes → Option (List UInt16)
  | [] => some units.reverse
  | a :: rest =>
    if 1 ≤ a.toNat ∧ a.toNat ≤ 0x7F then decodeUnitsAfter (a.toUInt16 :: units) rest
    else if 0xC0 ≤ a.toNat ∧ a.toNat ≤ 0xDF then
      match rest with
      | b :: rest =>
        match twoByteUnit? a b with
        | some u => decodeUnitsAfter (u :: units) rest
        | none => none
      | [] => none
    else if 0xE0 ≤ a.toNat ∧ a.toNat ≤ 0xEF then
      match rest with
      | b :: c :: rest =>
        match threeByteUnit? a b c with
        | some u => decodeUnitsAfter (u :: units) rest
        | none => none
      | _ => none
    else none

def decodeUnits (bytes : Bytes) : Option (List UInt16) :=
  decodeUnitsAfter [] bytes

/-! ## Characters and code units -/

def isHighSurrogate (u : UInt16) : Bool := 0xD800 ≤ u.toNat && u.toNat < 0xDC00

def isLowSurrogate (u : UInt16) : Bool := 0xDC00 ≤ u.toNat && u.toNat < 0xE000

def charUnits (c : Char) : List UInt16 :=
  if c.toNat < 0x10000 then [UInt16.ofNat c.toNat]
  else
    let n := c.toNat - 0x10000
    [UInt16.ofNat (0xD800 + n / 1024), UInt16.ofNat (0xDC00 + n % 1024)]

def units (s : String) : List UInt16 :=
  s.toList.flatMap charUnits

/-- The modified UTF-8 form of a text. -/
def encode (s : String) : Bytes :=
  encodeUnits (units s)

def pairChar (high low : UInt16) : Char :=
  Char.ofNat (0x10000 + (high.toNat - 0xD800) * 1024 + (low.toNat - 0xDC00))

/-- Reads code units as characters; an unpaired surrogate stands for itself, as an error. The
items read so far stand in reverse. -/
def pairUnitsAfter (items : List (Except UInt16 Char)) : List UInt16 → List (Except UInt16 Char)
  | [] => items.reverse
  | u :: rest =>
    if isHighSurrogate u then
      match rest with
      | [] => pairUnitsAfter (.error u :: items) []
      | v :: rest =>
        if isLowSurrogate v then pairUnitsAfter (.ok (pairChar u v) :: items) rest
        else pairUnitsAfter (.error u :: items) (v :: rest)
    else if isLowSurrogate u then pairUnitsAfter (.error u :: items) rest
    else pairUnitsAfter (.ok (Char.ofNat u.toNat) :: items) rest

def pairUnits (us : List UInt16) : List (Except UInt16 Char) :=
  pairUnitsAfter [] us

/-- The text of well-paired code units. -/
def ofUnits? (us : List UInt16) : Option String :=
  ((pairUnits us).mapM Except.toOption).map String.ofList

/-- The text of any code units, with U+FFFD for each unpaired surrogate. -/
def ofUnitsLossy (us : List UInt16) : String :=
  String.ofList ((pairUnits us).map fun
    | .ok c => c
    | .error _ => '\uFFFD')

/-- The text of any code units, with each unpaired surrogate written by its number. -/
def ofUnitsEscaped (us : List UInt16) : String :=
  String.join ((pairUnits us).map fun
    | .ok c => String.ofList [c]
    | .error u => braced (padLeft 4 '0' (hexUpper u.toNat)))

end JvmClass.Text
