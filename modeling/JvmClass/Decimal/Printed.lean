import JvmClass.Decimal.Shortest

/-!
# Printed floating-point numbers

Two ways to print a number from its shortest decimal. `plain` never uses an exponent and writes
whole numbers without a point; `marked` shows that a number is floating-point: it keeps `.0` and
changes to an exponent below `10^-4` and from `10^16` on.
-/

namespace JvmClass.Decimal

/-- How numbers are printed: whether whole numbers keep `.0`, and the decimal exponents of the
leading digit that are written positionally. -/
structure Style where
  keepsPoint : Bool
  positional : Int → Bool

def plain : Style := ⟨false, fun _ => true⟩

def marked : Style := ⟨true, fun lead => -4 ≤ lead && lead < 16⟩

def zeros (n : Nat) : String :=
  String.ofList (List.replicate n '0')

def Style.positionalText (style : Style) (digits : String) (exponent : Int) : String :=
  if 0 ≤ exponent then digits ++ zeros exponent.toNat ++ if style.keepsPoint then ".0" else ""
  else
    let places := (-exponent).toNat
    if places < digits.length then
      String.ofList (digits.toList.take (digits.length - places)) ++ "." ++
        String.ofList (digits.toList.drop (digits.length - places))
    else "0." ++ zeros (places - digits.length) ++ digits

def exponentText (digits : String) (lead : Int) : String :=
  let fraction := digits.toList.drop 1
  String.ofList (digits.toList.take 1) ++
    (if fraction.isEmpty then "" else "." ++ String.ofList fraction) ++ "e" ++ toString lead

def Style.magnitude (style : Style) (s : Scaled) : String :=
  let digits := toString s.digits
  let lead := s.exponent + digits.length - 1
  if style.positional lead then style.positionalText digits s.exponent
  else exponentText digits lead

def Style.number (style : Style) : Number → String
  | .nan => "NaN"
  | .infinite negative => if negative then "-inf" else "inf"
  | .finite negative mantissa exponent narrowBelow =>
    (if negative then "-" else "") ++
      if mantissa = 0 then style.positionalText "0" 0
      else style.magnitude (shortest mantissa exponent narrowBelow)

def Style.single (style : Style) (bits : UInt32) : String :=
  style.number (.ofBits Decimal.single bits.toNat)

def Style.double (style : Style) (bits : UInt64) : String :=
  style.number (.ofBits Decimal.double bits.toNat)

end JvmClass.Decimal
