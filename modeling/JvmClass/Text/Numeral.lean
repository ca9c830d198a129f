/-!
# Numerals and padding

Hexadecimal numerals in both cases, and texts padded with blanks or zeros to a width. A text
longer than the width is left as it is.
-/

namespace JvmClass.Text

def hexLower (n : Nat) : String :=
  String.ofList (Nat.toDigits 16 n)

def hexUpper (n : Nat) : String :=
  String.ofList ((Nat.toDigits 16 n).map Char.toUpper)

def padLeft (width : Nat) (fill : Char) (s : String) : String :=
  String.ofList (List.replicate (width - s.length) fill) ++ s

def padRight (width : Nat) (fill : Char) (s : String) : String :=
  s ++ String.ofList (List.replicate (width - s.length) fill)

end JvmClass.Text
