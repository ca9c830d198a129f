import JvmClass.Text.Numeral
import JvmClass.Text.Unprintable

/-!
# Quoted text

A text in double quotes, or a character in single quotes. The quote in use and the backslash
are escaped, five controls have letters of their own, and every other character without a glyph
is written by its code point.
-/

namespace JvmClass.Text

/-- A code point between braces, as it stands after `\u`. -/
def braced (digits : String) : String :=
  "\\u\x7b" ++ digits ++ "\x7d"

def escape (quote c : Char) : String :=
  if c == quote || c == '\\' then String.ofList ['\\', c]
  else if c == '\x00' then "\\0"
  else if c == '\t' then "\\t"
  else if c == '\n' then "\\n"
  else if c == '\r' then "\\r"
  else if isUnprintable c then braced (hexLower c.toNat)
  else String.ofList [c]

def quoted (s : String) : String :=
  "\"" ++ String.join (s.toList.map (escape '\x22')) ++ "\""

def quotedChar (c : Char) : String :=
  "'" ++ escape '\x27' c ++ "'"

/-- A code unit in single quotes; a surrogate is no character and is written by its number. -/
def quotedUnit (unit : UInt16) : String :=
  if 0xD800 ≤ unit && unit ≤ 0xDFFF then
    "'" ++ braced (padLeft 4 '0' (hexUpper unit.toNat)) ++ "'"
  else quotedChar (Char.ofNat unit.toNat)

end JvmClass.Text
