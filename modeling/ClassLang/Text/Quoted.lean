import ClassLang.Text.Printable

/-! # Quoted forms

    How a message shows a character or a string unambiguously: between
    quotes, with the quote itself and the backslash escaped, the common
    controls by a letter, and every other character that cannot be seen by
    its code point in lower-case hexadecimal without padding. -/

namespace ClassLang.Text

/-- The lower-case hexadecimal digits of `n`, without padding. -/
def hex (n : Nat) : String := String.ofList (Nat.toDigits 16 n)

/-- The form of `c` inside a pair of `quote`s. -/
def escape (quote c : Char) : String :=
  if c = quote ∨ c = '\\' then String.ofList ['\\', c]
  else if c = '\x00' then "\\0"
  else if c = '\t' then "\\t"
  else if c = '\n' then "\\n"
  else if c = '\r' then "\\r"
  else if isPrintable c then c.toString
  else "\\u\x7b" ++ hex c.toNat ++ "\x7d"

/-- A character between single quotes. -/
def quotedChar (c : Char) : String := "'" ++ escape '\'' c ++ "'"

/-- A string between double quotes. -/
def quoted (s : String) : String :=
  "\"" ++ String.join (s.toList.map (escape '"')) ++ "\""

end ClassLang.Text
