import Recognizer.Text.Printable

/-!
# Quoted text

How messages and outlines show a text or a character: in quotes, with the
characters that would not be seen, or would end the quotation, written as
escapes.
-/

namespace Recognizer.Text

def hexadecimal (n : Nat) : String := String.ofList (Nat.toDigits 16 n)

def numbered (c : Char) : String := "\\u\x7b" ++ hexadecimal c.toNat ++ "\x7d"

def escaped (quote c : Char) : String :=
  if c = '\x00' then "\\0"
  else if c = '\t' then "\\t"
  else if c = '\r' then "\\r"
  else if c = '\n' then "\\n"
  else if c = '\\' then "\\\\"
  else if c = quote then "\\" ++ quote.toString
  else if isPrintable c then c.toString
  else numbered c

def quoted (s : String) : String :=
  "\"" ++ String.join (s.toList.map (escaped '"')) ++ "\""

def quotedChar (c : Char) : String := "'" ++ escaped '\'' c ++ "'"

end Recognizer.Text
