import Recognizer.Document.Basic
import Recognizer.Text.Quoted

/-!
# Writing documents

Documents as indented text, two spaces for each level.  Only quotes,
backslashes and control characters of a text are written as escapes.
-/

namespace Recognizer.Document

def fourDigits (n : Nat) : String :=
  let digits := Text.hexadecimal n
  String.ofList (List.replicate (4 - digits.length) '0') ++ digits

def escapedChar (c : Char) : String :=
  if c = '"' then "\\\""
  else if c = '\\' then "\\\\"
  else if c = '\n' then "\\n"
  else if c = '\r' then "\\r"
  else if c = '\t' then "\\t"
  else if c = '\x08' then "\\b"
  else if c = '\x0c' then "\\f"
  else if c.toNat < 32 then "\\u" ++ fourDigits c.toNat
  else c.toString

def writtenText (s : String) : String :=
  "\"" ++ String.join (s.toList.map escapedChar) ++ "\""

def newLine (level : Nat) : String := "\n" ++ String.ofList (List.replicate (2 * level) ' ')

def enclosed (opening closing : String) (level : Nat) (items : List String) : String :=
  if items.isEmpty then opening ++ closing
  else
    opening ++ newLine (level + 1) ++ ("," ++ newLine (level + 1)).intercalate items
      ++ newLine level ++ closing

mutual

def writtenAt (level : Nat) : Document → String
  | .null => "null"
  | .bool b => toString b
  | .integer n => toString n
  | .decimal digits places => toString digits ++ "e-" ++ toString places
  | .text s => writtenText s
  | .list items => enclosed "[" "]" level (writtenItems (level + 1) items)
  | .record fields => enclosed "\x7b" "\x7d" level (writtenFields (level + 1) fields)

def writtenItems (level : Nat) : List Document → List String
  | [] => []
  | d :: ds => writtenAt level d :: writtenItems level ds

def writtenFields (level : Nat) : List (String × Document) → List String
  | [] => []
  | (name, d) :: fields =>
      (writtenText name ++ ": " ++ writtenAt level d) :: writtenFields level fields

end

def written (d : Document) : String := writtenAt 0 d

end Recognizer.Document
