import ModelScript.Context.Basic
import ModelScript.Text.Quoted

/-!
# Contexts as JSON

Writes a context value as JSON text, each element and field on a line of its own, indented by its
depth.  Characters beyond ASCII are written as UTF-16 units.
-/

namespace ModelScript

namespace Json

/-- The UTF-16 units of a code point. -/
def units (n : Nat) : List Nat :=
  if n < 0x10000 then [n] else [0xD800 + (n - 0x10000) / 0x400, 0xDC00 + (n - 0x10000) % 0x400]

/-- A character as it stands in a JSON string. -/
def escaped (c : Char) : List Char :=
  if c = '"' then ['\\', '"']
  else if c = '\\' then ['\\', '\\']
  else if c = '\n' then ['\\', 'n']
  else if c = '\r' then ['\\', 'r']
  else if c = '\t' then ['\\', 't']
  else if c = '\x08' then ['\\', 'b']
  else if c = '\x0c' then ['\\', 'f']
  else if 0x20 ≤ c.toNat && c.toNat < 0x7F then [c]
  else (units c.toNat).flatMap fun u => '\\' :: 'u' :: Text.hexDigits 4 u

def string (text : String) : String := String.ofList ('"' :: text.toList.flatMap escaped ++ ['"'])

/-- A line break and the indentation of a depth. -/
def newline (indent depth : Nat) : String :=
  String.ofList ('\n' :: List.replicate (indent * depth) ' ')

/-- Items between two brackets, each on a line of its own. -/
def bracketed (indent depth : Nat) (opening closing : Char) (items : List String) : String :=
  if items.isEmpty then String.ofList [opening, closing]
  else
    String.singleton opening ++ newline indent (depth + 1)
      ++ ("," ++ newline indent (depth + 1)).intercalate items
      ++ newline indent depth ++ String.singleton closing

end Json

namespace Value

mutual

/-- A value as JSON, its first line at the given depth. -/
def jsonAt (indent depth : Nat) : Value → String
  | text s => Json.string s
  | list items => Json.bracketed indent depth '[' ']' (jsonItems indent (depth + 1) items)
  | record fields =>
    Json.bracketed indent depth '\x7b' '\x7d' (jsonFields indent (depth + 1) fields)

def jsonItems (indent depth : Nat) : List Value → List String
  | [] => []
  | v :: rest => v.jsonAt indent depth :: jsonItems indent depth rest

def jsonFields (indent depth : Nat) : List (String × Value) → List String
  | [] => []
  | (key, v) :: rest =>
    (Json.string key ++ ": " ++ v.jsonAt indent depth) :: jsonFields indent depth rest

end

/-- A value as JSON, indented by a number of spaces for each level.  A negative number is as good
as zero. -/
def json (indent : Int) (v : Value) : String := v.jsonAt indent.toNat 0

end Value

end ModelScript
