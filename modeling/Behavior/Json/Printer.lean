import Behavior.Json
import Behavior.Text.Digits

/-!
Text of a JSON value, without blanks.
-/

namespace Behavior.Json

/-- Characters that stand for one character inside a JSON string. -/
def escape (c : Char) : String :=
  if c = '"' then "\\\""
  else if c = '\\' then "\\\\"
  else if c = '\n' then "\\n"
  else if c.toNat < 0x20 ∨ c.toNat = 0x7f then "\\u" ++ Digits.hex 4 c.toNat
  else c.toString

def writeString (out text : String) : String :=
  (text.toList.foldl (fun out c => out ++ escape c) (out.push '"')).push '"'

mutual

/-- A value, appended to `out`. Doubles that no literal denotes are written as null. -/
def write (out : String) : Json → String
  | null => out ++ "null"
  | bool b => out ++ (if b then "true" else "false")
  | int i => out ++ toString i
  | real x => if x.isFinite then out ++ Decimal.scientific.render x else out ++ "null"
  | str s => writeString out s
  | arr items => (writeItems (out.push '[') true items).push ']'
  | obj fields => (writeFields (out.push '\x7b') true fields).push '\x7d'

def writeItems (out : String) (first : Bool) : List Json → String
  | [] => out
  | j :: rest => writeItems (write (if first then out else out.push ',') j) false rest

def writeFields (out : String) (first : Bool) : List (String × Json) → String
  | [] => out
  | (key, j) :: rest =>
    let out := writeString (if first then out else out.push ',') key
    writeFields (write (out.push ':') j) false rest

end

/-- Text of a value. -/
def render (j : Json) : String :=
  write "" j

end Behavior.Json
