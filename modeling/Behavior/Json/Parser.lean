import Behavior.Json
import Behavior.Text.Digits

/-!
Reading JSON text.

Literals are read exactly: a whole number between `-2^63` and `2^64 - 1` stays one, except that
minus zero is the negative double zero; every other number is the nearest double and has to be
finite. Escapes have to denote characters, so a lone surrogate is refused.
-/

namespace Behavior.Json

/-- Text after leading blanks. -/
def skipBlanks : List Char → List Char
  | ' ' :: rest => skipBlanks rest
  | '\n' :: rest => skipBlanks rest
  | '\t' :: rest => skipBlanks rest
  | '\r' :: rest => skipBlanks rest
  | cs => cs

/-- The number four hexadecimal digits denote. -/
def unit? (a b c d : Char) : Option Nat := do
  let a ← Digits.hexValue? a
  let b ← Digits.hexValue? b
  let c ← Digits.hexValue? c
  let d ← Digits.hexValue? d
  return ((a * 16 + b) * 16 + c) * 16 + d

def simpleEscape? : Char → Option Char
  | '"' => some '"'
  | '\\' => some '\\'
  | '/' => some '/'
  | 'b' => some '\x08'
  | 'f' => some '\x0c'
  | 'n' => some '\n'
  | 'r' => some '\r'
  | 't' => some '\t'
  | _ => none

/-- The rest of a string after its opening quote; `done` holds what was read, last first. -/
def stringBody (done : List Char) : List Char → Option (String × List Char)
  | [] => none
  | '"' :: rest => some (String.ofList done.reverse, rest)
  | '\\' :: 'u' :: a :: b :: c :: d :: rest =>
    match unit? a b c d with
    | none => none
    | some high =>
      if 0xd800 ≤ high ∧ high < 0xdc00 then
        match rest with
        | '\\' :: 'u' :: e :: f :: g :: h :: rest =>
          match unit? e f g h with
          | none => none
          | some low =>
            if 0xdc00 ≤ low ∧ low < 0xe000 then
              let code := 0x10000 + (high - 0xd800) * 0x400 + (low - 0xdc00)
              stringBody (Char.ofNat code :: done) rest
            else none
        | _ => none
      else if 0xdc00 ≤ high ∧ high < 0xe000 then none
      else stringBody (Char.ofNat high :: done) rest
  | '\\' :: c :: rest =>
    match simpleEscape? c with
    | none => none
    | some c => stringBody (c :: done) rest
  | c :: rest => if c.toNat < 0x20 then none else stringBody (c :: done) rest

/-- Value of a string of decimal digits. -/
def natOfDigits (digits : List Char) : Nat :=
  digits.foldl (fun n c => n * 10 + (c.toNat - '0'.toNat)) 0

/-- The nearest double to `mantissa * 10 ^ exponent`, if that is finite. Far outside the range of
doubles, which the number of binary digits of the mantissa shows, nothing is computed. -/
def nearest? (negative : Bool) (mantissa : Nat) (exponent : Int) : Option Float :=
  let magnitude :=
    if mantissa = 0 ∨ (mantissa.log2 : Int) / 3 + exponent < -400 then some 0.0
    else if 400 < (mantissa.log2 : Int) / 4 + exponent then none
    else
      let x :=
        if exponent < 0 then Float.ofScientific mantissa true (-exponent).toNat
        else Float.ofScientific mantissa false exponent.toNat
      if x.isFinite then some x else none
  magnitude.map fun x => if negative then -x else x

/-- Digits in front of a text, and the text after them. -/
def spanDigits (cs : List Char) : List Char × List Char :=
  (cs.takeWhile Char.isDigit, cs.dropWhile Char.isDigit)

/-- A power of ten, if one is written. -/
def exponent? : List Char → Option (Option Int × List Char)
  | c :: rest =>
    if c = 'e' ∨ c = 'E' then
      let (negative, rest) :=
        match rest with
        | '-' :: rest => (true, rest)
        | '+' :: rest => (false, rest)
        | rest => (false, rest)
      match spanDigits rest with
      | ([], _) => none
      | (digits, rest) =>
        let n := (natOfDigits digits : Int)
        some (some (if negative then -n else n), rest)
    else some (none, c :: rest)
  | [] => some (none, [])

def number? (negative : Bool) (cs : List Char) : Option (Json × List Char) := do
  let (whole, rest) := spanDigits cs
  if whole.isEmpty ∨ (whole.length > 1 ∧ whole.head? = some '0') then none
  let (fraction, rest) ←
    match rest with
    | '.' :: rest =>
      match spanDigits rest with
      | ([], _) => none
      | (digits, rest) => some (some digits, rest)
    | rest => some (none, rest)
  let (power, rest) ← exponent? rest
  let n := natOfDigits whole
  let fits := if negative then 0 < n ∧ n ≤ 0x8000000000000000 else n ≤ 0xffffffffffffffff
  if fraction.isNone ∧ power.isNone ∧ fits then
    return (int (if negative then -n else n), rest)
  let decimals := fraction.getD []
  let x ← nearest? negative (natOfDigits (whole ++ decimals)) (power.getD 0 - decimals.length)
  return (real x, rest)

/-- Set a field, in place of an earlier one of the same name. -/
def setField (key : String) (value : Json) (fields : List (String × Json)) :
    List (String × Json) :=
  fields.filter (·.1 != key) ++ [(key, value)]

mutual

/-- One value in front of a text. The first argument bounds the number of nested calls; the length
of the text is enough. -/
def value? : Nat → List Char → Option (Json × List Char)
  | 0, _ => none
  | fuel + 1, cs =>
    match skipBlanks cs with
    | 'n' :: 'u' :: 'l' :: 'l' :: rest => some (null, rest)
    | 't' :: 'r' :: 'u' :: 'e' :: rest => some (bool true, rest)
    | 'f' :: 'a' :: 'l' :: 's' :: 'e' :: rest => some (bool false, rest)
    | '"' :: rest => (stringBody [] rest).map fun (s, rest) => (str s, rest)
    | '[' :: rest =>
      match skipBlanks rest with
      | ']' :: rest => some (arr [], rest)
      | rest => items? fuel [] rest
    | '\x7b' :: rest =>
      match skipBlanks rest with
      | '\x7d' :: rest => some (obj [], rest)
      | rest => fields? fuel [] rest
    | '-' :: rest => number? true rest
    | rest => number? false rest

/-- The items of an array that has at least one more; `done` holds the earlier ones, last first. -/
def items? : Nat → List Json → List Char → Option (Json × List Char)
  | 0, _, _ => none
  | fuel + 1, done, cs =>
    match value? fuel cs with
    | none => none
    | some (item, rest) =>
      match skipBlanks rest with
      | ',' :: rest => items? fuel (item :: done) rest
      | ']' :: rest => some (arr (item :: done).reverse, rest)
      | _ => none

/-- The fields of an object that has at least one more. -/
def fields? : Nat → List (String × Json) → List Char → Option (Json × List Char)
  | 0, _, _ => none
  | fuel + 1, done, cs =>
    match skipBlanks cs with
    | '"' :: rest =>
      match stringBody [] rest with
      | none => none
      | some (key, rest) =>
        match skipBlanks rest with
        | ':' :: rest =>
          match value? fuel rest with
          | none => none
          | some (value, rest) =>
            match skipBlanks rest with
            | ',' :: rest => fields? fuel (setField key value done) rest
            | '\x7d' :: rest => some (obj (setField key value done), rest)
            | _ => none
        | _ => none
    | _ => none

end

/-- The value a text denotes, if it is one JSON value with blanks around it. -/
def parse? (text : String) : Option Json :=
  let cs := text.toList
  match value? (cs.length + 1) cs with
  | some (j, rest) => if (skipBlanks rest).isEmpty then some j else none
  | none => none

end Behavior.Json
