/-!
MessagePack: values as tagged bytes, with numbers in the byte order of networks. Writing uses the
shortest form of every number, text and list. Reading accepts every form, stops after one value and
returns the rest.
-/

namespace Behavior

inductive MessagePack where
  | nil
  | bool (value : Bool)
  /-- A number from one of the forms without sign. -/
  | uint (value : Nat)
  /-- A number from one of the forms with sign. -/
  | int (value : Int)
  /-- A single or double, by its bytes. -/
  | float (bytes : List UInt8)
  /-- A text, by its bytes, which need not be UTF-8. -/
  | str (bytes : List UInt8)
  | bin (bytes : List UInt8)
  | arr (items : List MessagePack)
  | map (pairs : List (MessagePack × MessagePack))
  | ext (tag : UInt8) (bytes : List UInt8)
deriving Inhabited

namespace MessagePack

/-- The lower bytes of a number, as many as asked for, the most significant first. -/
def bigEndian : (count n : Nat) → List UInt8
  | 0, _ => []
  | count + 1, n => (n / Nat.pow 256 count).toUInt8 :: bigEndian count n

/-- The number of some bytes, the most significant first. -/
def numberOf (bytes : List UInt8) : Nat :=
  bytes.foldl (fun n b => n * 256 + b.toNat) 0

/-- The signed number of some bytes in two's complement. -/
def signedOf (bytes : List UInt8) : Int :=
  let n := numberOf bytes
  let range := Nat.pow 256 bytes.length
  if n < range / 2 then n else (n : Int) - range

def encodeUint (n : Nat) : List UInt8 :=
  if n < 0x80 then [n.toUInt8]
  else if n < 0x100 then 0xcc :: bigEndian 1 n
  else if n < 0x10000 then 0xcd :: bigEndian 2 n
  else if n < 0x100000000 then 0xce :: bigEndian 4 n
  else 0xcf :: bigEndian 8 n

def encodeStr (text : String) : List UInt8 :=
  let bytes := text.toUTF8.data.toList
  let n := bytes.length
  let header :=
    if n < 0x20 then [0xa0 + n.toUInt8]
    else if n < 0x100 then 0xd9 :: bigEndian 1 n
    else if n < 0x10000 then 0xda :: bigEndian 2 n
    else 0xdb :: bigEndian 4 n
  header ++ bytes

def encodeArrHeader (n : Nat) : List UInt8 :=
  if n < 0x10 then [0x90 + n.toUInt8]
  else if n < 0x10000 then 0xdc :: bigEndian 2 n
  else 0xdd :: bigEndian 4 n

/-- The first bytes, as many as asked for, and the rest. -/
def split? (count : Nat) (bytes : List UInt8) : Option (List UInt8 × List UInt8) :=
  let front := bytes.take count
  if front.length = count then some (front, bytes.drop count) else none

/-- What a value's first byte announces. -/
inductive Form where
  | value (v : MessagePack)
  | uint (width : Nat)
  | int (width : Nat)
  | float (width : Nat)
  | str (size : Nat)
  | bin (size : Nat)
  | arr (size : Nat)
  | map (size : Nat)
  | ext (size : Nat)
  /-- A size of the given width comes first. -/
  | sized (width : Nat) (form : Nat → Form)

/-- The form that a first byte stands for; one byte stands for none. -/
def Form.ofByte? (b : UInt8) : Option Form :=
  let n := b.toNat
  if n < 0x80 then some (value (.uint n))
  else if n < 0x90 then some (map (n - 0x80))
  else if n < 0xa0 then some (arr (n - 0x90))
  else if n < 0xc0 then some (str (n - 0xa0))
  else if n < 0xe0 then
    match n with
    | 0xc0 => some (value .nil)
    | 0xc2 => some (value (.bool false))
    | 0xc3 => some (value (.bool true))
    | 0xc4 => some (sized 1 bin)
    | 0xc5 => some (sized 2 bin)
    | 0xc6 => some (sized 4 bin)
    | 0xc7 => some (sized 1 ext)
    | 0xc8 => some (sized 2 ext)
    | 0xc9 => some (sized 4 ext)
    | 0xca => some (float 4)
    | 0xcb => some (float 8)
    | 0xcc => some (uint 1)
    | 0xcd => some (uint 2)
    | 0xce => some (uint 4)
    | 0xcf => some (uint 8)
    | 0xd0 => some (int 1)
    | 0xd1 => some (int 2)
    | 0xd2 => some (int 4)
    | 0xd3 => some (int 8)
    | 0xd4 => some (ext 1)
    | 0xd5 => some (ext 2)
    | 0xd6 => some (ext 4)
    | 0xd7 => some (ext 8)
    | 0xd8 => some (ext 16)
    | 0xd9 => some (sized 1 str)
    | 0xda => some (sized 2 str)
    | 0xdb => some (sized 4 str)
    | 0xdc => some (sized 2 arr)
    | 0xdd => some (sized 4 arr)
    | 0xde => some (sized 2 map)
    | 0xdf => some (sized 4 map)
    | _ => none
  else some (value (.int (n - 256)))

/-- The form of a value, with its size read. -/
def form? (bytes : List UInt8) : Option (Form × List UInt8) :=
  match bytes with
  | [] => none
  | b :: rest =>
    match Form.ofByte? b with
    | some (.sized width form) =>
      (split? width rest).map fun (front, rest) => (form (numberOf front), rest)
    | some form => some (form, rest)
    | none => none

/-- Read `count` items one after the other; `items` has those so far, the latest first. -/
def items? (read : List UInt8 → Option (α × List UInt8)) :
    (count : Nat) → (items : List α) → (bytes : List UInt8) → Option (List α × List UInt8)
  | 0, items, bytes => some (items.reverse, bytes)
  | count + 1, items, bytes =>
    match read bytes with
    | some (item, rest) => items? read count (item :: items) rest
    | none => none

/-- Read a value nested in at most `depth` lists, maps and extensions more. -/
def value? : (depth : Nat) → (bytes : List UInt8) → Option (MessagePack × List UInt8)
  | depth, bytes =>
    match form? bytes with
    | none => none
    | some (form, rest) =>
      match form with
      | .value v => some (v, rest)
      | .uint width => (split? width rest).map fun (front, rest) => (.uint (numberOf front), rest)
      | .int width => (split? width rest).map fun (front, rest) => (.int (signedOf front), rest)
      | .float width => (split? width rest).map fun (front, rest) => (.float front, rest)
      | .str size => (split? size rest).map fun (front, rest) => (.str front, rest)
      | .bin size => (split? size rest).map fun (front, rest) => (.bin front, rest)
      | .arr size =>
        match depth with
        | 0 => none
        | depth + 1 =>
          (items? (value? depth) size [] rest).map fun (items, rest) => (.arr items, rest)
      | .map size =>
        match depth with
        | 0 => none
        | depth + 1 =>
          let pair (bytes : List UInt8) : Option ((MessagePack × MessagePack) × List UInt8) := do
            let (key, rest) ← value? depth bytes
            let (value, rest) ← value? depth rest
            return ((key, value), rest)
          (items? pair size [] rest).map fun (pairs, rest) => (.map pairs, rest)
      | .ext size =>
        match depth with
        | 0 => none
        | _ + 1 =>
          match rest with
          | tag :: rest => (split? size rest).map fun (front, rest) => (.ext tag front, rest)
          | [] => none
      | .sized _ _ => none

/-- How deeply values may be nested. -/
def maxDepth : Nat := 1023

/-- Read one value and ignore what follows it. -/
def decode? (bytes : List UInt8) : Option MessagePack :=
  (value? maxDepth bytes).map (·.1)

/-- A number of at most the given size, of either sign's forms. -/
def nat? (bound : Nat) : MessagePack → Option Nat
  | uint n => if n ≤ bound then some n else none
  | int (.ofNat n) => if n ≤ bound then some n else none
  | _ => none

/-- A text in UTF-8, also when stored as plain bytes. -/
def string? : MessagePack → Option String
  | str bytes => String.fromUTF8? ⟨bytes.toArray⟩
  | bin bytes => String.fromUTF8? ⟨bytes.toArray⟩
  | _ => none

def ofBytes (bytes : List UInt8) : List MessagePack :=
  bytes.map fun b => uint b.toNat

/-- The items of a list. Plain bytes count as a list of numbers. -/
def list? : MessagePack → Option (List MessagePack)
  | arr items => some items
  | bin bytes => some (ofBytes bytes)
  | _ => none

/-- The items of a list of the given length. Plain bytes count as a list of numbers, of which those
that are too many are let pass. -/
def tuple? (count : Nat) : MessagePack → Option (List MessagePack)
  | arr items => if items.length = count then some items else none
  | bin bytes => if count ≤ bytes.length then some (ofBytes (bytes.take count)) else none
  | _ => none

/-- Which of a record's fields a key names: by name, or by number. Keys of unknown fields are let
pass, and keys of another kind refused. -/
def fieldIndex? (names : List String) : MessagePack → Option (Option Nat)
  | uint n => some (if n < names.length then some n else none)
  | str bytes | bin bytes => some (names.findIdx? fun name => name.toUTF8.data.toList == bytes)
  | _ => none

/-- The fields of a record, all of which have to be there: a list of them in order, or a map with no
field given twice. -/
def record? (names : List String) : MessagePack → Option (List MessagePack)
  | map pairs => do
    let fields ← pairs.foldlM (fun (fields : List (Nat × MessagePack)) (key, value) => do
      match ← fieldIndex? names key with
      | none => return fields
      | some i => if (fields.lookup i).isSome then none else return (i, value) :: fields) []
    (List.range names.length).mapM fun i => fields.lookup i
  | v => v.tuple? names.length

end MessagePack

end Behavior
