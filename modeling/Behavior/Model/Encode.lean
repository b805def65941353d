import Behavior.Bytes.Codec
import Behavior.Bytes.LittleEndian
import Behavior.Bytes.Sha256
import Behavior.Model.Stored

/-!
Writing models.
-/

namespace Behavior

/-- Why a model has no stored form. -/
inductive EncodeError where
  | missingString (name : String)
  /-- A number is too large for its field. -/
  | overflow (what : String)
  | compression (reason : String)
deriving DecidableEq, Repr, Inhabited

def EncodeError.message : EncodeError → String
  | missingString name => s!"name \"{name}\" is missing from the string table"
  | overflow what => s!"{what} does not fit its binary encoding"
  | compression reason => s!"compression failed: {reason}"

namespace Model

open LittleEndian

/-- The index that a name is written as: its last place in the string table. -/
def nameIndex (indexed : List (String × Nat)) (name : String) : Except EncodeError UInt32 :=
  match indexed.lookup name with
  | some i => .ok i.toUInt32
  | none => .error (.missingString name)

def count16 (what : String) (n : Nat) : Except EncodeError (List UInt8) :=
  if n ≤ 0xffff then .ok (encode16 n.toUInt16) else .error (.overflow what)

def count32 (what : String) (n : Nat) : Except EncodeError (List UInt8) :=
  if n ≤ 0xffffffff then .ok (encode32 n.toUInt32) else .error (.overflow what)

def encodeEntry (indexed : List (String × Nat)) (e : Schema.Entry) :
    Except EncodeError (List UInt8) := do
  return encode32 (← nameIndex indexed e.name) ++ e.type.tag :: encode16 e.slot

def encodeEntries (indexed : List (String × Nat)) (entries : List Schema.Entry) :
    Except EncodeError (List UInt8) := do
  return (← count16 "schema" entries.length) ++ (← entries.mapM (encodeEntry indexed)).flatten

def encodeChannel (indexed : List (String × Nat)) (c : Schema.Channel) :
    Except EncodeError (List UInt8) := do
  return encode32 (← nameIndex indexed c.name) ++ encode16 c.valueSlot ++
    c.type.tag :: encode16 c.urgencySlot

def encodeSchema (indexed : List (String × Nat)) (s : Schema) :
    Except EncodeError (List UInt8) := do
  return (← encodeEntries indexed s.inputs) ++ (← encodeEntries indexed s.outputs) ++
    (← count16 "channels" s.channels.length) ++ (← s.channels.mapM (encodeChannel indexed)).flatten

def encodePoint (indexed : List (String × Nat)) (p : ContinuationPoint) :
    Except EncodeError (List UInt8) := do
  return encode32 p.nameHash ++ encode32 (← nameIndex indexed p.name) ++ encode32 p.timeoutMs ++
    encode32 p.defaultOffset ++ encode32 p.offset

def encodePoints (indexed : List (String × Nat)) (points : List ContinuationPoint) :
    Except EncodeError (List UInt8) := do
  return (← count32 "continuation points" points.length) ++
    (← points.mapM (encodePoint indexed)).flatten

def encodeConstants (constants : List Constant) : Except EncodeError (List UInt8) := do
  return (← count32 "constants" constants.length) ++
    constants.flatMap fun c => encode64 c.bits

def encodeString (s : String) : Except EncodeError (List UInt8) := do
  let bytes := s.toUTF8.data.toList
  return (← count32 "string" bytes.length) ++ bytes

def encodeStrings (strings : List String) : Except EncodeError (List UInt8) := do
  return (← count32 "strings" strings.length) ++ (← strings.mapM encodeString).flatten

def encodeCode (code : List Word) : List UInt8 :=
  code.flatMap encode32

/-- Offsets and sizes of consecutive sections. -/
def encodeTable (offset : Nat) : List (List UInt8) → Except EncodeError (List UInt8)
  | [] => .ok []
  | s :: rest => do
    return (← count32 "section offset" offset) ++ (← count32 "section" s.length) ++
      (← encodeTable (offset + s.length) rest)

def encodePayload (m : Model) : Except EncodeError (List UInt8) := do
  let indexed := m.strings.toList.zipIdx.reverse
  let sections := [
    ← encodeSchema indexed m.schema,
    ← encodePoints indexed m.points.toList,
    ← encodeConstants m.constants.toList,
    ← encodeStrings m.strings.toList,
    encodeCode m.code.toList,
    match m.debug? with
    | some d => d.encode
    | none => []]
  return (← encodeTable Stored.tableSize sections) ++ sections.flatten

def encodeAttachment : Option Attachment → List UInt8
  | some a => encode64 a.parent.value ++ encode32 a.pointHash
  | none => []

/-- A payload as it is stored. -/
def storePayload (codec : Codec) (flags : Flags) (raw : List UInt8) :
    Except EncodeError (List UInt8) :=
  if flags.contains .compressed then (codec.compress raw).mapError .compression else .ok raw

def encode (codec : Codec) (m : Model) : Except EncodeError (List UInt8) := do
  let raw ← m.encodePayload
  let rawSize ← count32 "payload" raw.length
  let stored ← storePayload codec m.flags raw
  let storedSize ← count32 "payload" stored.length
  let body := encodeAttachment m.extends? ++ stored
  return Stored.magic ++ encode16 m.version ++ encode16 m.flags.bits ++ encode64 m.id.value ++
    encode16 m.maxStack ++ encode16 m.maxCallDepth ++ encode16 m.localCount ++
    encode32 m.entry ++ storedSize ++ rawSize ++ Sha256.digest body ++ encode16 0 ++ body

end Model

end Behavior
