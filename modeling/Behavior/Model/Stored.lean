import Behavior.Bytes.MessagePack
import Behavior.Model

/-!
What reading and writing stored models agree on.

A stored model is a header of 68 bytes, for an extension a header of 12 bytes with what it attaches
to, and a payload. The payload is a table with offset and size of six sections, then the sections
themselves without gaps: schema, continuation points, constants, strings, code, debug map. Numbers
have their least significant byte first. The header holds the SHA-256 digest of all that follows
it, and the payload may be compressed as a whole.
-/

namespace Behavior

namespace Stored

/-- First bytes of a stored model. -/
def magic : List UInt8 := [67, 68, 78, 67]

def headerSize : Nat := 68

def extensionHeaderSize : Nat := 12

def tableSize : Nat := 48

/-- The largest payload that is accepted, before compression. -/
def maxPayload : Nat := 64 * 1024 * 1024

end Stored

namespace DebugMap

def encode (d : DebugMap) : List UInt8 :=
  let spans := d.spans.toList.flatMap fun (offset, span) =>
    MessagePack.encodeArrHeader 2 ++ (MessagePack.encodeUint offset.toNat ++
      (MessagePack.encodeArrHeader 2 ++ (MessagePack.encodeUint span.line.toNat ++
        MessagePack.encodeUint span.column.toNat)))
  let flows := d.flows.flatMap fun (offset, name) =>
    MessagePack.encodeArrHeader 2 ++
      (MessagePack.encodeUint offset.toNat ++ MessagePack.encodeStr name)
  MessagePack.encodeArrHeader 2 ++ (MessagePack.encodeArrHeader d.spans.size ++
    (spans ++ (MessagePack.encodeArrHeader d.flows.length ++ flows)))

def uint32? (v : MessagePack) : Option UInt32 :=
  (v.nat? 0xffffffff).map Nat.toUInt32

def span? (v : MessagePack) : Option Span :=
  match v.record? ["line", "column"] with
  | some [line, column] => do return ⟨← uint32? line, ← uint32? column⟩
  | _ => none

/-- A list of pairs of a code offset and what `read` reads. -/
def pairs? (read : MessagePack → Option α) (v : MessagePack) : Option (List (UInt32 × α)) :=
  v.list?.bind fun items => items.mapM fun item =>
    match item.tuple? 2 with
    | some [offset, value] => do return (← uint32? offset, ← read value)
    | _ => none

def decode? (bytes : List UInt8) : Option DebugMap := do
  match ← (← MessagePack.decode? bytes).record? ["spans", "flows"] with
  | [spans, flows] =>
    return ⟨(← pairs? span? spans).toArray, ← pairs? MessagePack.string? flows⟩
  | _ => none

end DebugMap

end Behavior
