import Behavior.Bytes.Codec
import Behavior.Bytes.LittleEndian
import Behavior.Bytes.Sha256
import Behavior.Model.Check
import Behavior.Model.Stored

/-!
Reading stored models. Every reader takes bytes from the front and returns the rest; a section has
to be used up by its reader.
-/

namespace Behavior.Model

open LittleEndian

/-- What a reader gives: a value and the bytes after it. -/
abbrev Read (α : Type) := α × List UInt8

/-- The section ends too early. -/
def orTruncated (s : Section) : Option (α × List UInt8) → Except LoadError (Read α)
  | some r => .ok r
  | none => .error (.truncated s)

def read8 (s : Section) (bytes : List UInt8) : Except LoadError (Read UInt8) :=
  orTruncated s (decode8? bytes)

def read16 (s : Section) (bytes : List UInt8) : Except LoadError (Read UInt16) :=
  orTruncated s (decode16? bytes)

def read32 (s : Section) (bytes : List UInt8) : Except LoadError (Read UInt32) :=
  orTruncated s (decode32? bytes)

def read64 (s : Section) (bytes : List UInt8) : Except LoadError (Read UInt64) :=
  orTruncated s (decode64? bytes)

def readBytes (s : Section) (count : Nat) (bytes : List UInt8) :
    Except LoadError (Read (List UInt8)) :=
  orTruncated s (take? count bytes)

/-- Nothing may be left of a section. -/
def finish (s : Section) : List UInt8 → Except LoadError Unit
  | [] => .ok ()
  | _ :: _ => .error (.trailingBytes s)

/-- Read `count` items one after the other; `items` has those so far, the latest first. -/
def readItems (read : List UInt8 → Except LoadError (Read α)) : (count : Nat) → (items : List α) →
    (bytes : List UInt8) → Except LoadError (Read (List α))
  | 0, items, bytes => .ok (items.reverse, bytes)
  | count + 1, items, bytes =>
    match read bytes with
    | .ok (item, rest) => readItems read count (item :: items) rest
    | .error e => .error e

/-- Read a count, which the bytes after it have to allow for: each item takes at least `least`. -/
def readCount (s : Section) (least : Nat) (bytes : List UInt8) : Except LoadError (Read Nat) := do
  let (count, rest) ← read32 s bytes
  if rest.length / least < count.toNat then throw (.truncated s)
  return (count.toNat, rest)

/-- Sizes and contents of the payload's sections. -/
structure Sections where
  schema : List UInt8
  points : List UInt8
  constants : List UInt8
  strings : List UInt8
  code : List UInt8
  debug : List UInt8

/-- Size of a section from its row of the table. The section has to start at `expected` and to end
within the payload. -/
def readSectionSize (s : Section) (payloadSize expected : Nat) (table : List UInt8) :
    Except LoadError (Read Nat) := do
  let (offset, table) ← read32 .sectionTable table
  let (size, table) ← read32 .sectionTable table
  if offset.toNat ≠ expected ∨ payloadSize < expected + size.toNat then
    throw (.sectionLayout (.misplaced s))
  return (size.toNat, table)

def splitSections (payload : List UInt8) : Except LoadError Sections := do
  let whole := payload.length
  let stop := Stored.tableSize
  let (schemaSize, table) ← readSectionSize .schema whole stop payload
  let stop := stop + schemaSize
  let (pointsSize, table) ← readSectionSize .points whole stop table
  let stop := stop + pointsSize
  let (constantsSize, table) ← readSectionSize .constants whole stop table
  let stop := stop + constantsSize
  let (stringsSize, table) ← readSectionSize .strings whole stop table
  let stop := stop + stringsSize
  let (codeSize, table) ← readSectionSize .code whole stop table
  let stop := stop + codeSize
  let (debugSize, _) ← readSectionSize .debug whole stop table
  if stop + debugSize ≠ whole then throw (.sectionLayout .trailing)
  let (schema, rest) := (payload.drop Stored.tableSize).splitAt schemaSize
  let (points, rest) := rest.splitAt pointsSize
  let (constants, rest) := rest.splitAt constantsSize
  let (strings, rest) := rest.splitAt stringsSize
  let (code, debug) := rest.splitAt codeSize
  return { schema, points, constants, strings, code, debug }

def readStrings (index : Nat) : (count : Nat) → (strings : Array String) →
    (bytes : List UInt8) → Except LoadError (Read (Array String))
  | 0, strings, bytes => .ok (strings, bytes)
  | count + 1, strings, bytes =>
    match read32 .strings bytes with
    | .error e => .error e
    | .ok (size, rest) =>
      match readBytes .strings size.toNat rest with
      | .error e => .error e
      | .ok (text, rest) =>
        match String.fromUTF8? ⟨text.toArray⟩ with
        | none => .error (.invalidUtf8 index)
        | some s => readStrings (index + 1) count (strings.push s) rest

def decodeStrings (bytes : List UInt8) : Except LoadError (Array String) := do
  let (count, rest) ← readCount .strings 4 bytes
  let (strings, rest) ← readStrings 0 count #[] rest
  finish .strings rest
  return strings

def readName (s : Section) (strings : Array String) (bytes : List UInt8) :
    Except LoadError (Read String) := do
  let (index, rest) ← read32 s bytes
  match strings[index.toNat]? with
  | some name => return (name, rest)
  | none => throw (.sectionLayout .stringIndex)

def readType (bytes : List UInt8) : Except LoadError (Read ValueType) := do
  let (tag, rest) ← read8 .schema bytes
  match ValueType.ofTag? tag with
  | some type => return (type, rest)
  | none => throw (.invalidType tag)

def readEntry (strings : Array String) (bytes : List UInt8) :
    Except LoadError (Read Schema.Entry) := do
  let (name, rest) ← readName .schema strings bytes
  let (type, rest) ← readType rest
  let (slot, rest) ← read16 .schema rest
  return ({ name, type, slot }, rest)

def readChannel (strings : Array String) (bytes : List UInt8) :
    Except LoadError (Read Schema.Channel) := do
  let (name, rest) ← readName .schema strings bytes
  let (valueSlot, rest) ← read16 .schema rest
  let (type, rest) ← readType rest
  let (urgencySlot, rest) ← read16 .schema rest
  return ({ name, type, valueSlot, urgencySlot }, rest)

/-- A count of sixteen bits and as many items. -/
def readTable (read : List UInt8 → Except LoadError (Read α)) (bytes : List UInt8) :
    Except LoadError (Read (List α)) := do
  let (count, rest) ← read16 .schema bytes
  readItems read count.toNat [] rest

def decodeSchema (strings : Array String) (bytes : List UInt8) : Except LoadError Schema := do
  let (inputs, rest) ← readTable (readEntry strings) bytes
  let (outputs, rest) ← readTable (readEntry strings) rest
  let (channels, rest) ← readTable (readChannel strings) rest
  finish .schema rest
  return { inputs, outputs, channels }

def readPoint (strings : Array String) (bytes : List UInt8) :
    Except LoadError (Read ContinuationPoint) := do
  let (nameHash, rest) ← read32 .points bytes
  let (name, rest) ← readName .points strings rest
  let (timeoutMs, rest) ← read32 .points rest
  let (defaultOffset, rest) ← read32 .points rest
  let (offset, rest) ← read32 .points rest
  return ({ name, nameHash, timeoutMs, defaultOffset, offset }, rest)

def decodePoints (strings : Array String) (bytes : List UInt8) :
    Except LoadError (Array ContinuationPoint) := do
  let (count, rest) ← readCount .points 20 bytes
  let (points, rest) ← readItems (readPoint strings) count [] rest
  finish .points rest
  return points.toArray

def readConstant (bytes : List UInt8) : Except LoadError (Read Constant) :=
  (read64 .constants bytes).map fun (bits, rest) => (⟨bits⟩, rest)

def decodeConstants (bytes : List UInt8) : Except LoadError (Array Constant) := do
  let (count, rest) ← readCount .constants 8 bytes
  let (constants, rest) ← readItems readConstant count [] rest
  finish .constants rest
  return constants.toArray

def readWords (code : Array Word) : List UInt8 → Array Word
  | a :: b :: c :: d :: rest =>
    readWords (code.push
      (a.toUInt32 ||| (b.toUInt32 <<< 8) ||| (c.toUInt32 <<< 16) ||| (d.toUInt32 <<< 24))) rest
  | _ => code

/-- Code is words up to the end of its section. -/
def decodeCode (bytes : List UInt8) : Except LoadError (Array Word) :=
  if bytes.length % 4 = 0 then .ok (readWords #[] bytes) else .error (.trailingBytes .code)

/-- The debug section is empty unless the flags announce it. -/
def decodeDebug (flags : Flags) (bytes : List UInt8) : Except LoadError (Option DebugMap) :=
  if flags.contains .debugInfo then
    match DebugMap.decode? bytes with
    | some d => .ok (some d)
    | none => .error .debugInfo
  else if bytes.isEmpty then .ok none
  else .error (.trailingBytes .debug)

structure Header where
  version : UInt16
  flags : Flags
  id : ModelId
  maxStack : UInt16
  maxCallDepth : UInt16
  localCount : UInt16
  entry : UInt32
  storedSize : Nat
  rawSize : Nat
  digest : List UInt8

def decodeHeader (bytes : List UInt8) : Except LoadError (Read Header) := do
  let (start, rest) ← readBytes .header Stored.magic.length bytes
  if start ≠ Stored.magic then throw .badMagic
  let (version, rest) ← read16 .header rest
  if version ≠ Model.formatVersion then throw (.unsupportedVersion version)
  let (flags, rest) ← read16 .header rest
  if !Flags.all.contains ⟨flags⟩ then throw (.unknownFlags flags)
  let (id, rest) ← read64 .header rest
  let (maxStack, rest) ← read16 .header rest
  let (maxCallDepth, rest) ← read16 .header rest
  let (localCount, rest) ← read16 .header rest
  let (entry, rest) ← read32 .header rest
  let (storedSize, rest) ← read32 .header rest
  let (rawSize, rest) ← read32 .header rest
  let (digest, rest) ← readBytes .header 32 rest
  let (_, rest) ← read16 .header rest
  return ({ version, flags := ⟨flags⟩, id := ⟨id⟩, maxStack, maxCallDepth, localCount, entry,
            storedSize := storedSize.toNat, rawSize := rawSize.toNat, digest }, rest)

def decodeAttachment (bytes : List UInt8) : Except LoadError (Read Attachment) := do
  let (parent, rest) ← read64 .extensionHeader bytes
  let (pointHash, rest) ← read32 .extensionHeader rest
  return (⟨⟨parent⟩, pointHash⟩, rest)

/-- Undo the compression of a payload, if it has one, and compare its size with the declared one. -/
def decompress (codec : Codec) (h : Header) (stored : List UInt8) :
    Except LoadError (List UInt8) := do
  if Stored.maxPayload < h.rawSize then throw (.sectionLayout .tooLarge)
  let payload ←
    if h.flags.contains .compressed then
      (codec.decompress h.rawSize stored).mapError .decompression
    else pure stored
  if payload.length ≠ h.rawSize then throw (.lengthMismatch h.rawSize payload.length)
  return payload

/-- Read a stored model without judging whether it is fit to run. -/
def decode (codec : Codec) (bytes : List UInt8) : Except LoadError Model := do
  let size := bytes.length
  if size < Stored.headerSize then throw (.tooShort size)
  let (h, body) ← decodeHeader bytes
  let (extends?, stored) ←
    if h.flags.contains .isExtension then
      if size < Stored.headerSize + Stored.extensionHeaderSize then throw (.tooShort size)
      else (decodeAttachment body).map fun (a, rest) => (some a, rest)
    else pure (none, body)
  if stored.length ≠ h.storedSize then throw (.lengthMismatch h.storedSize stored.length)
  if Sha256.digest body ≠ h.digest then throw .checksumMismatch
  let payload ← decompress codec h stored
  let sections ← splitSections payload
  let strings ← decodeStrings sections.strings
  let schema ← decodeSchema strings sections.schema
  let points ← decodePoints strings sections.points
  let constants ← decodeConstants sections.constants
  let code ← decodeCode sections.code
  let debug? ← decodeDebug h.flags sections.debug
  return { id := h.id, version := h.version, flags := h.flags, maxStack := h.maxStack,
           maxCallDepth := h.maxCallDepth, localCount := h.localCount, entry := h.entry,
           schema, points, constants, strings, code, extends?, debug? }

/-- Read a stored model that is fit to run. -/
def load (codec : Codec) (bytes : List UInt8) : Except LoadError Model := do
  let m ← decode codec bytes
  m.check
  return m

end Behavior.Model
