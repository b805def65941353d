import Behavior.Text.Digits

/-!
Names become numbers: a model is identified by a 64-bit hash of its document's name, and a
continuation point is addressed by a 32-bit hash of its own.
-/

namespace Behavior

/-- The 32-bit FNV-1a hash of a text's UTF-8 bytes. -/
def nameHash (name : String) : UInt32 :=
  name.toUTF8.data.foldl (fun h b => (h ^^^ b.toUInt32) * 0x01000193) 0x811c9dc5

structure ModelId where
  value : UInt64
deriving DecidableEq, Repr, Inhabited

namespace ModelId

/-- The identifier a document's name stands for: the 64-bit FNV-1a hash of its UTF-8 bytes. -/
def ofName (name : String) : ModelId :=
  ⟨name.toUTF8.data.foldl (fun h b => (h ^^^ b.toUInt64) * 0x100000001b3) 0xcbf29ce484222325⟩

/-- Identifiers are shown as sixteen hexadecimal digits. -/
def toHex (id : ModelId) : String :=
  Digits.hex 16 id.value.toNat

end ModelId

end Behavior
