/-!
Compression of data, which is left to a library.
-/

namespace Behavior

/-- What a library for compression does, or why it fails. -/
structure Codec where
  compress : List UInt8 → Except String (List UInt8)
  /-- The data that a compressed form stands for, if it takes no more than `room` bytes. -/
  decompress (room : Nat) : List UInt8 → Except String (List UInt8)

/-- What has been compressed can be decompressed again, with no more room than it takes. -/
def Codec.Lossless (codec : Codec) : Prop :=
  ∀ raw stored, codec.compress raw = .ok stored → codec.decompress raw.length stored = .ok raw

end Behavior
