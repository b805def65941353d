/-!
Fixed-width numbers as bytes, the least significant byte first. Reading takes the bytes from the
front and returns the rest.
-/

namespace Behavior.LittleEndian

def encode16 (n : UInt16) : List UInt8 :=
  [n.toUInt8, (n >>> 8).toUInt8]

def encode32 (n : UInt32) : List UInt8 :=
  [n.toUInt8, (n >>> 8).toUInt8, (n >>> 16).toUInt8, (n >>> 24).toUInt8]

def encode64 (n : UInt64) : List UInt8 :=
  [n.toUInt8, (n >>> 8).toUInt8, (n >>> 16).toUInt8, (n >>> 24).toUInt8,
    (n >>> 32).toUInt8, (n >>> 40).toUInt8, (n >>> 48).toUInt8, (n >>> 56).toUInt8]

def decode8? : List UInt8 → Option (UInt8 × List UInt8)
  | a :: rest => some (a, rest)
  | [] => none

def decode16? : List UInt8 → Option (UInt16 × List UInt8)
  | a :: b :: rest => some (a.toUInt16 ||| (b.toUInt16 <<< 8), rest)
  | _ => none

def decode32? : List UInt8 → Option (UInt32 × List UInt8)
  | a :: b :: c :: d :: rest =>
    some (a.toUInt32 ||| (b.toUInt32 <<< 8) ||| (c.toUInt32 <<< 16) ||| (d.toUInt32 <<< 24), rest)
  | _ => none

def decode64? : List UInt8 → Option (UInt64 × List UInt8)
  | a :: b :: c :: d :: e :: f :: g :: h :: rest =>
    some (a.toUInt64 ||| (b.toUInt64 <<< 8) ||| (c.toUInt64 <<< 16) ||| (d.toUInt64 <<< 24) |||
      (e.toUInt64 <<< 32) ||| (f.toUInt64 <<< 40) ||| (g.toUInt64 <<< 48) ||| (h.toUInt64 <<< 56),
      rest)
  | _ => none

/-- The first bytes, as many as asked for, and the rest. -/
def take? (count : Nat) (bytes : List UInt8) : Option (List UInt8 × List UInt8) :=
  let front := bytes.take count
  if front.length = count then some (front, bytes.drop count) else none

end Behavior.LittleEndian
