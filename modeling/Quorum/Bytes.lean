/-!
# Bytes — byte strings and the numbers they write

A byte string is a list of bytes.  Numbers are written in base 256, either most significant byte
first (`ofNatBE`, the order of the wire format) or least significant byte first (`ofNatLE`).
-/

namespace Quorum

/-- A string of bytes. -/
abbrev Bytes := List UInt8

namespace Bytes

/-- The number written in base 256, least significant byte first. -/
def toNatLE (bs : Bytes) : Nat := bs.foldr (fun b n => b.toNat + 256 * n) 0

/-- The number written in base 256, most significant byte first. -/
def toNatBE (bs : Bytes) : Nat := bs.foldl (fun n b => b.toNat + 256 * n) 0

/-- The last `w` digits of `n` in base 256, least significant first. -/
def ofNatLE : Nat → Nat → Bytes
  | 0, _ => []
  | w + 1, n => UInt8.ofNat n :: ofNatLE w (n / 256)

/-- The last `w` digits of `n` in base 256, most significant first. -/
def ofNatBE (w n : Nat) : Bytes := (ofNatLE w n).reverse

/-- Cut or padded with zero bytes on the right to exactly `size` bytes. -/
def fixed (size : Nat) (bs : Bytes) : Vector UInt8 size := Vector.ofFn fun i => bs.getD i 0

end Bytes

end Quorum
