import Quorum.Bytes

/-!
# Hex — byte strings in hexadecimal text

Two lower-case digits a byte, high half first.
-/

namespace Quorum.Bytes

/-- The lower-case hexadecimal digit of the low half of `n`. -/
def hexDigit (n : UInt8) : Char :=
  if n < 10 then Char.ofNat (n.toNat + 48) else Char.ofNat (n.toNat + 87)

/-- Two digits a byte, high half first. -/
def hex (bs : Bytes) : String :=
  bs.foldl (fun text b => (text.push (hexDigit (b / 16))).push (hexDigit (b % 16))) ""

/-- The value of a hexadecimal digit of either case. -/
def hexValue? (c : Char) : Option UInt8 :=
  if '0' ≤ c ∧ c ≤ '9' then some (UInt8.ofNat (c.toNat - 48))
  else if 'a' ≤ c ∧ c ≤ 'f' then some (UInt8.ofNat (c.toNat - 87))
  else if 'A' ≤ c ∧ c ≤ 'F' then some (UInt8.ofNat (c.toNat - 55))
  else none

/-- The bytes of a hexadecimal text, in reverse, pushed onto `read`. -/
def ofHexAux (read : Bytes) : List Char → Option Bytes
  | [] => some read
  | [_] => none
  | high :: low :: rest =>
    match hexValue? high, hexValue? low with
    | some h, some l => ofHexAux ((16 * h + l) :: read) rest
    | _, _ => none

/-- The bytes that a hexadecimal text writes, if it is an even number of digits. -/
def ofHex? (text : String) : Option Bytes := (ofHexAux [] text.toList).map List.reverse

end Quorum.Bytes
