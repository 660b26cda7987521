import Quorum.Bytes
import Quorum.Ed25519.Field

/-!
# Point — the group of the signature curve

Points of `-x² + y² = 1 + d x² y²` in the coordinates `(X : Y : Z : T)` with `x = X / Z`,
`y = Y / Z`, `x y = T / Z`.  The addition formula holds for all pairs of points, equal ones and
the neutral one included, so doubling needs no formula of its own.

A point is written in 32 bytes: `y`, least significant byte first, and in the top bit whether `x`
is negative.  Reading takes `y` modulo the field size and accepts either top bit when `x` is zero,
so some points have several readable forms; `compress` writes only one of them.
-/

namespace Quorum.Ed25519

open Element

/-- A curve point. -/
structure Point where
  (x y z t : Element)

namespace Point

/-- The curve constant `d = -121665 / 121666`. -/
def curveD : Element := -(Element.ofNat 121665) * inv (Element.ofNat 121666)

def neutral : Point := ⟨0, 1, 1, 0⟩

/-- The point with given affine coordinates. -/
def ofAffine (x y : Element) : Point := ⟨x, y, 1, x * y⟩

def add (p q : Point) : Point :=
  let a := (p.y - p.x) * (q.y - q.x)
  let b := (p.y + p.x) * (q.y + q.x)
  let c := p.t * (curveD + curveD) * q.t
  let d := p.z * q.z + p.z * q.z
  ⟨(b - a) * (d - c), (d + c) * (b + a), (d - c) * (d + c), (b - a) * (b + a)⟩

def neg (p : Point) : Point := ⟨-p.x, p.y, p.z, -p.t⟩

/-- `n` times a point, for `n` of at most `bits` bits. -/
def smul (p : Point) : (bits : Nat) → (n : Nat) → Point
  | 0, _ => neutral
  | bits + 1, n =>
    if n = 0 then neutral
    else
      let rest := smul (p.add p) bits (n / 2)
      if n % 2 = 1 then p.add rest else rest

def same (p q : Point) : Bool := p.x * q.z = q.x * p.z ∧ p.y * q.z = q.y * p.z

/-- Whether eight times the point is neutral. -/
def isSmallOrder (p : Point) : Bool :=
  let p2 := p.add p
  let p4 := p2.add p2
  (p4.add p4).same neutral

/-- The 32 bytes of a point. -/
def compress (p : Point) : Bytes :=
  let zinv := inv p.z
  let x := p.x * zinv
  let y := p.y * zinv
  Bytes.ofNatLE 32 (y.val + if isNegative x then 1 <<< 255 else 0)

/-- The point that 32 bytes write, if there is one with that `y`. -/
def decompress? (bs : Bytes) : Option Point :=
  let n := Bytes.toNatLE bs
  let y := Element.ofNat (n % 1 <<< 255)
  (rootOfRatio (y * y - 1) (curveD * (y * y) + 1)).map fun x =>
    ofAffine (if n >>> 255 % 2 = 1 then -x else x) y

/-- The generator: the point with `y = 4 / 5` and even `x`. -/
def base : Point := ofAffine
  (Element.ofNat 15112221349535400772501151409588531511454012693041857206046113283949847762202)
  (Element.ofNat 46316835694926478169428394003475163141307993866256225615783033603165251855960)

/-- The order of the generator. -/
def order : Nat := 1 <<< 252 + 27742317777372353535851937790883648493

end Point

end Quorum.Ed25519
