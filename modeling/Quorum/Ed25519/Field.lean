/-!
# Field — arithmetic modulo 2²⁵⁵ − 19

The coordinates of curve points are elements of the prime field with 2²⁵⁵ − 19 elements.  Inverses
and square roots are powers: `x⁻¹ = x ^ (p - 2)`, and for a square `a` one of `± a ^ ((p + 3) / 8)`,
possibly times a root of `-1`, is a root of `a`.
-/

namespace Quorum.Ed25519

/-- The size of the field. -/
def prime : Nat := 1 <<< 255 - 19

instance : @NeZero Nat Zero.ofOfNat0 prime := ⟨by decide⟩

/-- A field element. -/
abbrev Element := Fin prime

namespace Element

def ofNat (n : Nat) : Element := Fin.ofNat prime n

/-- `x ^ e` for an exponent of at most `bits` bits, by squaring. -/
def pow (x : Element) : (bits : Nat) → (e : Nat) → Element
  | 0, _ => 1
  | bits + 1, e =>
    let rest := pow (x * x) bits (e / 2)
    if e % 2 = 1 then x * rest else rest

/-- The inverse; zero for zero. -/
def inv (x : Element) : Element := pow x 255 (prime - 2)

/-- A square root of `-1`. -/
def rootOfMinusOne : Element := pow 2 255 ((prime - 1) / 4)

/-- Whether an element counts as negative: its least number is odd. -/
def isNegative (x : Element) : Bool := x.val % 2 = 1

/-- The square root of `u / v` that is not negative, if there is one. -/
def rootOfRatio (u v : Element) : Option Element :=
  let v3 := v * v * v
  let candidate := u * v3 * pow (u * v3 * v3 * v) 255 ((prime - 5) / 8)
  let check := v * candidate * candidate
  let root? :=
    if check = u then some candidate
    else if check = -u then some (candidate * rootOfMinusOne)
    else none
  root?.map fun root => if isNegative root then -root else root

end Element

end Quorum.Ed25519
