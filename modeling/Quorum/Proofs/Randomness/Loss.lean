import Quorum.Randomness.Loss

/-!
# Loss — which messages survive

Whether message `k` survives is decided by the chance, the key of the stream and `k` alone.  A
source that has decided on `k` messages has used one word of the stream for each of them, or none at
all if everything survives.

**Main statements.**  `cost_ofBinary64`: the probabilities that need a draw.  `draw_after`: the
decision on message `k`.
-/

namespace Quorum.Randomness

namespace Chance

/-- Whether message `k` survives. -/
def survives (chance : Chance) (key : Key) (k : Nat) : Bool :=
  match chance with
  | .certain => true
  | .below threshold => (word key k).toNat < threshold
  | .negative => false

/-- How many words of the stream one decision takes. -/
def cost : Chance → Nat
  | .certain => 0
  | .below _ | .negative => 1

/-- The bits are those of a number below one: of a positive one below those of the one, or of a
negative one, down to the negative infinity. -/
def IsBelowOne (bits : UInt64) : Prop :=
  bits.toNat < 1023 <<< 52 ∨ 1 <<< 63 ≤ bits.toNat ∧ bits.toNat ≤ 1 <<< 63 + 2047 <<< 52

instance (bits : UInt64) : Decidable (IsBelowOne bits) := inferInstanceAs (Decidable (_ ∨ _ ∧ _))

theorem ofBinary64_eq_certain_iff (bits : UInt64) :
    ofBinary64 bits = .certain ↔ ¬ IsBelowOne bits := by
  have hbits := bits.toNat_lt
  simp only [ofBinary64, IsBelowOne, Nat.shiftRight_eq_div_pow, Nat.shiftLeft_eq]
  repeat' split
  all_goals
    simp only [reduceCtorEq, false_iff, true_iff]
    omega

/-- Below one, each decision takes one word of the stream; from one on, none does. -/
theorem cost_ofBinary64 (bits : UInt64) :
    (ofBinary64 bits).cost = if IsBelowOne bits then 1 else 0 := by
  by_cases h : IsBelowOne bits
  · rw [if_pos h]
    cases hchance : ofBinary64 bits with
    | certain => exact absurd h ((ofBinary64_eq_certain_iff bits).mp hchance)
    | below threshold => rfl
    | negative => rfl
  · rw [if_neg h, (ofBinary64_eq_certain_iff bits).mpr h]
    rfl

end Chance

namespace Loss

/-- The source after `k` decisions. -/
def after (chance : Chance) (key : Key) (k : Nat) : Loss :=
  { chance, key, drawn := chance.cost * k }

theorem after_zero (chance : Chance) (seed : UInt64) :
    after chance (Key.ofSeed seed) 0 = seeded chance seed := rfl

/-- **Whether message `k` survives depends on the chance, the key and `k`.** -/
theorem draw_after {chance : Chance} {key : Key} {k : Nat} {survives : Bool} {loss : Loss} :
    (after chance key k).draw = .ok (survives, loss) ↔
      chance ≠ .negative ∧ survives = chance.survives key k ∧ loss = after chance key (k + 1) := by
  cases chance with
  | certain => simp [after, draw, Chance.survives, Chance.cost, eq_comm]
  | below threshold => simp [after, draw, Chance.survives, Chance.cost, eq_comm]
  | negative => simp [after, draw]

end Loss

end Quorum.Randomness
