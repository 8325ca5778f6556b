import ColorGraph.Decimal.Basic
import ColorGraph.Decimal.Binary
/-!
Rounding an exact binary value to decimal figures, a half going to the even neighbour. Main
statements: the quotient is within half a unit, and at a tie it is even.
-/

set_option autoImplicit false

namespace ColorGraph.Decimal

-- powers of whole numbers as the core library has them, whatever else is imported
attribute [local instance (2000)] instPowNat

def roundDiv (n d : Nat) : Nat :=
  let q := n / d
  let r := 2 * (n % d)
  if r < d then q
  else if d < r then q + 1
  else q + q % 2

theorem roundDiv_le (n d : Nat) : 2 * (roundDiv n d * d) ≤ 2 * n + d := by
  have h := Nat.div_add_mod n d
  have hm : n / d * d = d * (n / d) := Nat.mul_comm _ _
  have h2 : n / d % 2 < 2 := Nat.mod_lt _ (by decide)
  unfold roundDiv
  dsimp only
  split
  · omega
  · split
    · rw [Nat.add_mul]; omega
    · have : n / d % 2 = 0 ∨ n / d % 2 = 1 := by omega
      rcases this with h0 | h1
      · rw [h0, Nat.add_zero]; omega
      · rw [h1, Nat.add_mul]; omega

theorem le_roundDiv (n : Nat) {d : Nat} (hd : 0 < d) : 2 * n ≤ 2 * (roundDiv n d * d) + d := by
  have h := Nat.div_add_mod n d
  have hm : n / d * d = d * (n / d) := Nat.mul_comm _ _
  have hlt : n % d < d := Nat.mod_lt _ hd
  unfold roundDiv
  dsimp only
  split
  · omega
  · split
    · rw [Nat.add_mul]; omega
    · rw [Nat.add_mul]
      have : n / d % 2 = 0 ∨ n / d % 2 = 1 := by omega
      rcases this with h0 | h1
      · rw [h0]; omega
      · rw [h1]; omega

theorem roundDiv_even_of_tie {n d : Nat} (hd : 0 < d) (h : 2 * (roundDiv n d * d) = 2 * n + d ∨
    2 * n = 2 * (roundDiv n d * d) + d) : roundDiv n d % 2 = 0 := by
  have hdiv : d * (n / d) + n % d = n := Nat.div_add_mod n d
  have hmod : n % d < d := Nat.mod_lt n hd
  rw [Nat.mul_comm d] at hdiv
  unfold roundDiv at h ⊢
  dsimp only at h ⊢
  split at h
  · omega
  · rename_i hmore
    split at h
    · rw [Nat.add_mul] at h
      omega
    · rw [if_neg hmore, if_neg ‹_›]
      omega

def ofBinarySignificant (x : Binary) (n : Nat) : Decimal :=
  let e := x.magnitude - n
  ⟨roundDiv (x.ratio e).1 (x.ratio e).2, e⟩

def ofBinaryPlaces (x : Binary) (n : Nat) : Decimal :=
  ⟨roundDiv (x.ratio (-n)).1 (x.ratio (-n)).2, -n⟩

/-- `x` to `n` figures, read back as the nearest binary64 value. Zero, the infinities and no
number give zero. -/
def significant (x : Float) (n : Nat) : Float :=
  match Binary.ofFloat? x with
  | none => 0.0
  | some b =>
    if b.mantissa = 0 then 0.0
    else
      let size := (ofBinarySignificant b n).toFloat
      if b.negative then -size else size

/-- The power of ten at the first figure of a value that came from a few decimal figures: one
that is short of a power of ten only by the error of its binary form counts as that power. -/
def leadingPower (b : Binary) : Int :=
  let k := b.magnitude
  let n := (b.ratio k).1
  let d := (b.ratio k).2
  if (d - n) * 2 ^ (44 : Nat) < d then k else k - 1

end ColorGraph.Decimal
