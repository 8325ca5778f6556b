import ColorGraph.Decimal.Binary
/-!
Roots of binary64 values, rounded once. Main statements: the root of a whole number, rounded down,
is the greatest number whose power does not exceed it.
-/

set_option autoImplicit false

namespace ColorGraph

attribute [local instance (2000)] instPowNat

def rootFrom (k n : Nat) : Nat → Nat → Nat
  | 0, r => r
  | bits + 1, r =>
    if (r + 2 ^ bits) ^ k ≤ n then rootFrom k n bits (r + 2 ^ bits) else rootFrom k n bits r

def floorRoot (k n : Nat) : Nat :=
  rootFrom k n (n.log2 / k + 1) 0

theorem rootFrom_bounds {k n bits r : Nat} (h : r ^ k ≤ n) (hn : n < (r + 2 ^ bits) ^ k) :
    rootFrom k n bits r ^ k ≤ n ∧ n < (rootFrom k n bits r + 1) ^ k := by
  induction bits generalizing r with
  | zero => exact ⟨h, hn⟩
  | succ bits ih =>
    unfold rootFrom
    split
    next hr =>
      refine ih hr ?_
      rwa [Nat.add_assoc, ← Nat.two_mul, Nat.mul_comm, ← Nat.pow_succ]
    next hr => exact ih h (Nat.lt_of_not_le hr)

theorem floorRoot_bounds {k : Nat} (n : Nat) (hk : 0 < k) :
    floorRoot k n ^ k ≤ n ∧ n < (floorRoot k n + 1) ^ k := by
  have hp : n < (0 + 2 ^ (n.log2 / k + 1)) ^ k := by
    rw [Nat.zero_add, ← Nat.pow_mul]
    refine Nat.lt_of_lt_of_le Nat.lt_log2_self (Nat.pow_le_pow_right (by decide) ?_)
    have h1 := Nat.div_add_mod n.log2 k
    have h2 := Nat.mod_lt n.log2 hk
    rw [Nat.add_mul, Nat.mul_comm (n.log2 / k) k]
    omega
  exact rootFrom_bounds (by rw [Nat.zero_pow hk]; exact Nat.zero_le n) hp

namespace Binary

/-- The nearest binary64 value to the `k`-th root of the magnitude, with the sign. The root is
taken to more bits than are kept, and one that is not exact moves to the middle of its last bit. -/
def root (k : Nat) (x : Binary) : Float :=
  let shift := 54 * k + (x.exponent % k).toNat
  let n := x.mantissa * 2 ^ shift
  let r := floorRoot k n
  toFloat ⟨x.negative, if r ^ k = n then 2 * r else 2 * r + 1, (x.exponent - shift) / k - 1⟩

def square (x : Binary) : Binary :=
  ⟨false, x.mantissa * x.mantissa, 2 * x.exponent⟩

def addMagnitudes (x y : Binary) : Binary :=
  let e := min x.exponent y.exponent
  ⟨false, x.mantissa * 2 ^ (x.exponent - e).toNat + y.mantissa * 2 ^ (y.exponent - e).toNat, e⟩

end Binary

def cubeRoot (x : Float) : Float :=
  match Binary.ofFloat? x with
  | some b => b.root 3
  | none => x

def diagonal (x y : Float) : Float :=
  match Binary.ofFloat? x, Binary.ofFloat? y with
  | some a, some b => (a.square.addMagnitudes b.square).root 2
  | _, _ => x.abs + y.abs

end ColorGraph
