import ColorGraph.Decimal.Rounding
/-!
The fewest decimal figures that read back as a given binary value. Main statement: what is
selected is a neighbour of the value that reads back.
-/

set_option autoImplicit false

namespace ColorGraph.Decimal

attribute [local instance (2000)] instPowNat

inductive Tie where
  | up
  | toEven
deriving DecidableEq, Repr

def compareScaled (a : Nat) (i : Int) (n : Nat) (j : Int) : Ordering :=
  compare (a * 10 ^ i.toNat * 2 ^ (-j).toNat) (n * 2 ^ j.toNat * 10 ^ (-i).toNat)

/-- Whether a decimal lies among the values that round to the magnitude of `x`: up to halfway to
each neighbour, the ends included when the mantissa is even. -/
def readsBack (x : Binary) (d : Decimal) : Bool :=
  let below := 4 * x.mantissa - (if x.isNarrowBelow then 1 else 2)
  let above := 4 * x.mantissa + 2
  let ends := x.mantissa % 2 == 0
  let low := compareScaled d.digits d.exponent below (x.exponent - 2)
  let high := compareScaled d.digits d.exponent above (x.exponent - 2)
  (low == .gt || (ends && low == .eq)) && (high == .lt || (ends && high == .eq))

/-- The nearest multiple of `10 ^ e` that reads back. Only the two neighbours of the value can. -/
def onGrid (tie : Tie) (x : Binary) (e : Int) : Option Decimal :=
  let n := (x.ratio e).1
  let d := (x.ratio e).2
  let low : Decimal := ⟨n / d, e⟩
  let high : Decimal := ⟨n / d + 1, e⟩
  match readsBack x low, readsBack x high with
  | true, false => some low
  | false, true => some high
  | false, false => none
  | true, true =>
    match compare (2 * (n % d)) d, tie with
    | .lt, _ => some low
    | .gt, _ => some high
    | .eq, .up => some high
    | .eq, .toEven => some (if n / d % 2 = 0 then low else high)

theorem eq_or_eq_of_onGrid {tie : Tie} {x : Binary} {e : Int} {d : Decimal}
    (h : onGrid tie x e = some d) : readsBack x d = true ∧
      (d = ⟨(x.ratio e).1 / (x.ratio e).2, e⟩ ∨ d = ⟨(x.ratio e).1 / (x.ratio e).2 + 1, e⟩) := by
  unfold onGrid at h
  dsimp only at h
  split at h
  next hl _ => cases h; exact ⟨hl, .inl rfl⟩
  next _ hh => cases h; exact ⟨hh, .inr rfl⟩
  next => cases h
  next hl hh =>
    split at h
    · cases h; exact ⟨hl, .inl rfl⟩
    · cases h; exact ⟨hh, .inr rfl⟩
    · cases h; exact ⟨hh, .inr rfl⟩
    · split at h
      · cases h; exact ⟨hl, .inl rfl⟩
      · cases h; exact ⟨hh, .inr rfl⟩

def exact (x : Binary) : Decimal :=
  if x.exponent < 0 then ⟨x.mantissa * 5 ^ (-x.exponent).toNat, x.exponent⟩
  else ⟨x.mantissa * 2 ^ x.exponent.toNat, 0⟩

/-- Seventeen figures always tell two binary64 values apart. -/
def shortest (tie : Tie) (x : Binary) : Decimal :=
  if x.mantissa = 0 then ⟨0, 0⟩
  else
    let k := x.magnitude
    ((List.range 17).findSome? fun (i : Nat) => onGrid tie x (k - 1 - i)).getD (exact x)

end ColorGraph.Decimal
