namespace MeshSharding.Size

-- Sizes, indices and device counts are numbers of 64 bits, held as natural numbers. A product that
-- leaves this range is refused by `mul?` and held at the greatest size by `satMul`.
def greatest : Nat := 18446744073709551615

-- The product, if it is a size.
def mul? (a b : Nat) : Option Nat :=
  if a * b ≤ greatest then some (a * b) else none

-- The product, or the greatest size if the product is larger.
def satMul (a b : Nat) : Nat :=
  min (a * b) greatest

-- The product of all sizes from left to right, held at the greatest size on the way.
def satProd (sizes : List Nat) : Nat :=
  sizes.foldl satMul 1

theorem mul?_eq_some_iff {a b c : Nat} : mul? a b = some c ↔ a * b = c ∧ c ≤ greatest := by
  unfold mul?
  split <;> simp <;> omega

theorem satMul_of_le {a b : Nat} (h : a * b ≤ greatest) : satMul a b = a * b :=
  Nat.min_eq_left h

theorem satMul_le_greatest (a b : Nat) : satMul a b ≤ greatest :=
  Nat.min_le_right _ _

end MeshSharding.Size
