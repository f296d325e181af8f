import CogMachine.Decimal.Reading

/-!
# Shortest digits

`Single.shortest` writes a finite positive single with the fewest decimal digits that read back
as it. On a grid of multiples of `10^p` only the two neighbours of the value can be nearest, so the
search goes from coarse grids to fine ones and stops at the first grid where a neighbour reads
back; of the two the nearer is taken, and at an equal distance the larger.
-/

namespace CogMachine.Single

/-- The value in multiples of `10^p`, as a quotient. -/
def gridQuotient (units : Nat) (p : Int) : Nat × Nat :=
  if 0 ≤ p then (units, unitsPerOne * Nat.pow 10 p.toNat)
  else (units * Nat.pow 10 (-p).toNat, unitsPerOne)

/-- The two multiples of `10^p` around the value, nearer first. -/
def gridNeighbours (units : Nat) (p : Int) : List Decimal :=
  let (n, d) := gridQuotient units p
  let below : Decimal := ⟨n / d, p⟩
  let above : Decimal := ⟨n / d + 1, p⟩
  if 2 * (n % d) < d then [below, above] else [above, below]

/-- The grids searched, from the coarsest that can matter to one on which every single lies. -/
def grids : List Int := (List.range 189).map fun (i : Nat) => 39 - (i : Int)

/-- **Shortest digits** of the finite positive single with this magnitude. -/
def shortest (magnitude : Nat) : Decimal :=
  let units := unitsOfMagnitude magnitude
  (grids.findSome? fun p =>
    (gridNeighbours units p).find? fun d => d.toMagnitude == magnitude).getD ⟨0, 0⟩

end CogMachine.Single
