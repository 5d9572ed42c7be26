/-!
Sets of characters given by ranges of code points.
-/
namespace TreeListing.Text

/-- Inclusive ranges of code points. -/
abbrev Ranges := List (Nat × Nat)

def Ranges.contains (ranges : Ranges) (c : Char) : Bool :=
  ranges.any fun r => r.1 ≤ c.toNat && c.toNat ≤ r.2

theorem Ranges.contains_cons (r : Nat × Nat) (ranges : Ranges) (c : Char) :
    Ranges.contains (r :: ranges) c
      = ((r.1 ≤ c.toNat && c.toNat ≤ r.2) || Ranges.contains ranges c) := by
  simp [Ranges.contains]

end TreeListing.Text
