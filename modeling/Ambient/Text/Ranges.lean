/-! Sets of code points given by inclusive ranges, and the test for membership. -/
namespace Ambient.Text

abbrev Ranges := List (Nat × Nat)

def Ranges.has (ranges : Ranges) (n : Nat) : Bool :=
  ranges.any fun r => r.1 ≤ n && n ≤ r.2

end Ambient.Text
