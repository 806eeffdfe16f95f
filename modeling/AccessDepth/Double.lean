/-!
# AccessDepth.Double

Whole numbers beside the floating-point numbers of 64 bits.

* `Double.bound` — where the numbers begin that are too large.
* `Double.nearest` — the nearest whole number with 53 significant bits.
-/

namespace AccessDepth
namespace Double

/-- The numbers from here on are nearer to infinity than to any double. -/
def bound : Nat := 1 <<< 1024 - 1 <<< 970

/-- The nearest number with 53 significant bits, an even one if two are equally near. -/
def nearest (n : Nat) : Nat :=
  let unit := 1 <<< (n.log2 + 1 - 53)
  let low := n / unit
  let rest := n % unit
  if 2 * rest < unit ∨ (2 * rest = unit ∧ low % 2 = 0) then low * unit else (low + 1) * unit

end Double
end AccessDepth
