import Espalier.Number
import Mathlib.Algebra.Order.Field.Rat

/-!
# Exact numbers

Fractions as numbers that shares are taken in, for statements about what is computed where nothing is
rounded. The instance is open on demand only, so that fractions are computed with as usual elsewhere.
-/

namespace Espalier.Exact

scoped instance : Arithmetic ℚ where
  decideLe := inferInstance
  decideLt := inferInstance

end Espalier.Exact
