/-
Numerals of finite index types.

A numeral of `Fin n` carries a proof that `n` is not zero.  With a name for it at
the sizes in use, such a numeral is the same term wherever it is written.
-/
import Mathlib.Algebra.Order.Ring.Int
import Mathlib.Algebra.Order.Ring.Nat

namespace CS444
namespace Numerals

instance one : NeZero 1 := ⟨Nat.one_ne_zero⟩

instance two : NeZero 2 := ⟨two_ne_zero⟩

instance sixtyFour : NeZero 64 := ⟨by decide⟩

end Numerals
end CS444
