/-
Byte-addressed memory with little-endian loads and stores.

A store names the bytes it touches as the range `a .. a + n`.  A load after a
store is either the stored value, when it reads the same range, or the old
value, when the two ranges are disjoint; those two rules are all that proofs
about records laid out in memory need.
-/
import Mathlib.Data.Nat.Init
import Mathlib.Algebra.Order.Ring.Nat
import Mathlib.Tactic.Ring

namespace CS444
namespace Bytes

/-- Memory: a byte at every address. -/
abbrev Mem : Type := Nat → UInt8

/-- The `n`-byte little-endian number at `a`. -/
def load (m : Mem) (a : Nat) : Nat → Nat
  | 0 => 0
  | n + 1 => (m a).toNat + 256 * load m (a + 1) n

/-- Write the `n` low bytes of `v` at `a`. -/
def store (m : Mem) (a n v : Nat) : Mem :=
  fun b => if a ≤ b ∧ b < a + n then UInt8.ofNat (v / 256 ^ (b - a)) else m b

theorem store_apply_of_outside {m : Mem} {a n v b : Nat} (h : b < a ∨ a + n ≤ b) :
    store m a n v b = m b := by
  unfold store
  rw [if_neg (by omega)]

theorem store_apply_of_inside {m : Mem} {a n v b : Nat} (h : a ≤ b ∧ b < a + n) :
    store m a n v b = UInt8.ofNat (v / 256 ^ (b - a)) := by
  unfold store
  rw [if_pos h]

theorem load_lt (m : Mem) (a n : Nat) : load m a n < 256 ^ n := by
  induction n generalizing a with
  | zero => simp [load]
  | succ n ih =>
      have hbyte := (m a).toNat_lt
      have htail := ih (a + 1)
      rw [load, Nat.pow_succ]
      omega

theorem load_zero {a n : Nat} : load (fun _ => 0) a n = 0 := by
  induction n generalizing a with
  | zero => rfl
  | succ n ih =>
      rw [load, ih]
      rfl

/-- A load depends only on the bytes of its range. -/
theorem load_congr {m m' : Mem} {a n : Nat} (h : ∀ b, a ≤ b → b < a + n → m' b = m b) :
    load m' a n = load m a n := by
  induction n generalizing a with
  | zero => rfl
  | succ n ih =>
      rw [load, load, h a (Nat.le_refl a) (by omega),
        ih (fun b h₁ h₂ => h b (by omega) (by omega))]

theorem load_store_of_disjoint {m : Mem} {a n b k v : Nat} (h : a + n ≤ b ∨ b + k ≤ a) :
    load (store m b k v) a n = load m a n :=
  load_congr fun _ _ _ => store_apply_of_outside (by omega)

/-- The bytes of a number put back together, from the byte at position `i`. -/
theorem load_store_from {m : Mem} {a n v i k : Nat} (hk : i + k = n) :
    load (store m a n v) (a + i) k = v / 256 ^ i % 256 ^ k := by
  induction k generalizing i with
  | zero => simp [load, Nat.mod_one]
  | succ k ih =>
      have hbyte : (store m a n v (a + i)).toNat = v / 256 ^ i % 256 := by
        rw [store_apply_of_inside ⟨by omega, by omega⟩, UInt8.toNat_ofNat',
          Nat.add_sub_cancel_left]
      have htail := ih (i := i + 1) (by omega)
      rw [← Nat.add_assoc] at htail
      rw [load, hbyte, htail, Nat.pow_succ, ← Nat.div_div_eq_div_mul, Nat.pow_succ',
        Nat.mod_mul]

theorem load_store_self {m : Mem} {a n v : Nat} (hv : v < 256 ^ n) :
    load (store m a n v) a n = v := by
  have h := load_store_from (m := m) (a := a) (n := n) (v := v) (i := 0) (k := n) (by omega)
  rwa [Nat.add_zero, Nat.pow_zero, Nat.div_one, Nat.mod_eq_of_lt hv] at h

/-! ## Ranges -/

/-- The `n` bytes from `a` on. -/
def span (m : Mem) (a n : Nat) : List UInt8 := (List.range n).map fun j => m (a + j)

variable {m m' : Mem} {a n k : Nat}

@[simp] theorem length_span : (span m a n).length = n := by
  rw [span, List.length_map, List.length_range]

theorem span_add : span m a (n + k) = span m a n ++ span m (a + n) k := by
  unfold span
  rw [List.range_add, List.map_append, List.map_map]
  congr 1
  apply List.map_congr_left
  intro j _
  show m (a + (n + j)) = m (a + n + j)
  rw [Nat.add_assoc]

theorem span_congr (h : ∀ b, a ≤ b → b < a + n → m' b = m b) : span m' a n = span m a n := by
  apply List.map_congr_left
  intro j hj
  have := List.mem_range.mp hj
  exact h (a + j) (by omega) (by omega)

theorem drop_span (h : k ≤ n) : (span m a n).drop k = span m (a + k) (n - k) := by
  conv_lhs => rw [← Nat.add_sub_cancel' h, span_add]
  exact List.drop_left' length_span

theorem take_span (h : k ≤ n) : (span m a n).take k = span m a k := by
  conv_lhs => rw [← Nat.add_sub_cancel' h, span_add]
  exact List.take_left' length_span

theorem take_span_min : (span m a n).take k = span m a (min k n) := by
  by_cases h : k ≤ n
  · rw [Nat.min_eq_left h, take_span h]
  · rw [Nat.min_eq_right (by omega), List.take_of_length_le (by rw [length_span]; omega)]


/-- Write `n` bytes from `a` on, the byte number `i` being `f i`. -/
def blit (m : Mem) (a n : Nat) (f : Nat → UInt8) : Mem :=
  fun b => if a ≤ b ∧ b < a + n then f (b - a) else m b

theorem blit_congr {m : Mem} {a n : Nat} {f g : Nat → UInt8} (h : ∀ i, i < n → f i = g i) :
    blit m a n f = blit m a n g := by
  funext b
  unfold blit
  split
  · exact h _ (by omega)
  · rfl

theorem blit_apply_of_outside {m : Mem} {a n b : Nat} {f : Nat → UInt8} (h : b < a ∨ a + n ≤ b) :
    blit m a n f b = m b := by
  unfold blit
  rw [if_neg (by omega)]

end Bytes
end CS444
