import Mathlib.Tactic.Linarith

/-!
# Conversions between C integer types

Expressions are evaluated in `Int`; a conversion reduces the value into the range of the
target type. `uintW` is the conversion to an unsigned type of `w` bits, `intW` the conversion
to a signed one (two's complement).
-/

namespace Cs370.CInt

/-- Conversion to an unsigned type of `w` bits. -/
def uintW (w : Nat) (x : Int) : Nat := (x % 2 ^ w).toNat

/-- Conversion to a signed type of `w` bits. -/
def intW (w : Nat) (x : Int) : Int :=
  if uintW w x < 2 ^ (w - 1) then uintW w x else uintW w x - 2 ^ w

abbrev u32 (x : Int) : Nat := uintW 32 x

abbrev sizeT (x : Int) : Nat := uintW 64 x

abbrev offT (x : Int) : Int := intW 64 x

theorem uintW_lt (w : Nat) (x : Int) : uintW w x < 2 ^ w := by
  have hp : (0 : Int) < 2 ^ w := by positivity
  have h := Int.emod_lt_of_pos x hp
  have h0 := Int.emod_nonneg x (ne_of_gt hp)
  unfold uintW
  zify
  rw [Int.toNat_of_nonneg h0]
  exact_mod_cast h

theorem uintW_natCast {w n : Nat} : uintW w (n : Int) = n % 2 ^ w := by
  unfold uintW
  have : ((n : Int) % 2 ^ w) = ((n % 2 ^ w : Nat) : Int) := by push_cast; rfl
  rw [this, Int.toNat_natCast]

theorem uintW_of_lt {w n : Nat} (h : n < 2 ^ w) : uintW w (n : Int) = n := by
  rw [uintW_natCast, Nat.mod_eq_of_lt h]

theorem u32_natCast (n : Nat) : u32 (n : Int) = n % 2 ^ 32 := uintW_natCast

theorem u32_of_lt {n : Nat} (h : n < 2 ^ 32) : u32 (n : Int) = n := uintW_of_lt h

theorem uintW_natCast_mul {w m n : Nat} (h : m * n < 2 ^ w) :
    uintW w ((m : Int) * n) = m * n := by
  rw [← Nat.cast_mul, uintW_of_lt h]

theorem uintW_cast (w : Nat) (x : Int) : ((uintW w x : Nat) : Int) = x % 2 ^ w :=
  Int.toNat_of_nonneg (Int.emod_nonneg x (by positivity))

/-- Converting to `size_t` and on to `off_t` keeps every value of either range. -/
theorem offT_sizeT {x : Int} (hl : -2 ^ 63 ≤ x) (hh : x < 2 ^ 63) : offT (sizeT x) = x := by
  have hs : ((sizeT x : Nat) : Int) = x % 2 ^ 64 := uintW_cast 64 x
  have ho : uintW 64 ((sizeT x : Nat) : Int) = sizeT x := uintW_of_lt (uintW_lt 64 x)
  unfold offT intW
  rw [ho]
  norm_num at hl hh hs ⊢
  split <;> omega

theorem intW_of_lt {w n : Nat} (h : n < 2 ^ (w - 1)) : intW w (n : Int) = n := by
  have hlt : n < 2 ^ w := lt_of_lt_of_le h (Nat.pow_le_pow_right (by decide) (Nat.sub_le w 1))
  unfold intW
  rw [uintW_of_lt hlt, if_pos h]

theorem intW_of_range {w : Nat} (hw : 0 < w) {x : Int} (hl : -2 ^ (w - 1) ≤ x)
    (hh : x < 2 ^ (w - 1)) : intW w x = x := by
  have hsplit : (2 : Int) ^ w = 2 ^ (w - 1) + 2 ^ (w - 1) := by
    rw [← two_mul, ← pow_succ', Nat.sub_add_cancel hw]
  have hcast := uintW_cast w x
  unfold intW
  rcases Int.lt_or_le x 0 with h0 | h0
  · rw [← Int.add_emod_right, Int.emod_eq_of_lt (by omega) (by omega)] at hcast
    rw [if_neg (by zify; omega), hcast, Int.add_sub_cancel]
  · rw [Int.emod_eq_of_lt h0 (by omega)] at hcast
    rw [if_pos (by zify; omega), hcast]

theorem intW_nonneg_iff {w : Nat} {x : Int} : 0 ≤ intW w x ↔ uintW w x < 2 ^ (w - 1) := by
  have hlt : ((uintW w x : Nat) : Int) < 2 ^ w := by exact_mod_cast uintW_lt w x
  unfold intW
  split <;> omega

theorem offT_natCast {n : Nat} (h : n < 2 ^ 63) : offT (n : Int) = n := intW_of_lt h

end Cs370.CInt
