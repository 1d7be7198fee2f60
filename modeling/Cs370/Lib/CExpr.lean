import Mathlib.Data.Int.ModEq
import Cs370.Lib.CInt

/-!
# C arithmetic expressions

Sums, differences and products over `int` and `uint32_t`. `eval` is what the machine computes,
with the usual arithmetic conversions and a wrap-around at every operation; `exact` is the value
in the integers.

* `Fits.eval_eq`: they agree when no value on the way leaves the range of its type (`Fits`).
* `eval_eq_conv`: whatever happens on the way, they agree modulo `2 ^ 32`.
* `Computes`: rules for expressions whose values stay between 0 and `2 ^ 31`, where no conversion
  changes anything.
-/

namespace Cs370

/-- The types of the operands once they are promoted. -/
inductive CTy where
  | int
  | u32
  deriving DecidableEq

namespace CTy

def InRange : CTy → Int → Prop
  | int, x => -2 ^ 31 ≤ x ∧ x < 2 ^ 31
  | u32, x => 0 ≤ x ∧ x < 2 ^ 32

/-- Conversion to the type. -/
def conv : CTy → Int → Int
  | int, x => CInt.intW 32 x
  | u32, x => CInt.u32 x

/-- The common type of the operands of an operation. -/
def join : CTy → CTy → CTy
  | int, int => int
  | _, _ => u32

theorem conv_modEq (t : CTy) (x : Int) : t.conv x ≡ x [ZMOD 2 ^ 32] := by
  have hx := CInt.uintW_cast 32 x
  cases t with
  | int =>
    simp only [conv, CInt.intW, Int.ModEq]
    split <;> omega
  | u32 =>
    simp only [conv, CInt.u32, Int.ModEq]
    omega

theorem conv_inRange (t : CTy) (x : Int) : t.InRange (t.conv x) := by
  have hlt := CInt.uintW_lt 32 x
  cases t with
  | int =>
    simp only [conv, CInt.intW, InRange]
    split <;> omega
  | u32 =>
    simp only [conv, CInt.u32, InRange]
    omega

theorem InRange.eq_of_modEq {t : CTy} {x y : Int} (hx : t.InRange x) (hy : t.InRange y)
    (h : x ≡ y [ZMOD 2 ^ 32]) : x = y := by
  unfold Int.ModEq at h
  cases t with
  | int =>
    simp only [InRange] at hx hy
    omega
  | u32 =>
    simp only [InRange] at hx hy
    omega

theorem conv_congr (t : CTy) {x y : Int} (h : x ≡ y [ZMOD 2 ^ 32]) : t.conv x = t.conv y :=
  (t.conv_inRange x).eq_of_modEq (t.conv_inRange y)
    ((t.conv_modEq x).trans (h.trans (t.conv_modEq y).symm))

theorem InRange.conv_eq {t : CTy} {x : Int} (h : t.InRange x) : t.conv x = x :=
  (t.conv_inRange x).eq_of_modEq h (t.conv_modEq x)

theorem inRange_natCast (t : CTy) {n : Nat} (h : n < 2 ^ 31) : t.InRange n := by
  cases t with
  | int => simp only [InRange]; omega
  | u32 => simp only [InRange]; omega

end CTy

inductive COp where
  | add
  | sub
  | mul

def COp.apply : COp → Int → Int → Int
  | add, x, y => x + y
  | sub, x, y => x - y
  | mul, x, y => x * y

theorem COp.apply_modEq (o : COp) {n x x' y y' : Int} (hx : x ≡ x' [ZMOD n])
    (hy : y ≡ y' [ZMOD n]) : o.apply x y ≡ o.apply x' y' [ZMOD n] := by
  cases o with
  | add => exact hx.add hy
  | sub => exact hx.sub hy
  | mul => exact hx.mul hy

/-- An operand of a type, a conversion, or an operation. -/
inductive CExpr where
  | val (t : CTy) (x : Int)
  | cast (t : CTy) (e : CExpr)
  | op (o : COp) (e₁ e₂ : CExpr)

namespace CExpr

/-- An operand that is promoted to `int`. -/
abbrev int (n : Nat) : CExpr := .val .int n

instance : Add CExpr := ⟨.op .add⟩
instance : Sub CExpr := ⟨.op .sub⟩
instance : Mul CExpr := ⟨.op .mul⟩

def ty : CExpr → CTy
  | val t _ => t
  | cast t _ => t
  | op _ e₁ e₂ => e₁.ty.join e₂.ty

/-- The value the machine computes. -/
def eval : CExpr → Int
  | val t x => t.conv x
  | cast t e => t.conv e.eval
  | op o e₁ e₂ =>
    let t := e₁.ty.join e₂.ty
    t.conv (o.apply (t.conv e₁.eval) (t.conv e₂.eval))

/-- The value in the integers. -/
def exact : CExpr → Int
  | val _ x => x
  | cast _ e => e.exact
  | op o e₁ e₂ => o.apply e₁.exact e₂.exact

/-- Every operand, converted operand and result is in the range of its type. -/
def Fits : CExpr → Prop
  | val t x => t.InRange x
  | cast t e => e.Fits ∧ t.InRange e.exact
  | op o e₁ e₂ =>
    e₁.Fits ∧ e₂.Fits ∧ (e₁.ty.join e₂.ty).InRange e₁.exact ∧ (e₁.ty.join e₂.ty).InRange e₂.exact ∧
      (e₁.ty.join e₂.ty).InRange (o.apply e₁.exact e₂.exact)

theorem Fits.eval_eq {e : CExpr} (h : e.Fits) : e.eval = e.exact := by
  induction e with
  | val t x => exact CTy.InRange.conv_eq h
  | cast t e ih => rw [eval, ih h.1, exact, h.2.conv_eq]
  | op o e₁ e₂ ih₁ ih₂ =>
    obtain ⟨h₁, h₂, hr₁, hr₂, hr⟩ := h
    simp only [eval, exact]
    rw [ih₁ h₁, ih₂ h₂, hr₁.conv_eq, hr₂.conv_eq, hr.conv_eq]

theorem eval_modEq (e : CExpr) : e.eval ≡ e.exact [ZMOD 2 ^ 32] := by
  induction e with
  | val t x => exact CTy.conv_modEq t x
  | cast t e ih => exact (CTy.conv_modEq t _).trans ih
  | op o e₁ e₂ ih₁ ih₂ =>
    refine (CTy.conv_modEq _ _).trans (o.apply_modEq ?_ ?_)
    · exact (CTy.conv_modEq _ _).trans ih₁
    · exact (CTy.conv_modEq _ _).trans ih₂

theorem eval_inRange (e : CExpr) : e.ty.InRange e.eval := by
  cases e <;> exact CTy.conv_inRange _ _

/-- The machine's value is the one in the range of its type that is the exact value modulo
`2 ^ 32`. -/
theorem eval_eq_conv (e : CExpr) : e.eval = e.ty.conv e.exact :=
  e.eval_inRange.eq_of_modEq (e.ty.conv_inRange _) (e.eval_modEq.trans (e.ty.conv_modEq _).symm)

/-! ## Values no conversion changes -/

/-- The expression is computed without leaving a range, and its value is `n < 2 ^ 31`. -/
def Computes (e : CExpr) (n : Nat) : Prop := e.Fits ∧ e.exact = n ∧ n < 2 ^ 31

theorem Computes.eval_eq {e : CExpr} {n : Nat} (h : e.Computes n) : e.eval = n :=
  h.1.eval_eq.trans h.2.1

theorem computes_int {n : Nat} (h : n < 2 ^ 31) : (int n).Computes n :=
  ⟨CTy.int.inRange_natCast h, rfl, h⟩

theorem Computes.cast {e : CExpr} {n : Nat} (h : e.Computes n) (t : CTy) :
    (CExpr.cast t e).Computes n := by
  obtain ⟨hf, hx, hn⟩ := h
  refine ⟨⟨hf, ?_⟩, hx, hn⟩
  rw [hx]
  exact t.inRange_natCast hn

theorem Computes.op {e₁ e₂ : CExpr} {m n k : Nat} (o : COp) (h₁ : e₁.Computes m)
    (h₂ : e₂.Computes n) (ho : o.apply m n = k) (hk : k < 2 ^ 31) :
    (CExpr.op o e₁ e₂).Computes k := by
  obtain ⟨hf₁, hx₁, hm⟩ := h₁
  obtain ⟨hf₂, hx₂, hn⟩ := h₂
  have hx : o.apply e₁.exact e₂.exact = k := by rw [hx₁, hx₂, ho]
  refine ⟨⟨hf₁, hf₂, ?_, ?_, ?_⟩, hx, hk⟩
  · rw [hx₁]
    exact CTy.inRange_natCast _ hm
  · rw [hx₂]
    exact CTy.inRange_natCast _ hn
  · rw [hx]
    exact CTy.inRange_natCast _ hk

theorem Computes.add {e₁ e₂ : CExpr} {m n : Nat} (h₁ : e₁.Computes m) (h₂ : e₂.Computes n)
    (h : m + n < 2 ^ 31) : (e₁ + e₂).Computes (m + n) :=
  h₁.op .add h₂ (Nat.cast_add m n).symm h

theorem Computes.sub {e₁ e₂ : CExpr} {m n : Nat} (h₁ : e₁.Computes m) (h₂ : e₂.Computes n)
    (h : n ≤ m) : (e₁ - e₂).Computes (m - n) :=
  h₁.op .sub h₂ (Nat.cast_sub h).symm (lt_of_le_of_lt (Nat.sub_le m n) h₁.2.2)

theorem Computes.mul {e₁ e₂ : CExpr} {m n : Nat} (h₁ : e₁.Computes m) (h₂ : e₂.Computes n)
    (h : m * n < 2 ^ 31) : (e₁ * e₂).Computes (m * n) :=
  h₁.op .mul h₂ (Nat.cast_mul m n).symm h

end CExpr

end Cs370
