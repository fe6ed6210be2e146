import LlmOs.RustText

set_option autoImplicit false

/-!
# `i64` values and the compiled operators

A value carries its range. An operator is its exact integer result, delivered
if it fits; what happens otherwise depends on the build. Parsing and `Display`
are the ones of `core`: an optional sign, at least one digit, an error outside
the range, and the canonical decimal.
-/
namespace LlmOs.RustInt
open RustText

def InI64 (z : ℤ) : Prop := -2 ^ 63 ≤ z ∧ z ≤ 2 ^ 63 - 1

instance (z : ℤ) : Decidable (InI64 z) := inferInstanceAs (Decidable (_ ∧ _))

structure I64 where
  val : ℤ
  inRange : InI64 val
  deriving DecidableEq

theorem inI64_bmod (z : ℤ) : InI64 (z.bmod (2 ^ 64)) := by
  have hl := Int.le_bmod (x := z) (m := 2 ^ 64) (by decide)
  have hu := Int.bmod_lt (x := z) (m := 2 ^ 64) (by decide)
  constructor
  · norm_num at hl ⊢
    omega
  · norm_num at hu ⊢
    omega

def I64.wrap (z : ℤ) : I64 := ⟨z.bmod (2 ^ 64), inI64_bmod z⟩

/-- How the operators were compiled. With overflow checks every overflow panics;
a release build wraps, except that the one overflowing quotient still panics;
`wrapping` is the arithmetic modulo `2 ^ 64` throughout. -/
inductive Arith where
  | checked
  | release
  | wrapping
  deriving DecidableEq, Repr

def settle (wraps : Bool) (exact : ℤ) : Option I64 :=
  if h : InI64 exact then some ⟨exact, h⟩ else if wraps then some (I64.wrap exact) else none

namespace Arith

def add (m : Arith) (a b : I64) : Option I64 := settle (m != .checked) (a.val + b.val)
def sub (m : Arith) (a b : I64) : Option I64 := settle (m != .checked) (a.val - b.val)
def mul (m : Arith) (a b : I64) : Option I64 := settle (m != .checked) (a.val * b.val)
def div (m : Arith) (a b : I64) : Option I64 := settle (m == .wrapping) (a.val.tdiv b.val)

end Arith

def ofInt? (z : ℤ) : Option I64 := if h : InI64 z then some ⟨z, h⟩ else none

def parseDigits (s : Str) : Option ℕ :=
  if s ≠ [] ∧ s.all Char.isDigit then some (Nat.ofDigitChars 10 s 0) else none

def parseI64 : Str → Option I64
  | '-' :: ds => (parseDigits ds).bind (fun n => ofInt? (-n))
  | '+' :: ds => (parseDigits ds).bind (fun n => ofInt? n)
  | ds => (parseDigits ds).bind (fun n => ofInt? n)

def intText (z : ℤ) : Str :=
  if z < 0 then '-' :: Nat.toDigits 10 z.natAbs else Nat.toDigits 10 z.natAbs

theorem settle_of_fits (wraps : Bool) {exact : ℤ} (h : InI64 exact) :
    settle wraps exact = some ⟨exact, h⟩ := by
  simp [settle, h]

theorem settle_false_eq_none_iff (exact : ℤ) : settle false exact = none ↔ ¬ InI64 exact := by
  by_cases h : InI64 exact <;> simp [settle, h]

/-- Among non-zero divisors exactly one pair of operands has a quotient out of range. -/
theorem inI64_tdiv_iff (a b : I64) (hb : b.val ≠ 0) :
    InI64 (a.val.tdiv b.val) ↔ ¬ (a.val = -2 ^ 63 ∧ b.val = -1) := by
  obtain ⟨a, ha⟩ := a
  obtain ⟨b, hb'⟩ := b
  simp only at hb ⊢
  unfold InI64 at ha hb' ⊢
  constructor
  · rintro ⟨_, hu⟩ ⟨rfl, rfl⟩
    norm_num at hu
  · intro h
    have hquot := Int.natAbs_tdiv a b
    by_cases hunit : b.natAbs = 1
    · have hsign : b = 1 ∨ b = -1 := by omega
      rcases hsign with rfl | rfl
      · rw [Int.tdiv_one]
        exact ha
      · rw [Int.tdiv_neg, Int.tdiv_one]
        omega
    · have hhalf : a.natAbs / b.natAbs ≤ a.natAbs / 2 :=
        Nat.div_le_div_left (by omega) (by decide)
      change _ = a.natAbs / b.natAbs at hquot
      omega

theorem len_intText_le {z : ℤ} (h : InI64 z) : len (intText z) ≤ 20 := by
  have habs : z.natAbs < 10 ^ 19 := by
    unfold InI64 at h
    omega
  have hd := len_toDigits_le (by decide) habs
  unfold intText
  split_ifs
  · rw [len_cons]
    have : '-'.utf8Size = 1 := by decide
    omega
  · omega

end LlmOs.RustInt
