import LlmOs.RustInt
import LlmOs.WhitespaceTokens

set_option autoImplicit false

/-! The decimals that `i64::from_str` reads and the ones that `Display` writes.
A numeral may carry a sign and leading zeros; a canonical one carries neither a
superfluous sign nor a superfluous zero. -/
namespace LlmOs.RustInt
open RustText

def Digits (ds : Str) : Prop := ds ≠ [] ∧ ∀ c ∈ ds, c.isDigit = true

/-- The texts that match `[+-]?[0-9]+`, with their values. -/
inductive Numeral : Str → ℤ → Prop where
  | bare {ds : Str} (h : Digits ds) : Numeral ds (Nat.ofDigitChars 10 ds 0)
  | plus {ds : Str} (h : Digits ds) : Numeral ('+' :: ds) (Nat.ofDigitChars 10 ds 0)
  | minus {ds : Str} (h : Digits ds) : Numeral ('-' :: ds) (-Nat.ofDigitChars 10 ds 0)

/-- A numeral without a plus sign, without leading zeros, and not a negative zero. -/
def Canonical (t : Str) (z : ℤ) : Prop :=
  Numeral t z ∧ (t = "0".toList ∨ ∃ c ds, c ≠ '0' ∧ c.isDigit = true ∧
    (t = c :: ds ∨ t = '-' :: c :: ds))

theorem parseDigits_of_digits {ds : Str} (h : Digits ds) :
    parseDigits ds = some (Nat.ofDigitChars 10 ds 0) := by
  unfold parseDigits
  rw [if_pos ⟨h.1, List.all_eq_true.2 h.2⟩]

theorem digits_of_parseDigits {ds : Str} {n : ℕ} (h : parseDigits ds = some n) :
    Digits ds ∧ n = Nat.ofDigitChars 10 ds 0 := by
  unfold parseDigits at h
  split_ifs at h with hd
  cases h
  exact ⟨⟨hd.1, List.all_eq_true.1 hd.2⟩, rfl⟩

theorem ofInt?_eq_some_iff (z : ℤ) (a : I64) : ofInt? z = some a ↔ z = a.val := by
  obtain ⟨val, inRange⟩ := a
  unfold ofInt?
  constructor
  · intro h
    split_ifs at h
    cases h
    rfl
  · rintro rfl
    rw [dif_pos inRange]

theorem parseI64_bare {ds : Str} (h : Digits ds) :
    parseI64 ds = (parseDigits ds).bind (fun n => ofInt? n) := by
  obtain ⟨hne, hd⟩ := h
  cases ds with
  | nil => exact absurd rfl hne
  | cons c ds =>
    have hc := hd c (by simp)
    have hminus : c ≠ '-' := by
      rintro rfl
      exact absurd hc (by decide)
    have hplus : c ≠ '+' := by
      rintro rfl
      exact absurd hc (by decide)
    unfold parseI64
    split
    · rename_i heq
      exact absurd (List.cons.inj heq).1 hminus
    · rename_i heq
      exact absurd (List.cons.inj heq).1 hplus
    · rfl

/-- Parsing accepts exactly the numerals whose value is in range. -/
theorem parseI64_eq_some_iff (t : Str) (a : I64) : parseI64 t = some a ↔ Numeral t a.val := by
  constructor
  · intro h
    unfold parseI64 at h
    split at h <;> obtain ⟨n, hn, ha⟩ := Option.bind_eq_some_iff.1 h <;>
      obtain ⟨hd, rfl⟩ := digits_of_parseDigits hn <;>
      rw [← (ofInt?_eq_some_iff _ a).1 ha]
    · exact .minus hd
    · exact .plus hd
    · exact .bare hd
  · intro h
    generalize hz : a.val = z at h
    cases h with
    | bare hd =>
      rw [parseI64_bare hd, parseDigits_of_digits hd]
      exact (ofInt?_eq_some_iff _ a).2 hz.symm
    | plus hd =>
      change (parseDigits _).bind _ = _
      rw [parseDigits_of_digits hd]
      exact (ofInt?_eq_some_iff _ a).2 hz.symm
    | minus hd =>
      change (parseDigits _).bind _ = _
      rw [parseDigits_of_digits hd]
      exact (ofInt?_eq_some_iff _ a).2 hz.symm

theorem digits_toDigits (n : ℕ) : Digits (Nat.toDigits 10 n) :=
  ⟨Nat.toDigits_ne_nil, fun _ hc => Nat.isDigit_of_mem_toDigits (by decide) (by decide) hc⟩

theorem numeral_intText (z : ℤ) : Numeral (intText z) z := by
  have hd := digits_toDigits z.natAbs
  have hvalue : Nat.ofDigitChars 10 (Nat.toDigits 10 z.natAbs) 0 = z.natAbs :=
    Nat.ofDigitChars_ten_toDigits
  unfold intText
  split_ifs with hneg
  · have h := Numeral.minus hd
    rw [hvalue] at h
    rwa [show -(z.natAbs : ℤ) = z by omega] at h
  · have h := Numeral.bare hd
    rw [hvalue] at h
    rwa [show (z.natAbs : ℤ) = z by omega] at h

theorem toDigits_head {n : ℕ} (hn : 0 < n) :
    ∃ c ds, Nat.toDigits 10 n = c :: ds ∧ c ≠ '0' := by
  induction n using Nat.strong_induction_on with
  | h n ih =>
    by_cases hlt : n < 10
    · refine ⟨n.digitChar, [], Nat.toDigits_of_lt_base hlt, ?_⟩
      interval_cases n <;> decide
    · obtain ⟨c, ds, hcs, hc⟩ := ih (n / 10) (by omega) (by omega)
      rw [Nat.toDigits_of_base_le (by decide) (by omega), hcs]
      exact ⟨c, _, rfl, hc⟩

theorem canonical_intText (z : ℤ) : Canonical (intText z) z := by
  refine ⟨numeral_intText z, ?_⟩
  by_cases hz : z = 0
  · subst hz
    exact Or.inl (by decide)
  · obtain ⟨c, ds, hcs, hc⟩ := toDigits_head (show 0 < z.natAbs by omega)
    have hdigit : c.isDigit = true := (digits_toDigits z.natAbs).2 c (by simp [hcs])
    refine Or.inr ⟨c, ds, hc, hdigit, ?_⟩
    unfold intText
    rw [hcs]
    split_ifs
    · exact Or.inr rfl
    · exact Or.inl rfl

theorem isWhitespace_digit {c : Char} (h : c.isDigit = true) : isWhitespace c = false := by
  simp only [Char.isDigit, Bool.and_eq_true, decide_eq_true_eq] at h
  have hlow : 48 ≤ c.toNat := h.1
  have hhigh : c.toNat ≤ 57 := h.2
  simp only [isWhitespace, Bool.or_eq_false_iff, Bool.and_eq_false_iff, decide_eq_false_iff_not,
    beq_eq_false_iff_ne]
  omega

theorem Numeral.bareToken {t : Str} {z : ℤ} (h : Numeral t z) : Bare t := by
  have hsign : ∀ {c : Char} {ds : Str}, Digits ds → isWhitespace c = false → Bare (c :: ds) := by
    intro c ds hd hc
    refine ⟨by simp, fun d hmem => ?_⟩
    rcases List.mem_cons.1 hmem with rfl | hmem
    · exact hc
    · exact isWhitespace_digit (hd.2 d hmem)
  cases h with
  | bare hd => exact ⟨hd.1, fun c hc => isWhitespace_digit (hd.2 c hc)⟩
  | plus hd => exact hsign hd (by decide)
  | minus hd => exact hsign hd (by decide)

end LlmOs.RustInt
