import LlmOs.ToolRegistry

set_option autoImplicit false

/-! The operands that `exec_calculator` admits are checked one by one, the
result of the operator is not: only the zero divisor is guarded. The operand
pairs that leave the range, and what each build makes of them. -/
namespace LlmOs.Tools
open RustText RustInt

/-- The argument is three tokens, and the outer two are numbers. -/
def Parses (expr : Str) (a : I64) (op : Str) (b : I64) : Prop :=
  ∃ left right, splitWhitespace (trim expr) = [left, op, right] ∧
    parseI64 left = some a ∧ parseI64 right = some b

def exactResult (a : ℤ) (op : Str) (b : ℤ) : ℤ :=
  if op = "+".toList then a + b
  else if op = "-".toList then a - b
  else if op = "*".toList then a * b
  else a.tdiv b

/-- The operand pairs on which an operator leaves the range. -/
def Overflows (a : I64) (op : Str) (b : I64) : Prop :=
  (op = "+".toList ∧ ¬ InI64 (a.val + b.val)) ∨ (op = "-".toList ∧ ¬ InI64 (a.val - b.val)) ∨
    (op = "*".toList ∧ ¬ InI64 (a.val * b.val)) ∨
    (op = "/".toList ∧ a.val = -2 ^ 63 ∧ b.val = -1)

/-- No build panics on the argument, and a printed result is the exact one. -/
def StaysInRange (expr : Str) : Prop :=
  ∀ arith, execCalculator arith expr ≠ .panic ∧
    ∀ line, execCalculator arith expr = .ok line →
      ∃ a op b, Parses expr a op b ∧ line = resultLine a op b (exactResult a.val op b.val)

def Delivers (outcome : Outcome I64) (exact : ℤ) : Prop :=
  (∃ r, outcome = .ok r ∧ r.val = exact) ∨ ∃ message, outcome = .err message

theorem delivers_settle (wraps : Bool) {exact : ℤ} (h : InI64 exact) :
    Delivers (.ofOption (settle wraps exact)) exact := by
  rw [settle_of_fits wraps h]
  exact Or.inl ⟨⟨exact, h⟩, rfl, rfl⟩

theorem calculate_delivers (arith : Arith) {a b : I64} {op : Str} (h : ¬ Overflows a op b) :
    Delivers (calculate arith a op b) (exactResult a.val op b.val) := by
  simp only [Overflows, not_or, not_and, not_not] at h
  obtain ⟨hadd, hsub, hmul, hdiv⟩ := h
  unfold calculate exactResult
  split_ifs with h1 h2 h3 h4 h5
  · exact delivers_settle _ (hadd h1)
  · exact delivers_settle _ (hsub h2)
  · exact delivers_settle _ (hmul h3)
  · exact Or.inr ⟨_, rfl⟩
  · exact delivers_settle _ ((inI64_tdiv_iff a b h5).2 (fun h => hdiv h4 h.1 h.2))
  · exact Or.inr ⟨_, rfl⟩

theorem ofOption_settle_panic {exact : ℤ} (h : ¬ InI64 exact) :
    Outcome.ofOption (settle false exact) = .panic := by
  rw [(settle_false_eq_none_iff exact).2 h]
  rfl

theorem calculate_checked_panic {a b : I64} {op : Str} (h : Overflows a op b) :
    calculate .checked a op b = .panic := by
  rcases h with ⟨rfl, h⟩ | ⟨rfl, h⟩ | ⟨rfl, h⟩ | ⟨rfl, ha, hb⟩
  · exact ofOption_settle_panic h
  · exact ofOption_settle_panic h
  · exact ofOption_settle_panic h
  · have hzero : b.val ≠ 0 := by omega
    have hout : ¬ InI64 (a.val.tdiv b.val) := fun hin =>
      (inI64_tdiv_iff a b hzero).1 hin ⟨ha, hb⟩
    change (if b.val = 0 then _ else Outcome.ofOption (settle false (a.val.tdiv b.val))) = _
    rw [if_neg hzero, ofOption_settle_panic hout]

theorem execCalculator_of_parses (arith : Arith) {expr op : Str} {a b : I64}
    (h : Parses expr a op b) :
    execCalculator arith expr =
      (calculate arith a op b).map (fun result => resultLine a op b result.val) := by
  obtain ⟨left, right, htok, hleft, hright⟩ := h
  simp only [execCalculator, htok, hleft, hright]

theorem execCalculator_of_not_parses (arith : Arith) {expr : Str}
    (h : ∀ a op b, ¬ Parses expr a op b) : ∃ message, execCalculator arith expr = .err message := by
  unfold execCalculator
  split
  · rename_i left op right htok
    cases hleft : parseI64 left with
    | none => exact ⟨_, rfl⟩
    | some a =>
      cases hright : parseI64 right with
      | none => exact ⟨_, rfl⟩
      | some b => exact absurd ⟨left, right, htok, hleft, hright⟩ (h a op b)
  · exact ⟨_, rfl⟩

theorem staysInRange_of_parses {expr op : Str} {a b : I64} (hp : Parses expr a op b)
    (h : ¬ Overflows a op b) : StaysInRange expr := by
  intro arith
  rw [execCalculator_of_parses arith hp]
  rcases calculate_delivers arith h with ⟨r, hr, hval⟩ | ⟨message, hm⟩
  · rw [hr]
    refine ⟨by simp [Outcome.map], ?_⟩
    intro line hline
    simp only [Outcome.map, Outcome.ok.injEq] at hline
    exact ⟨a, op, b, hp, by rw [← hline, hval]⟩
  · rw [hm]
    exact ⟨by simp [Outcome.map], by simp [Outcome.map]⟩

theorem calculator_stays_in_range_iff (expr : Str) :
    StaysInRange expr ↔ ¬ ∃ a op b, Parses expr a op b ∧ Overflows a op b := by
  constructor
  · rintro h ⟨a, op, b, hp, ho⟩
    apply (h .checked).1
    rw [execCalculator_of_parses .checked hp, calculate_checked_panic ho]
    rfl
  · intro h
    by_cases hp : ∃ a op b, Parses expr a op b
    · obtain ⟨a, op, b, hp⟩ := hp
      exact staysInRange_of_parses hp (fun ho => h ⟨a, op, b, hp, ho⟩)
    · simp only [not_exists] at hp
      intro arith
      obtain ⟨message, hm⟩ := execCalculator_of_not_parses arith hp
      rw [hm]
      exact ⟨by simp, by simp⟩

set_option maxRecDepth 4000 in
/-- One above the largest value: a checked build panics, a release build prints
the smallest value as the sum. -/
theorem calculator_leaves_range :
    execCalculator .checked "9223372036854775807 + 1".toList = .panic ∧
      execCalculator .release "9223372036854775807 + 1".toList =
        .ok "9223372036854775807 + 1 = -9223372036854775808".toList ∧
      ¬ StaysInRange "9223372036854775807 + 1".toList := by
  refine ⟨by decide, by decide, ?_⟩
  intro h
  exact (h .checked).1 (by decide)

end LlmOs.Tools
