import LlmOs.CalculatorRange
import LlmOs.DecimalText

set_option autoImplicit false

/-! The grammar of the calculator and the normal form it prints. The grammar is
stated on the argument as it stands; the code trims it, cuts it at white space
and parses the outer tokens. A printed left-hand side is an argument again, and
it denotes the same expression. -/
namespace LlmOs.Tools
open RustText RustInt

def operators : List Str := ["+".toList, "-".toList, "*".toList, "/".toList]

/-- The argument is `t1 op t2` for numerals of `i64` values `a` and `b`, and the
operator applies to them. -/
structure Expression (expr : Str) (a : ℤ) (op : Str) (b : ℤ) : Prop where
  tokens : ∃ left right, Spaced [left, op, right] expr ∧ Numeral left a ∧ Numeral right b
  leftInRange : InI64 a
  rightInRange : InI64 b
  operator : op ∈ operators
  divisor : ¬ (op = "/".toList ∧ b = 0)

def equation (left op right result : Str) : Str :=
  left ++ " ".toList ++ op ++ " ".toList ++ right ++ " = ".toList ++ result

theorem Expression.parses {expr op : Str} {a b : ℤ} (h : Expression expr a op b) :
    Parses expr ⟨a, h.leftInRange⟩ op ⟨b, h.rightInRange⟩ := by
  obtain ⟨left, right, hspaced, hleft, hright⟩ := h.tokens
  exact ⟨left, right, (splitWhitespace_trim_eq_iff _ _).2 hspaced,
    (parseI64_eq_some_iff left _).2 hleft, (parseI64_eq_some_iff right _).2 hright⟩

theorem Parses.unique {expr op op' : Str} {a b a' b' : I64} (h : Parses expr a op b)
    (h' : Parses expr a' op' b') : a = a' ∧ op = op' ∧ b = b' := by
  obtain ⟨left, right, htokens, hleft, hright⟩ := h
  obtain ⟨left', right', htokens', hleft', hright'⟩ := h'
  rw [htokens] at htokens'
  cases htokens'
  rw [hleft] at hleft'
  rw [hright] at hright'
  exact ⟨Option.some.inj hleft', rfl, Option.some.inj hright'⟩

theorem Parses.expression {expr op : Str} {a b : I64} (h : Parses expr a op b)
    (hop : op ∈ operators) (hdiv : ¬ (op = "/".toList ∧ b.val = 0)) :
    Expression expr a.val op b.val := by
  obtain ⟨left, right, htokens, hleft, hright⟩ := h
  refine ⟨⟨left, right, ?_, ?_, ?_⟩, a.inRange, b.inRange, hop, hdiv⟩
  · exact (splitWhitespace_trim_eq_iff _ _).1 htokens
  · exact (parseI64_eq_some_iff left a).1 hleft
  · exact (parseI64_eq_some_iff right b).1 hright

/-- An operator that applies is its exact result, settled as the build has it. -/
theorem calculate_settles (arith : Arith) {a b : I64} {op : Str} (hop : op ∈ operators)
    (hdiv : ¬ (op = "/".toList ∧ b.val = 0)) :
    ∃ wraps, calculate arith a op b = .ofOption (settle wraps (exactResult a.val op b.val)) := by
  simp only [operators, List.mem_cons, List.not_mem_nil, or_false] at hop
  rcases hop with rfl | rfl | rfl | rfl
  · exact ⟨_, rfl⟩
  · exact ⟨_, rfl⟩
  · exact ⟨_, rfl⟩
  · have hb : b.val ≠ 0 := fun hzero => hdiv ⟨rfl, hzero⟩
    change ∃ wraps, (if b.val = 0 then _ else Outcome.ofOption (arith.div a b)) = _
    rw [if_neg hb]
    exact ⟨_, rfl⟩

theorem operator_of_calculate {arith : Arith} {a b r : I64} {op : Str}
    (h : calculate arith a op b = .ok r) :
    op ∈ operators ∧ ¬ (op = "/".toList ∧ b.val = 0) := by
  have hslash : ∀ {c : Str}, op = c → c ≠ "/".toList → ¬ (op = "/".toList ∧ b.val = 0) := by
    rintro c rfl hne ⟨hc, _⟩
    exact hne hc
  unfold calculate at h
  split_ifs at h with hadd hsub hmul hdiv hzero
  · exact ⟨by simp [operators, hadd], hslash hadd (by decide)⟩
  · exact ⟨by simp [operators, hsub], hslash hsub (by decide)⟩
  · exact ⟨by simp [operators, hmul], hslash hmul (by decide)⟩
  · exact ⟨by simp [operators, hdiv], fun hb => hzero hb.2⟩

/-- An expression is answered or overflows; it is never refused. -/
theorem Expression.not_err (arith : Arith) {expr op : Str} {a b : ℤ}
    (h : Expression expr a op b) (message : Str) : execCalculator arith expr ≠ .err message := by
  obtain ⟨wraps, hsettle⟩ := calculate_settles arith (a := ⟨a, h.leftInRange⟩)
    (b := ⟨b, h.rightInRange⟩) h.operator h.divisor
  rw [execCalculator_of_parses arith h.parses, hsettle]
  cases settle wraps _ with
  | none => simp [Outcome.ofOption, Outcome.map]
  | some r => simp [Outcome.ofOption, Outcome.map]

theorem Expression.execCalculator (arith : Arith) {expr op : Str} {a b : ℤ}
    (h : Expression expr a op b) (hfits : InI64 (exactResult a op b)) :
    execCalculator arith expr =
      .ok (equation (intText a) op (intText b) (intText (exactResult a op b))) := by
  obtain ⟨wraps, hsettle⟩ := calculate_settles arith (a := ⟨a, h.leftInRange⟩)
    (b := ⟨b, h.rightInRange⟩) h.operator h.divisor
  rw [execCalculator_of_parses arith h.parses, hsettle, settle_of_fits wraps hfits]
  rfl

theorem expression_of_ok {arith : Arith} {expr line : Str}
    (h : execCalculator arith expr = .ok line) : ∃ a op b, Expression expr a op b := by
  by_cases hp : ∃ a op b, Parses expr a op b
  · obtain ⟨a, op, b, hp⟩ := hp
    rw [execCalculator_of_parses arith hp] at h
    cases hc : calculate arith a op b with
    | ok r =>
      obtain ⟨hop, hdiv⟩ := operator_of_calculate hc
      exact ⟨_, _, _, hp.expression hop hdiv⟩
    | err message =>
      rw [hc] at h
      cases h
    | panic =>
      rw [hc] at h
      cases h
  · simp only [not_exists] at hp
    obtain ⟨message, hm⟩ := execCalculator_of_not_parses arith hp
    rw [hm] at h
    cases h

theorem operator_bare {op : Str} (h : op ∈ operators) : Bare op := by
  simp only [operators, List.mem_cons, List.not_mem_nil, or_false] at h
  rcases h with rfl | rfl | rfl | rfl
  · exact bare_singleton (c := '+') (by decide)
  · exact bare_singleton (c := '-') (by decide)
  · exact bare_singleton (c := '*') (by decide)
  · exact bare_singleton (c := '/') (by decide)

/-- The printed left-hand side denotes the expression it was printed for. -/
theorem Expression.printed {expr op : Str} {a b : ℤ} (h : Expression expr a op b) :
    Expression (intText a ++ " ".toList ++ op ++ " ".toList ++ intText b) a op b := by
  have hleft := numeral_intText a
  have hright := numeral_intText b
  have hspaced := spaced_three hleft.bareToken (operator_bare h.operator) hright.bareToken
  exact ⟨⟨_, _, hspaced, hleft, hright⟩, h.leftInRange, h.rightInRange, h.operator, h.divisor⟩

/-- Where no result leaves the range, the calculator accepts exactly its grammar,
and prints an equation that it reproduces from its own left-hand side. -/
theorem calculator_accepts_grammar (arith : Arith) (expr : Str)
    (hfits : ∀ a op b, Expression expr a op b → InI64 (exactResult a op b)) :
    ((∃ line, execCalculator arith expr = .ok line) ↔ ∃ a op b, Expression expr a op b) ∧
      ∀ a op b, Expression expr a op b → ∃ left right result,
        Canonical left a ∧ Canonical right b ∧ Canonical result (exactResult a op b) ∧
        execCalculator arith expr = .ok (equation left op right result) ∧
        execCalculator arith (left ++ " ".toList ++ op ++ " ".toList ++ right) =
          .ok (equation left op right result) := by
  refine ⟨⟨?_, ?_⟩, ?_⟩
  · rintro ⟨line, hline⟩
    exact expression_of_ok hline
  · rintro ⟨a, op, b, h⟩
    exact ⟨_, h.execCalculator arith (hfits a op b h)⟩
  · intro a op b h
    have hr := hfits a op b h
    exact ⟨_, _, _, canonical_intText a, canonical_intText b, canonical_intText _,
      h.execCalculator arith hr, h.printed.execCalculator arith hr⟩

theorem calculator_accepts_grammar_quotient :
    Expression "\u3000-0042  /\t+5\n".toList (-42) "/".toList 5 ∧
      ∃ left right result,
        Canonical left (-42) ∧ Canonical right 5 ∧ Canonical result (-8) ∧
        execCalculator .checked "\u3000-0042  /\t+5\n".toList =
          .ok (equation left "/".toList right result) ∧
        execCalculator .checked (left ++ " ".toList ++ "/".toList ++ " ".toList ++ right) =
          .ok (equation left "/".toList right result) := by
  have hparses : Parses "\u3000-0042  /\t+5\n".toList ⟨-42, by decide⟩ "/".toList
      ⟨5, by decide⟩ := ⟨"-0042".toList, "+5".toList, by decide, by decide, by decide⟩
  have h := hparses.expression (by decide) (by decide)
  refine ⟨h, (calculator_accepts_grammar .checked _ ?_).2 _ _ _ h⟩
  intro a op b hother
  obtain ⟨ha, rfl, hb⟩ := hother.parses.unique hparses
  cases ha
  cases hb
  decide

end LlmOs.Tools
