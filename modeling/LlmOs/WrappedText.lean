import Mathlib.Data.List.DropRight
import Mathlib.Tactic

set_option autoImplicit false

/-!
# Text laid out in rows

A text is split into lines at its breaks, and every line is cut into rows of a
fixed width; a line of exactly that width is one row. The layout is followed
one element at a time: a break opens an empty row, any other element goes to the
end of the last row, or opens the next one when that row is full. `overlay` is a
row with cells written over its left part.
-/
namespace LlmOs.WrappedText
variable {α : Type*}

def rowCount (width m : ℕ) : ℕ := max 1 ((m + (width - 1)) / width)

def cut (width : ℕ) (line : List α) : List (List α) :=
  (List.range (rowCount width line.length)).map (fun i => (line.drop (i * width)).take width)

def layout (width : ℕ) (isBreak : α → Bool) (text : List α) : List (List α) :=
  (text.splitOnP isBreak).flatMap (cut width)

theorem rowCount_eq {width : ℕ} (hw : 0 < width) (m : ℕ) :
    rowCount width m = (m - 1) / width + 1 := by
  unfold rowCount
  cases m with
  | zero =>
    rw [Nat.zero_add, Nat.div_eq_of_lt (by omega), Nat.zero_sub, Nat.zero_div]
    rfl
  | succ m =>
    rw [show m + 1 + (width - 1) = m + width by omega, Nat.add_div_right m hw]
    exact max_eq_right (Nat.le_add_left 1 _)

theorem cut_eq {width : ℕ} (hw : 0 < width) {line : List α} {q : ℕ}
    (hlow : q = 0 ∨ q * width < line.length) (hhigh : line.length ≤ (q + 1) * width) :
    cut width line = (List.range q).map (fun i => (line.drop (i * width)).take width) ++
      [line.drop (q * width)] := by
  have hdiv : (line.length - 1) / width = q := by
    rcases hlow with rfl | hlow
    · apply Nat.div_eq_of_lt
      omega
    · apply Nat.div_eq_of_lt_le
      · omega
      · omega
  rw [cut, rowCount_eq hw, hdiv, List.range_succ, List.map_append, List.map_singleton,
    List.take_of_length_le]
  rw [List.length_drop]
  rw [Nat.succ_mul] at hhigh
  omega

theorem exists_full_rows {width : ℕ} (hw : 0 < width) (m : ℕ) :
    ∃ q, (q = 0 ∨ q * width < m) ∧ m ≤ (q + 1) * width := by
  refine ⟨(m - 1) / width, ?_, ?_⟩
  · have hle := Nat.div_mul_le_self (m - 1) width
    cases m with
    | zero => exact Or.inl (Nat.zero_div width)
    | succ m => exact Or.inr (by omega)
  · have hlt := Nat.lt_div_mul_add (a := m - 1) hw
    rw [Nat.succ_mul]
    omega

theorem take_drop_concat {width q i : ℕ} {line : List α} (hi : i < q)
    (hq : q * width ≤ line.length) (x : α) :
    ((line ++ [x]).drop (i * width)).take width = (line.drop (i * width)).take width := by
  have hrow : (i + 1) * width ≤ q * width := Nat.mul_le_mul_right width hi
  rw [Nat.succ_mul] at hrow
  rw [List.drop_append_of_le_length (by omega), List.take_append_of_le_length]
  rw [List.length_drop]
  omega

theorem cut_concat {width : ℕ} (hw : 0 < width) (line : List α) :
    ∃ before last, cut width line = before ++ [last] ∧ last.length ≤ width ∧ ∀ x,
      cut width (line ++ [x]) =
        if last.length < width then before ++ [last ++ [x]] else before ++ [last, [x]] := by
  obtain ⟨q, hlow, hhigh⟩ := exists_full_rows hw line.length
  have hq : q * width ≤ line.length := by
    rcases hlow with rfl | hlow
    · omega
    · exact hlow.le
  have hsucc : (q + 1) * width = q * width + width := Nat.succ_mul q width
  refine ⟨_, _, cut_eq hw hlow hhigh, ?_, fun x => ?_⟩
  · rw [List.length_drop]
    omega
  · rw [List.length_drop]
    split_ifs with hfit
    · have hlow' : q = 0 ∨ q * width < (line ++ [x]).length := by
        rw [List.length_append, List.length_singleton]
        omega
      have hhigh' : (line ++ [x]).length ≤ (q + 1) * width := by
        rw [List.length_append, List.length_singleton]
        omega
      rw [cut_eq hw hlow' hhigh', List.drop_append_of_le_length hq]
      congr 1
      apply List.map_congr_left
      intro i hi
      exact take_drop_concat (List.mem_range.1 hi) hq x
    · have hfull : (q + 1) * width = line.length := by omega
      have hlow' : q + 1 = 0 ∨ (q + 1) * width < (line ++ [x]).length := by
        rw [List.length_append, List.length_singleton]
        omega
      have hhigh' : (line ++ [x]).length ≤ (q + 1 + 1) * width := by
        rw [List.length_append, List.length_singleton, Nat.succ_mul (q + 1)]
        omega
      have hrows : ∀ i ∈ List.range (q + 1), ((line ++ [x]).drop (i * width)).take width =
          (line.drop (i * width)).take width :=
        fun i hi => take_drop_concat (List.mem_range.1 hi) hfull.le x
      rw [cut_eq hw hlow' hhigh', List.map_congr_left hrows, List.range_succ, List.map_append,
        List.map_singleton, hfull, List.drop_left', List.append_assoc, List.take_of_length_le]
      · rfl
      · rw [List.length_drop]
        omega
      · rfl

theorem splitOnP_concat (isBreak : α → Bool) (text : List α) :
    ∃ before last, text.splitOnP isBreak = before ++ [last] ∧ ∀ x, isBreak x = false →
      (text ++ [x]).splitOnP isBreak = before ++ [last ++ [x]] := by
  induction text with
  | nil =>
    refine ⟨[], [], by simp, fun x hx => ?_⟩
    simp [List.splitOnP_cons_eq_if_modifyHead, hx]
  | cons y text ih =>
    obtain ⟨before, last, htext, hconcat⟩ := ih
    cases hy : isBreak y with
    | true =>
      refine ⟨[] :: before, last, ?_, fun x hx => ?_⟩
      · simp [List.splitOnP_cons_eq_if_modifyHead, hy, htext]
      · simp [List.splitOnP_cons_eq_if_modifyHead, hy, hconcat x hx]
    | false =>
      cases before with
      | nil =>
        refine ⟨[], y :: last, ?_, fun x hx => ?_⟩
        · simp [List.splitOnP_cons_eq_if_modifyHead, hy, htext]
        · simp [List.splitOnP_cons_eq_if_modifyHead, hy, hconcat x hx]
      | cons first before =>
        refine ⟨(y :: first) :: before, last, ?_, fun x hx => ?_⟩
        · simp [List.splitOnP_cons_eq_if_modifyHead, hy, htext]
        · simp [List.splitOnP_cons_eq_if_modifyHead, hy, hconcat x hx]

@[simp] theorem cut_nil (width : ℕ) (hw : 0 < width) : cut width ([] : List α) = [[]] := by
  rw [cut_eq hw (Or.inl rfl) (by simp)]
  simp

theorem layout_nil {width : ℕ} (hw : 0 < width) (isBreak : α → Bool) :
    layout width isBreak [] = [[]] := by
  simp [layout, hw]

theorem layout_concat_break {width : ℕ} (hw : 0 < width) {isBreak : α → Bool} (text : List α)
    {x : α} (hx : isBreak x = true) :
    layout width isBreak (text ++ [x]) = layout width isBreak text ++ [[]] := by
  simp [layout, List.splitOnP_append_cons text [] hx, hw]

theorem layout_concat {width : ℕ} (hw : 0 < width) (isBreak : α → Bool) (text : List α) :
    ∃ before last, layout width isBreak text = before ++ [last] ∧ last.length ≤ width ∧
      ∀ x, isBreak x = false → layout width isBreak (text ++ [x]) =
        if last.length < width then before ++ [last ++ [x]] else before ++ [last, [x]] := by
  obtain ⟨lines, line, htext, hlines⟩ := splitOnP_concat isBreak text
  obtain ⟨before, last, hline, hlast, hcut⟩ := cut_concat hw line
  refine ⟨lines.flatMap (cut width) ++ before, last, ?_, hlast, fun x hx => ?_⟩
  · rw [layout, htext, List.flatMap_append, List.flatMap_singleton, hline, List.append_assoc]
  · rw [layout, hlines x hx, List.flatMap_append, List.flatMap_singleton, hcut x]
    split_ifs <;> rw [List.append_assoc]

/-- `cells` written over the left part of `base`. -/
def overlay (cells base : List α) : List α := cells ++ base.drop cells.length

theorem overlay_nil (base : List α) : overlay [] base = base := rfl

theorem overlay_full {cells base : List α} (h : base.length ≤ cells.length) :
    overlay cells base = cells := by
  rw [overlay, List.drop_eq_nil_of_le h, List.append_nil]

theorem getElem?_overlay {cells : List α} (base : List α) {i : ℕ} (h : cells.length ≤ i) :
    (overlay cells base)[i]? = base[i]? := by
  rw [overlay, List.getElem?_append_right h, List.getElem?_drop, Nat.add_sub_cancel' h]

theorem set_overlay {cells base : List α} (h : cells.length < base.length) (x : α) :
    (overlay cells base).set cells.length x = overlay (cells ++ [x]) base := by
  rw [overlay, overlay, List.drop_eq_getElem_cons h, List.set_append_right _ _ le_rfl, Nat.sub_self,
    List.set_cons_zero, List.append_assoc, List.length_append, List.length_singleton]
  rfl

theorem set_overlay_take {cells base : List α} {k : ℕ} (hk : k < cells.length)
    (hbase : cells.length ≤ base.length) :
    (overlay (cells.take k) base).set k cells[k] = overlay (cells.take (k + 1)) base := by
  have hlen : (cells.take k).length = k := List.length_take_of_le hk.le
  have hlt : (cells.take k).length < base.length := by omega
  have hset := set_overlay hlt cells[k]
  rw [hlen] at hset
  rw [hset, List.take_append_getElem hk]

end LlmOs.WrappedText
