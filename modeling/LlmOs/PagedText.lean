import Mathlib.Data.List.Basic
import Mathlib.Tactic

set_option autoImplicit false

/-!
# Text on pages

A text in rows of a fixed width, where a full row is ended at once, and the rows on
pages of a fixed height, where a page is left when its last row is ended. Also the
one rule for memory that is filled with one value, cell by cell.
-/
namespace LlmOs.PagedText

section
variable {α : Type} {width height : ℕ} {isBreak : α → Bool}

/-- The rows that have ended, and the one that has not. -/
structure Rows (α : Type) where
  ended : List (List α)
  last : List α

def Rows.put (width : ℕ) (isBreak : α → Bool) (r : Rows α) (x : α) : Rows α :=
  if isBreak x then ⟨r.ended ++ [r.last], []⟩
  else if width ≤ r.last.length + 1 then ⟨r.ended ++ [r.last ++ [x]], []⟩
  else ⟨r.ended, r.last ++ [x]⟩

def rows (width : ℕ) (isBreak : α → Bool) (text : List α) : Rows α :=
  text.foldl (Rows.put width isBreak) ⟨[], []⟩

theorem rows_concat (text : List α) (x : α) :
    rows width isBreak (text ++ [x]) = (rows width isBreak text).put width isBreak x :=
  List.foldl_concat ..

/-- What stands in a column of a row. -/
def Rows.cell (r : Rows α) (row col : ℕ) : Option α :=
  (r.ended ++ [r.last])[row]?.bind (fun cells => cells[col]?)

/-- The same on the current page. -/
def Rows.pageCell (height : ℕ) (r : Rows α) (row col : ℕ) : Option α :=
  r.cell (r.ended.length / height * height + row) col

theorem length_last_rows (hw : 0 < width) (text : List α) :
    (rows width isBreak text).last.length < width := by
  induction text using List.reverseRecOn with
  | nil => exact hw
  | append_singleton text x _ =>
    rw [rows_concat, Rows.put]
    split_ifs with hbreak hfull
    · exact hw
    · exact hw
    · simp only [List.length_append, List.length_singleton]
      omega

/-- Nothing stands at the cursor yet. -/
theorem Rows.cell_cursor (r : Rows α) : r.cell r.ended.length r.last.length = none := by
  rw [cell, List.getElem?_concat_length, Option.bind_some, List.getElem?_eq_none le_rfl]

/-- The rows below the current one are empty. -/
theorem Rows.cell_below (r : Rows α) {row : ℕ} (h : r.ended.length < row) (col : ℕ) :
    r.cell row col = none := by
  have hnone : (r.ended ++ [r.last])[row]? = none := by
    rw [List.getElem?_eq_none_iff, List.length_append, List.length_singleton]
    omega
  rw [cell, hnone, Option.bind_none]

/-- One more element stands where the cursor was. -/
theorem Rows.cell_append (r : Rows α) (x : α) (row col : ℕ) :
    Rows.cell ⟨r.ended, r.last ++ [x]⟩ row col =
      if row = r.ended.length ∧ col = r.last.length then some x else r.cell row col := by
  unfold cell
  rcases Nat.lt_trichotomy row r.ended.length with hlt | rfl | hgt
  · rw [List.getElem?_append_left hlt, List.getElem?_append_left hlt, if_neg (by omega)]
  · rw [List.getElem?_concat_length, List.getElem?_concat_length, Option.bind_some,
      Option.bind_some]
    rcases Nat.lt_trichotomy col r.last.length with hlt | rfl | hgt
    · rw [List.getElem?_append_left hlt, if_neg (by omega)]
    · rw [List.getElem?_concat_length, if_pos ⟨rfl, rfl⟩]
    · rw [List.getElem?_eq_none (by simp; omega), List.getElem?_eq_none (by omega),
        if_neg (by omega)]
  · rw [List.getElem?_eq_none (by simp; omega), List.getElem?_eq_none (by simp; omega),
      if_neg (by omega)]

/-- Ending a row moves nothing. -/
theorem Rows.cell_end (r : Rows α) (row col : ℕ) :
    Rows.cell ⟨r.ended ++ [r.last], []⟩ row col = r.cell row col := by
  unfold cell
  dsimp only
  rcases Nat.lt_or_ge row (r.ended ++ [r.last]).length with hlt | hge
  · rw [List.getElem?_append_left hlt]
  · rw [List.getElem?_eq_none hge, Option.bind_none]
    rcases Nat.eq_or_lt_of_le hge with rfl | hgt
    · rw [List.getElem?_concat_length]
      rfl
    · rw [List.getElem?_eq_none (by simp at hgt ⊢; omega), Option.bind_none]

theorem cell_rows_lt (hw : 0 < width) {text : List α} {row col : ℕ} {x : α}
    (h : (rows width isBreak text).cell row col = some x) : col < width := by
  induction text using List.reverseRecOn generalizing x with
  | nil =>
    cases row <;> cases h
  | append_singleton text y ih =>
    have hlast : (rows width isBreak text).last.length < width := length_last_rows hw text
    have happend : Rows.cell ⟨(rows width isBreak text).ended,
        (rows width isBreak text).last ++ [y]⟩ row col = some x → col < width := by
      rw [Rows.cell_append]
      split_ifs with hcursor
      · intro _
        omega
      · exact ih
    rw [rows_concat, Rows.put] at h
    split_ifs at h with hbreak hfull
    · rw [Rows.cell_end] at h
      exact ih h
    · exact happend (Rows.cell_end ⟨_, _ ++ [y]⟩ row col ▸ h)
    · exact happend h

end

/-- A loop that puts one value into the cells that its rounds choose. -/
theorem foldl_fill {ι β κ : Type} [DecidableEq κ] {step : (κ → β) → ι → κ → β} {v : β}
    {chosen : ι → κ → Prop} [∀ i k, Decidable (chosen i k)]
    (hstep : ∀ f i k, step f i k = if chosen i k then v else f k) (l : List ι) (f : κ → β) (k : κ) :
    l.foldl step f k = if ∃ i ∈ l, chosen i k then v else f k := by
  induction l generalizing f with
  | nil => simp
  | cons i l ih =>
    rw [List.foldl_cons, ih, hstep]
    by_cases hl : ∃ i ∈ l, chosen i k
    · rw [if_pos hl, if_pos (by obtain ⟨j, hj, hk⟩ := hl; exact ⟨j, List.mem_cons_of_mem _ hj, hk⟩)]
    · rw [if_neg hl]
      by_cases hi : chosen i k
      · rw [if_pos hi, if_pos ⟨i, List.mem_cons_self, hi⟩]
      · rw [if_neg hi, if_neg]
        rintro ⟨j, hj, hk⟩
        rcases List.mem_cons.1 hj with rfl | hj
        · exact hi hk
        · exact hl ⟨j, hj, hk⟩

end LlmOs.PagedText
