import Mathlib.Data.List.DropRight
import Mathlib.Data.Nat.Find
import Mathlib.Algebra.Order.BigOperators.Group.List
import Mathlib.Tactic

set_option autoImplicit false

/-!
# Pinned elements and the longest fitting suffix

A list whose elements are either pinned or loose, with a natural weight each.
`retain n` keeps every pinned element and the last `n` loose ones in place;
`room` is the largest `n` whose loose suffix fits a budget beside a base load.
Dropping the oldest loose element walks down `retain`, and the first count at
which such a walk fits is the one that `room` names.
-/
namespace LlmOs.RetainedSuffix

variable {α : Type*}

def total (weight : α → ℕ) (xs : List α) : ℕ := (xs.map weight).sum

def loose (pinned : α → Bool) (xs : List α) : List α := xs.filter (fun x => !pinned x)

/-- Every pinned element and the last `n` loose elements, in list order. -/
def retain (pinned : α → Bool) (n : ℕ) : List α → List α
  | [] => []
  | x :: xs =>
    if pinned x ∨ (loose pinned (x :: xs)).length ≤ n then x :: retain pinned n xs
    else retain pinned n xs

/-- The greatest `n ≤ bound` whose last `n` elements fit beside `base`, or zero. -/
def room (weight : α → ℕ) (budget base : ℕ) (xs : List α) (bound : ℕ) : ℕ :=
  Nat.findGreatest (fun n => base + total weight (xs.rtake n) ≤ budget) bound

section Weight
variable (weight : α → ℕ)

@[simp] theorem total_nil : total weight [] = 0 := rfl

@[simp] theorem total_cons (x : α) (xs : List α) :
    total weight (x :: xs) = weight x + total weight xs := by
  simp [total]

@[simp] theorem total_append (xs ys : List α) :
    total weight (xs ++ ys) = total weight xs + total weight ys := by
  simp [total]

theorem total_eraseP {p : α → Bool} {x : α} {xs : List α} (h : xs.find? p = some x) :
    total weight (xs.eraseP p) + weight x = total weight xs := by
  induction xs with
  | nil => cases h
  | cons y ys ih =>
    cases hy : p y with
    | true =>
      rw [List.find?_cons_of_pos hy, Option.some.injEq] at h
      rw [List.eraseP_cons_of_pos hy, total_cons, h]
      omega
    | false =>
      rw [List.find?_cons_of_neg (by simp [hy])] at h
      rw [List.eraseP_cons_of_neg (by simp [hy]), total_cons, total_cons, ← ih h]
      omega

theorem rtake_suffix_rtake (xs : List α) {m n : ℕ} (h : m ≤ n) :
    (xs.rtake m).IsSuffix (xs.rtake n) := by
  unfold List.rtake
  exact List.drop_suffix_drop_left xs (by omega)

theorem room_le (budget base : ℕ) (xs : List α) (bound : ℕ) :
    room weight budget base xs bound ≤ bound :=
  Nat.findGreatest_le bound

theorem room_succ (budget base : ℕ) (xs : List α) (bound : ℕ) :
    room weight budget base xs (bound + 1) =
      if base + total weight (xs.rtake (bound + 1)) ≤ budget then bound + 1
      else room weight budget base xs bound :=
  Nat.findGreatest_succ bound

theorem le_room {budget base : ℕ} {xs : List α} {n bound : ℕ} (hn : n ≤ bound)
    (h : base + total weight (xs.rtake n) ≤ budget) : n ≤ room weight budget base xs bound :=
  Nat.le_findGreatest hn h

theorem room_fits {budget base : ℕ} (xs : List α) (bound : ℕ) (h : base ≤ budget) :
    base + total weight (xs.rtake (room weight budget base xs bound)) ≤ budget := by
  have hz : base + total weight (xs.rtake 0) ≤ budget := by simpa using h
  exact Nat.findGreatest_spec (P := fun n => base + total weight (xs.rtake n) ≤ budget)
    (Nat.zero_le bound) hz

theorem room_mono {budget budget' : ℕ} (h : budget ≤ budget') (base : ℕ) (xs : List α)
    (bound : ℕ) : room weight budget base xs bound ≤ room weight budget' base xs bound :=
  Nat.findGreatest_mono_left (fun _ hfit => le_trans hfit h) bound

/-- A heavier base never needs a longer search than a lighter one found. -/
theorem room_of_room_le {budget base load : ℕ} (xs : List α) {n bound : ℕ} (hload : base ≤ load)
    (hn : room weight budget base xs bound ≤ n) (hb : n ≤ bound) :
    room weight budget load xs n = room weight budget load xs bound := by
  apply le_antisymm
  · exact Nat.findGreatest_mono_right _ hb
  · by_cases hz : room weight budget load xs bound = 0
    · omega
    · have hfit : load + total weight (xs.rtake (room weight budget load xs bound)) ≤ budget :=
        Nat.findGreatest_of_ne_zero
          (P := fun n => load + total weight (xs.rtake n) ≤ budget) rfl hz
      have hlight : room weight budget load xs bound ≤ room weight budget base xs bound :=
        le_room weight (room_le weight budget load xs bound) (by omega)
      exact le_room weight (hlight.trans hn) hfit

/-- Admitting one more element whatever its weight is the same as searching the
older ones with that weight already charged. -/
theorem room_concat (budget base : ℕ) (xs : List α) (x : α) (bound : ℕ) :
    max (room weight budget base (xs ++ [x]) (bound + 1)) 1 =
      room weight budget (base + weight x) xs bound + 1 := by
  induction bound with
  | zero =>
    have h := room_le weight budget base (xs ++ [x]) 1
    have hz := room_le weight budget (base + weight x) xs 0
    simp only [Nat.zero_add]
    omega
  | succ bound ih =>
    rw [room_succ weight budget base (xs ++ [x]) (bound + 1),
      room_succ weight budget (base + weight x) xs bound, List.rtake_concat_succ]
    have hsum : base + total weight (xs.rtake (bound + 1) ++ [x]) =
        base + weight x + total weight (xs.rtake (bound + 1)) := by
      simp only [total_append, total_cons, total_nil]
      omega
    rw [hsum]
    split_ifs
    · omega
    · exact ih

end Weight

section Pinned
variable (pinned : α → Bool)

@[simp] theorem loose_nil : loose pinned [] = [] := rfl

theorem loose_cons_pinned {x : α} (xs : List α) (h : pinned x = true) :
    loose pinned (x :: xs) = loose pinned xs := by
  simp [loose, h]

theorem loose_cons_loose {x : α} (xs : List α) (h : pinned x = false) :
    loose pinned (x :: xs) = x :: loose pinned xs := by
  simp [loose, h]

@[simp] theorem loose_append (xs ys : List α) :
    loose pinned (xs ++ ys) = loose pinned xs ++ loose pinned ys := by
  simp [loose]

theorem retain_cons_pinned {x : α} (n : ℕ) (xs : List α) (h : pinned x = true) :
    retain pinned n (x :: xs) = x :: retain pinned n xs := by
  simp [retain, h]

theorem retain_cons_loose {x : α} (n : ℕ) (xs : List α) (h : pinned x = false) :
    retain pinned n (x :: xs) =
      if (loose pinned xs).length < n then x :: retain pinned n xs else retain pinned n xs := by
  simp [retain, h, loose_cons_loose]

theorem retain_all {n : ℕ} (xs : List α) (h : (loose pinned xs).length ≤ n) :
    retain pinned n xs = xs := by
  induction xs with
  | nil => rfl
  | cons x xs ih =>
    cases hx : pinned x with
    | true =>
      rw [loose_cons_pinned pinned xs hx] at h
      rw [retain_cons_pinned pinned n xs hx, ih h]
    | false =>
      rw [loose_cons_loose pinned xs hx, List.length_cons] at h
      rw [retain_cons_loose pinned n xs hx, ih (by omega), if_pos (by omega)]

theorem retain_sublist (n : ℕ) (xs : List α) : (retain pinned n xs).Sublist xs := by
  induction xs with
  | nil => exact List.Sublist.slnil
  | cons x xs ih =>
    unfold retain
    split_ifs
    · exact ih.cons_cons x
    · exact ih.cons x

theorem retain_sublist_retain {m n : ℕ} (h : m ≤ n) (xs : List α) :
    (retain pinned m xs).Sublist (retain pinned n xs) := by
  induction xs with
  | nil => exact List.Sublist.slnil
  | cons x xs ih =>
    unfold retain
    split_ifs with hm hn hn
    · exact ih.cons_cons x
    · exact absurd (hm.imp_right h.trans') hn
    · exact ih.cons x
    · exact ih

theorem pinned_retain (n : ℕ) (xs : List α) :
    (retain pinned n xs).filter pinned = xs.filter pinned := by
  induction xs with
  | nil => rfl
  | cons x xs ih =>
    cases hx : pinned x with
    | true => simp [retain_cons_pinned pinned n xs hx, hx, ih]
    | false =>
      rw [retain_cons_loose pinned n xs hx]
      split_ifs <;> simp [hx, ih]

theorem loose_retain (n : ℕ) (xs : List α) :
    loose pinned (retain pinned n xs) = (loose pinned xs).rtake n := by
  induction xs with
  | nil => simp [retain]
  | cons x xs ih =>
    cases hx : pinned x with
    | true =>
      rw [retain_cons_pinned pinned n xs hx, loose_cons_pinned pinned _ hx,
        loose_cons_pinned pinned _ hx, ih]
    | false =>
      rw [retain_cons_loose pinned n xs hx, loose_cons_loose pinned xs hx]
      split_ifs with hn
      · rw [loose_cons_loose pinned _ hx, retain_all pinned xs (by omega)]
        simp [List.rtake, Nat.sub_eq_zero_of_le (Nat.succ_le_of_lt hn)]
      · rw [ih]
        have hd : (loose pinned xs).length + 1 - n = ((loose pinned xs).length - n) + 1 := by omega
        simp [List.rtake, hd]

theorem retain_loose (n : ℕ) {xs : List α} (h : ∀ x ∈ xs, pinned x = false) :
    retain pinned n xs = xs.rtake n := by
  have hall : ∀ ys : List α, ys.Sublist xs → loose pinned ys = ys := by
    intro ys hys
    exact List.filter_eq_self.2 (fun x hx => by simp [h x (hys.subset hx)])
  have hr := loose_retain pinned n xs
  rwa [hall _ (retain_sublist pinned n xs), hall xs (List.Sublist.refl xs)] at hr

theorem length_rtake (n : ℕ) (xs : List α) : (xs.rtake n).length = min n xs.length := by
  simp only [List.rtake, List.length_drop]
  omega

theorem length_eq_pinned_add_loose (xs : List α) :
    xs.length = (xs.filter pinned).length + (loose pinned xs).length := by
  simpa [loose] using (List.length_eq_length_filter_add pinned)

theorem retain_concat_pinned {x : α} (n : ℕ) (xs : List α) (h : pinned x = true) :
    retain pinned n (xs ++ [x]) = retain pinned n xs ++ [x] := by
  induction xs with
  | nil => simp [retain, h]
  | cons y ys ih =>
    have hl : (loose pinned (y :: (ys ++ [x]))).length = (loose pinned (y :: ys)).length := by
      rw [← List.cons_append, loose_append, loose_cons_pinned pinned [] h]
      simp
    simp only [List.cons_append, retain, hl, ih]
    split_ifs <;> rfl

theorem retain_concat_loose {x : α} (n : ℕ) (xs : List α) (h : pinned x = false) :
    retain pinned (n + 1) (xs ++ [x]) = retain pinned n xs ++ [x] := by
  induction xs with
  | nil => simp [retain, loose, h]
  | cons y ys ih =>
    have hl : (loose pinned (y :: (ys ++ [x]))).length = (loose pinned (y :: ys)).length + 1 := by
      rw [← List.cons_append, loose_append, loose_cons_loose pinned [] h]
      simp
    simp only [List.cons_append, retain, hl, ih, Nat.add_le_add_iff_right]
    split_ifs <;> rfl

theorem retain_eraseP {n : ℕ} (xs : List α) (hn : n < (loose pinned xs).length) :
    (retain pinned (n + 1) xs).eraseP (fun x => !pinned x) = retain pinned n xs := by
  induction xs with
  | nil => simp at hn
  | cons x xs ih =>
    cases hx : pinned x with
    | true =>
      rw [loose_cons_pinned pinned xs hx] at hn
      rw [retain_cons_pinned pinned _ xs hx, retain_cons_pinned pinned _ xs hx,
        List.eraseP_cons_of_neg (by simp [hx]), ih hn]
    | false =>
      rw [loose_cons_loose pinned xs hx, List.length_cons] at hn
      rw [retain_cons_loose pinned _ xs hx, retain_cons_loose pinned _ xs hx]
      by_cases hlast : (loose pinned xs).length < n + 1
      · rw [if_pos hlast, if_neg (by omega), List.eraseP_cons_of_pos (by simp [hx]),
          retain_all pinned xs (by omega), retain_all pinned xs (by omega)]
      · rw [if_neg hlast, if_neg (by omega), ih (by omega)]

end Pinned
end LlmOs.RetainedSuffix
