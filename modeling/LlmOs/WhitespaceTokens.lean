import LlmOs.RustText

set_option autoImplicit false

/-! What `split_whitespace` cuts. `Spaced ts s` says that `s` is the tokens `ts`
with white space around and between them, and the iterator yields `ts` exactly
on these strings, trimmed or not. -/
namespace LlmOs.RustText

def Blank (w : Str) : Prop := ∀ c ∈ w, isWhitespace c = true

def Bare (t : Str) : Prop := t ≠ [] ∧ ∀ c ∈ t, isWhitespace c = false

inductive Spaced : List Str → Str → Prop where
  | nil {w : Str} (hw : Blank w) : Spaced [] w
  | last {w t : Str} (hw : Blank w) (ht : Bare t) : Spaced [t] (w ++ t)
  | cons {w t s : Str} {ts : List Str} {c : Char} (hw : Blank w) (ht : Bare t)
      (hc : isWhitespace c = true) (h : Spaced ts s) : Spaced (t :: ts) (w ++ t ++ c :: s)

theorem bare_singleton {c : Char} (h : isWhitespace c = false) : Bare [c] := by
  refine ⟨by simp, fun d hd => ?_⟩
  rw [List.mem_singleton.1 hd]
  exact h

theorem splitWhitespace_append_cons (s s' : Str) {c : Char} (hc : isWhitespace c = true) :
    splitWhitespace (s ++ c :: s') = splitWhitespace s ++ splitWhitespace s' := by
  unfold splitWhitespace
  rw [List.splitOnP_append_cons s s' hc, List.filter_append]

theorem splitWhitespace_blank_append {w : Str} (hw : Blank w) (s : Str) :
    splitWhitespace (w ++ s) = splitWhitespace s := by
  induction w with
  | nil => rfl
  | cons c w ih =>
    have hhead := splitWhitespace_append_cons [] (w ++ s) (hw c (by simp))
    rw [List.cons_append, ← ih (fun d hd => hw d (by simp [hd]))]
    exact hhead

theorem splitWhitespace_blank {w : Str} (hw : Blank w) : splitWhitespace w = [] := by
  have h := splitWhitespace_blank_append hw []
  rw [List.append_nil] at h
  exact h

theorem splitWhitespace_append_blank (s : Str) {w : Str} (hw : Blank w) :
    splitWhitespace (s ++ w) = splitWhitespace s := by
  cases w with
  | nil => rw [List.append_nil]
  | cons c w =>
    have htail : Blank w := fun d hd => hw d (by simp [hd])
    rw [splitWhitespace_append_cons s w (hw c (by simp)), splitWhitespace_blank htail,
      List.append_nil]

theorem splitWhitespace_bare {t : Str} (ht : Bare t) : splitWhitespace t = [t] := by
  unfold splitWhitespace
  rw [List.splitOnP_eq_singleton ht.2]
  simp [ht.1]

theorem splitWhitespace_trim (s : Str) : splitWhitespace (trim s) = splitWhitespace s := by
  have hfront : Blank (s.takeWhile isWhitespace) := fun c hc => List.mem_takeWhile_imp hc
  have hback : Blank ((s.dropWhile isWhitespace).rtakeWhile isWhitespace) :=
    fun c hc => List.mem_rtakeWhile_imp hc
  have hrest : trim s ++ (s.dropWhile isWhitespace).rtakeWhile isWhitespace =
      s.dropWhile isWhitespace := List.rdropWhile_append_rtakeWhile
  calc splitWhitespace (trim s)
      = splitWhitespace (s.dropWhile isWhitespace) := by
        rw [← hrest, splitWhitespace_append_blank _ hback]
    _ = splitWhitespace (s.takeWhile isWhitespace ++ s.dropWhile isWhitespace) :=
        (splitWhitespace_blank_append hfront _).symm
    _ = splitWhitespace s := by rw [List.takeWhile_append_dropWhile]

theorem Spaced.splitWhitespace {ts : List Str} {s : Str} (h : Spaced ts s) :
    splitWhitespace s = ts := by
  induction h with
  | nil hw => exact splitWhitespace_blank hw
  | last hw ht => rw [splitWhitespace_blank_append hw, splitWhitespace_bare ht]
  | cons hw ht hc _ ih =>
    rw [splitWhitespace_append_cons _ _ hc, splitWhitespace_blank_append hw,
      splitWhitespace_bare ht, ih]
    rfl

/-- A string is blank, or has a first token that ends it or is followed by white space. -/
theorem first_token (s : Str) :
    Blank s ∨ ∃ w t, Blank w ∧ Bare t ∧
      (s = w ++ t ∨ ∃ c s', isWhitespace c = true ∧ s = w ++ t ++ c :: s') := by
  have hfront : Blank (s.takeWhile isWhitespace) := fun c hc => List.mem_takeWhile_imp hc
  have hcut : s.takeWhile isWhitespace ++ s.dropWhile isWhitespace = s :=
    List.takeWhile_append_dropWhile
  cases hrest : s.dropWhile isWhitespace with
  | nil =>
    rw [hrest, List.append_nil] at hcut
    exact Or.inl (hcut ▸ hfront)
  | cons d rest =>
    have hd : isWhitespace d = false := by
      have hnot := List.head?_dropWhile_not isWhitespace s
      simpa [hrest] using hnot
    have hbare : Bare ((d :: rest).takeWhile (fun c => !isWhitespace c)) := by
      refine ⟨by simp [hd], fun c hc => ?_⟩
      simpa using List.mem_takeWhile_imp hc
    have htoken : (d :: rest).takeWhile (fun c => !isWhitespace c) ++
        (d :: rest).dropWhile (fun c => !isWhitespace c) = d :: rest :=
      List.takeWhile_append_dropWhile
    refine Or.inr ⟨_, _, hfront, hbare, ?_⟩
    rw [hrest, ← htoken] at hcut
    cases htail : (d :: rest).dropWhile (fun c => !isWhitespace c) with
    | nil =>
      rw [htail, List.append_nil] at hcut
      exact Or.inl hcut.symm
    | cons c s' =>
      have hc : isWhitespace c = true := by
        have hnot := List.head?_dropWhile_not (fun c => !isWhitespace c) (d :: rest)
        simpa [htail] using hnot
      rw [htail, ← List.append_assoc] at hcut
      exact Or.inr ⟨c, s', hc, hcut.symm⟩

theorem spaced_splitWhitespace (s : Str) : Spaced (splitWhitespace s) s := by
  induction hn : s.length using Nat.strong_induction_on generalizing s with
  | h n ih =>
    rcases first_token s with hs | ⟨w, t, hw, ht, rfl | ⟨c, s', hc, rfl⟩⟩
    · rw [splitWhitespace_blank hs]
      exact .nil hs
    · rw [(Spaced.last hw ht).splitWhitespace]
      exact .last hw ht
    · have hshort : s'.length < n := by
        simp only [List.length_append, List.length_cons] at hn
        omega
      have hspaced := Spaced.cons hw ht hc (ih _ hshort s' rfl)
      rw [hspaced.splitWhitespace]
      exact hspaced

theorem splitWhitespace_trim_eq_iff (s : Str) (ts : List Str) :
    splitWhitespace (trim s) = ts ↔ Spaced ts s := by
  rw [splitWhitespace_trim]
  constructor
  · rintro rfl
    exact spaced_splitWhitespace s
  · exact Spaced.splitWhitespace

theorem spaced_three {left op right : Str} (hleft : Bare left) (hop : Bare op)
    (hright : Bare right) :
    Spaced [left, op, right] (left ++ " ".toList ++ op ++ " ".toList ++ right) := by
  have hempty : Blank [] := fun c hc => by cases hc
  have hspace : isWhitespace ' ' = true := by decide
  have h := Spaced.cons hempty hleft hspace
    (Spaced.cons hempty hop hspace (Spaced.last hempty hright))
  simpa using h

end LlmOs.RustText
