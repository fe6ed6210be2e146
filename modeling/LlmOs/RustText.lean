import Mathlib.Data.List.DropRight
import Mathlib.Tactic

set_option autoImplicit false

/-!
# Rust string slices

A `&str` is its sequence of Unicode scalar values; `len` counts the bytes of the
UTF-8 encoding. The operations below are the ones of `core::str` that the kernel
calls, as that library documents them. A byte slice that starts after an ASCII
prefix is `List.drop`, since every character of the prefix is one byte.
-/
namespace LlmOs.RustText

abbrev Str := List Char

def len (s : Str) : ℕ := (s.map Char.utf8Size).sum

/-- `char::is_whitespace`: the Unicode `White_Space` property. -/
def isWhitespace (c : Char) : Bool :=
  let n := c.toNat
  (0x9 ≤ n && n ≤ 0xD) || n == 0x20 || n == 0x85 || n == 0xA0 || n == 0x1680 ||
    (0x2000 ≤ n && n ≤ 0x200A) || n == 0x2028 || n == 0x2029 || n == 0x202F ||
    n == 0x205F || n == 0x3000

def startsWith (s head : Str) : Bool := head.isPrefixOf s

def trim (s : Str) : Str := (s.dropWhile isWhitespace).rdropWhile isWhitespace

def splitWhitespace (s : Str) : List Str := (s.splitOnP isWhitespace).filter (fun t => t ≠ [])

def splitOnce (sep : Char) : Str → Option (Str × Str)
  | [] => none
  | c :: cs => if c = sep then some ([], cs) else (splitOnce sep cs).map (fun p => (c :: p.1, p.2))

def splitn (sep : Char) : ℕ → Str → List Str
  | 0, _ => []
  | 1, s => [s]
  | n + 2, s =>
    match splitOnce sep s with
    | none => [s]
    | some (head, rest) => head :: splitn sep (n + 1) rest

/-- `Display` of a `usize`. Counters are unbounded here; the machine word is the
residue that a 64-bit counter of the same events holds. -/
def usizeText (n : ℕ) : Str := Nat.toDigits 10 (n % 2 ^ 64)

@[simp] theorem len_nil : len [] = 0 := rfl

@[simp] theorem len_cons (c : Char) (s : Str) : len (c :: s) = c.utf8Size + len s := by
  simp [len]

@[simp] theorem len_append (s t : Str) : len (s ++ t) = len s + len t := by
  simp [len]

theorem len_sublist {s t : Str} (h : s.Sublist t) : len s ≤ len t :=
  (h.map Char.utf8Size).sum_le_sum (fun _ _ => Nat.zero_le _)

theorem len_eq_length {s : Str} (h : ∀ c ∈ s, c.utf8Size = 1) : len s = s.length := by
  induction s with
  | nil => rfl
  | cons c s ih =>
    rw [len_cons, List.length_cons, h c (by simp), ih (fun d hd => h d (by simp [hd]))]
    omega

theorem startsWith_iff (s head : Str) : startsWith s head = true ↔ ∃ rest, s = head ++ rest := by
  unfold startsWith
  rw [List.isPrefixOf_iff_prefix]
  constructor
  · rintro ⟨rest, h⟩
    exact ⟨rest, h.symm⟩
  · rintro ⟨rest, h⟩
    exact ⟨rest, h.symm⟩

@[simp] theorem startsWith_append (head rest : Str) : startsWith (head ++ rest) head = true :=
  (startsWith_iff _ _).2 ⟨rest, rfl⟩

theorem splitOnce_eq_some_iff (sep : Char) (s head rest : Str) :
    splitOnce sep s = some (head, rest) ↔ s = head ++ sep :: rest ∧ sep ∉ head := by
  induction s generalizing head with
  | nil => simp [splitOnce]
  | cons c cs ih =>
    by_cases hc : c = sep
    · subst c
      cases head with
      | nil => simp [splitOnce, eq_comm]
      | cons d ds =>
        simp only [splitOnce, ↓reduceIte, Option.some.injEq, Prod.mk.injEq, List.cons_append,
          List.cons.injEq, List.mem_cons, not_or]
        grind
    · cases head with
      | nil => simp [splitOnce, hc]
      | cons d ds =>
        simp only [splitOnce, hc, ↓reduceIte, Option.map_eq_some_iff, Prod.mk.injEq,
          List.cons.injEq, List.cons_append, List.mem_cons, not_or]
        constructor
        · rintro ⟨⟨x, y⟩, hxy, ⟨rfl, rfl⟩, rfl⟩
          obtain ⟨hs, hn⟩ := (ih x).1 hxy
          exact ⟨⟨rfl, hs⟩, fun h => hc h.symm, hn⟩
        · rintro ⟨⟨rfl, hs⟩, _, hn⟩
          exact ⟨(ds, rest), (ih ds).2 ⟨hs, hn⟩, ⟨rfl, rfl⟩, rfl⟩

theorem splitOnce_eq_none_iff (sep : Char) (s : Str) : splitOnce sep s = none ↔ sep ∉ s := by
  induction s with
  | nil => simp [splitOnce]
  | cons c cs ih =>
    by_cases hc : c = sep
    · simp [splitOnce, hc]
    · simp [splitOnce, hc, ih, Ne.symm hc]

theorem splitn_two_cut {sep : Char} {head : Str} (rest : Str) (h : sep ∉ head) :
    splitn sep 2 (head ++ sep :: rest) = [head, rest] := by
  have hs := (splitOnce_eq_some_iff sep (head ++ sep :: rest) head rest).2 ⟨rfl, h⟩
  simp [splitn, hs]

theorem splitn_two_whole {sep : Char} {s : Str} (h : sep ∉ s) : splitn sep 2 s = [s] := by
  have hs := (splitOnce_eq_none_iff sep s).2 h
  simp [splitn, hs]

theorem cut_or_whole (sep : Char) (s : Str) :
    (∃ head rest, s = head ++ sep :: rest ∧ sep ∉ head) ∨ sep ∉ s := by
  cases h : splitOnce sep s with
  | none => exact Or.inr ((splitOnce_eq_none_iff sep s).1 h)
  | some p => exact Or.inl ⟨p.1, p.2, (splitOnce_eq_some_iff sep s p.1 p.2).1 h⟩

theorem cut_unique {sep : Char} {head head' rest rest' : Str} (h : sep ∉ head) (h' : sep ∉ head')
    (he : head ++ sep :: rest = head' ++ sep :: rest') : head = head' ∧ rest = rest' := by
  have hs := (splitOnce_eq_some_iff sep _ head rest).2 ⟨rfl, h⟩
  rw [he, (splitOnce_eq_some_iff sep _ head' rest').2 ⟨rfl, h'⟩] at hs
  simp only [Option.some.injEq, Prod.mk.injEq] at hs
  exact ⟨hs.1.symm, hs.2.symm⟩

theorem trim_sublist (s : Str) : (trim s).Sublist s :=
  (List.rdropWhile_prefix isWhitespace _).sublist.trans (List.dropWhile_suffix isWhitespace).sublist

theorem dropWhile_of_trim {s : Str} (h : trim s = s) : s.dropWhile isWhitespace = s := by
  have hsuf := List.dropWhile_suffix (l := s) isWhitespace
  have hpre := (List.rdropWhile_prefix isWhitespace (s.dropWhile isWhitespace)).sublist.length_le
  have hlen : s.length ≤ (s.dropWhile isWhitespace).length := by
    unfold trim at h
    rwa [h] at hpre
  exact hsuf.eq_of_length_le hlen

theorem trim_eq_self_iff (s : Str) :
    trim s = s ↔ (∀ c, s.head? = some c → isWhitespace c = false) ∧
      (∀ c, s.getLast? = some c → isWhitespace c = false) := by
  have hhead : s.dropWhile isWhitespace = s ↔
      ∀ c, s.head? = some c → isWhitespace c = false := by
    cases s with
    | nil => simp
    | cons d ds => simp [List.dropWhile_eq_self_iff]
  have hlast : s.rdropWhile isWhitespace = s ↔
      ∀ c, s.getLast? = some c → isWhitespace c = false := by
    rw [List.rdropWhile_eq_self_iff]
    by_cases hne : s = []
    · simp [hne]
    · simp [List.getLast?_eq_some_getLast hne, hne]
  rw [← hhead, ← hlast]
  constructor
  · intro h
    have hd := dropWhile_of_trim h
    refine ⟨hd, ?_⟩
    unfold trim at h
    rwa [hd] at h
  · rintro ⟨hd, hr⟩
    unfold trim
    rw [hd, hr]

theorem trim_trim (s : Str) : trim (trim s) = trim s := by
  rw [trim_eq_self_iff]
  constructor
  · intro c hc
    obtain ⟨tail, ht⟩ := List.rdropWhile_prefix isWhitespace (s.dropWhile isWhitespace)
    have hhead : (s.dropWhile isWhitespace).head? = some c := by
      rw [← ht, List.head?_append]
      unfold trim at hc
      rw [hc]
      rfl
    have hnot := List.head?_dropWhile_not isWhitespace s
    simpa [hhead] using hnot
  · intro c hc
    by_cases hne : trim s = []
    · simp [hne] at hc
    · rw [List.getLast?_eq_some_getLast hne, Option.some.injEq] at hc
      subst c
      have hnot := List.rdropWhile_last_not isWhitespace (s.dropWhile isWhitespace) hne
      exact Bool.eq_false_iff.2 hnot

theorem sublist_of_mem_splitOnP {test : Char → Bool} {s t : Str} (h : t ∈ s.splitOnP test) :
    t.Sublist s := by
  induction s generalizing t with
  | nil =>
    simp only [List.splitOnP_nil, List.mem_singleton] at h
    rw [h]
  | cons c cs ih =>
    rw [List.splitOnP_cons_eq_if_modifyHead] at h
    split_ifs at h with hc
    · rcases List.mem_cons.1 h with rfl | h
      · exact List.nil_sublist _
      · exact (ih h).cons c
    · cases hcs : cs.splitOnP test with
      | nil => exact absurd hcs (List.splitOnP_ne_nil test cs)
      | cons head tail =>
        rw [hcs] at h ih
        rcases List.mem_cons.1 h with rfl | h
        · exact (ih (List.mem_cons_self)).cons_cons c
        · exact (ih (List.mem_cons_of_mem head h)).cons c

theorem len_le_of_mem_splitWhitespace {s t : Str} (h : t ∈ splitWhitespace (trim s)) :
    len t ≤ len s :=
  len_sublist ((sublist_of_mem_splitOnP (List.mem_of_mem_filter h)).trans (trim_sublist s))

theorem len_toDigits_le {n k : ℕ} (hk : 0 < k) (h : n < 10 ^ k) : len (Nat.toDigits 10 n) ≤ k := by
  have hd : ∀ c ∈ Nat.toDigits 10 n, c.utf8Size = 1 := by
    intro c hc
    have hdig := Nat.isDigit_of_mem_toDigits (by decide) (by decide) hc
    simp only [Char.isDigit, Bool.and_eq_true, decide_eq_true_eq] at hdig
    rw [Char.utf8Size_eq_one_iff]
    exact UInt32.le_trans hdig.2 (by decide)
  rw [len_eq_length hd]
  exact (Nat.length_toDigits_le_iff (by decide) hk).2 h

theorem len_usizeText (n : ℕ) : len (usizeText n) ≤ 20 :=
  len_toDigits_le (by decide) ((Nat.mod_lt n (by decide)).trans (by decide))

end LlmOs.RustText
