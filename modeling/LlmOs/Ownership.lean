import Mathlib.Data.Multiset.AddSub
import Mathlib.Tactic

set_option autoImplicit false

/-!
# Who owns a cell

A list of tagged extents, each covering some cells. `owners` gives the tags of
all extents that cover a cell, with multiplicity, so it does not see the order
of the list. The extents are disjoint exactly when no cell has two owners.
-/
namespace LlmOs.Ownership

variable {ρ κ ι : Type*} (covers : ρ → ι → Bool) (kind : ρ → κ)

/-- What one extent contributes to the owners of a cell. -/
def share (r : ρ) (k : ι) : Multiset κ := if covers r k then {kind r} else 0

def owners (rs : List ρ) (k : ι) : Multiset κ :=
  ((rs.filter (fun r => covers r k)).map kind : List κ)

@[simp] theorem owners_nil (k : ι) : owners covers kind [] k = 0 := rfl

theorem owners_append (rs rs' : List ρ) (k : ι) :
    owners covers kind (rs ++ rs') k = owners covers kind rs k + owners covers kind rs' k := by
  simp only [owners, List.filter_append, List.map_append, Multiset.coe_add]

theorem owners_cons (r : ρ) (rs : List ρ) (k : ι) :
    owners covers kind (r :: rs) k = share covers kind r k + owners covers kind rs k := by
  have h := owners_append covers kind [r] rs k
  rw [List.singleton_append] at h
  rw [h]
  congr 1
  unfold owners share
  split_ifs with hr
  · simp [hr]
  · simp [hr]

theorem owners_perm {rs rs' : List ρ} (h : rs.Perm rs') (k : ι) :
    owners covers kind rs k = owners covers kind rs' k :=
  Multiset.coe_eq_coe.2 ((h.filter _).map kind)

theorem owners_eq_zero {rs : List ρ} {k : ι} (h : ∀ r ∈ rs, covers r k = false) :
    owners covers kind rs k = 0 := by
  have hnone : rs.filter (fun r => covers r k) = [] :=
    List.filter_eq_nil_iff.2 (fun r hr => by simp [h r hr])
  rw [owners, hnone]
  rfl

theorem owners_filter (p : ρ → Bool) {rs : List ρ} {k : ι}
    (h : ∀ r ∈ rs, p r = false → covers r k = false) :
    owners covers kind (rs.filter p) k = owners covers kind rs k := by
  unfold owners
  rw [List.filter_filter]
  congr 2
  apply List.filter_congr
  intro r hr
  cases hp : p r with
  | true => simp
  | false => simp [h r hr hp]

theorem card_owners_le_of_sublist {rs rs' : List ρ} (h : rs.Sublist rs') (k : ι) :
    (owners covers kind rs k).card ≤ (owners covers kind rs' k).card :=
  ((h.filter _).map kind).length_le

theorem mem_owners {rs : List ρ} {k : ι} {c : κ} :
    c ∈ owners covers kind rs k ↔ ∃ r ∈ rs, covers r k = true ∧ kind r = c := by
  simp only [owners, Multiset.mem_coe, List.mem_map, List.mem_filter, and_assoc]

theorem count_owners [DecidableEq κ] (c : κ) (rs : List ρ) (k : ι) :
    (owners covers kind rs k).count c =
      (owners covers kind (rs.filter (fun r => kind r = c)) k).card := by
  induction rs with
  | nil => rfl
  | cons r rs ih =>
    rw [owners_cons, share, Multiset.count_add, ih]
    by_cases hc : kind r = c
    · rw [List.filter_cons_of_pos (by simpa using hc), owners_cons, share, Multiset.card_add]
      congr 1
      split_ifs with hr
      · rw [hc, Multiset.count_singleton_self, Multiset.card_singleton]
      · rfl
    · rw [List.filter_cons_of_neg (by simpa using hc)]
      split_ifs with hr
      · rw [Multiset.count_singleton, if_neg (Ne.symm hc), zero_add]
      · rw [Multiset.count_zero, zero_add]

/-- No cell has two owners exactly when the extents are disjoint. -/
theorem card_owners_le_one_iff (rs : List ρ) :
    (∀ k, (owners covers kind rs k).card ≤ 1) ↔
      rs.Pairwise (fun r s => ∀ k, covers r k = true → covers s k = false) := by
  induction rs with
  | nil => simp
  | cons r rs ih =>
    rw [List.pairwise_cons, ← ih]
    constructor
    · intro h
      constructor
      · intro s hs k hr
        by_contra hcovers
        have hmem : kind s ∈ owners covers kind rs k :=
          (mem_owners covers kind).2 ⟨s, hs, Bool.eq_true_of_not_eq_false hcovers, rfl⟩
        have hcard := h k
        have hpos := Multiset.card_pos_iff_exists_mem.2 ⟨_, hmem⟩
        rw [owners_cons, share, if_pos hr, Multiset.card_add, Multiset.card_singleton] at hcard
        omega
      · intro k
        have hcard := h k
        rw [owners_cons, Multiset.card_add] at hcard
        omega
    · rintro ⟨hr, hrs⟩ k
      rw [owners_cons, share, Multiset.card_add]
      split_ifs with hk
      · have hnone : owners covers kind rs k = 0 := owners_eq_zero covers kind (fun s hs => hr s hs k hk)
        rw [hnone]
        simp
      · simpa using hrs k

/-- The cells in `S` change hands from `a` to `b`; all others keep their owners. -/
structure Handover (L L' : ι → Multiset κ) (S : ι → Prop) (a b : κ) : Prop where
  had : ∀ k, S k → a ∈ L k
  moved : ∀ k, S k → a ::ₘ L' k = b ::ₘ L k
  kept : ∀ k, ¬ S k → L' k = L k

/-- Two extents of one kind of which the first covers the cells in `S` besides. -/
theorem share_eq_add {r r' : ρ} {S : ι → Prop} [DecidablePred S] (hkind : kind r' = kind r)
    (h : ∀ k, covers r k = true ↔ covers r' k = true ∨ S k)
    (hnew : ∀ k, S k → covers r' k = false) (k : ι) :
    share covers kind r k = share covers kind r' k + if S k then {kind r} else 0 := by
  unfold share
  by_cases hS : S k
  · rw [if_pos ((h k).2 (.inr hS)), if_neg (by simp [hnew k hS]), if_pos hS, zero_add]
  · have hsame : covers r k = covers r' k := by
      rw [Bool.eq_iff_iff, h k]
      simp [hS]
    rw [hsame, hkind, if_neg hS, add_zero]

namespace Handover

variable {L L' : ι → Multiset κ} {S : ι → Prop} {a b : κ}

theorem of_add [DecidablePred S] (had : ∀ k, S k → a ∈ L k)
    (h : ∀ k, L' k + (if S k then {a} else 0) = L k + (if S k then {b} else 0)) :
    Handover L L' S a b where
  had := had
  moved k hk := by
    have hk' := h k
    rw [if_pos hk, if_pos hk, add_comm, add_comm (L k)] at hk'
    exact hk'
  kept k hk := by simpa [hk] using h k

theorem frame (h : Handover L L' S a b) (X : ι → Multiset κ) :
    Handover (fun k => L k + X k) (fun k => L' k + X k) S a b where
  had k hk := Multiset.mem_add.2 (.inl (h.had k hk))
  moved k hk := by rw [← Multiset.cons_add, h.moved k hk, Multiset.cons_add]
  kept k hk := by rw [h.kept k hk]

theorem card_eq (h : Handover L L' S a b) (k : ι) : (L' k).card = (L k).card := by
  by_cases hk : S k
  · have hcard := congrArg Multiset.card (h.moved k hk)
    rw [Multiset.card_cons, Multiset.card_cons] at hcard
    omega
  · rw [h.kept k hk]

theorem eq_cons_erase [DecidableEq κ] (h : Handover L L' S a b) {k : ι} (hk : S k) :
    L' k = b ::ₘ (L k).erase a := by
  apply (Multiset.cons_inj_right a).1
  rw [h.moved k hk, Multiset.cons_swap, Multiset.cons_erase (h.had k hk)]

theorem count_eq [DecidableEq κ] [DecidablePred S] (h : Handover L L' S a b) (hne : b ≠ a)
    (k : ι) : (L k).count a = (L' k).count a + if S k then 1 else 0 := by
  split_ifs with hk
  · have hcount := congrArg (Multiset.count a) (h.moved k hk)
    rw [Multiset.count_cons_self, Multiset.count_cons_of_ne hne.symm] at hcount
    exact hcount.symm
  · rw [h.kept k hk, add_zero]

theorem eq_singleton (h : Handover L L' S a b) {k : ι} (hk : S k) (halone : L k = {a}) :
    L' k = {b} := by
  have hmoved := h.moved k hk
  rw [halone, ← Multiset.cons_zero a, Multiset.cons_swap b a 0, Multiset.cons_inj_right] at hmoved
  exact hmoved

/-- Where `a` is the only owner of what it owns, it stays so. -/
theorem alone (h : Handover L L' S a b) (hne : b ≠ a) (halone : ∀ k, a ∈ L k → L k = {a})
    (k : ι) (hk : a ∈ L' k) : L' k = {a} := by
  by_cases hS : S k
  · rw [h.eq_singleton hS (halone k (h.had k hS))] at hk
    exact absurd (Multiset.mem_singleton.1 hk).symm hne
  · rw [h.kept k hS] at hk ⊢
    exact halone k hk

/-- A handover among some of the extents is one of the whole list. -/
theorem of_perm {rs rs' p p' q : List ρ}
    (h : Handover (owners covers kind p) (owners covers kind p') S a b)
    (hrs : rs.Perm (p ++ q)) (hrs' : ∀ k, owners covers kind rs' k = owners covers kind (p' ++ q) k) :
    Handover (owners covers kind rs) (owners covers kind rs') S a b := by
  have hframe := h.frame (owners covers kind q)
  have hL : owners covers kind rs = fun k => owners covers kind p k + owners covers kind q k := by
    funext k
    rw [owners_perm covers kind hrs, owners_append]
  have hL' : owners covers kind rs' = fun k => owners covers kind p' k + owners covers kind q k := by
    funext k
    rw [hrs', owners_append]
  rw [hL, hL']
  exact hframe

end Handover

end LlmOs.Ownership
