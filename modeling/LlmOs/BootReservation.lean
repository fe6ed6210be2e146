import LlmOs.BootAllocation

set_option autoImplicit false

/-!
# Reserving the areas that are already in use

`mark_allocated_region` of `bootloader/src/frame_allocator.rs`. It changes the
first region that the area overlaps and looks at no other. So it moves the frames
of the area, and only these, exactly when one usable region holds all of them.
-/
namespace LlmOs.Boot
open Memory Ownership

/-- What becomes of the overlapped region `r`, and the regions that are added. -/
def cutRegion (region r : MemoryRegion) : MemoryRegion × List MemoryRegion :=
  if region.range.startFrameNumber = r.range.startFrameNumber then
    if region.range.endFrameNumber < r.range.endFrameNumber then
      ({ r with range := { r.range with startFrameNumber := region.range.endFrameNumber } },
        [region])
    else (region, [])
  else if region.range.startFrameNumber > r.range.startFrameNumber then
    if region.range.endFrameNumber < r.range.endFrameNumber then
      let behindR : MemoryRegion :=
        { r with range := { r.range with startFrameNumber := region.range.endFrameNumber } }
      ({ r with range := { r.range with endFrameNumber := region.range.startFrameNumber } },
        [behindR, region])
    else
      ({ r with range := { r.range with endFrameNumber := region.range.startFrameNumber } },
        [region])
  else
    ({ r with range := { r.range with startFrameNumber := region.range.endFrameNumber } },
      [region])

/-- The regions after the first overlapped one was changed, and those to add. -/
def markFirst (region : MemoryRegion) :
    List MemoryRegion → Option (List MemoryRegion × List MemoryRegion)
  | [] => none
  | r :: rest =>
    if region.range.startFrameNumber ≥ r.range.endFrameNumber then
      (markFirst region rest).map (fun (rs, added) => (r :: rs, added))
    else if region.range.endFrameNumber ≤ r.range.startFrameNumber then
      (markFirst region rest).map (fun (rs, added) => (r :: rs, added))
    else if r.regionType ≠ .usable then none
    else some ((cutRegion region r).1 :: rest, (cutRegion region r).2)

def FrameAllocator.markAllocatedRegion (sorter : SortUnstableBy MemoryRegion) (a : FrameAllocator)
    (region : MemoryRegion) : Option FrameAllocator :=
  (markFirst region a.memoryMap.regions).bind (fun (rs, added) =>
    (added.foldlM (MemoryMap.addRegion sorter) (a.memoryMap.writeBack rs)).map FrameAllocator.mk)

def Meets (region r : MemoryRegion) : Prop :=
  region.range.startFrameNumber.toNat < r.range.endFrameNumber.toNat ∧
    r.range.startFrameNumber.toNat < region.range.endFrameNumber.toNat

/-- The frames of `region` lie in one region `r`. -/
def Within (region r : MemoryRegion) : Prop :=
  r.range.startFrameNumber.toNat ≤ region.range.startFrameNumber.toNat ∧
    region.range.endFrameNumber.toNat ≤ r.range.endFrameNumber.toNat

def Fits (m : MemoryMap) (region : MemoryRegion) : Prop :=
  ∃ r ∈ m.regions, r.regionType = .usable ∧ Within region r

theorem markFirst_skip {region r : MemoryRegion} (h : ¬ Meets region r)
    (rest : List MemoryRegion) : markFirst region (r :: rest) =
      (markFirst region rest).map (fun (rs, added) => (r :: rs, added)) := by
  rw [markFirst]
  split_ifs with hend hstart husable
  · rfl
  · rfl
  all_goals
    rw [ge_iff_le, UInt64.le_iff_toNat_le] at hend
    rw [UInt64.le_iff_toNat_le] at hstart
    exact absurd ⟨by omega, by omega⟩ h

theorem markFirst_meets {region r : MemoryRegion} (h : Meets region r) (rest : List MemoryRegion) :
    markFirst region (r :: rest) = if r.regionType ≠ .usable then none
      else some ((cutRegion region r).1 :: rest, (cutRegion region r).2) := by
  obtain ⟨hend, hstart⟩ := h
  rw [markFirst, if_neg, if_neg]
  · rw [UInt64.le_iff_toNat_le]
    omega
  · rw [ge_iff_le, UInt64.le_iff_toNat_le]
    omega

theorem markFirst_some {region : MemoryRegion} {regions rs added : List MemoryRegion}
    (h : markFirst region regions = some (rs, added)) :
    ∃ before r after, regions = before ++ r :: after ∧ (∀ s ∈ before, ¬ Meets region s) ∧
      Meets region r ∧ r.regionType = .usable ∧
      rs = before ++ (cutRegion region r).1 :: after ∧ added = (cutRegion region r).2 := by
  induction regions generalizing rs with
  | nil => cases h
  | cons r rest ih =>
    by_cases hmeets : Meets region r
    · rw [markFirst_meets hmeets] at h
      split_ifs at h with husable
      rw [Option.some.injEq, Prod.mk.injEq] at h
      exact ⟨[], r, rest, rfl, by simp, hmeets, not_not.1 husable, h.1.symm, h.2.symm⟩
    · rw [markFirst_skip hmeets] at h
      obtain ⟨⟨rs', added'⟩, hrest, heq⟩ := Option.map_eq_some_iff.1 h
      rw [Prod.mk.injEq] at heq
      obtain ⟨rfl, rfl⟩ := heq
      obtain ⟨before, s, after, rfl, hbefore, hs, husable, rfl, hadded⟩ := ih hrest
      refine ⟨r :: before, s, after, rfl, ?_, hs, husable, rfl, hadded⟩
      intro t ht
      obtain rfl | ht := List.mem_cons.1 ht
      · exact hmeets
      · exact hbefore t ht

/-- What is left of `r` in front of `region` and behind it. -/
def frontOf (region r : MemoryRegion) : MemoryRegion :=
  { r with range := { r.range with endFrameNumber := region.range.startFrameNumber } }

def behindOf (region r : MemoryRegion) : MemoryRegion :=
  { r with range := { r.range with startFrameNumber := region.range.endFrameNumber } }

theorem frontOf_covers (region r : MemoryRegion) (k : ℕ) :
    (frontOf region r).covers k = true ↔
      r.range.startFrameNumber.toNat ≤ k ∧ k < region.range.startFrameNumber.toNat :=
  MemoryRegion.covers_iff _ k

theorem behindOf_covers (region r : MemoryRegion) (k : ℕ) :
    (behindOf region r).covers k = true ↔
      region.range.endFrameNumber.toNat ≤ k ∧ k < r.range.endFrameNumber.toNat :=
  MemoryRegion.covers_iff _ k

theorem share_of_not_covers {r : MemoryRegion} {k : ℕ} (h : ¬ r.covers k = true) :
    share MemoryRegion.covers MemoryRegion.regionType r k = 0 := if_neg h

theorem share_of_covers {r : MemoryRegion} {k : ℕ} (h : r.covers k = true) :
    share MemoryRegion.covers MemoryRegion.regionType r k = {r.regionType} := if_pos h

/-- The pieces of a region that held the whole area. -/
theorem owners_cutRegion {region r : MemoryRegion} (h : Within region r) (k : ℕ) :
    owners MemoryRegion.covers MemoryRegion.regionType
        ((cutRegion region r).1 :: (cutRegion region r).2) k =
      share MemoryRegion.covers MemoryRegion.regionType (frontOf region r) k +
        share MemoryRegion.covers MemoryRegion.regionType (behindOf region r) k +
        share MemoryRegion.covers MemoryRegion.regionType region k := by
  obtain ⟨hstart, hend⟩ := h
  have hfront : region.range.startFrameNumber = r.range.startFrameNumber →
      ¬ (frontOf region r).covers k = true := by
    intro heq
    rw [frontOf_covers, heq]
    omega
  have hbehind : ¬ region.range.endFrameNumber < r.range.endFrameNumber →
      ¬ (behindOf region r).covers k = true := by
    intro hlt
    rw [UInt64.lt_iff_toNat_lt] at hlt
    rw [behindOf_covers]
    omega
  unfold cutRegion
  split_ifs with heq hlt hgt hlt
  · rw [share_of_not_covers (hfront heq), owners_cons, owners_cons, owners_nil, add_zero, zero_add]
    rfl
  · rw [share_of_not_covers (hfront heq), share_of_not_covers (hbehind hlt), owners_cons,
      owners_nil, add_zero, add_zero, zero_add]
  · rw [owners_cons, owners_cons, owners_cons, owners_nil, add_zero, ← add_assoc]
    rfl
  · rw [share_of_not_covers (hbehind hlt), owners_cons, owners_cons, owners_nil, add_zero, add_zero]
    rfl
  · rw [gt_iff_lt, UInt64.lt_iff_toNat_lt] at hgt
    rw [← UInt64.toNat_inj] at heq
    omega

theorem share_of_within {region r : MemoryRegion} (h : Within region r)
    (hregion : Bounded region) (k : ℕ) :
    share MemoryRegion.covers MemoryRegion.regionType r k =
      share MemoryRegion.covers MemoryRegion.regionType (frontOf region r) k +
        share MemoryRegion.covers MemoryRegion.regionType (behindOf region r) k +
        if region.covers k = true then {r.regionType} else 0 := by
  obtain ⟨hstart, hend⟩ := h
  have hordered := hregion.ordered
  have hr := MemoryRegion.covers_iff r k
  have hfront := frontOf_covers region r k
  have hbehind := behindOf_covers region r k
  by_cases hk : region.covers k = true
  · rw [if_pos hk]
    rw [MemoryRegion.covers_iff] at hk
    rw [share_of_covers (hr.2 (by omega)), share_of_not_covers (mt hfront.1 (by omega)),
      share_of_not_covers (mt hbehind.1 (by omega)), zero_add, zero_add]
  · rw [if_neg hk, add_zero]
    rw [MemoryRegion.covers_iff] at hk
    by_cases hlow : r.range.startFrameNumber.toNat ≤ k ∧ k < region.range.startFrameNumber.toNat
    · rw [share_of_covers (hr.2 (by omega)), share_of_covers (hfront.2 hlow),
        share_of_not_covers (mt hbehind.1 (by omega)), add_zero]
      rfl
    · rw [share_of_not_covers (mt hfront.1 hlow), zero_add]
      by_cases hhigh : region.range.endFrameNumber.toNat ≤ k ∧ k < r.range.endFrameNumber.toNat
      · rw [share_of_covers (hr.2 (by omega)), share_of_covers (hbehind.2 hhigh)]
        rfl
      · rw [share_of_not_covers (mt hr.1 (by omega)), share_of_not_covers (mt hbehind.1 hhigh)]

/-- The area changes hands within the region that held it. -/
theorem handover_cutRegion {region r : MemoryRegion} (h : Within region r)
    (hregion : Bounded region) (husable : r.regionType = .usable) :
    Handover (owners MemoryRegion.covers MemoryRegion.regionType [r])
      (owners MemoryRegion.covers MemoryRegion.regionType
        ((cutRegion region r).1 :: (cutRegion region r).2))
      (fun k => region.covers k = true) .usable region.regionType := by
  apply Handover.of_add
  · intro k hk
    have hr : r.covers k = true := by
      rw [MemoryRegion.covers_iff] at hk ⊢
      obtain ⟨hstart, hend⟩ := h
      omega
    rw [owners_cons, share_of_covers hr, husable]
    simp
  · intro k
    have hshare := share_of_within h hregion k
    rw [husable] at hshare
    rw [owners_cutRegion h, owners_cons, owners_nil, add_zero, hshare, add_right_comm]
    rfl

theorem region_mem_cutRegion {region r : MemoryRegion} :
    region ∈ (cutRegion region r).1 :: (cutRegion region r).2 := by
  unfold cutRegion
  split_ifs <;> simp

/-- The first region that the area overlaps, and what replaces it. -/
structure Marked (m m' : MemoryMap) (region : MemoryRegion)
    (before : List MemoryRegion) (r : MemoryRegion) (after : List MemoryRegion) : Prop where
  regions : m.regions = before ++ r :: after
  first : ∀ s ∈ before, ¬ Meets region s
  meets : Meets region r
  usable : r.regionType = .usable
  settled : m'.Settled
  pieces : (m'.regions.filter (fun s => !s.range.isEmpty)).Perm
    ((((cutRegion region r).1 :: (cutRegion region r).2) ++ (before ++ after)).filter
      (fun s => !s.range.isEmpty))
  order : m'.Tidy ∨
    m'.regions = before ++ (cutRegion region r).1 :: after ∧ (cutRegion region r).2 = []

theorem marked_of_some {sorter : SortUnstableBy MemoryRegion} {a a' : FrameAllocator}
    {region : MemoryRegion} (hm : a.memoryMap.Settled)
    (h : a.markAllocatedRegion sorter region = some a') :
    ∃ before r after, Marked a.memoryMap a'.memoryMap region before r after := by
  obtain ⟨⟨rs, added⟩, hfirst, hadd⟩ := Option.bind_eq_some_iff.1 h
  obtain ⟨m', hfold, rfl⟩ := Option.map_eq_some_iff.1 hadd
  obtain ⟨before, r, after, heq, hbefore, hmeets, husable, rfl, rfl⟩ := markFirst_some hfirst
  have hlen : (before ++ (cutRegion region r).1 :: after).length = a.memoryMap.regions.length := by
    simp [heq]
  have hwritten := MemoryMap.writeBack_settled (before ++ (cutRegion region r).1 :: after) hm
  obtain ⟨hsettled, hperm⟩ := MemoryMap.foldlM_addRegion hwritten hfold
  refine ⟨before, r, after, heq, hbefore, hmeets, husable, hsettled, hperm.trans ?_, ?_⟩
  · rw [MemoryMap.writeBack_regions hlen]
    apply List.Perm.filter
    have hmiddle : (before ++ (cutRegion region r).1 :: after).Perm
        ((cutRegion region r).1 :: (before ++ after)) := List.perm_middle
    exact (hmiddle.append_right _).trans (List.perm_append_comm.cons _)
  · cases hcut : (cutRegion region r).2 with
    | nil =>
      rw [hcut] at hfold
      obtain rfl := Option.some.inj hfold
      exact .inr ⟨MemoryMap.writeBack_regions hlen, rfl⟩
    | cons s rest =>
      refine .inl (MemoryMap.foldlM_addRegion_tidy hwritten ?_ hfold)
      rw [hcut]
      exact List.cons_ne_nil s rest

theorem Marked.ledger {m m' : MemoryMap} {region r : MemoryRegion}
    {before after : List MemoryRegion} (h : Marked m m' region before r after) (k : ℕ) :
    m'.ledger k = owners MemoryRegion.covers MemoryRegion.regionType
        ((cutRegion region r).1 :: (cutRegion region r).2) k +
      owners MemoryRegion.covers MemoryRegion.regionType (before ++ after) k := by
  rw [MemoryMap.ledger, ← owners_not_empty, owners_perm _ _ h.pieces, owners_not_empty,
    owners_append]

/-- A usable region ends before every later region starts. -/
def UsableOrdered (m : MemoryMap) : Prop :=
  m.regions.Pairwise (fun r s => r.regionType = .usable →
    r.range.endFrameNumber.toNat ≤ s.range.startFrameNumber.toNat)

namespace Marked

variable {m m' : MemoryMap} {region r : MemoryRegion} {before after : List MemoryRegion}

theorem mem_cases (h : Marked m m' region before r after) (hord : UsableOrdered m)
    {s : MemoryRegion} (hs : s ∈ m.regions) :
    ¬ Meets region s ∨ s = r ∨
      r.range.endFrameNumber.toNat ≤ s.range.startFrameNumber.toNat := by
  unfold UsableOrdered at hord
  rw [h.regions] at hs hord
  obtain hbefore | hrest := List.mem_append.1 hs
  · exact .inl (h.first s hbefore)
  · obtain rfl | hafter := List.mem_cons.1 hrest
    · exact .inr (.inl rfl)
    · have hpair := (List.pairwise_append.1 hord).2.1
      exact .inr (.inr (List.rel_of_pairwise_cons hpair hafter h.usable))

theorem within_of_fits (h : Marked m m' region before r after) (hord : UsableOrdered m)
    (hne : region.range.startFrameNumber.toNat < region.range.endFrameNumber.toNat)
    (hfits : Fits m region) : Within region r := by
  obtain ⟨u, hu, _, hwithin⟩ := hfits
  have hmeets := h.meets
  unfold Meets at hmeets
  obtain hmiss | rfl | hafter := h.mem_cases hord hu
  · exact absurd ⟨lt_of_lt_of_le hne hwithin.2, lt_of_le_of_lt hwithin.1 hne⟩ hmiss
  · exact hwithin
  · unfold Within at hwithin
    omega

theorem handover (h : Marked m m' region before r after) (hregion : Bounded region)
    (hwithin : Within region r) :
    Handover m.ledger m'.ledger (fun k => region.covers k = true) .usable region.regionType := by
  refine Handover.of_perm _ _ (handover_cutRegion hwithin hregion h.usable)
    (h.regions ▸ List.perm_middle) ?_
  intro k
  rw [owners_append]
  exact h.ledger k

theorem start_le_of_handover (h : Marked m m' region before r after) (hm : WellFormed m)
    (hord : UsableOrdered m)
    (hne : region.range.startFrameNumber.toNat < region.range.endFrameNumber.toNat)
    (hhand : Handover m.ledger m'.ledger (fun k => region.covers k = true) .usable
      region.regionType) :
    r.range.startFrameNumber.toNat ≤ region.range.startFrameNumber.toNat := by
  by_contra hlow
  have hmeets := h.meets
  have hr := (hm.bounded r (by simp [h.regions])).ordered
  have hfirst : region.covers region.range.startFrameNumber.toNat = true :=
    (MemoryRegion.covers_iff _ _).2 ⟨le_rfl, hne⟩
  obtain ⟨s, hs, hcovers, husable⟩ := (mem_owners _ _).1 (hhand.had _ hfirst)
  rw [MemoryRegion.covers_iff] at hcovers
  obtain hmiss | rfl | hafter := h.mem_cases hord hs
  · exact hmiss ⟨hcovers.2, lt_of_le_of_lt hcovers.1 hne⟩
  · exact hlow hcovers.1
  · omega

/-- An area that goes past the end of the region is recorded beside whatever holds
the frame there. -/
theorem ledger_past_end (h : Marked m m' region before r after)
    (hstart : r.range.startFrameNumber.toNat ≤ region.range.startFrameNumber.toNat)
    (hend : r.range.endFrameNumber.toNat < region.range.endFrameNumber.toNat) :
    m'.ledger r.range.endFrameNumber.toNat =
      region.regionType ::ₘ m.ledger r.range.endFrameNumber.toNat := by
  have hmeets := h.meets
  unfold Meets at hmeets
  have hcovers : region.covers r.range.endFrameNumber.toNat = true := by
    rw [MemoryRegion.covers_iff]
    omega
  have hr : ¬ r.covers r.range.endFrameNumber.toNat = true := by
    rw [MemoryRegion.covers_iff]
    omega
  have hfront : ¬ (frontOf region r).covers r.range.endFrameNumber.toNat = true := by
    rw [frontOf_covers]
    omega
  have hpieces : owners MemoryRegion.covers MemoryRegion.regionType
      ((cutRegion region r).1 :: (cutRegion region r).2) r.range.endFrameNumber.toNat =
        {region.regionType} := by
    unfold cutRegion
    split_ifs with heq hlt hgt hlt
    · rw [UInt64.lt_iff_toNat_lt] at hlt
      omega
    · rw [owners_cons, owners_nil, share_of_covers hcovers, add_zero]
    · rw [UInt64.lt_iff_toNat_lt] at hlt
      omega
    · rw [owners_cons, owners_cons, owners_nil, share_of_covers hcovers, add_zero]
      change share _ _ (frontOf region r) _ + _ = _
      rw [share_of_not_covers hfront, zero_add]
    · rw [gt_iff_lt, UInt64.lt_iff_toNat_lt] at hgt
      rw [← UInt64.toNat_inj] at heq
      omega
  have hbefore : m.ledger r.range.endFrameNumber.toNat =
      owners MemoryRegion.covers MemoryRegion.regionType (before ++ after)
        r.range.endFrameNumber.toNat := by
    rw [MemoryMap.ledger, h.regions, owners_perm _ _ List.perm_middle, owners_cons,
      share_of_not_covers hr, zero_add]
  rw [h.ledger, hpieces, hbefore]
  rfl

theorem within_of_handover (h : Marked m m' region before r after) (hm : WellFormed m)
    (hord : UsableOrdered m)
    (hne : region.range.startFrameNumber.toNat < region.range.endFrameNumber.toNat)
    (hhand : Handover m.ledger m'.ledger (fun k => region.covers k = true) .usable
      region.regionType) : Within region r := by
  have hstart := h.start_le_of_handover hm hord hne hhand
  refine ⟨hstart, ?_⟩
  by_contra hend
  have hcard := hhand.card_eq r.range.endFrameNumber.toNat
  rw [h.ledger_past_end hstart (by omega), Multiset.card_cons] at hcard
  omega

/-- The frames of the area in a usable region behind the first one are recorded
twice. -/
theorem double_use (h : Marked m m' region before r after) (hord : UsableOrdered m)
    {s : MemoryRegion} (hs : s ∈ m.regions) (husable : s.regionType = .usable) (hsr : s ≠ r)
    (hmeets : Meets region s)
    (hne : s.range.startFrameNumber.toNat < s.range.endFrameNumber.toNat) :
    ∃ k, region.covers k = true ∧ .usable ∈ m'.ledger k ∧ region.regionType ∈ m'.ledger k := by
  have hend : r.range.endFrameNumber.toNat ≤ s.range.startFrameNumber.toNat := by
    obtain hmiss | rfl | hend := h.mem_cases hord hs
    · exact absurd hmeets hmiss
    · exact absurd rfl hsr
    · exact hend
  have hfirst := h.meets.1
  have hcovers : region.covers s.range.startFrameNumber.toNat = true :=
    (MemoryRegion.covers_iff _ _).2 ⟨by omega, hmeets.2⟩
  have hother : s ∈ before ++ after := by
    rw [h.regions, List.mem_append, List.mem_cons] at hs
    rw [List.mem_append]
    exact hs.imp_right (fun hrest => hrest.resolve_left hsr)
  refine ⟨s.range.startFrameNumber.toNat, hcovers, ?_, ?_⟩
  · rw [h.ledger, Multiset.mem_add]
    refine .inr ((mem_owners _ _).2 ⟨s, hother, ?_, husable⟩)
    exact (MemoryRegion.covers_iff _ _).2 ⟨le_rfl, hne⟩
  · rw [h.ledger, Multiset.mem_add]
    exact .inl ((mem_owners _ _).2 ⟨region, region_mem_cutRegion, hcovers, rfl⟩)

end Marked

/-- A mark that does not panic moves the frames of the area, and only these, from
usable to the area's type exactly when one usable region holds the whole area. An
area that reaches into two usable regions is left with frames that are in use and
still usable. -/
theorem mark_moves_area_iff {sorter : SortUnstableBy MemoryRegion} {a a' : FrameAllocator}
    {region : MemoryRegion} (hm : WellFormed a.memoryMap) (hord : UsableOrdered a.memoryMap)
    (hregion : Bounded region) (hne : region.range.isEmpty = false)
    (h : a.markAllocatedRegion sorter region = some a') :
    (Handover a.memoryMap.ledger a'.memoryMap.ledger (fun k => region.covers k = true) .usable
      region.regionType ↔ Fits a.memoryMap region) ∧
    ∀ u ∈ a.memoryMap.regions, ∀ v ∈ a.memoryMap.regions, u ≠ v →
      (∀ s ∈ [u, v], s.regionType = .usable ∧ s.range.isEmpty = false ∧ Meets region s) →
      ∃ k, region.covers k = true ∧ .usable ∈ a'.memoryMap.ledger k ∧
        region.regionType ∈ a'.memoryMap.ledger k := by
  obtain ⟨before, r, after, hmarked⟩ := marked_of_some hm.settled h
  have hlt := lt_of_not_isEmpty hregion hne
  refine ⟨⟨?_, ?_⟩, ?_⟩
  · intro hhand
    exact ⟨r, by simp [hmarked.regions], hmarked.usable,
      hmarked.within_of_handover hm hord hlt hhand⟩
  · intro hfits
    exact hmarked.handover hregion (hmarked.within_of_fits hord hlt hfits)
  · intro u hu v hv huv hspans
    -- one of the two is not the region that was cut
    obtain ⟨s, hs, hmem, hsr⟩ : ∃ s ∈ [u, v], s ∈ a.memoryMap.regions ∧ s ≠ r := by
      by_cases hur : u = r
      · exact ⟨v, by simp, hv, fun hvr => huv (hur.trans hvr.symm)⟩
      · exact ⟨u, by simp, hu, hur⟩
    obtain ⟨husable, hempty, hmeets⟩ := hspans s hs
    exact hmarked.double_use hord hmem husable hsr hmeets
      (lt_of_not_isEmpty (hm.bounded s hmem) hempty)

/-- Frame 1 lies in a usable region; frames 2 to 8 span two of them, and a frame is
left in use and usable. -/
theorem mark_moves_area_iff_small : WellFormed smallMap ∧ UsableOrdered smallMap ∧
    (∃ a', (⟨smallMap⟩ : FrameAllocator).markAllocatedRegion (.insertion _)
        ⟨⟨1, 2⟩, .kernel⟩ = some a' ∧
      Handover smallMap.ledger a'.memoryMap.ledger
        (fun k => (⟨⟨1, 2⟩, .kernel⟩ : MemoryRegion).covers k = true) .usable .kernel) ∧
    ∃ a', (⟨smallMap⟩ : FrameAllocator).markAllocatedRegion (.insertion _)
        ⟨⟨2, 9⟩, .kernel⟩ = some a' ∧
      ¬ Handover smallMap.ledger a'.memoryMap.ledger
        (fun k => (⟨⟨2, 9⟩, .kernel⟩ : MemoryRegion).covers k = true) .usable .kernel ∧
      ∃ k, 2 ≤ k ∧ k < 9 ∧ .usable ∈ a'.memoryMap.ledger k ∧ .kernel ∈ a'.memoryMap.ledger k := by
  have hord : UsableOrdered smallMap := by
    unfold UsableOrdered
    decide +kernel
  have hfits : Fits smallMap ⟨⟨1, 2⟩, .kernel⟩ := by
    unfold Fits Within
    decide +kernel
  have hspans : ¬ Fits smallMap ⟨⟨2, 9⟩, .kernel⟩ := by
    unfold Fits Within
    decide +kernel
  have hcall : ((⟨smallMap⟩ : FrameAllocator).markAllocatedRegion (.insertion _)
      ⟨⟨1, 2⟩, .kernel⟩).isSome = true := by decide +kernel
  have hcall' : ((⟨smallMap⟩ : FrameAllocator).markAllocatedRegion (.insertion _)
      ⟨⟨2, 9⟩, .kernel⟩).isSome = true := by decide +kernel
  obtain ⟨a₁, h₁⟩ := Option.isSome_iff_exists.1 hcall
  obtain ⟨a₂, h₂⟩ := Option.isSome_iff_exists.1 hcall'
  have hiff := mark_moves_area_iff smallMap_wellFormed hord ⟨by decide, by decide⟩ rfl h₂
  have husable : ⟨⟨1, 3⟩, .usable⟩ ∈ smallMap.regions ∧ ⟨⟨8, 9⟩, .usable⟩ ∈ smallMap.regions := by
    decide +kernel
  obtain ⟨k, hcovers, hledger⟩ := hiff.2 ⟨⟨1, 3⟩, .usable⟩ husable.1 ⟨⟨8, 9⟩, .usable⟩ husable.2
    (by decide) (by unfold Meets; decide)
  have hbounds := (MemoryRegion.covers_iff _ _).1 hcovers
  refine ⟨smallMap_wellFormed, hord, ⟨a₁, h₁, ?_⟩, a₂, h₂, mt hiff.1.1 hspans,
    k, hbounds.1, hbounds.2, hledger⟩
  exact (mark_moves_area_iff smallMap_wellFormed hord ⟨by decide, by decide⟩ rfl h₁).1.2 hfits

/-- What the marks rely on and keep. -/
structure Orderly (m : MemoryMap) : Prop where
  wellFormed : WellFormed m
  ordered : UsableOrdered m
  alone : ∀ k, .usable ∈ m.ledger k → m.ledger k = {.usable}

theorem usableOrdered_of_tidy {m : MemoryMap} (hm : WellFormed m) (htidy : m.Tidy)
    (halone : ∀ k, .usable ∈ m.ledger k → m.ledger k = {.usable}) : UsableOrdered m := by
  rw [UsableOrdered, List.pairwise_iff_forall_sublist]
  intro r s hsub husable
  by_contra hend
  have hstart := List.pairwise_iff_forall_sublist.1 htidy.sorted hsub
  have hs : s ∈ m.regions := hsub.subset (by simp)
  have hlt := lt_of_not_isEmpty (hm.bounded s hs) (htidy.not_empty s hs)
  have hr : r.covers s.range.startFrameNumber.toNat = true := by
    rw [MemoryRegion.covers_iff]
    omega
  have hs : s.covers s.range.startFrameNumber.toNat = true :=
    (MemoryRegion.covers_iff _ _).2 ⟨le_rfl, hlt⟩
  have hcard := card_owners_le_of_sublist MemoryRegion.covers MemoryRegion.regionType hsub
    s.range.startFrameNumber.toNat
  have hmem : .usable ∈ m.ledger s.range.startFrameNumber.toNat :=
    (mem_owners _ _).2 ⟨r, hsub.subset (by simp), hr, husable⟩
  rw [owners_cons, owners_cons, owners_nil, share_of_covers hr, share_of_covers hs] at hcard
  change _ ≤ (m.ledger _).card at hcard
  rw [halone _ hmem] at hcard
  simp at hcard

theorem cutRegion_bounded {region r : MemoryRegion} (hwithin : Within region r)
    (hregion : Bounded region) (hr : Bounded r) :
    ∀ s ∈ (cutRegion region r).1 :: (cutRegion region r).2, Bounded s := by
  obtain ⟨hstart, hend⟩ := hwithin
  have hbelow := hr.below
  have hregionle := hregion.ordered
  have hfront : Bounded (frontOf region r) := by
    refine ⟨hstart, ?_⟩
    change region.range.startFrameNumber.toNat < 2 ^ 40
    omega
  have hbehind : Bounded (behindOf region r) := ⟨hend, hbelow⟩
  unfold cutRegion
  split_ifs with heq hlt hgt hlt
  · exact List.forall_mem_cons.2 ⟨hbehind, List.forall_mem_singleton.2 hregion⟩
  · exact List.forall_mem_singleton.2 hregion
  · exact List.forall_mem_cons.2 ⟨hfront, List.forall_mem_cons.2
      ⟨hbehind, List.forall_mem_singleton.2 hregion⟩⟩
  · exact List.forall_mem_cons.2 ⟨hfront, List.forall_mem_singleton.2 hregion⟩
  · exact List.forall_mem_cons.2 ⟨hbehind, List.forall_mem_singleton.2 hregion⟩

theorem cutRegion_alone {region r : MemoryRegion}
    (h : (cutRegion region r).2 = []) : (cutRegion region r).1 = region ∧
      region.range.startFrameNumber = r.range.startFrameNumber := by
  unfold cutRegion at h ⊢
  split_ifs at h ⊢ with heq hlt hgt hlt
  · exact ⟨rfl, heq⟩

theorem frontOf_mem_cutRegion {region r : MemoryRegion}
    (h : r.range.startFrameNumber.toNat < region.range.startFrameNumber.toNat) :
    frontOf region r ∈ (cutRegion region r).1 :: (cutRegion region r).2 := by
  have hne : region.range.startFrameNumber ≠ r.range.startFrameNumber := by
    rw [ne_eq, ← UInt64.toNat_inj]
    omega
  unfold cutRegion
  rw [if_neg hne, if_pos (UInt64.lt_iff_toNat_lt.2 h)]
  split_ifs with hlt
  · exact List.mem_cons_self
  · exact List.mem_cons_self

theorem behindOf_mem_cutRegion {region r : MemoryRegion}
    (h : region.range.endFrameNumber.toNat < r.range.endFrameNumber.toNat) :
    behindOf region r ∈ (cutRegion region r).1 :: (cutRegion region r).2 := by
  unfold cutRegion
  rw [if_pos (UInt64.lt_iff_toNat_lt.2 h), if_pos (UInt64.lt_iff_toNat_lt.2 h)]
  split_ifs with heq hgt
  · exact List.mem_cons_self
  · exact List.mem_cons_of_mem _ List.mem_cons_self
  · exact List.mem_cons_self

theorem not_isEmpty_of_lt {r : MemoryRegion}
    (h : r.range.startFrameNumber.toNat < r.range.endFrameNumber.toNat) :
    r.range.isEmpty = false := by
  rw [← Bool.not_eq_true, FrameRange.isEmpty_iff]
  omega

namespace Marked

variable {m m' : MemoryMap} {region r : MemoryRegion} {before after : List MemoryRegion}

theorem mem_of_piece (h : Marked m m' region before r after) {s : MemoryRegion}
    (hlt : s.range.startFrameNumber.toNat < s.range.endFrameNumber.toNat)
    (hs : s ∈ ((cutRegion region r).1 :: (cutRegion region r).2) ++ (before ++ after)) :
    s ∈ m'.regions := by
  have hmem := h.pieces.mem_iff.2
    (List.mem_filter.2 ⟨hs, by rw [not_isEmpty_of_lt hlt]; rfl⟩)
  exact (List.mem_filter.1 hmem).1

theorem mem_regions (h : Marked m m' region before r after) {s : MemoryRegion}
    (hs : s ∈ m'.regions) :
    s ∈ (cutRegion region r).1 :: (cutRegion region r).2 ∨ s ∈ m.regions := by
  have hold : s ∈ before ++ after → s ∈ m.regions := by
    rw [h.regions]
    simp only [List.mem_append, List.mem_cons]
    exact fun hs => hs.imp_right .inr
  obtain htidy | ⟨hregions, _⟩ := h.order
  · have hmem := h.pieces.mem_iff.1
      (List.mem_filter.2 ⟨hs, by rw [htidy.not_empty s hs]; rfl⟩)
    exact (List.mem_append.1 (List.mem_filter.1 hmem).1).imp_right hold
  · rw [hregions, List.mem_append, List.mem_cons] at hs
    obtain hbefore | rfl | hafter := hs
    · exact .inr (hold (List.mem_append_left _ hbefore))
    · exact .inl List.mem_cons_self
    · exact .inr (hold (List.mem_append_right _ hafter))

theorem wellFormed (h : Marked m m' region before r after) (hm : WellFormed m)
    (hregion : Bounded region) (hwithin : Within region r) : WellFormed m' := by
  refine ⟨h.settled, ?_⟩
  intro s hs
  have hr : Bounded r := hm.bounded r (by simp [h.regions])
  obtain hpiece | hold := h.mem_regions hs
  · exact cutRegion_bounded hwithin hregion hr s hpiece
  · exact hm.bounded s hold

theorem orderly (h : Marked m m' region before r after) (hm : Orderly m)
    (hregion : Bounded region) (hwithin : Within region r) (htype : region.regionType ≠ .usable) :
    Orderly m' := by
  have hwell := h.wellFormed hm.wellFormed hregion hwithin
  have halone := (h.handover hregion hwithin).alone htype hm.alone
  refine ⟨hwell, ?_, halone⟩
  obtain htidy | ⟨hregions, hcut⟩ := h.order
  · exact usableOrdered_of_tidy hwell htidy halone
  · obtain ⟨hsame, hstart⟩ := cutRegion_alone hcut
    have hord := hm.ordered
    rw [UsableOrdered, h.regions, List.pairwise_append, List.pairwise_cons] at hord
    obtain ⟨hbefore, ⟨_, hafter⟩, hcross⟩ := hord
    rw [UsableOrdered, hregions, hsame, List.pairwise_append, List.pairwise_cons]
    refine ⟨hbefore, ⟨fun s _ husable => absurd husable htype, hafter⟩, ?_⟩
    intro s hs t ht husable
    obtain rfl | ht := List.mem_cons.1 ht
    · rw [hstart]
      exact hcross s hs r List.mem_cons_self husable
    · exact hcross s hs t (List.mem_cons_of_mem _ ht) husable

/-- An area apart from the marked one still fits where it did. -/
theorem fits (h : Marked m m' region before r after) {other : MemoryRegion}
    (hlt : other.range.startFrameNumber.toNat < other.range.endFrameNumber.toNat)
    (hapart : ¬ Meets other region) (hfits : Fits m other) : Fits m' other := by
  obtain ⟨u, hu, husable, hstart, hend⟩ := hfits
  have hne : u.range.startFrameNumber.toNat < u.range.endFrameNumber.toNat := by omega
  rw [h.regions, List.mem_append, List.mem_cons] at hu
  have hkept : u ∈ before ++ after → Fits m' other := fun hmem =>
    ⟨u, h.mem_of_piece hne (List.mem_append_right _ hmem), husable, hstart, hend⟩
  obtain hbefore | rfl | hafter := hu
  · exact hkept (List.mem_append_left _ hbefore)
  · unfold Meets at hapart
    by_cases hfront : other.range.endFrameNumber.toNat ≤ region.range.startFrameNumber.toNat
    · have hpiece : frontOf region u ∈ (cutRegion region u).1 :: (cutRegion region u).2 :=
        frontOf_mem_cutRegion (by omega)
      refine ⟨frontOf region u, ?_, husable, hstart, hfront⟩
      refine h.mem_of_piece ?_ (List.mem_append_left _ hpiece)
      change u.range.startFrameNumber.toNat < region.range.startFrameNumber.toNat
      omega
    · have hbehind : region.range.endFrameNumber.toNat ≤ other.range.startFrameNumber.toNat := by
        omega
      have hpiece : behindOf region u ∈ (cutRegion region u).1 :: (cutRegion region u).2 :=
        behindOf_mem_cutRegion (by omega)
      refine ⟨behindOf region u, ?_, husable, hbehind, hend⟩
      refine h.mem_of_piece ?_ (List.mem_append_left _ hpiece)
      change region.range.endFrameNumber.toNat < u.range.endFrameNumber.toNat
      omega
  · exact hkept (List.mem_append_right _ hafter)

end Marked

theorem not_covers_of_apart {R S : MemoryRegion} {k : ℕ} (h : ¬ Meets S R)
    (hk : R.covers k = true) : S.covers k = false := by
  rw [MemoryRegion.covers_iff] at hk
  rw [MemoryRegion.covers, decide_eq_false_iff_not]
  unfold Meets at h
  omega

/-- An area that can be marked in `m`. -/
structure Reservable (m : MemoryMap) (region : MemoryRegion) : Prop where
  bounded : Bounded region
  nonempty : region.range.startFrameNumber.toNat < region.range.endFrameNumber.toNat
  type_ne : region.regionType ≠ .usable
  fits : Fits m region

section
variable {sorter : SortUnstableBy MemoryRegion}

theorem reserve_step {a a' : FrameAllocator} {region : MemoryRegion} (hm : Orderly a.memoryMap)
    (hregion : Reservable a.memoryMap region)
    (h : a.markAllocatedRegion sorter region = some a') :
    Orderly a'.memoryMap ∧
      Handover a.memoryMap.ledger a'.memoryMap.ledger (fun k => region.covers k = true) .usable
        region.regionType ∧
      ∀ other, Reservable a.memoryMap other → ¬ Meets other region →
        Reservable a'.memoryMap other := by
  obtain ⟨before, r, after, hmarked⟩ := marked_of_some hm.wellFormed.settled h
  have hwithin := hmarked.within_of_fits hm.ordered hregion.nonempty hregion.fits
  refine ⟨hmarked.orderly hm hregion.bounded hwithin hregion.type_ne,
    hmarked.handover hregion.bounded hwithin, ?_⟩
  intro other hother hapart
  exact { hother with fits := hmarked.fits hother.nonempty hapart hother.fits }

theorem reserve_step_perm {m m' : MemoryMap} {R : MemoryRegion}
    (h : Handover m.ledger m'.ledger (fun k => R.covers k = true) .usable R.regionType)
    (hT : R.regionType ≠ .usable) :
    m.usableNumbers.Perm (R.range.frameNumbers ++ m'.usableNumbers) := by
  refine usableNumbers_perm (T := R.regionType) ?_ List.nodup_range' hT
  simpa only [mem_frameNumbers, MemoryRegion.covers_iff] using h

/-- After marking areas that lie apart, each in one usable region, each frame of an
area belongs to that area alone, and every other frame is as it was. -/
structure Reserved (areas : List MemoryRegion) (m m' : MemoryMap) : Prop where
  orderly : Orderly m'
  moved : ∀ R ∈ areas, ∀ k, R.covers k = true →
    m.ledger k = {.usable} ∧ m'.ledger k = {R.regionType}
  kept : ∀ k, (∀ R ∈ areas, R.covers k = false) → m'.ledger k = m.ledger k
  perm : m.usableNumbers.Perm (areas.flatMap (fun R => R.range.frameNumbers) ++ m'.usableNumbers)

theorem reserve_run {areas : List MemoryRegion} {a a' : FrameAllocator}
    (hm : Orderly a.memoryMap) (hareas : ∀ R ∈ areas, Reservable a.memoryMap R)
    (hapart : areas.Pairwise (fun R R' => ¬ Meets R' R))
    (h : areas.foldlM (FrameAllocator.markAllocatedRegion sorter) a = some a') :
    Reserved areas a.memoryMap a'.memoryMap := by
  induction areas generalizing a with
  | nil =>
    obtain rfl := Option.some.inj h
    exact ⟨hm, by simp, fun _ _ => rfl, List.Perm.refl _⟩
  | cons R areas ih =>
    rw [List.foldlM_cons] at h
    obtain ⟨a₁, hmark, hrest⟩ := Option.bind_eq_some_iff.1 h
    rw [List.pairwise_cons] at hapart
    have hR := hareas R List.mem_cons_self
    obtain ⟨hm₁, hhand, hothers⟩ := reserve_step hm hR hmark
    obtain ⟨hm', hmoved, hkept, hperm⟩ := ih hm₁
      (fun R' hR' => hothers R' (hareas R' (List.mem_cons_of_mem _ hR')) (hapart.1 R' hR'))
      hapart.2 hrest
    refine ⟨hm', ?_, ?_, ?_⟩
    · intro R' hR' k hk
      obtain rfl | hR' := List.mem_cons.1 hR'
      · have hbefore := hm.alone k (hhand.had k hk)
        refine ⟨hbefore, ?_⟩
        rw [hkept k (fun S hS => not_covers_of_apart (hapart.1 S hS) hk)]
        exact hhand.eq_singleton hk hbefore
      · have hother : ¬ R.covers k = true := fun hcovers =>
          absurd hk (by simp [not_covers_of_apart (hapart.1 R' hR') hcovers])
        obtain ⟨hbefore, hafter⟩ := hmoved R' hR' k hk
        rw [hhand.kept k hother] at hbefore
        exact ⟨hbefore, hafter⟩
    · intro k hk
      rw [hkept k (fun R' hR' => hk R' (List.mem_cons_of_mem _ hR'))]
      apply hhand.kept
      rw [hk R List.mem_cons_self]
      exact Bool.false_ne_true
    · rw [List.flatMap_cons, List.append_assoc]
      exact (reserve_step_perm hhand hR.type_ne).trans (hperm.append_left _)

theorem Reserved.card_ledger {areas : List MemoryRegion} {m m' : MemoryMap}
    (h : Reserved areas m m') (k : ℕ) : (m'.ledger k).card = (m.ledger k).card := by
  by_cases hk : ∃ R ∈ areas, R.covers k = true
  · obtain ⟨R, hR, hcovers⟩ := hk
    obtain ⟨hbefore, hafter⟩ := h.moved R hR k hcovers
    rw [hbefore, hafter]
    rfl
  · rw [h.kept k]
    intro R hR
    by_contra hcovers
    exact hk ⟨R, hR, Bool.eq_true_of_not_eq_false hcovers⟩

end

end LlmOs.Boot
