import LlmOs.BootMemoryMap

set_option autoImplicit false

/-!
# Which frames the boot map calls usable

The firmware's entries may overlap once they are rounded to frames. `createFrom`
sorts them by start and cuts a usable region where the next region starts, so a
frame belongs to the last entry that starts at or before it.
-/
namespace LlmOs.Memory
open Ownership

/-- The order in which the map keeps its regions. -/
def MemoryRegion.NotAfter (v u : MemoryRegion) : Prop :=
  v.range.startFrameNumber.toNat < u.range.startFrameNumber.toNat ∨
    v.range.startFrameNumber.toNat = u.range.startFrameNumber.toNat ∧
      v.range.endFrameNumber.toNat ≤ u.range.endFrameNumber.toNat

theorem notAfter_of_compareRegions {r s : MemoryRegion} (hs : s.range.isEmpty = false)
    (h : compareRegions s r ≠ .lt) : r.NotAfter s := by
  rw [ne_eq, compareRegions_lt_iff] at h
  unfold MemoryRegion.NotAfter
  by_contra hlt
  apply h
  refine ⟨hs, .inr ?_⟩
  omega

theorem MemoryRegion.range_eq_of_notAfter {u v : MemoryRegion} (huv : u.NotAfter v)
    (hvu : v.NotAfter u) : u.range = v.range := by
  unfold NotAfter at huv hvu
  rcases hu : u.range with ⟨us, ue⟩
  rcases hv : v.range with ⟨vs, ve⟩
  rw [hu, hv] at huv hvu
  rw [FrameRange.mk.injEq, ← UInt64.toNat_inj, ← UInt64.toNat_inj]
  dsimp only at huv hvu
  omega

theorem starts_sorted {rs : List MemoryRegion} (h : rs.Pairwise (fun r s => r.NotAfter s)) :
    rs.Pairwise (fun r s => r.range.startFrameNumber.toNat ≤ s.range.startFrameNumber.toNat) := by
  apply h.imp
  intro r s hle
  unfold MemoryRegion.NotAfter at hle
  omega

theorem length_trimOverlaps (rs : List MemoryRegion) : (trimOverlaps rs).length = rs.length := by
  induction rs with
  | nil => rfl
  | cons r rs ih =>
    cases rs with
    | nil => rfl
    | cons next rest =>
      rw [trimOverlaps, List.length_cons, ih]
      rfl

theorem trim_regionType (r next : MemoryRegion) : (r.trim next).regionType = r.regionType := by
  unfold MemoryRegion.trim
  split_ifs with h
  · rfl
  · rfl

theorem trim_covers {r : MemoryRegion} (husable : r.regionType = .usable) (next : MemoryRegion)
    (k : ℕ) : (r.trim next).covers k = true ↔
      r.covers k = true ∧ k < next.range.startFrameNumber.toNat := by
  unfold MemoryRegion.trim
  split_ifs with h
  · have hcut := UInt64.lt_iff_toNat_lt.1 h.1
    rw [MemoryRegion.covers_iff, MemoryRegion.covers_iff]
    dsimp only
    omega
  · have hle : ¬ next.range.startFrameNumber.toNat < r.range.endFrameNumber.toNat :=
      fun hlt => h ⟨UInt64.lt_iff_toNat_lt.2 hlt, husable⟩
    rw [MemoryRegion.covers_iff]
    omega

theorem trim_startFrameNumber (r next : MemoryRegion) :
    (r.trim next).range.startFrameNumber = r.range.startFrameNumber := by
  unfold MemoryRegion.trim
  split_ifs with h
  · rfl
  · rfl

/-- A usable region of the cut list is a region of the list up to where the later
ones start. -/
theorem trimOverlaps_split {rs : List MemoryRegion} (hsorted : rs.Pairwise
      (fun r s => r.range.startFrameNumber.toNat ≤ s.range.startFrameNumber.toNat))
    {u : MemoryRegion} (hu : u ∈ trimOverlaps rs) (husable : u.regionType = .usable) {k : ℕ}
    (hcovers : u.covers k = true) :
    ∃ before r after, rs = before ++ r :: after ∧ r.regionType = .usable ∧ r.covers k = true ∧
      r.range.startFrameNumber = u.range.startFrameNumber ∧
      ∀ v ∈ after, k < v.range.startFrameNumber.toNat := by
  induction rs with
  | nil => cases hu
  | cons r rs ih =>
    rw [List.pairwise_cons] at hsorted
    cases rs with
    | nil =>
      obtain rfl := List.mem_singleton.1 hu
      exact ⟨[], u, [], rfl, husable, hcovers, rfl, fun v hv => by cases hv⟩
    | cons next rest =>
      obtain rfl | hrest := List.mem_cons.1 hu
      · rw [trim_regionType] at husable
        rw [trim_covers husable] at hcovers
        refine ⟨[], r, next :: rest, rfl, husable, hcovers.1, (trim_startFrameNumber r next).symm, ?_⟩
        intro v hv
        obtain rfl | hrest := List.mem_cons.1 hv
        · exact hcovers.2
        · exact lt_of_lt_of_le hcovers.2 (List.rel_of_pairwise_cons hsorted.2 hrest)
      · obtain ⟨before, w, after, heq, hw⟩ := ih hsorted.2 hrest
        exact ⟨r :: before, w, after, by rw [heq]; rfl, hw⟩

/-- A frame stays with a usable region exactly when no later region starts at or
before it. -/
theorem mem_trimOverlaps {rs : List MemoryRegion} (hsorted : rs.Pairwise
      (fun r s => r.range.startFrameNumber.toNat ≤ s.range.startFrameNumber.toNat)) (k : ℕ) :
    (∃ u ∈ trimOverlaps rs, u.regionType = .usable ∧ u.covers k = true) ↔
      ∃ before u after, rs = before ++ u :: after ∧ u.regionType = .usable ∧ u.covers k = true ∧
        ∀ v ∈ after, k < v.range.startFrameNumber.toNat := by
  constructor
  · rintro ⟨u, hu, husable, hcovers⟩
    obtain ⟨before, r, after, heq, hr, hrk, _, hafter⟩ :=
      trimOverlaps_split hsorted hu husable hcovers
    exact ⟨before, r, after, heq, hr, hrk, hafter⟩
  · rintro ⟨before, u, after, rfl, husable, hcovers, hafter⟩
    clear hsorted
    induction before with
    | nil =>
      cases after with
      | nil => exact ⟨u, List.mem_cons_self, husable, hcovers⟩
      | cons next rest =>
        refine ⟨u.trim next, List.mem_cons_self, by rwa [trim_regionType], ?_⟩
        exact (trim_covers husable next k).2 ⟨hcovers, hafter next List.mem_cons_self⟩
    | cons r before ih =>
      obtain ⟨w, hw, hrest⟩ := ih
      refine ⟨w, ?_, hrest⟩
      cases before with
      | nil => exact List.mem_cons_of_mem _ hw
      | cons next before => exact List.mem_cons_of_mem _ hw

theorem trim_end_le {r : MemoryRegion} (husable : r.regionType = .usable) (next : MemoryRegion) :
    (r.trim next).range.endFrameNumber.toNat ≤ next.range.startFrameNumber.toNat := by
  unfold MemoryRegion.trim
  split_ifs with h
  · exact le_rfl
  · exact not_lt.1 (fun hlt => h ⟨UInt64.lt_iff_toNat_lt.2 hlt, husable⟩)

theorem trimOverlaps_start_ge {rs : List MemoryRegion} {bound : ℕ}
    (h : ∀ r ∈ rs, bound ≤ r.range.startFrameNumber.toNat) :
    ∀ r ∈ trimOverlaps rs, bound ≤ r.range.startFrameNumber.toNat := by
  induction rs with
  | nil => exact h
  | cons r rs ih =>
    cases rs with
    | nil => exact h
    | cons next rest =>
      intro s hs
      obtain rfl | hs := List.mem_cons.1 hs
      · rw [trim_startFrameNumber]
        exact h r List.mem_cons_self
      · exact ih (fun r hr => h r (List.mem_cons_of_mem _ hr)) s hs

/-- After the cut a usable region ends before every later region. -/
theorem trimOverlaps_pairwise {rs : List MemoryRegion} (hsorted : rs.Pairwise
      (fun r s => r.range.startFrameNumber.toNat ≤ s.range.startFrameNumber.toNat)) :
    (trimOverlaps rs).Pairwise (fun r s => r.regionType = .usable →
      r.range.endFrameNumber.toNat ≤ s.range.startFrameNumber.toNat) := by
  induction rs with
  | nil => exact List.Pairwise.nil
  | cons r rs ih =>
    rw [List.pairwise_cons] at hsorted
    cases rs with
    | nil => exact List.pairwise_singleton _ _
    | cons next rest =>
      rw [trimOverlaps, List.pairwise_cons]
      refine ⟨fun s hs husable => ?_, ih hsorted.2⟩
      rw [trim_regionType] at husable
      have hnext : ∀ v ∈ next :: rest,
          next.range.startFrameNumber.toNat ≤ v.range.startFrameNumber.toNat := by
        intro v hv
        obtain rfl | hrest := List.mem_cons.1 hv
        · exact le_rfl
        · exact List.rel_of_pairwise_cons hsorted.2 hrest
      exact (trim_end_le husable next).trans (trimOverlaps_start_ge hnext s hs)

section
variable {sorter : SortUnstableBy MemoryRegion}

theorem addE820_some {m m' : MemoryMap} {region : E820MemoryRegion} (hm : m.Settled)
    (h : addE820 sorter m region = some m') :
    ∃ r, MemoryRegion.ofE820 region = some r ∧ m'.Settled ∧
      m'.regions.Perm ((m.regions ++ [r]).filter (fun r => !r.range.isEmpty)) := by
  obtain ⟨r, hr, hadd⟩ := Option.bind_eq_some_iff.1 h
  obtain ⟨hsettled, hperm, _⟩ := MemoryMap.addRegion_some hm hadd
  exact ⟨r, hr, hsettled, hperm⟩

theorem foldlM_addE820 {es : List E820MemoryRegion} {m m' : MemoryMap}
    (h : es.foldlM (addE820 sorter) m = some m') :
    ∃ rs, es.mapM MemoryRegion.ofE820 = some rs ∧
      rs.foldlM (MemoryMap.addRegion sorter) m = some m' := by
  induction es generalizing m with
  | nil => exact ⟨[], rfl, h⟩
  | cons e es ih =>
    rw [List.foldlM_cons] at h
    obtain ⟨m₁, hadd, hfold⟩ := Option.bind_eq_some_iff.1 h
    obtain ⟨r, hr, hadd⟩ := Option.bind_eq_some_iff.1 hadd
    obtain ⟨rs, hrs, hrest⟩ := ih hfold
    refine ⟨r :: rs, by rw [List.mapM_cons, hr, hrs]; rfl, ?_⟩
    rw [List.foldlM_cons, hadd]
    exact hrest

theorem addE820_none_iff {m : MemoryMap} {region : E820MemoryRegion} {r : MemoryRegion}
    (hr : MemoryRegion.ofE820 region = some r) :
    addE820 sorter m region = none ↔ m.regions.length = MAX_MEMORY_MAP_SIZE := by
  rw [addE820, hr, Option.bind_some, MemoryMap.addRegion_eq_none_iff]

theorem foldlM_addE820_isSome {es : List E820MemoryRegion} {m : MemoryMap} (hm : m.Settled)
    (hfull : ∀ r ∈ m.regions, r.range.isEmpty = false) :
    (es.foldlM (addE820 sorter) m).isSome = true ↔
      ∃ rs, es.mapM MemoryRegion.ofE820 = some rs ∧ (rs = [] ∨
        ((m.regions ++ rs.dropLast).filter (fun r => !r.range.isEmpty)).length <
          MAX_MEMORY_MAP_SIZE) := by
  induction es generalizing m with
  | nil => simp
  | cons e es ih =>
    rw [List.foldlM_cons]
    cases hr : MemoryRegion.ofE820 e with
    | none => simp [List.mapM_cons, addE820, hr]
    | some r =>
      have hcons : ∀ l, (e :: es).mapM MemoryRegion.ofE820 = some l ↔
          ∃ rs, es.mapM MemoryRegion.ofE820 = some rs ∧ l = r :: rs := by
        intro l
        rw [List.mapM_cons, hr]
        cases es.mapM MemoryRegion.ofE820 with
        | none => simp
        | some rs => simp [eq_comm]
      have hkeep : m.regions.filter (fun r => !r.range.isEmpty) = m.regions :=
        List.filter_eq_self.2 (fun r hr => by rw [hfull r hr]; rfl)
      cases hadd : addE820 sorter m e with
      | none =>
        have hlen := (addE820_none_iff hr).1 hadd
        refine ⟨fun h => absurd h (by simp), ?_⟩
        rintro ⟨l, hl, hroom⟩
        obtain ⟨rs, _, rfl⟩ := (hcons l).1 hl
        rw [List.filter_append, hkeep, List.length_append, hlen] at hroom
        simp at hroom
      | some m₁ =>
        obtain ⟨r', hr', hm₁, hperm⟩ := addE820_some hm hadd
        obtain rfl : r' = r := Option.some.inj (hr'.symm.trans hr)
        have hroom : m.regions.length < MAX_MEMORY_MAP_SIZE := by
          have hne : m.regions.length ≠ MAX_MEMORY_MAP_SIZE := fun hlen => by
            rw [(addE820_none_iff hr).2 hlen] at hadd
            cases hadd
          have hle := m.inBounds
          rw [MemoryMap.length_regions] at hne ⊢
          omega
        have hfull₁ : ∀ s ∈ m₁.regions, s.range.isEmpty = false := by
          intro s hs
          have hs := (List.mem_filter.1 (hperm.mem_iff.1 hs)).2
          simpa using hs
        change (es.foldlM (addE820 sorter) m₁).isSome = true ↔ _
        rw [ih hm₁ hfull₁]
        have hcount : ∀ rs : List MemoryRegion,
            ((m₁.regions ++ rs).filter (fun r => !r.range.isEmpty)).length =
              ((m.regions ++ r' :: rs).filter (fun r => !r.range.isEmpty)).length := by
          intro rs
          have hlen := (hperm.filter (fun r => !r.range.isEmpty)).length_eq
          rw [List.filter_filter] at hlen
          simp only [Bool.and_self] at hlen
          rw [List.append_cons, List.filter_append, List.length_append, hlen,
            ← List.length_append, ← List.filter_append]
        have hstep : ∀ rs : List MemoryRegion, (rs = [] ∨
            ((m₁.regions ++ rs.dropLast).filter (fun r => !r.range.isEmpty)).length <
              MAX_MEMORY_MAP_SIZE) ↔
            ((m.regions ++ (r' :: rs).dropLast).filter (fun r => !r.range.isEmpty)).length <
              MAX_MEMORY_MAP_SIZE := by
          intro rs
          cases rs with
          | nil => simpa [hkeep] using hroom
          | cons s rs => simp only [List.dropLast_cons_cons, hcount, reduceCtorEq, false_or]
        simp only [hcons, hstep]
        constructor
        · rintro ⟨rs, hrs, hlen⟩
          exact ⟨r' :: rs, ⟨rs, hrs, rfl⟩, .inr hlen⟩
        · rintro ⟨l, ⟨rs, hrs, rfl⟩, hlen⟩
          exact ⟨rs, hrs, hlen.resolve_left (List.cons_ne_nil _ _)⟩

/-- Exactly when the boot map is built without a panic: the firmware knows the type
of each entry, and no entry comes after 64 entries that are not empty. -/
theorem createFrom_panics_iff (sorter : SortUnstableBy MemoryRegion)
    (es : List E820MemoryRegion) :
    (createFrom sorter es).isSome = true ↔
      ∃ rs, es.mapM MemoryRegion.ofE820 = some rs ∧
        (rs.dropLast.filter (fun r => !r.range.isEmpty)).length < MAX_MEMORY_MAP_SIZE := by
  have hnew : MemoryMap.new.regions = [] := rfl
  rw [createFrom, Option.isSome_map,
    foldlM_addE820_isSome MemoryMap.new_settled (by simp [hnew]), hnew]
  simp only [List.nil_append]
  constructor
  · rintro ⟨rs, hrs, rfl | hroom⟩
    · exact ⟨[], hrs, by decide⟩
    · exact ⟨rs, hrs, hroom⟩
  · rintro ⟨rs, hrs, hroom⟩
    exact ⟨rs, hrs, .inr hroom⟩

/-- The created map: the entries that are not empty in order, the usable ones cut. -/
theorem createFrom_some {es : List E820MemoryRegion} {m : MemoryMap}
    (h : createFrom sorter es = some m) :
    ∃ rs sorted, es.mapM MemoryRegion.ofE820 = some rs ∧ m.Settled ∧
      m.regions = trimOverlaps sorted ∧
      sorted.Perm (rs.filter (fun r => !r.range.isEmpty)) ∧
      sorted.Pairwise (fun r s => r.NotAfter s) := by
  obtain ⟨m₀, hfold, rfl⟩ := Option.map_eq_some_iff.1 h
  obtain ⟨rs, hrs, hadd⟩ := foldlM_addE820 hfold
  obtain ⟨hm₀, hperm⟩ := MemoryMap.foldlM_addRegion MemoryMap.new_settled hadd
  have hsettled : (m₀.sort sorter).Settled := MemoryMap.sort_settled hm₀
  refine ⟨rs, (m₀.sort sorter).regions, hrs, ?_, ?_, ?_, ?_⟩
  · exact MemoryMap.writeBack_settled _ hsettled
  · exact MemoryMap.writeBack_regions (length_trimOverlaps _)
  · exact (MemoryMap.sort_perm hm₀).trans hperm
  · refine (MemoryMap.sort_pairwise hm₀).imp_of_mem (fun {r s} _ hs hle => ?_)
    exact notAfter_of_compareRegions (MemoryMap.sort_not_empty hm₀ hs) hle

theorem exists_last {α : Type} {p : α → Bool} {l : List α} {a : α} (ha : a ∈ l) (hp : p a = true) :
    ∃ before b after, l = before ++ b :: after ∧ p b = true ∧ ∀ c ∈ after, p c = false := by
  have hfound : (l.reverse.find? p).isSome = true := by
    rw [List.find?_isSome]
    exact ⟨a, List.mem_reverse.2 ha, hp⟩
  obtain ⟨b, hb⟩ := Option.isSome_iff_exists.1 hfound
  obtain ⟨hpb, after, before, heq, hafter⟩ := List.find?_eq_some_iff_append.1 hb
  refine ⟨before.reverse, b, after.reverse, ?_, hpb, ?_⟩
  · rw [← List.reverse_reverse l, heq]
    simp
  · intro c hc
    simpa using hafter c (List.mem_reverse.1 hc)

/-- Whatever the entries, no frame is usable twice. -/
theorem createFrom_count_usable {es : List E820MemoryRegion} {m : MemoryMap}
    (h : createFrom sorter es = some m) (k : ℕ) : (m.ledger k).count .usable ≤ 1 := by
  obtain ⟨rs, sorted, _, _, hregions, _, hsorted⟩ := createFrom_some h
  rw [MemoryMap.ledger, count_owners, hregions]
  refine (card_owners_le_one_iff _ _ _).2 ?_ k
  refine ((trimOverlaps_pairwise (starts_sorted hsorted)).sublist List.filter_sublist).imp_of_mem ?_
  intro r s hr _ hle j hj
  have husable : r.regionType = .usable := of_decide_eq_true (List.mem_filter.1 hr).2
  have hend := hle husable
  rw [MemoryRegion.covers_iff] at hj
  rw [MemoryRegion.covers, decide_eq_false_iff_not]
  omega

theorem mem_usableNumbers_iff (m : MemoryMap) (k : ℕ) :
    k ∈ m.usableNumbers ↔ ∃ u ∈ m.regions, u.regionType = .usable ∧ u.covers k = true := by
  rw [MemoryMap.mem_usableNumbers]
  simp only [MemoryRegion.covers_iff]

/-- Among the entries that start at or before the frame `k`, `u` is a last one. -/
structure LastAt (rs : List MemoryRegion) (u : MemoryRegion) (k : ℕ) : Prop where
  mem : u ∈ rs
  covers : u.covers k = true
  last : ∀ v ∈ rs, v.range.isEmpty = false → v.range.startFrameNumber.toNat ≤ k → v.NotAfter u

theorem LastAt.at_start {rs : List MemoryRegion} {u : MemoryRegion} {k : ℕ} (h : LastAt rs u k) :
    LastAt rs u u.range.startFrameNumber.toNat := by
  have hstart := ((MemoryRegion.covers_iff u k).1 h.covers).1
  refine ⟨h.mem, MemoryRegion.covers_first h.covers, ?_⟩
  intro v hv hne hle
  exact h.last v hv hne (hle.trans hstart)

/-- What overlaps the last entry at all reaches into its first frame. -/
theorem LastAt.covers_start {rs : List MemoryRegion} {u v : MemoryRegion} {k : ℕ}
    (h : LastAt rs u k) (hv : v ∈ rs) (hvk : v.covers k = true) :
    v.covers u.range.startFrameNumber.toNat = true := by
  have hne := MemoryRegion.not_isEmpty_of_covers hvk
  have hu := (MemoryRegion.covers_iff u k).1 h.covers
  rw [MemoryRegion.covers_iff] at hvk ⊢
  have hle := h.last v hv hne hvk.1
  unfold MemoryRegion.NotAfter at hle
  omega

theorem notAfter_of_split {before after : List MemoryRegion} {u v : MemoryRegion} {k : ℕ}
    (hsorted : (before ++ u :: after).Pairwise (fun r s => r.NotAfter s))
    (hafter : ∀ w ∈ after, k < w.range.startFrameNumber.toNat) (hv : v ∈ before ++ u :: after)
    (hstart : v.range.startFrameNumber.toNat ≤ k) : v.NotAfter u := by
  obtain hbefore | hrest := List.mem_append.1 hv
  · exact (List.pairwise_append.1 hsorted).2.2 v hbefore u List.mem_cons_self
  · obtain rfl | hlater := List.mem_cons.1 hrest
    · exact .inr ⟨rfl, le_rfl⟩
    · exact absurd (hafter v hlater) (by omega)

theorem mem_sorted_iff {rs sorted : List MemoryRegion}
    (h : sorted.Perm (rs.filter (fun r => !r.range.isEmpty))) (v : MemoryRegion) :
    v ∈ sorted ↔ v ∈ rs ∧ v.range.isEmpty = false := by
  rw [h.mem_iff, List.mem_filter]
  simp

theorem lastAt_of_usable {es : List E820MemoryRegion} {m : MemoryMap} {rs : List MemoryRegion}
    (h : createFrom sorter es = some m) (hrs : es.mapM MemoryRegion.ofE820 = some rs) {k : ℕ}
    (hk : k ∈ m.usableNumbers) : ∃ u, u.regionType = .usable ∧ LastAt rs u k := by
  obtain ⟨rs', sorted, hrs', _, hregions, hperm, hsorted⟩ := createFrom_some h
  obtain rfl : rs' = rs := Option.some.inj (hrs'.symm.trans hrs)
  rw [mem_usableNumbers_iff, hregions, mem_trimOverlaps (starts_sorted hsorted)] at hk
  obtain ⟨before, u, after, rfl, husable, hcovers, hafter⟩ := hk
  refine ⟨u, husable, ((mem_sorted_iff hperm u).1 (by simp)).1, hcovers, ?_⟩
  intro v hv hne hstart
  exact notAfter_of_split hsorted hafter ((mem_sorted_iff hperm v).2 ⟨hv, hne⟩) hstart

theorem usable_of_lastAt {es : List E820MemoryRegion} {m : MemoryMap} {rs : List MemoryRegion}
    (h : createFrom sorter es = some m) (hrs : es.mapM MemoryRegion.ofE820 = some rs) {k : ℕ}
    {u : MemoryRegion} (hu : LastAt rs u k)
    (husable : ∀ v ∈ rs, v.range = u.range → v.regionType = .usable) : k ∈ m.usableNumbers := by
  obtain ⟨rs', sorted, hrs', _, hregions, hperm, hsorted⟩ := createFrom_some h
  obtain rfl : rs' = rs := Option.some.inj (hrs'.symm.trans hrs)
  have hbounds := (MemoryRegion.covers_iff u k).1 hu.covers
  have hmem : u ∈ sorted :=
    (mem_sorted_iff hperm u).2 ⟨hu.mem, MemoryRegion.not_isEmpty_of_covers hu.covers⟩
  rw [mem_usableNumbers_iff, hregions, mem_trimOverlaps (starts_sorted hsorted)]
  obtain ⟨before, w, after, rfl, hstart, hafter⟩ :=
    exists_last (p := fun v => decide (v.range.startFrameNumber.toNat ≤ k)) hmem
      (decide_eq_true hbounds.1)
  have hafter : ∀ v ∈ after, k < v.range.startFrameNumber.toNat := fun v hv =>
    not_le.1 (of_decide_eq_false (hafter v hv))
  obtain ⟨hw, hwne⟩ := (mem_sorted_iff hperm w).1 (by simp)
  have hwu : w.NotAfter u := hu.last w hw hwne (of_decide_eq_true hstart)
  have huw : u.NotAfter w := notAfter_of_split hsorted hafter hmem hbounds.1
  have hrange : w.range = u.range := MemoryRegion.range_eq_of_notAfter hwu huw
  refine ⟨before, w, after, rfl, husable w hw hrange, ?_, hafter⟩
  rw [MemoryRegion.covers, hrange]
  exact hu.covers

def lowMemory : List E820MemoryRegion :=
  [⟨0x100000, 0x7ee0000, 1⟩, ⟨0, 0x9fc00, 1⟩, ⟨0x9fc00, 0x400, 2⟩, ⟨0xf0000, 0x10000, 2⟩]

def lowRegions : List MemoryRegion :=
  [⟨⟨0x100, 0x7fe0⟩, .usable⟩, ⟨⟨0, 0xa0⟩, .usable⟩, ⟨⟨0x9f, 0xa0⟩, .reserved⟩,
    ⟨⟨0xf0, 0x100⟩, .reserved⟩]

theorem lowMemory_regions : lowMemory.mapM MemoryRegion.ofE820 = some lowRegions := rfl

theorem lowMemory_created : ∃ m, createFrom (.insertion _) lowMemory = some m ∧
    m.regions = [⟨⟨0, 0x9f⟩, .usable⟩, ⟨⟨0x9f, 0xa0⟩, .reserved⟩, ⟨⟨0xf0, 0x100⟩, .reserved⟩,
      ⟨⟨0x100, 0x7fe0⟩, .usable⟩] := by
  apply Option.map_eq_some_iff.1
  decide +kernel

/-- The last of the entries that start at or before a frame decides whether it is
usable. Only where entries of different types have the same frames does it depend
on the sort, which is not stable, which of them is the last. -/
theorem usable_frames_of_e820 {es : List E820MemoryRegion} {m : MemoryMap}
    {rs : List MemoryRegion} (h : createFrom sorter es = some m)
    (hrs : es.mapM MemoryRegion.ofE820 = some rs) :
    m.usableNumbers.Nodup ∧
      ∀ k, (k ∈ m.usableNumbers → ∃ u, u.regionType = .usable ∧ LastAt rs u k) ∧
        ∀ u, LastAt rs u k → (∀ v ∈ rs, v.range = u.range → v.regionType = .usable) →
          k ∈ m.usableNumbers := by
  refine ⟨?_, fun k => ⟨lastAt_of_usable h hrs, fun u hu husable => usable_of_lastAt h hrs hu husable⟩⟩
  rw [List.nodup_iff_count_le_one]
  intro k
  rw [MemoryMap.count_usableNumbers]
  exact createFrom_count_usable h k

theorem usable_frames_of_low_memory : ∃ m, createFrom (.insertion _) lowMemory = some m ∧
    m.usableNumbers.Nodup ∧
      ∀ k ∈ m.usableNumbers, ∃ u, u.regionType = .usable ∧ LastAt lowRegions u k := by
  obtain ⟨m, hm, _⟩ := lowMemory_created
  obtain ⟨hnodup, hlast⟩ := usable_frames_of_e820 hm lowMemory_regions
  exact ⟨m, hm, hnodup, fun k => (hlast k).1⟩

/-- An entry that reaches into a usable frame reaches into the first frame of the
usable region there. -/
theorem covers_start {es : List E820MemoryRegion} {m : MemoryMap} {rs : List MemoryRegion}
    (h : createFrom sorter es = some m) (hrs : es.mapM MemoryRegion.ofE820 = some rs)
    {u v : MemoryRegion} (hu : u ∈ m.regions) (husable : u.regionType = .usable) {k : ℕ}
    (huk : u.covers k = true) (hv : v ∈ rs) (hvk : v.covers k = true) :
    v.covers u.range.startFrameNumber.toNat = true := by
  obtain ⟨rs', sorted, hrs', _, hregions, hperm, hsorted⟩ := createFrom_some h
  obtain rfl : rs' = rs := Option.some.inj (hrs'.symm.trans hrs)
  rw [hregions] at hu
  obtain ⟨before, r, after, rfl, _, _, hstart, hafter⟩ :=
    trimOverlaps_split (starts_sorted hsorted) hu husable huk
  have hne := MemoryRegion.not_isEmpty_of_covers hvk
  rw [MemoryRegion.covers_iff] at huk hvk
  have hle : v.NotAfter r :=
    notAfter_of_split hsorted hafter ((mem_sorted_iff hperm v).2 ⟨hv, hne⟩) hvk.1
  unfold MemoryRegion.NotAfter at hle
  rw [hstart] at hle
  rw [MemoryRegion.covers_iff]
  omega

/-- No entry of another type reaches into a usable frame exactly when none reaches
into the first frame of a usable region of the map: only overlaps in front of a
usable region are left standing. Where entries with the same frames have the same
type, the entries alone decide it: the region is then the last of the entries that
start at or before its start. -/
theorem usable_frames_unshared_iff {es : List E820MemoryRegion} {m : MemoryMap}
    {rs : List MemoryRegion} (h : createFrom sorter es = some m)
    (hrs : es.mapM MemoryRegion.ofE820 = some rs) :
    ((∀ k ∈ m.usableNumbers, ∀ v ∈ rs, v.covers k = true → v.regionType = .usable) ↔
      ∀ u ∈ m.regions, u.regionType = .usable →
        u.covers u.range.startFrameNumber.toNat = true →
        ∀ v ∈ rs, v.covers u.range.startFrameNumber.toNat = true → v.regionType = .usable) ∧
    ((∀ u ∈ rs, ∀ v ∈ rs, u.range = v.range → u.regionType = v.regionType) →
      ((∀ k ∈ m.usableNumbers, ∀ v ∈ rs, v.covers k = true → v.regionType = .usable) ↔
        ∀ u ∈ rs, u.regionType = .usable → LastAt rs u u.range.startFrameNumber.toNat →
          ∀ v ∈ rs, v.covers u.range.startFrameNumber.toNat = true → v.regionType = .usable)) := by
  refine ⟨⟨?_, ?_⟩, fun hties => ⟨?_, ?_⟩⟩
  · intro hfree u hu husable hcovers
    exact hfree _ ((mem_usableNumbers_iff m _).2 ⟨u, hu, husable, hcovers⟩)
  · intro hfront k hk v hv hvk
    obtain ⟨u, hu, husable, huk⟩ := (mem_usableNumbers_iff m k).1 hk
    exact hfront u hu husable (MemoryRegion.covers_first huk) v hv
      (covers_start h hrs hu husable huk hv hvk)
  · intro hfree u hu husable hlast
    apply hfree
    apply usable_of_lastAt h hrs hlast
    intro v hv hrange
    rw [hties v hv u hu hrange]
    exact husable
  · intro hfront k hk v hv hcovers
    obtain ⟨u, husable, hlast⟩ := lastAt_of_usable h hrs hk
    exact hfront u hlast.mem husable hlast.at_start v hv (hlast.covers_start hv hcovers)

theorem usable_frames_unshared_low_memory :
    ∃ m, createFrom (.insertion _) lowMemory = some m ∧
      (∀ k ∈ m.usableNumbers, ∀ v ∈ lowRegions, v.covers k = true → v.regionType = .usable) ∧
      ∀ u ∈ lowRegions, u.regionType = .usable →
        LastAt lowRegions u u.range.startFrameNumber.toNat → ∀ v ∈ lowRegions,
          v.covers u.range.startFrameNumber.toNat = true → v.regionType = .usable := by
  obtain ⟨m, hm, hregions⟩ := lowMemory_created
  obtain ⟨hmap, hentries⟩ := usable_frames_unshared_iff hm lowMemory_regions
  have hfront : ∀ u ∈ m.regions, u.regionType = .usable → ∀ v ∈ lowRegions,
      v.covers u.range.startFrameNumber.toNat = true → v.regionType = .usable := by
    rw [hregions]
    decide
  have hfree := hmap.2 (fun u hu husable _ => hfront u hu husable)
  have hties : ∀ u ∈ lowRegions, ∀ v ∈ lowRegions, u.range = v.range →
      u.regionType = v.regionType := by decide
  exact ⟨m, hm, hfree, (hentries hties).1 hfree⟩

end

end LlmOs.Memory
