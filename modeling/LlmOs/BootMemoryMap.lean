import LlmOs.FrameAllocator
import LlmOs.Ownership
import Mathlib.Data.List.Sort

set_option autoImplicit false

/-!
# The memory map that the bootloader builds

The rest of `bootloader/src/bootinfo/memory_map.rs` and `create_from` of
`bootloader/src/boot_info.rs`. A panic is `none`. The `u64` arithmetic wraps, as
in a release build; on ranges below the physical address limit it never does.
-/
namespace LlmOs.Memory
open Ownership

/-- A comparator that is consistent as far as its answer `Less` goes. -/
structure Consistent {α : Type} (cmp : α → α → Ordering) : Prop where
  asymm : ∀ a b, cmp a b = .lt → cmp b a ≠ .lt
  trans : ∀ a b c, cmp b a ≠ .lt → cmp c b ≠ .lt → cmp c a ≠ .lt

/-- `slice::sort_unstable_by`, which asks its comparator only whether it answers
`Less`. The order of elements of which neither is less is left open. -/
structure SortUnstableBy (α : Type) where
  run : (α → α → Ordering) → List α → List α
  perm : ∀ cmp l, (run cmp l).Perm l
  sorted : ∀ cmp l, Consistent cmp → (run cmp l).Pairwise (fun a b => cmp b a ≠ .lt)

/-- Insertion sort by `Less`. -/
def SortUnstableBy.insertion (α : Type) : SortUnstableBy α where
  run cmp l := l.insertionSort (fun a b => cmp b a ≠ .lt)
  perm cmp l := List.perm_insertionSort _ l
  sorted cmp l h := by
    have htotal : Std.Total (fun a b => cmp b a ≠ .lt) := ⟨fun a b => by
      by_cases hba : cmp b a = .lt
      · exact .inr (h.asymm b a hba)
      · exact .inl hba⟩
    have htrans : IsTrans α (fun a b => cmp b a ≠ .lt) := ⟨h.trans⟩
    exact List.pairwise_insertionSort _ l

def FrameRange.isEmpty (r : FrameRange) : Bool := r.startFrameNumber == r.endFrameNumber

/-- The frames that the bytes from `startAddr` up to `endAddr` touch. -/
def FrameRange.new (startAddr endAddr : UInt64) : FrameRange :=
  let lastByte := endAddr - 1
  ⟨startAddr / PAGE_SIZE, lastByte / PAGE_SIZE + 1⟩

def MemoryRegion.empty : MemoryRegion := ⟨⟨0, 0⟩, .empty⟩

structure E820MemoryRegion where
  startAddr : UInt64
  len : UInt64
  regionType : UInt32
  deriving Repr

def E820MemoryRegion.kind (region : E820MemoryRegion) : Option MemoryRegionType :=
  match region.regionType.toNat with
  | 1 => some .usable
  | 2 => some .reserved
  | 3 => some .acpiReclaimable
  | 4 => some .acpiNvs
  | 5 => some .badMemory
  | _ => none

def MemoryRegion.ofE820 (region : E820MemoryRegion) : Option MemoryRegion :=
  region.kind.map (fun regionType =>
    ⟨FrameRange.new region.startAddr (region.startAddr + region.len), regionType⟩)

/-- Empty regions go to the back; the others are ordered by start, then by end. -/
def compareRegions (r1 r2 : MemoryRegion) : Ordering :=
  if r1.range.isEmpty then .gt
  else if r2.range.isEmpty then .lt
  else
    let ordering := compare r1.range.startFrameNumber r2.range.startFrameNumber
    if ordering = .eq then compare r1.range.endFrameNumber r2.range.endFrameNumber else ordering

def MemoryRegion.covers (r : MemoryRegion) (k : ℕ) : Bool :=
  decide (r.range.startFrameNumber.toNat ≤ k ∧ k < r.range.endFrameNumber.toNat)

namespace MemoryMap

/-- The types of the regions that hold the frame with number `k`. -/
def ledger (m : MemoryMap) (k : ℕ) : Multiset MemoryRegionType :=
  owners MemoryRegion.covers MemoryRegion.regionType m.regions k

def new : MemoryMap := ⟨Vector.replicate MAX_MEMORY_MAP_SIZE .empty, 0, by decide⟩

variable (sorter : SortUnstableBy MemoryRegion)

def sortedEntries (m : MemoryMap) : Vector MemoryRegion MAX_MEMORY_MAP_SIZE :=
  ⟨(sorter.run compareRegions m.entries.toList).toArray, by
    rw [List.size_toArray, (sorter.perm _ _).length_eq, Vector.length_toList]⟩

/-- The entries up to the first empty one become the regions of the map. -/
def sort (m : MemoryMap) : MemoryMap :=
  match h : (m.sortedEntries sorter).toList.findIdx? (fun r => r.range.isEmpty) with
  | some firstZeroIndex =>
    ⟨m.sortedEntries sorter, firstZeroIndex, by
      have hlt := (List.findIdx?_eq_some_iff_getElem.1 h).1
      rw [Vector.length_toList] at hlt
      omega⟩
  | none => ⟨m.sortedEntries sorter, m.nextEntryIndex, m.inBounds⟩

def addRegion (m : MemoryMap) (region : MemoryRegion) : Option MemoryMap :=
  if h : m.nextEntryIndex < MAX_MEMORY_MAP_SIZE then
    some (sort sorter ⟨m.entries.set m.nextEntryIndex region, m.nextEntryIndex + 1, h⟩)
  else none

/-- What a loop over `iter_mut` leaves when it has turned the regions into `rs`. -/
def writeBack (m : MemoryMap) (rs : List MemoryRegion) : MemoryMap :=
  { m with entries := m.entries.mapIdx (fun i r =>
      if i < m.nextEntryIndex then rs[i]?.getD r else r) }

end MemoryMap

/-- A usable region ends where the next region starts at the latest. -/
def MemoryRegion.trim (region next : MemoryRegion) : MemoryRegion :=
  if region.range.endFrameNumber > next.range.startFrameNumber ∧ region.regionType = .usable then
    { region with range := { region.range with endFrameNumber := next.range.startFrameNumber } }
  else region

def trimOverlaps : List MemoryRegion → List MemoryRegion
  | region :: next :: rest => region.trim next :: trimOverlaps (next :: rest)
  | regions => regions

def addE820 (sorter : SortUnstableBy MemoryRegion) (m : MemoryMap) (region : E820MemoryRegion) :
    Option MemoryMap :=
  (MemoryRegion.ofE820 region).bind (m.addRegion sorter)

def createFrom (sorter : SortUnstableBy MemoryRegion) (e820MemoryMap : List E820MemoryRegion) :
    Option MemoryMap :=
  (e820MemoryMap.foldlM (addE820 sorter) MemoryMap.new).map (fun m =>
    let m := m.sort sorter
    m.writeBack (trimOverlaps m.regions))

theorem compareRegions_lt_iff (r s : MemoryRegion) :
    compareRegions r s = .lt ↔ r.range.isEmpty = false ∧ (s.range.isEmpty = true ∨
      r.range.startFrameNumber.toNat < s.range.startFrameNumber.toNat ∨
      r.range.startFrameNumber.toNat = s.range.startFrameNumber.toNat ∧
        r.range.endFrameNumber.toNat < s.range.endFrameNumber.toNat) := by
  unfold compareRegions
  dsimp only
  split_ifs with hr hs hstart
  · simp [hr]
  · simp [hr, hs]
  · rw [Std.compare_eq_iff_eq] at hstart
    rw [Std.compare_eq_lt, UInt64.lt_iff_toNat_lt]
    simp [hr, hs, hstart]
  · rw [Std.compare_eq_lt, UInt64.lt_iff_toNat_lt]
    rw [Std.compare_eq_iff_eq, ← UInt64.toNat_inj] at hstart
    simp [hr, hs, hstart]

theorem compareRegions_consistent : Consistent compareRegions where
  asymm := by
    intro r s hrs hsr
    rw [compareRegions_lt_iff] at hrs hsr
    simp only [hrs.1, hsr.1, Bool.false_eq_true, false_or] at hrs hsr
    omega
  trans := by
    intro r s t hsr hts htr
    rw [ne_eq, compareRegions_lt_iff] at hsr hts
    rw [compareRegions_lt_iff] at htr
    cases hs : s.range.isEmpty with
    | true => simp [htr.1, hs] at hts
    | false =>
      simp only [hs, htr.1, true_and, Bool.false_eq_true, false_or] at hsr hts
      cases hr : r.range.isEmpty with
      | true => simp [hr] at hsr
      | false =>
        simp only [hr, Bool.false_eq_true, false_or] at hsr htr
        omega

theorem MemoryRegion.covers_iff (r : MemoryRegion) (k : ℕ) :
    r.covers k = true ↔
      r.range.startFrameNumber.toNat ≤ k ∧ k < r.range.endFrameNumber.toNat := by
  simp [covers]

theorem FrameRange.isEmpty_iff (r : FrameRange) :
    r.isEmpty = true ↔ r.startFrameNumber.toNat = r.endFrameNumber.toNat := by
  rw [isEmpty, beq_iff_eq, UInt64.toNat_inj]

theorem MemoryRegion.covers_of_empty {r : MemoryRegion} (h : r.range.isEmpty = true) (k : ℕ) :
    r.covers k = false := by
  rw [FrameRange.isEmpty_iff] at h
  rw [covers, decide_eq_false_iff_not]
  omega

theorem MemoryRegion.not_isEmpty_of_covers {r : MemoryRegion} {k : ℕ} (h : r.covers k = true) :
    r.range.isEmpty = false := by
  apply Bool.eq_false_iff.2
  intro hempty
  rw [covers_of_empty hempty k] at h
  exact Bool.false_ne_true h

/-- A region that covers a frame covers its own first one. -/
theorem MemoryRegion.covers_first {r : MemoryRegion} {k : ℕ} (h : r.covers k = true) :
    r.covers r.range.startFrameNumber.toNat = true := by
  rw [covers_iff] at h ⊢
  omega

theorem owners_not_empty (rs : List MemoryRegion) (k : ℕ) :
    owners MemoryRegion.covers MemoryRegion.regionType
        (rs.filter (fun r => !r.range.isEmpty)) k =
      owners MemoryRegion.covers MemoryRegion.regionType rs k := by
  apply owners_filter
  intro r _ hr
  exact MemoryRegion.covers_of_empty (by simpa using hr) k

/-- A list whose elements with `p` are at the back, cut at the first of them. -/
theorem take_findIdx {α : Type} (p : α → Bool) {l : List α}
    (h : l.Pairwise (fun a b => p a = true → p b = true)) :
    l.take (l.findIdx p) = l.filter (fun a => !p a) := by
  induction l with
  | nil => rfl
  | cons a l ih =>
    rw [List.pairwise_cons] at h
    cases ha : p a with
    | true =>
      have hnone : l.filter (fun a => !p a) = [] :=
        List.filter_eq_nil_iff.2 (fun b hb => by simp [h.1 b hb ha])
      simp [List.findIdx_cons, ha, hnone]
    | false => simp [List.findIdx_cons, ha, ih h.2]

theorem drop_findIdx {α : Type} (p : α → Bool) {l : List α}
    (h : l.Pairwise (fun a b => p a = true → p b = true)) :
    ∀ a ∈ l.drop (l.findIdx p), p a = true := by
  induction l with
  | nil => simp
  | cons a l ih =>
    rw [List.pairwise_cons] at h
    cases ha : p a with
    | true =>
      intro b hb
      rw [List.findIdx_cons, ha] at hb
      obtain rfl | hb := List.mem_cons.1 hb
      · exact ha
      · exact h.1 b hb ha
    | false =>
      intro b hb
      rw [List.findIdx_cons, ha] at hb
      exact ih h.2 b hb

namespace MemoryMap

variable {sorter : SortUnstableBy MemoryRegion}

/-- The slots behind the regions of the map are empty. -/
def Settled (m : MemoryMap) : Prop :=
  ∀ r ∈ m.entries.toList.drop m.nextEntryIndex, r.range.isEmpty = true

theorem new_settled : new.Settled := by
  intro r hr
  have hmem := List.mem_of_mem_drop hr
  rw [new, Vector.toList_replicate, List.mem_replicate] at hmem
  rw [hmem.2]
  rfl

theorem sortedEntries_pairwise (m : MemoryMap) :
    (m.sortedEntries sorter).toList.Pairwise (fun r s => compareRegions s r ≠ .lt) :=
  sorter.sorted _ _ compareRegions_consistent

theorem sortedEntries_empty_last (m : MemoryMap) :
    (m.sortedEntries sorter).toList.Pairwise
      (fun r s => r.range.isEmpty = true → s.range.isEmpty = true) := by
  apply (sortedEntries_pairwise m).imp
  intro r s h hr
  by_contra hs
  exact h ((compareRegions_lt_iff s r).2 ⟨Bool.eq_false_of_not_eq_true hs, .inl hr⟩)

theorem sort_entries (m : MemoryMap) : (m.sort sorter).entries = m.sortedEntries sorter := by
  unfold sort
  split
  · rfl
  · rfl

theorem Settled.full_of_no_empty {m : MemoryMap} (h : m.Settled)
    (hnone : ∀ r ∈ m.entries.toList, r.range.isEmpty = false) :
    m.nextEntryIndex = MAX_MEMORY_MAP_SIZE := by
  by_contra hne
  have hlt : m.nextEntryIndex < m.entries.toList.length := by
    rw [Vector.length_toList]
    exact lt_of_le_of_ne m.inBounds hne
  have hslot := h (m.entries.toList.get ⟨_, hlt⟩) (by
    rw [List.drop_eq_getElem_cons hlt]
    exact List.mem_cons_self)
  rw [hnone _ (List.get_mem _ ⟨_, hlt⟩)] at hslot
  exact Bool.false_ne_true hslot

theorem sort_nextEntryIndex {m : MemoryMap} (h : m.Settled) :
    (m.sort sorter).nextEntryIndex =
      (m.sortedEntries sorter).toList.findIdx (fun r => r.range.isEmpty) := by
  unfold sort
  split
  · rename_i firstZeroIndex hfirst
    exact (List.findIdx?_eq_some_iff_findIdx_eq.1 hfirst).2.symm
  · rename_i hnone
    have hall := List.findIdx?_eq_none_iff.1 hnone
    have hfull := h.full_of_no_empty
      (fun r hr => hall r ((sorter.perm compareRegions _).mem_iff.2 hr))
    rw [List.findIdx_eq_length.2 hall, Vector.length_toList]
    exact hfull

/-- The regions after a sort: the entries that are not empty, in order. -/
theorem sort_regions {m : MemoryMap} (h : m.Settled) :
    (m.sort sorter).regions =
      (m.sortedEntries sorter).toList.filter (fun r => !r.range.isEmpty) := by
  rw [regions, sort_entries, sort_nextEntryIndex h, take_findIdx _ (sortedEntries_empty_last m)]

theorem sort_settled {m : MemoryMap} (h : m.Settled) : (m.sort sorter).Settled := by
  intro r hr
  rw [sort_entries, sort_nextEntryIndex h] at hr
  exact drop_findIdx _ (sortedEntries_empty_last m) r hr

theorem entries_filter {m : MemoryMap} (h : m.Settled) :
    m.entries.toList.filter (fun r => !r.range.isEmpty) =
      m.regions.filter (fun r => !r.range.isEmpty) := by
  have hnone : (m.entries.toList.drop m.nextEntryIndex).filter (fun r => !r.range.isEmpty) = [] :=
    List.filter_eq_nil_iff.2 (fun r hr => by simp [h r hr])
  conv_lhs => rw [← List.take_append_drop m.nextEntryIndex m.entries.toList]
  rw [List.filter_append, hnone, List.append_nil]
  rfl

theorem sort_perm {m : MemoryMap} (h : m.Settled) :
    (m.sort sorter).regions.Perm (m.regions.filter (fun r => !r.range.isEmpty)) := by
  rw [sort_regions h, ← entries_filter h]
  exact (sorter.perm _ _).filter _

theorem sort_not_empty {m : MemoryMap} (h : m.Settled) {r : MemoryRegion}
    (hr : r ∈ (m.sort sorter).regions) : r.range.isEmpty = false := by
  rw [sort_regions h, List.mem_filter] at hr
  simpa using hr.2

theorem sort_pairwise {m : MemoryMap} (h : m.Settled) :
    (m.sort sorter).regions.Pairwise (fun r s => compareRegions s r ≠ .lt) := by
  rw [sort_regions h]
  exact (sortedEntries_pairwise m).sublist List.filter_sublist

theorem sort_sorted {m : MemoryMap} (h : m.Settled) :
    (m.sort sorter).regions.Pairwise
      (fun r s => r.range.startFrameNumber.toNat ≤ s.range.startFrameNumber.toNat) := by
  refine (sort_pairwise h).imp_of_mem (fun {r s} _ hs hle => ?_)
  by_contra hlt
  exact hle ((compareRegions_lt_iff s r).2 ⟨sort_not_empty h hs, .inr (.inl (by omega))⟩)

theorem sort_ledger {m : MemoryMap} (h : m.Settled) (k : ℕ) :
    (m.sort sorter).ledger k = m.ledger k := by
  rw [ledger, owners_perm _ _ (sort_perm h), owners_not_empty]
  rfl

theorem length_regions (m : MemoryMap) : m.regions.length = m.nextEntryIndex := by
  rw [regions, List.length_take, Vector.length_toList]
  exact min_eq_left m.inBounds

theorem addRegion_eq_none_iff (m : MemoryMap) (region : MemoryRegion) :
    m.addRegion sorter region = none ↔ m.regions.length = MAX_MEMORY_MAP_SIZE := by
  have hle := m.inBounds
  rw [length_regions]
  unfold addRegion
  split_ifs with h
  · simp only [false_iff]
    omega
  · simp only [true_iff]
    omega

/-- A region that is added joins the others, whatever its place. -/
theorem addRegion_some {m m' : MemoryMap} {region : MemoryRegion} (hm : m.Settled)
    (h : m.addRegion sorter region = some m') :
    m'.Settled ∧
      m'.regions.Perm ((m.regions ++ [region]).filter (fun r => !r.range.isEmpty)) ∧
      m'.regions.Pairwise
        (fun r s => r.range.startFrameNumber.toNat ≤ s.range.startFrameNumber.toNat) := by
  unfold addRegion at h
  split_ifs at h with hlt
  let m₁ : MemoryMap := ⟨m.entries.set m.nextEntryIndex region, m.nextEntryIndex + 1, hlt⟩
  have hm₁ : m₁.Settled := by
    intro r hr
    have hdrop : m₁.entries.toList.drop (m.nextEntryIndex + 1) =
        m.entries.toList.drop (m.nextEntryIndex + 1) := by
      rw [Vector.toList_set, List.drop_set_of_lt (by omega)]
    rw [hdrop] at hr
    exact hm r (List.mem_of_mem_drop (List.drop_drop ▸ hr))
  have hregions : m₁.regions = m.regions ++ [region] := by
    have hlen : (m.entries.toList.take m.nextEntryIndex).length = m.nextEntryIndex :=
      length_regions m
    change (m.entries.set m.nextEntryIndex region).toList.take (m.nextEntryIndex + 1) = _
    rw [Vector.toList_set, List.set_eq_take_append_cons_drop, Vector.length_toList, if_pos hlt,
      List.take_append, List.take_of_length_le (by omega), hlen, Nat.add_sub_cancel_left]
    rfl
  obtain rfl := Option.some.inj h
  rw [← hregions]
  exact ⟨sort_settled hm₁, sort_perm hm₁, sort_sorted hm₁⟩

theorem addRegion_not_empty {m m' : MemoryMap} {region : MemoryRegion} (hm : m.Settled)
    (h : m.addRegion sorter region = some m') :
    ∀ r ∈ m'.regions, r.range.isEmpty = false := by
  intro r hr
  obtain ⟨_, hperm, _⟩ := addRegion_some hm h
  simpa using (List.mem_filter.1 (hperm.mem_iff.1 hr)).2

/-- Regions added one after the other. -/
theorem foldlM_addRegion {rs : List MemoryRegion} {m m' : MemoryMap} (hm : m.Settled)
    (h : rs.foldlM (addRegion sorter) m = some m') :
    m'.Settled ∧ (m'.regions.filter (fun r => !r.range.isEmpty)).Perm
        ((m.regions ++ rs).filter (fun r => !r.range.isEmpty)) := by
  induction rs generalizing m with
  | nil =>
    obtain rfl := Option.some.inj h
    exact ⟨hm, by rw [List.append_nil]⟩
  | cons r rs ih =>
    rw [List.foldlM_cons] at h
    obtain ⟨m₁, hadd, hfold⟩ := Option.bind_eq_some_iff.1 h
    obtain ⟨hm₁, hperm₁, _⟩ := addRegion_some hm hadd
    obtain ⟨hm', hperm⟩ := ih hm₁ hfold
    refine ⟨hm', hperm.trans ?_⟩
    have hboth := (hperm₁.filter (fun r => !r.range.isEmpty)).append_right
      (rs.filter (fun r => !r.range.isEmpty))
    simp only [List.filter_filter, Bool.and_self, ← List.filter_append] at hboth
    rw [List.append_cons]
    exact hboth

/-- In order of their starts, and none of them empty. -/
structure Tidy (m : MemoryMap) : Prop where
  sorted : m.regions.Pairwise
    (fun r s => r.range.startFrameNumber.toNat ≤ s.range.startFrameNumber.toNat)
  not_empty : ∀ r ∈ m.regions, r.range.isEmpty = false

theorem foldlM_addRegion_tidy {rs : List MemoryRegion} {m m' : MemoryMap} (hm : m.Settled)
    (hrs : rs ≠ []) (h : rs.foldlM (addRegion sorter) m = some m') : m'.Tidy := by
  induction rs generalizing m with
  | nil => exact absurd rfl hrs
  | cons r rs ih =>
    rw [List.foldlM_cons] at h
    obtain ⟨m₁, hadd, hfold⟩ := Option.bind_eq_some_iff.1 h
    obtain ⟨hm₁, _, hsorted⟩ := addRegion_some hm hadd
    cases rs with
    | nil =>
      obtain rfl := Option.some.inj hfold
      exact ⟨hsorted, addRegion_not_empty hm hadd⟩
    | cons s rs => exact ih hm₁ (List.cons_ne_nil s rs) hfold

theorem addRegion_ledger {m m' : MemoryMap} {region : MemoryRegion} (hm : m.Settled)
    (h : m.addRegion sorter region = some m') (k : ℕ) :
    m'.ledger k =
      share MemoryRegion.covers MemoryRegion.regionType region k + m.ledger k := by
  obtain ⟨_, hperm, _⟩ := addRegion_some hm h
  rw [ledger, owners_perm _ _ hperm, owners_not_empty, owners_append, owners_cons, owners_nil,
    add_zero, add_comm]
  rfl

theorem writeBack_regions {m : MemoryMap} {rs : List MemoryRegion}
    (hlen : rs.length = m.regions.length) : (m.writeBack rs).regions = rs := by
  rw [length_regions] at hlen
  have hsize : m.entries.toList.length = MAX_MEMORY_MAP_SIZE := Vector.length_toList
  have hle := m.inBounds
  apply List.ext_getElem?
  intro i
  rw [regions, writeBack, Vector.toList_mapIdx, List.getElem?_take]
  by_cases hi : i < m.nextEntryIndex
  · rw [if_pos hi, List.getElem?_mapIdx, List.getElem?_eq_getElem (by omega : i < rs.length),
      List.getElem?_eq_getElem (by omega : i < m.entries.toList.length)]
    simp [hi]
  · rw [if_neg hi, List.getElem?_eq_none (by omega)]

theorem writeBack_settled {m : MemoryMap} (rs : List MemoryRegion) (h : m.Settled) :
    (m.writeBack rs).Settled := by
  intro r hr
  obtain ⟨i, hi⟩ := List.mem_iff_getElem?.1 hr
  rw [writeBack, Vector.toList_mapIdx, List.getElem?_drop, List.getElem?_mapIdx] at hi
  simp only [not_lt.2 (Nat.le_add_right _ _), if_false, Option.map_id'] at hi
  exact h r (List.mem_iff_getElem?.2 ⟨i, by rw [List.getElem?_drop, hi]⟩)

theorem count_frameNumbers (r : MemoryRegion) (k : ℕ) :
    r.range.frameNumbers.count k = if r.covers k then 1 else 0 := by
  split_ifs with h
  · apply List.count_eq_one_of_mem List.nodup_range'
    exact (mem_frameNumbers r.range k).2 ((MemoryRegion.covers_iff r k).1 h)
  · rw [List.count_eq_zero, mem_frameNumbers]
    exact fun hk => h ((MemoryRegion.covers_iff r k).2 hk)

/-- The frames that the kernel's allocator lists, counted in the ledger. -/
theorem count_usableNumbers (m : MemoryMap) (k : ℕ) :
    m.usableNumbers.count k = (m.ledger k).count .usable := by
  rw [usableNumbers, ledger, count_owners]
  induction m.regions.filter (fun r => r.regionType = .usable) with
  | nil => rfl
  | cons r rs ih =>
    rw [List.flatMap_cons, List.count_append, owners_cons, Multiset.card_add, ih,
      count_frameNumbers]
    congr 1
    unfold share
    split_ifs with h
    · rfl
    · rfl

end MemoryMap

end LlmOs.Memory
