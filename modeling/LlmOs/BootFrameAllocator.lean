import LlmOs.BootMemoryMap

set_option autoImplicit false

/-!
# The bootloader's frame allocator

`bootloader/src/frame_allocator.rs`, with `phys_frame_range` and `frame_range` of
`bootloader/src/main.rs`. It keeps its records in the memory map that is handed to
the kernel, so a frame is allocated by moving it from a usable region to a region
of the requested type. A panic is `none`.
-/
namespace LlmOs.Boot
open Memory Ownership

structure PhysFrameRange where
  startFrame : PhysFrame
  endFrame : PhysFrame

def PhysFrame.fromStartAddress (addr : PhysAddr) : Option PhysFrame :=
  if h : addr.value % 4096 = 0 then some ⟨addr.value, h⟩ else none

/-- `PhysFrame + n`. -/
def PhysFrame.add (frame : PhysFrame) (n : ℕ) : Option PhysFrame :=
  (PhysAddr.new (frame.startAddress + n * 4096)).map PhysFrame.containingAddress

def physFrameRange (range : FrameRange) : Option PhysFrameRange :=
  ((PhysAddr.new range.startAddr.toNat).bind PhysFrame.fromStartAddress).bind (fun startFrame =>
    ((PhysAddr.new range.endAddr.toNat).bind PhysFrame.fromStartAddress).map (fun endFrame =>
      ⟨startFrame, endFrame⟩))

def frameRange (range : PhysFrameRange) : FrameRange :=
  .new (.ofNat range.startFrame.startAddress) (.ofNat range.endFrame.startAddress)

def growEnd (region : MemoryRegion) : MemoryRegion :=
  { region with range := { region.range with endFrameNumber := region.range.endFrameNumber + 1 } }

def shrinkStart (region : MemoryRegion) : MemoryRegion :=
  { region with
    range := { region.range with startFrameNumber := region.range.startFrameNumber + 1 } }

/-- `next` can give its first frame to `region`. -/
def Extends (regionType : MemoryRegionType) (region next : MemoryRegion) : Prop :=
  region.regionType = regionType ∧
    next.range.startFrameNumber = region.range.endFrameNumber ∧
    next.regionType = .usable ∧ next.range.isEmpty = false

instance (regionType : MemoryRegionType) (region next : MemoryRegion) :
    Decidable (Extends regionType region next) := inferInstanceAs (Decidable (_ ∧ _))

/-- The first pass: an existing region of the type that can be enlarged. -/
def enlargeRegion (regionType : MemoryRegionType) :
    List MemoryRegion → Option (Option (PhysFrame × List MemoryRegion))
  | region :: next :: rest =>
    if Extends regionType region next then
      (physFrameRange region.range).map (fun range =>
        some (range.endFrame, growEnd region :: shrinkStart next :: rest))
    else
      (enlargeRegion regionType (next :: rest)).map
        (Option.map (fun (frame, rs) => (frame, region :: rs)))
  | _ => some none

/-- The frame, its range, and the regions after the split. -/
def splitUsableRegion :
    List MemoryRegion → Option (Option (PhysFrame × PhysFrameRange × List MemoryRegion))
  | [] => some none
  | region :: rest =>
    if region.regionType ≠ .usable ∨ region.range.isEmpty = true then
      (splitUsableRegion rest).map
        (Option.map (fun (frame, range, rs) => (frame, range, region :: rs)))
    else
      (physFrameRange region.range).bind (fun range =>
        (PhysFrame.add range.startFrame 1).map (fun endFrame =>
          some (range.startFrame, ⟨range.startFrame, endFrame⟩, shrinkStart region :: rest)))

structure FrameAllocator where
  memoryMap : MemoryMap

namespace FrameAllocator

variable (sorter : SortUnstableBy MemoryRegion)

/-- Page tables are taken from the last usable region, everything else from the
first one. -/
def split (a : FrameAllocator) (regionType : MemoryRegionType) :
    Option (Option (PhysFrame × PhysFrameRange × List MemoryRegion)) :=
  if regionType = .pageTable then
    (splitUsableRegion a.memoryMap.regions.reverse).map
      (Option.map (fun (frame, range, rs) => (frame, range, rs.reverse)))
  else splitUsableRegion a.memoryMap.regions

def allocateFrame (a : FrameAllocator) (regionType : MemoryRegionType) :
    Option (Option PhysFrame × FrameAllocator) :=
  match enlargeRegion regionType a.memoryMap.regions with
  | none => none
  | some (some (frame, rs)) => some (some frame, ⟨a.memoryMap.writeBack rs⟩)
  | some none =>
    match a.split regionType with
    | none => none
    | some none => some (none, a)
    | some (some (frame, range, rs)) =>
      ((a.memoryMap.writeBack rs).addRegion sorter ⟨frameRange range, regionType⟩).map
        (fun m => (some frame, ⟨m⟩))

end FrameAllocator

/-- A range below the last physical frame, so that its numbers and addresses do
not overflow. -/
structure Bounded (r : MemoryRegion) : Prop where
  ordered : r.range.startFrameNumber.toNat ≤ r.range.endFrameNumber.toNat
  below : r.range.endFrameNumber.toNat < 2 ^ 40

structure WellFormed (m : MemoryMap) : Prop where
  settled : m.Settled
  bounded : ∀ r ∈ m.regions, Bounded r

theorem frame_at {n : UInt64} (h : n.toNat < 2 ^ 40) :
    (PhysAddr.new (n * PAGE_SIZE).toNat).bind PhysFrame.fromStartAddress =
      some (PhysFrame.ofNumber n.toNat) := by
  rw [toNat_mul_pageSize (by omega), PhysAddr.new, dif_pos (by omega), Option.bind_some,
    PhysFrame.fromStartAddress, dif_pos (by change n.toNat * 4096 % 4096 = 0; omega)]
  rfl

theorem physFrameRange_eq {r : MemoryRegion} (h : Bounded r) :
    physFrameRange r.range = some ⟨PhysFrame.ofNumber r.range.startFrameNumber.toNat,
      PhysFrame.ofNumber r.range.endFrameNumber.toNat⟩ := by
  have hstart := h.ordered
  have hend := h.below
  rw [physFrameRange, FrameRange.startAddr, FrameRange.endAddr, frame_at (by omega),
    frame_at (by omega)]
  rfl

theorem toNat_add_one {n : UInt64} (h : n.toNat < 2 ^ 40) : (n + 1).toNat = n.toNat + 1 := by
  rw [UInt64.toNat_add, show (1 : UInt64).toNat = 1 from rfl]
  omega

theorem growEnd_covers {r : MemoryRegion} (h : Bounded r) (k : ℕ) :
    (growEnd r).covers k = true ↔ r.covers k = true ∨ k = r.range.endFrameNumber.toNat := by
  have hend := toNat_add_one h.below
  have hle := h.ordered
  rw [MemoryRegion.covers_iff, MemoryRegion.covers_iff]
  change r.range.startFrameNumber.toNat ≤ k ∧ k < (r.range.endFrameNumber + 1).toNat ↔ _
  omega

theorem shrinkStart_covers {r : MemoryRegion} (h : Bounded r) (k : ℕ) :
    (shrinkStart r).covers k = true ↔
      r.covers k = true ∧ k ≠ r.range.startFrameNumber.toNat := by
  have hle := h.ordered
  have hlt := h.below
  have hstart := toNat_add_one (show r.range.startFrameNumber.toNat < 2 ^ 40 by omega)
  rw [MemoryRegion.covers_iff, MemoryRegion.covers_iff]
  change (r.range.startFrameNumber + 1).toNat ≤ k ∧ k < r.range.endFrameNumber.toNat ↔ _
  omega

theorem toNat_pageAddr {k : ℕ} (h : k ≤ 2 ^ 40) :
    (UInt64.ofNat (PhysFrame.ofNumber k).startAddress).toNat = k * 4096 := by
  rw [UInt64.toNat_ofNat']
  change k * 4096 % 2 ^ 64 = k * 4096
  omega

/-- The frames from number `j` up to number `k`, as the map keeps them. -/
theorem frameRange_eq {j k : ℕ} (hj : j < k) (hk : k ≤ 2 ^ 40) :
    (frameRange ⟨PhysFrame.ofNumber j, PhysFrame.ofNumber k⟩).startFrameNumber.toNat = j ∧
      (frameRange ⟨PhysFrame.ofNumber j, PhysFrame.ofNumber k⟩).endFrameNumber.toNat = k := by
  have hstart := toNat_pageAddr (show j ≤ 2 ^ 40 by omega)
  have hend := toNat_pageAddr hk
  unfold frameRange FrameRange.new
  dsimp only
  constructor
  · rw [UInt64.toNat_div, hstart, show PAGE_SIZE.toNat = 4096 from rfl]
    omega
  · rw [UInt64.toNat_add, UInt64.toNat_div, UInt64.toNat_sub, hend,
      show PAGE_SIZE.toNat = 4096 from rfl, show (1 : UInt64).toNat = 1 from rfl]
    omega

theorem lt_of_not_isEmpty {r : MemoryRegion} (hr : Bounded r) (h : r.range.isEmpty = false) :
    r.range.startFrameNumber.toNat < r.range.endFrameNumber.toNat := by
  have hle := hr.ordered
  rw [← Bool.not_eq_true, FrameRange.isEmpty_iff] at h
  omega

theorem growEnd_share {r : MemoryRegion} (h : Bounded r) (k : ℕ) :
    share MemoryRegion.covers MemoryRegion.regionType (growEnd r) k =
      share MemoryRegion.covers MemoryRegion.regionType r k +
        if k = r.range.endFrameNumber.toNat then {r.regionType} else 0 := by
  have hkind : r.regionType = (growEnd r).regionType := rfl
  refine share_eq_add _ _ hkind (growEnd_covers h) ?_ k
  intro k hk
  rw [MemoryRegion.covers, decide_eq_false_iff_not]
  omega

theorem shrinkStart_share {r : MemoryRegion} (h : Bounded r) (hne : r.range.isEmpty = false)
    (k : ℕ) :
    share MemoryRegion.covers MemoryRegion.regionType r k =
      share MemoryRegion.covers MemoryRegion.regionType (shrinkStart r) k +
        if k = r.range.startFrameNumber.toNat then {r.regionType} else 0 := by
  have hlt := lt_of_not_isEmpty h hne
  have hkind : (shrinkStart r).regionType = r.regionType := rfl
  refine share_eq_add _ _ (S := fun k => k = r.range.startFrameNumber.toNat) hkind ?_ ?_ k
  · intro k
    rw [shrinkStart_covers h, MemoryRegion.covers_iff]
    omega
  · intro k hk
    rw [← Bool.not_eq_true, shrinkStart_covers h]
    exact fun hcovers => hcovers.2 hk

theorem shrinkStart_bounded {r : MemoryRegion} (h : Bounded r) (hne : r.range.isEmpty = false) :
    Bounded (shrinkStart r) := by
  have hlt := lt_of_not_isEmpty h hne
  have hend := h.below
  have hstart := toNat_add_one (show r.range.startFrameNumber.toNat < 2 ^ 40 by omega)
  refine ⟨?_, hend⟩
  change (r.range.startFrameNumber + 1).toNat ≤ r.range.endFrameNumber.toNat
  omega

theorem growEnd_bounded {T : MemoryRegionType} {r next : MemoryRegion} (hr : Bounded r)
    (hnext : Bounded next) (h : Extends T r next) : Bounded (growEnd r) := by
  obtain ⟨_, hadjacent, _, hne⟩ := h
  have hlt := lt_of_not_isEmpty hnext hne
  have hle := hr.ordered
  have hbelow := hnext.below
  have hend := toNat_add_one hr.below
  rw [hadjacent] at hlt
  refine ⟨?_, ?_⟩
  · change r.range.startFrameNumber.toNat ≤ (r.range.endFrameNumber + 1).toNat
    omega
  · change (r.range.endFrameNumber + 1).toNat < 2 ^ 40
    omega

theorem PhysFrame.add_one {r : MemoryRegion} (h : Bounded r) (hne : r.range.isEmpty = false) :
    PhysFrame.add (PhysFrame.ofNumber r.range.startFrameNumber.toNat) 1 =
      some (PhysFrame.ofNumber (r.range.startFrameNumber.toNat + 1)) := by
  have hlt := lt_of_not_isEmpty h hne
  have hend := h.below
  have hnext : (PhysFrame.ofNumber r.range.startFrameNumber.toNat).startAddress + 1 * 4096 =
      (r.range.startFrameNumber.toNat + 1) * 4096 := by
    change r.range.startFrameNumber.toNat * 4096 + 1 * 4096 = _
    omega
  rw [PhysFrame.add, hnext, frame_of_page (by omega)]

theorem usable_mem_share {r : MemoryRegion} (h : Bounded r) (hne : r.range.isEmpty = false)
    (husable : r.regionType = .usable) :
    .usable ∈ share MemoryRegion.covers MemoryRegion.regionType r
      r.range.startFrameNumber.toNat := by
  have hlt := lt_of_not_isEmpty h hne
  rw [share, if_pos ((MemoryRegion.covers_iff _ _).2 ⟨le_rfl, hlt⟩), husable]
  exact Multiset.mem_singleton_self _

/-- The enlarged region and its shrunk neighbour, without the other regions. -/
theorem handover_enlarge {T : MemoryRegionType} {r next : MemoryRegion} (hr : Bounded r)
    (hnext : Bounded next) (h : Extends T r next) :
    Handover (owners MemoryRegion.covers MemoryRegion.regionType [r, next])
      (owners MemoryRegion.covers MemoryRegion.regionType [growEnd r, shrinkStart next])
      (fun k => k = r.range.endFrameNumber.toNat) .usable T := by
  obtain ⟨rfl, hadjacent, husable, hne⟩ := h
  apply Handover.of_add
  · rintro k rfl
    rw [owners_cons, owners_cons, ← hadjacent, Multiset.mem_add, Multiset.mem_add]
    exact .inr (.inl (usable_mem_share hnext hne husable))
  · intro k
    have hshrink := shrinkStart_share hnext hne k
    rw [hadjacent, husable] at hshrink
    simp only [owners_cons, owners_nil, add_zero]
    rw [growEnd_share hr, hshrink, add_assoc, add_assoc, add_comm _ (share _ _ _ _ + _)]
    exact (add_assoc _ _ _).symm

/-- The split region and the region made of its first frame. -/
theorem handover_split {T : MemoryRegionType} {r new : MemoryRegion} (hr : Bounded r)
    (hne : r.range.isEmpty = false) (husable : r.regionType = .usable)
    (hnew : ∀ k, new.covers k = true ↔ k = r.range.startFrameNumber.toNat)
    (hT : new.regionType = T) :
    Handover (owners MemoryRegion.covers MemoryRegion.regionType [r])
      (owners MemoryRegion.covers MemoryRegion.regionType [shrinkStart r, new])
      (fun k => k = r.range.startFrameNumber.toNat) .usable T := by
  apply Handover.of_add
  · rintro k rfl
    rw [owners_cons, Multiset.mem_add]
    exact .inl (usable_mem_share hr hne husable)
  · intro k
    have hshrink := shrinkStart_share hr hne k
    rw [husable] at hshrink
    have hshare : share MemoryRegion.covers MemoryRegion.regionType new k =
        if k = r.range.startFrameNumber.toNat then {T} else 0 := by
      rw [share, hT]
      simp only [hnew k]
    simp only [owners_cons, owners_nil, add_zero]
    rw [hshrink, hshare, add_right_comm]

theorem enlargeRegion_cases {T : MemoryRegionType} {rs : List MemoryRegion}
    (h : ∀ r ∈ rs, Bounded r) :
    enlargeRegion T rs = some none ∨
      ∃ before r next after, rs = before ++ r :: next :: after ∧ Extends T r next ∧
        enlargeRegion T rs = some (some (PhysFrame.ofNumber r.range.endFrameNumber.toNat,
          before ++ growEnd r :: shrinkStart next :: after)) := by
  induction rs with
  | nil => exact .inl rfl
  | cons r rs ih =>
    cases rs with
    | nil => exact .inl rfl
    | cons next rest =>
      rw [enlargeRegion]
      by_cases hext : Extends T r next
      · refine .inr ⟨[], r, next, rest, rfl, hext, ?_⟩
        rw [if_pos hext, physFrameRange_eq (h r List.mem_cons_self)]
        rfl
      · rw [if_neg hext]
        obtain hnone | ⟨before, s, t, after, heq, hst, hsome⟩ :=
          ih (fun s hs => h s (List.mem_cons_of_mem _ hs))
        · rw [hnone]
          exact .inl rfl
        · refine .inr ⟨r :: before, s, t, after, by rw [heq]; rfl, hst, ?_⟩
          rw [hsome]
          rfl

theorem splitUsableRegion_cases {rs : List MemoryRegion} (h : ∀ r ∈ rs, Bounded r) :
    (splitUsableRegion rs = some none ∧
      ∀ r ∈ rs, r.regionType = .usable → r.range.isEmpty = true) ∨
    ∃ before r after, rs = before ++ r :: after ∧ r.regionType = .usable ∧
      r.range.isEmpty = false ∧
      splitUsableRegion rs = some (some (PhysFrame.ofNumber r.range.startFrameNumber.toNat,
        ⟨PhysFrame.ofNumber r.range.startFrameNumber.toNat,
          PhysFrame.ofNumber (r.range.startFrameNumber.toNat + 1)⟩,
        before ++ shrinkStart r :: after)) := by
  induction rs with
  | nil => exact .inl ⟨rfl, by simp⟩
  | cons r rs ih =>
    rw [splitUsableRegion]
    by_cases hskip : r.regionType ≠ .usable ∨ r.range.isEmpty = true
    · rw [if_pos hskip]
      obtain ⟨hnone, hall⟩ | ⟨before, s, after, heq, hs, hne, hsome⟩ :=
        ih (fun s hs => h s (List.mem_cons_of_mem _ hs))
      · refine .inl ⟨by rw [hnone]; rfl, ?_⟩
        intro s hs husable
        obtain rfl | hs := List.mem_cons.1 hs
        · exact hskip.resolve_left (fun hne => hne husable)
        · exact hall s hs husable
      · refine .inr ⟨r :: before, s, after, by rw [heq]; rfl, hs, hne, ?_⟩
        rw [hsome]
        rfl
    · rw [if_neg hskip]
      rw [not_or, not_not, Bool.not_eq_true] at hskip
      have hr := h r List.mem_cons_self
      refine .inr ⟨[], r, rs, rfl, hskip.1, hskip.2, ?_⟩
      rw [physFrameRange_eq hr, Option.bind_some, PhysFrame.add_one hr hskip.2]
      rfl

theorem WellFormed.writeBack {m : MemoryMap} (hm : WellFormed m) {rs : List MemoryRegion}
    (hlen : rs.length = m.regions.length) (hrs : ∀ r ∈ rs, Bounded r) :
    WellFormed (m.writeBack rs) where
  settled := MemoryMap.writeBack_settled rs hm.settled
  bounded := by
    rw [MemoryMap.writeBack_regions hlen]
    exact hrs

theorem WellFormed.addRegion {sorter : SortUnstableBy MemoryRegion} {m m' : MemoryMap}
    {region : MemoryRegion} (hm : WellFormed m) (hregion : Bounded region)
    (h : m.addRegion sorter region = some m') : WellFormed m' := by
  obtain ⟨hsettled, hperm, _⟩ := MemoryMap.addRegion_some hm.settled h
  refine ⟨hsettled, ?_⟩
  intro r hr
  have hmem := (List.mem_filter.1 (hperm.mem_iff.1 hr)).1
  obtain hold | hnew := List.mem_append.1 hmem
  · exact hm.bounded r hold
  · obtain rfl := List.mem_singleton.1 hnew
    exact hregion

theorem Bounded.of_replaced {rs before after p p' : List MemoryRegion}
    (h : ∀ r ∈ rs, Bounded r) (heq : rs = before ++ p ++ after) (hp' : ∀ r ∈ p', Bounded r) :
    ∀ r ∈ before ++ p' ++ after, Bounded r := by
  intro r hr
  rw [List.mem_append, List.mem_append] at hr
  obtain (hbefore | hmid) | hafter := hr
  · exact h r (by simp [heq, hbefore])
  · exact hp' r hmid
  · exact h r (by simp [heq, hafter])

theorem enlarge_step {T : MemoryRegionType} {m : MemoryMap} (hm : WellFormed m)
    {before after : List MemoryRegion} {r next : MemoryRegion}
    (heq : m.regions = before ++ r :: next :: after) (hext : Extends T r next) :
    WellFormed (m.writeBack (before ++ growEnd r :: shrinkStart next :: after)) ∧
      Handover m.ledger (m.writeBack (before ++ growEnd r :: shrinkStart next :: after)).ledger
        (fun k => k = r.range.endFrameNumber.toNat) .usable T := by
  have hr : Bounded r := hm.bounded r (by simp [heq])
  have hnext : Bounded next := hm.bounded next (by simp [heq])
  have hlen : (before ++ growEnd r :: shrinkStart next :: after).length = m.regions.length := by
    simp [heq]
  have hperm : ∀ r s : MemoryRegion,
      (before ++ r :: s :: after).Perm ([r, s] ++ (before ++ after)) := by
    intro r s
    exact List.perm_append_comm_assoc before [r, s] after
  constructor
  · apply hm.writeBack hlen
    have hcut : m.regions = before ++ [r, next] ++ after := by simpa using heq
    have hpair : ∀ s ∈ [growEnd r, shrinkStart next], Bounded s := by
      simpa using ⟨growEnd_bounded hr hnext hext, shrinkStart_bounded hnext hext.2.2.2⟩
    simpa using Bounded.of_replaced hm.bounded hcut hpair
  · refine Handover.of_perm _ _ (handover_enlarge hr hnext hext) (heq ▸ hperm r next) ?_
    intro k
    rw [MemoryMap.writeBack_regions hlen]
    exact owners_perm _ _ (hperm _ _) k

theorem split_step {sorter : SortUnstableBy MemoryRegion} {m m' : MemoryMap} (hm : WellFormed m)
    {before after : List MemoryRegion} {r new : MemoryRegion}
    (heq : m.regions = before ++ r :: after) (husable : r.regionType = .usable)
    (hne : r.range.isEmpty = false)
    (hstart : new.range.startFrameNumber.toNat = r.range.startFrameNumber.toNat)
    (hend : new.range.endFrameNumber.toNat = r.range.startFrameNumber.toNat + 1)
    (hadd : (m.writeBack (before ++ shrinkStart r :: after)).addRegion sorter new = some m') :
    WellFormed m' ∧ Handover m.ledger m'.ledger
      (fun k => k = r.range.startFrameNumber.toNat) .usable new.regionType := by
  have hr : Bounded r := hm.bounded r (by simp [heq])
  have hlt := lt_of_not_isEmpty hr hne
  have hbelow := hr.below
  have hlen : (before ++ shrinkStart r :: after).length = m.regions.length := by simp [heq]
  have hwritten : WellFormed (m.writeBack (before ++ shrinkStart r :: after)) := by
    apply hm.writeBack hlen
    have hcut : m.regions = before ++ [r] ++ after := by simpa using heq
    have hone : ∀ s ∈ [shrinkStart r], Bounded s := by simpa using shrinkStart_bounded hr hne
    simpa using Bounded.of_replaced hm.bounded hcut hone
  constructor
  · exact hwritten.addRegion ⟨by omega, by omega⟩ hadd
  · have hcovers : ∀ k, new.covers k = true ↔ k = r.range.startFrameNumber.toNat := by
      intro k
      rw [MemoryRegion.covers_iff]
      omega
    refine Handover.of_perm _ _ (handover_split hr hne husable hcovers rfl)
      (heq ▸ List.perm_middle) ?_
    intro k
    have hledger := MemoryMap.addRegion_ledger hwritten.settled hadd k
    rw [MemoryMap.ledger, MemoryMap.ledger, MemoryMap.writeBack_regions hlen,
      owners_perm _ _ List.perm_middle] at hledger
    rw [hledger]
    simp only [List.cons_append, List.nil_append, owners_cons]
    exact add_left_comm _ _ _

namespace FrameAllocator

theorem split_cases {a : FrameAllocator} (hm : WellFormed a.memoryMap) (T : MemoryRegionType) :
    (a.split T = some none ∧
      ∀ r ∈ a.memoryMap.regions, r.regionType = .usable → r.range.isEmpty = true) ∨
    ∃ before r after, a.memoryMap.regions = before ++ r :: after ∧ r.regionType = .usable ∧
      r.range.isEmpty = false ∧
      a.split T = some (some (PhysFrame.ofNumber r.range.startFrameNumber.toNat,
        ⟨PhysFrame.ofNumber r.range.startFrameNumber.toNat,
          PhysFrame.ofNumber (r.range.startFrameNumber.toNat + 1)⟩,
        before ++ shrinkStart r :: after)) := by
  unfold split
  split_ifs with hT
  · have hbounded : ∀ r ∈ a.memoryMap.regions.reverse, Bounded r :=
      fun r hr => hm.bounded r (List.mem_reverse.1 hr)
    obtain ⟨hnone, hall⟩ | ⟨before, r, after, heq, hr, hne, hsome⟩ :=
      splitUsableRegion_cases hbounded
    · refine .inl ⟨by rw [hnone]; rfl, fun r hr => hall r (List.mem_reverse.2 hr)⟩
    · refine .inr ⟨after.reverse, r, before.reverse, ?_, hr, hne, ?_⟩
      · rw [← List.reverse_reverse a.memoryMap.regions, heq]
        simp
      · rw [hsome]
        simp
  · exact splitUsableRegion_cases hm.bounded

/-- One call: a panic when the table is full, nothing when no usable frame is left,
else one usable frame goes over to the requested type. -/
theorem allocateFrame_cases (sorter : SortUnstableBy MemoryRegion) {a : FrameAllocator}
    (hm : WellFormed a.memoryMap) (T : MemoryRegionType) :
    (a.allocateFrame sorter T = none ∧ a.memoryMap.regions.length = MAX_MEMORY_MAP_SIZE) ∨
    (a.allocateFrame sorter T = some (none, a) ∧
      ∀ r ∈ a.memoryMap.regions, r.regionType = .usable → r.range.isEmpty = true) ∨
    ∃ k a', a.allocateFrame sorter T = some (some (PhysFrame.ofNumber k), a') ∧
      WellFormed a'.memoryMap ∧
      Handover a.memoryMap.ledger a'.memoryMap.ledger (fun j => j = k) .usable T := by
  obtain hnone | ⟨before, r, next, after, heq, hext, hsome⟩ :=
    enlargeRegion_cases (T := T) hm.bounded
  · obtain ⟨hsplit, hall⟩ | ⟨before, r, after, heq, husable, hne, hsplit⟩ := split_cases hm T
    · refine .inr (.inl ⟨?_, hall⟩)
      simp only [allocateFrame, hnone, hsplit]
    · have hr : Bounded r := hm.bounded r (by simp [heq])
      have hlt := lt_of_not_isEmpty hr hne
      have hbelow := hr.below
      have hrange := frameRange_eq (Nat.lt_add_one r.range.startFrameNumber.toNat) (by omega)
      simp only [allocateFrame, hnone, hsplit]
      cases hadd : (a.memoryMap.writeBack (before ++ shrinkStart r :: after)).addRegion sorter
          ⟨frameRange ⟨PhysFrame.ofNumber r.range.startFrameNumber.toNat,
            PhysFrame.ofNumber (r.range.startFrameNumber.toNat + 1)⟩, T⟩ with
      | none =>
        rw [MemoryMap.addRegion_eq_none_iff, MemoryMap.length_regions] at hadd
        exact .inl ⟨rfl, (MemoryMap.length_regions _).trans hadd⟩
      | some m' =>
        have hstep := split_step hm heq husable hne hrange.1 hrange.2 hadd
        exact .inr (.inr ⟨_, ⟨m'⟩, rfl, hstep⟩)
  · have hstep := enlarge_step hm heq hext
    refine .inr (.inr ⟨_, ⟨a.memoryMap.writeBack _⟩, ?_, hstep⟩)
    simp only [allocateFrame, hsome]

end FrameAllocator

end LlmOs.Boot
