import LlmOs.BootReservation
import LlmOs.HeapInit
import LlmOs.UsableMemory

set_option autoImplicit false

/-!
# From the firmware's map to the kernel's heap

The steps of `bootloader_main` that touch the memory map, in their order: it is
created from the firmware's entries, the areas in use are marked, frames are drawn
for whatever is set up, and the sorted map goes to the kernel.
-/
namespace LlmOs.Boot
open Memory Ownership

/-- The linker's symbols and the place of the kernel. No area is empty. -/
structure BootLayout where
  bootloaderStart : PhysAddr
  bootloaderEnd : PhysAddr
  kernelStart : PhysAddr
  kernelSize : ℕ
  pageTableStart : PhysAddr
  pageTableEnd : PhysAddr
  bootloader_lt : bootloaderStart.value < bootloaderEnd.value
  kernel_pos : 0 < kernelSize
  pageTable_lt : pageTableStart.value < pageTableEnd.value

def PhysAddr.add (addr : PhysAddr) (n : ℕ) : Option PhysAddr := PhysAddr.new (addr.value + n)

def PhysAddr.sub (addr : PhysAddr) (n : ℕ) : Option PhysAddr :=
  if n ≤ addr.value then PhysAddr.new (addr.value - n) else none

/-- The frames from the one that contains `startAddr` to the one that contains
`lastAddr`. -/
def usedArea (startAddr lastAddr : PhysAddr) (regionType : MemoryRegionType) :
    Option MemoryRegion :=
  (PhysFrame.add (PhysFrame.containingAddress lastAddr) 1).map (fun endFrame =>
    ⟨frameRange ⟨PhysFrame.containingAddress startAddr, endFrame⟩, regionType⟩)

def usedAreas (layout : BootLayout) : Option (List MemoryRegion) := do
  let zero ← PhysAddr.new 0
  let zeroFrame ← usedArea zero zero .frameZero
  let bootloaderLast ← PhysAddr.sub layout.bootloaderEnd 1
  let bootloader ← usedArea layout.bootloaderStart bootloaderLast .bootloader
  let kernelEnd ← PhysAddr.add layout.kernelStart layout.kernelSize
  let kernelLast ← PhysAddr.sub kernelEnd 1
  let kernel ← usedArea layout.kernelStart kernelLast .kernel
  let pageTableLast ← PhysAddr.sub layout.pageTableEnd 1
  let pageTable ← usedArea layout.pageTableStart pageTableLast .pageTable
  return [zeroFrame, bootloader, kernel, pageTable]

/-- The allocator as it stands when the marks are done. -/
def reserveUsed (sorter : SortUnstableBy MemoryRegion) (layout : BootLayout) (m : MemoryMap) :
    Option FrameAllocator :=
  (usedAreas layout).bind (fun areas =>
    areas.foldlM (FrameAllocator.markAllocatedRegion sorter) ⟨m⟩)

theorem containingAddress_eq (addr : PhysAddr) :
    PhysFrame.containingAddress addr = PhysFrame.ofNumber (addr.value / 4096) := by
  ext
  change addr.value - addr.value % 4096 = addr.value / 4096 * 4096
  omega

/-- A region that records an area in use. -/
structure IsArea (R : MemoryRegion) : Prop where
  bounded : Bounded R
  nonempty : R.range.startFrameNumber.toNat < R.range.endFrameNumber.toNat
  type_ne : R.regionType ≠ .usable

theorem PhysAddr.new_some {n : ℕ} {addr : PhysAddr} (h : PhysAddr.new n = some addr) :
    addr.value = n := by
  unfold Memory.PhysAddr.new at h
  split_ifs at h with hlt
  obtain rfl := Option.some.inj h
  rfl

theorem PhysAddr.sub_one_some {addr last : PhysAddr} (h : PhysAddr.sub addr 1 = some last) :
    last.value + 1 = addr.value := by
  unfold PhysAddr.sub at h
  split_ifs at h with hpos
  have hvalue := PhysAddr.new_some h
  omega

/-- The frame numbers of an area. -/
theorem usedArea_range {startAddr lastAddr : PhysAddr} {T : MemoryRegionType} {R : MemoryRegion}
    (h : usedArea startAddr lastAddr T = some R) (hle : startAddr.value ≤ lastAddr.value) :
    R.regionType = T ∧ R.range.startFrameNumber.toNat = startAddr.value / 4096 ∧
      R.range.endFrameNumber.toNat = lastAddr.value / 4096 + 1 ∧
      lastAddr.value / 4096 + 1 < 2 ^ 40 := by
  obtain ⟨endFrame, hadd, rfl⟩ := Option.map_eq_some_iff.1 h
  rw [containingAddress_eq] at hadd
  obtain ⟨addr, haddr, rfl⟩ := Option.map_eq_some_iff.1 hadd
  have hvalue : addr.value = (lastAddr.value / 4096 + 1) * 4096 := by
    rw [PhysAddr.new_some haddr]
    change lastAddr.value / 4096 * 4096 + 1 * 4096 = _
    omega
  have hbelow := addr.inRange
  rw [containingAddress_eq, containingAddress_eq, hvalue, Nat.mul_div_cancel _ (by omega)]
  obtain ⟨hstart, hend⟩ :=
    frameRange_eq (show startAddr.value / 4096 < lastAddr.value / 4096 + 1 by omega) (by omega)
  exact ⟨rfl, hstart, hend, by omega⟩

theorem usedArea_some {startAddr lastAddr : PhysAddr} {T : MemoryRegionType} {R : MemoryRegion}
    (h : usedArea startAddr lastAddr T = some R) (hle : startAddr.value ≤ lastAddr.value)
    (hT : T ≠ .usable) : IsArea R := by
  obtain ⟨htype, hstart, hend, hbelow⟩ := usedArea_range h hle
  exact ⟨⟨by omega, by omega⟩, by omega, by rwa [htype]⟩

/-- The kernel's file and the page tables of the bootloader are among the areas. -/
theorem usedAreas_cover {layout : BootLayout} {areas : List MemoryRegion}
    (h : usedAreas layout = some areas) :
    layout.kernelStart.value + layout.kernelSize < 2 ^ 52 ∧
    (∃ R ∈ areas, R.regionType = .kernel ∧ ∀ k, layout.kernelStart.value / 4096 ≤ k →
      k ≤ (layout.kernelStart.value + layout.kernelSize - 1) / 4096 → R.covers k = true) ∧
    ∃ R ∈ areas, R.regionType = .pageTable ∧ ∀ k, layout.pageTableStart.value / 4096 ≤ k →
      k ≤ (layout.pageTableEnd.value - 1) / 4096 → R.covers k = true := by
  simp only [usedAreas, Option.bind_eq_bind, Option.bind_eq_some_iff, Option.pure_def,
    Option.some.injEq] at h
  obtain ⟨_, _, _, _, _, _, _, _, kernelEnd, hkernelEnd, kernelLast, hkernelLast, kernel, hkernel,
    pageTableLast, hpageTableLast, pageTable, hpageTable, rfl⟩ := h
  have hkernel_pos := layout.kernel_pos
  have hpageTable_lt := layout.pageTable_lt
  have hke := PhysAddr.new_some hkernelEnd
  have hkl := PhysAddr.sub_one_some hkernelLast
  have hpl := PhysAddr.sub_one_some hpageTableLast
  have hbelow := kernelEnd.inRange
  refine ⟨by omega, ⟨kernel, by simp, ?_⟩, pageTable, by simp, ?_⟩
  · obtain ⟨htype, hstart, hend, _⟩ := usedArea_range hkernel (by omega)
    refine ⟨htype, fun k hlow hhigh => ?_⟩
    rw [MemoryRegion.covers_iff]
    omega
  · obtain ⟨htype, hstart, hend, _⟩ := usedArea_range hpageTable (by omega)
    refine ⟨htype, fun k hlow hhigh => ?_⟩
    rw [MemoryRegion.covers_iff]
    omega

theorem usedAreas_some {layout : BootLayout} {areas : List MemoryRegion}
    (h : usedAreas layout = some areas) : ∀ R ∈ areas, IsArea R := by
  simp only [usedAreas, Option.bind_eq_bind, Option.bind_eq_some_iff, Option.pure_def,
    Option.some.injEq] at h
  obtain ⟨zero, hzero, zeroFrame, hzeroFrame, bootloaderLast, hbootloaderLast, bootloader,
    hbootloader, kernelEnd, hkernelEnd, kernelLast, hkernelLast, kernel, hkernel, pageTableLast,
    hpageTableLast, pageTable, hpageTable, rfl⟩ := h
  have hbootloader_lt := layout.bootloader_lt
  have hkernel_pos := layout.kernel_pos
  have hpageTable_lt := layout.pageTable_lt
  have hbl := PhysAddr.sub_one_some hbootloaderLast
  have hke := PhysAddr.new_some hkernelEnd
  have hkl := PhysAddr.sub_one_some hkernelLast
  have hpl := PhysAddr.sub_one_some hpageTableLast
  intro R hR
  simp only [List.mem_cons, List.not_mem_nil, or_false] at hR
  obtain rfl | rfl | rfl | rfl := hR
  · exact usedArea_some hzeroFrame le_rfl (by decide)
  · exact usedArea_some hbootloader (by omega) (by decide)
  · exact usedArea_some hkernel (by omega) (by decide)
  · exact usedArea_some hpageTable (by omega) (by decide)

section
variable {sorter : SortUnstableBy MemoryRegion}

theorem trimOverlaps_bounded {rs : List MemoryRegion} (hsorted : rs.Pairwise
      (fun r s => r.range.startFrameNumber.toNat ≤ s.range.startFrameNumber.toNat))
    (h : ∀ r ∈ rs, Bounded r) : ∀ r ∈ trimOverlaps rs, Bounded r := by
  induction rs with
  | nil => exact h
  | cons r rs ih =>
    rw [List.pairwise_cons] at hsorted
    cases rs with
    | nil => exact h
    | cons next rest =>
      intro s hs
      obtain rfl | hs := List.mem_cons.1 hs
      · have hle := hsorted.1 next List.mem_cons_self
        have hr := h r List.mem_cons_self
        have hnext := h next (by simp)
        have hordered := hnext.ordered
        have hbelow := hnext.below
        unfold MemoryRegion.trim
        split_ifs with hcut
        · exact ⟨hle, by dsimp only; omega⟩
        · exact hr
      · exact ih hsorted.2 (fun r hr => h r (List.mem_cons_of_mem _ hr)) s hs

/-- The created map, as the marks need it. -/
theorem createFrom_orderly {es : List E820MemoryRegion} {m : MemoryMap} {rs : List MemoryRegion}
    (h : createFrom sorter es = some m) (hrs : es.mapM MemoryRegion.ofE820 = some rs)
    (hbounded : ∀ r ∈ rs, Bounded r)
    (halone : ∀ k, .usable ∈ m.ledger k → m.ledger k = {.usable}) : Orderly m := by
  obtain ⟨rs', sorted, hrs', hsettled, hregions, hperm, hsorted⟩ := createFrom_some h
  obtain rfl : rs' = rs := Option.some.inj (hrs'.symm.trans hrs)
  have hall : ∀ r ∈ sorted, Bounded r := fun r hr =>
    hbounded r ((mem_sorted_iff hperm r).1 hr).1
  refine ⟨⟨hsettled, ?_⟩, ?_, halone⟩
  · rw [hregions]
    exact trimOverlaps_bounded (starts_sorted hsorted) hall
  · rw [UsableOrdered, hregions]
    exact trimOverlaps_pairwise (starts_sorted hsorted)

theorem sort_frames_perm {m : MemoryMap} (h : m.Settled) :
    (m.sort sorter).frames.Perm m.frames := by
  apply List.Perm.map
  rw [List.perm_iff_count]
  intro k
  rw [MemoryMap.count_usableNumbers, MemoryMap.count_usableNumbers, MemoryMap.sort_ledger h]

theorem frames_nodup_of_count {m : MemoryMap} (h : ∀ k, (m.ledger k).count .usable ≤ 1) :
    m.frames.Nodup := by
  apply List.Nodup.map PhysFrame.ofNumber_injective
  rw [List.nodup_iff_count_le_one]
  intro k
  rw [MemoryMap.count_usableNumbers]
  exact h k

theorem usable_of_mem_frames {m : MemoryMap} {k : ℕ} (h : PhysFrame.ofNumber k ∈ m.frames) :
    .usable ∈ m.ledger k := by
  obtain ⟨j, hj, hjk⟩ := List.mem_map.1 h
  obtain rfl := PhysFrame.ofNumber_injective hjk
  rw [← Multiset.count_pos, ← MemoryMap.count_usableNumbers]
  exact List.count_pos_iff.2 hj

theorem eq_singleton_of_mem {α : Type} {c : α} {s : Multiset α} (hc : c ∈ s)
    (hcard : s.card ≤ 1) : s = {c} := by
  obtain ⟨t, rfl⟩ := Multiset.exists_cons_of_mem hc
  rw [Multiset.card_cons] at hcard
  rw [Multiset.card_eq_zero.1 (show t.card = 0 by omega)]
  rfl

/-- The kernel's own demand on the map, read off the ledger. -/
theorem valid_sort_iff {m : MemoryMap} (hm : WellFormed m) :
    (m.sort sorter).Valid ↔ ∀ k, (m.ledger k).card ≤ 1 := by
  have hledger : ∀ k, (m.sort sorter).ledger k = m.ledger k := MemoryMap.sort_ledger hm.settled
  have hdisjoint := card_owners_le_one_iff MemoryRegion.covers MemoryRegion.regionType
    (m.sort sorter).regions
  constructor
  · intro hvalid k
    rw [← hledger]
    refine hdisjoint.2 (hvalid.disjoint.imp ?_) k
    intro r s hapart j hj
    rw [MemoryRegion.covers_iff] at hj
    have hs := hapart j ((mem_frameNumbers _ _).2 hj)
    rw [mem_frameNumbers] at hs
    rw [MemoryRegion.covers, decide_eq_false_iff_not]
    exact hs
  · intro hcard
    refine ⟨?_, ?_⟩
    · intro r hr
      have hmem := (List.mem_filter.1 ((MemoryMap.sort_perm hm.settled).mem_iff.1 hr)).1
      have hordered := (hm.bounded r hmem).ordered
      have hbelow := (hm.bounded r hmem).below
      constructor <;> omega
    · have howned : ∀ k, ((m.sort sorter).ledger k).card ≤ 1 := by
        intro k
        rw [hledger]
        exact hcard k
      refine (hdisjoint.1 howned).imp ?_
      intro r s hapart j hj hs
      rw [mem_frameNumbers] at hj hs
      have hfalse := hapart j ((MemoryRegion.covers_iff _ _).2 hj)
      rw [(MemoryRegion.covers_iff _ _).2 hs] at hfalse
      cases hfalse

/-- The memory that the bootloader is written for: the entries of the firmware end
below frame `2 ^ 40`, a usable frame of the created map is in no other region, and
each area in use lies in one usable region, apart from the other areas. -/
structure Bootable (rs : List MemoryRegion) (m : MemoryMap) (areas : List MemoryRegion) : Prop where
  bounded : ∀ r ∈ rs, Bounded r
  alone : ∀ k, .usable ∈ m.ledger k → m.ledger k = {.usable}
  fits : ∀ R ∈ areas, Fits m R
  apart : areas.Pairwise (fun R R' => ¬ Meets R' R)

theorem Bootable.reserved {es : List E820MemoryRegion} {rs areas : List MemoryRegion}
    {layout : BootLayout} {m : MemoryMap} {a : FrameAllocator} (h : Bootable rs m areas)
    (hcreate : createFrom sorter es = some m) (hrs : es.mapM MemoryRegion.ofE820 = some rs)
    (hareas : usedAreas layout = some areas) (hreserve : reserveUsed sorter layout m = some a) :
    Reserved areas m a.memoryMap ∧ m.frames.Nodup := by
  have hm := createFrom_orderly hcreate hrs h.bounded h.alone
  have harea := usedAreas_some hareas
  rw [reserveUsed, hareas, Option.bind_some] at hreserve
  refine ⟨?_, frames_nodup_of_count (createFrom_count_usable hcreate)⟩
  exact reserve_run hm (fun R hR => { harea R hR with fits := h.fits R hR }) h.apart hreserve

def areaFrames (areas : List MemoryRegion) : List PhysFrame :=
  (areas.flatMap (fun R => R.range.frameNumbers)).map PhysFrame.ofNumber

/-- What the kernel is handed: the usable frames of the created map are those of the
areas in use, those that were drawn and those that the kernel may draw, each once,
and every frame is on record under what it is used for. -/
structure HandedOver (m : MemoryMap) (areas : List MemoryRegion) (log : DrawLog)
    (handed : MemoryMap) : Prop where
  conserved : m.frames.Perm (areaFrames areas ++ (drawn log ++ handed.frames))
  once : (areaFrames areas ++ (drawn log ++ handed.frames)).Nodup
  inUse : ∀ R ∈ areas, ∀ k, R.covers k = true → handed.ledger k = {R.regionType}
  drawnFor : ∀ T k, (T, some (PhysFrame.ofNumber k)) ∈ log → handed.ledger k = {T}
  untouched : ∀ k, PhysFrame.ofNumber k ∉ areaFrames areas → PhysFrame.ofNumber k ∉ drawn log →
    handed.ledger k = m.ledger k
  valid_iff : handed.Valid ↔ ∀ k, (m.ledger k).card ≤ 1

theorem not_covers_of_not_mem_areaFrames {areas : List MemoryRegion} {k : ℕ}
    (h : PhysFrame.ofNumber k ∉ areaFrames areas) : ∀ R ∈ areas, R.covers k = false := by
  intro R hR
  by_contra hcovers
  apply h
  refine List.mem_map_of_mem (List.mem_flatMap.2 ⟨R, hR, ?_⟩)
  exact (mem_frameNumbers _ _).2 ((MemoryRegion.covers_iff R k).1
    (Bool.eq_true_of_not_eq_false hcovers))

theorem handedOver_of_reserved {areas : List MemoryRegion} {m : MemoryMap} {a a' : FrameAllocator}
    {log : DrawLog} (hreserved : Reserved areas m a.memoryMap) (hnodup : m.frames.Nodup)
    (hdraws : Draws sorter a log a') (hT : ∀ e ∈ log, e.1 ≠ .usable) :
    HandedOver m areas log (a'.memoryMap.sort sorter) := by
  have hwell := hreserved.orderly.wellFormed
  have hsettled := (hdraws.wellFormed hwell).settled
  have hdrawn := hdraws.frames_perm hwell hT
  have hmarked : m.frames.Perm (areaFrames areas ++ a.memoryMap.frames) := by
    have hperm := hreserved.perm.map PhysFrame.ofNumber
    rwa [List.map_append] at hperm
  have hconserved : m.frames.Perm
      (areaFrames areas ++ (drawn log ++ (a'.memoryMap.sort sorter).frames)) :=
    hmarked.trans ((hdrawn.trans ((sort_frames_perm hsettled).symm.append_left _)).append_left _)
  have honce := hconserved.nodup_iff.1 hnodup
  have hfree : a.memoryMap.frames.Nodup :=
    (hmarked.nodup_iff.1 hnodup).sublist (List.sublist_append_right _ _)
  refine ⟨hconserved, honce, ?_, ?_, ?_, ?_⟩
  · intro R hR k hk
    have hmem : PhysFrame.ofNumber k ∈ areaFrames areas :=
      List.mem_map_of_mem (List.mem_flatMap.2 ⟨R, hR,
        (mem_frameNumbers _ _).2 ((MemoryRegion.covers_iff R k).1 hk)⟩)
    have hother : PhysFrame.ofNumber k ∉ drawn log := fun hlog =>
      (List.nodup_append.1 honce).2.2 _ hmem _ (List.mem_append_left _ hlog) rfl
    rw [MemoryMap.sort_ledger hsettled, hdraws.ledger_kept hwell hother,
      (hreserved.moved R hR k hk).2]
  · intro T k hk
    have hfrom : PhysFrame.ofNumber k ∈ a.memoryMap.frames :=
      hdrawn.mem_iff.2 (List.mem_append_left _ (mem_drawn hk))
    have husable := hreserved.orderly.alone k (usable_of_mem_frames hfrom)
    rw [MemoryMap.sort_ledger hsettled, hdraws.ledger_moved hwell hfree hT hk, husable]
    rfl
  · intro k hkarea hklog
    rw [MemoryMap.sort_ledger hsettled, hdraws.ledger_kept hwell hklog,
      hreserved.kept k (not_covers_of_not_mem_areaFrames hkarea)]
  · rw [valid_sort_iff (hdraws.wellFormed hwell)]
    simp only [hdraws.card_ledger hwell, hreserved.card_ledger]

/-- The areas of `linker.ld` with a bootloader of 44 KiB and a kernel of 1 MiB. -/
def lowLayout : BootLayout where
  bootloaderStart := ⟨0x5000, by decide⟩
  bootloaderEnd := ⟨0x10000, by decide⟩
  kernelStart := ⟨0x400000, by decide⟩
  kernelSize := 0x100000
  pageTableStart := ⟨0x1000, by decide⟩
  pageTableEnd := ⟨0x5000, by decide⟩
  bootloader_lt := by decide
  kernel_pos := by decide
  pageTable_lt := by decide

def lowAreas : List MemoryRegion :=
  [⟨⟨0, 1⟩, .frameZero⟩, ⟨⟨5, 0x10⟩, .bootloader⟩, ⟨⟨0x400, 0x500⟩, .kernel⟩,
    ⟨⟨1, 5⟩, .pageTable⟩]

theorem lowLayout_areas : usedAreas lowLayout = some lowAreas := by decide +kernel

theorem lowRegions_bounded : ∀ r ∈ lowRegions, Bounded r := by
  have h : ∀ r ∈ lowRegions, r.range.startFrameNumber.toNat ≤ r.range.endFrameNumber.toNat ∧
      r.range.endFrameNumber.toNat < 2 ^ 40 := by decide
  exact fun r hr => ⟨(h r hr).1, (h r hr).2⟩

theorem lowAreas_apart : lowAreas.Pairwise (fun R R' => ¬ Meets R' R) := by
  unfold Meets
  decide

/-- A boot on `lowMemory` that draws one frame for the kernel's stack. -/
structure LowBoot (m : MemoryMap) (a a' : FrameAllocator) : Prop where
  created : createFrom (.insertion _) lowMemory = some m
  regions : m.regions = [⟨⟨0, 0x9f⟩, .usable⟩, ⟨⟨0x9f, 0xa0⟩, .reserved⟩,
    ⟨⟨0xf0, 0x100⟩, .reserved⟩, ⟨⟨0x100, 0x7fe0⟩, .usable⟩]
  reserved : reserveUsed (.insertion _) lowLayout m = some a
  drawn : Draws (.insertion _) a [(.kernelStack, some (PhysFrame.ofNumber 0x10))] a'

theorem lowBoot_exists : ∃ m a a', LowBoot m a a' := by
  obtain ⟨m, hm, hregions⟩ := lowMemory_created
  have hrun : ((createFrom (.insertion _) lowMemory).bind (fun m =>
      (reserveUsed (.insertion _) lowLayout m).bind (fun a =>
        (a.allocateFrame (.insertion _) .kernelStack).map Prod.fst))) =
          some (some (PhysFrame.ofNumber 0x10)) := by decide +kernel
  rw [hm, Option.bind_some] at hrun
  obtain ⟨a, ha, hcall⟩ := Option.bind_eq_some_iff.1 hrun
  obtain ⟨⟨frame, a'⟩, hfirst, rfl⟩ := Option.map_eq_some_iff.1 hcall
  exact ⟨m, a, a', hm, hregions, ha, .cons hfirst (.nil a')⟩

theorem LowBoot.disjoint {m : MemoryMap} {a a' : FrameAllocator} (h : LowBoot m a a') (k : ℕ) :
    (m.ledger k).card ≤ 1 := by
  refine (card_owners_le_one_iff _ _ _).2 ?_ k
  have hends : m.regions.Pairwise (fun r s =>
      r.range.endFrameNumber.toNat ≤ s.range.startFrameNumber.toNat) := by
    rw [h.regions]
    decide
  apply hends.imp
  intro r s hle j hj
  rw [MemoryRegion.covers_iff] at hj
  rw [MemoryRegion.covers, decide_eq_false_iff_not]
  omega

theorem LowBoot.bootable {m : MemoryMap} {a a' : FrameAllocator} (h : LowBoot m a a') :
    Bootable lowRegions m lowAreas where
  bounded := lowRegions_bounded
  alone k hk := eq_singleton_of_mem hk (h.disjoint k)
  fits := by
    unfold Fits Within
    rw [h.regions]
    decide
  apart := lowAreas_apart

/-- Every boot that gets to the kernel, whatever it draws frames for on the way. -/
theorem boot_hands_over {es : List E820MemoryRegion} {rs areas : List MemoryRegion}
    {layout : BootLayout} {m : MemoryMap} {a a' : FrameAllocator} {log : DrawLog}
    (hcreate : createFrom sorter es = some m) (hrs : es.mapM MemoryRegion.ofE820 = some rs)
    (hareas : usedAreas layout = some areas) (hboot : Bootable rs m areas)
    (hreserve : reserveUsed sorter layout m = some a) (hdraws : Draws sorter a log a')
    (hT : ∀ e ∈ log, e.1 ≠ .usable) :
    HandedOver m areas log (a'.memoryMap.sort sorter) := by
  obtain ⟨hreserved, hnodup⟩ := hboot.reserved hcreate hrs hareas hreserve
  exact handedOver_of_reserved hreserved hnodup hdraws hT

theorem boot_hands_over_low_memory : ∃ m a a', LowBoot m a a' ∧
    HandedOver m lowAreas [(.kernelStack, some (PhysFrame.ofNumber 0x10))]
      (a'.memoryMap.sort (.insertion _)) := by
  obtain ⟨m, a, a', h⟩ := lowBoot_exists
  exact ⟨m, a, a', h, boot_hands_over h.created lowMemory_regions lowLayout_areas h.bootable
    h.reserved h.drawn (by simp)⟩

theorem LowBoot.handedOver {m : MemoryMap} {a a' : FrameAllocator} (h : LowBoot m a a') :
    HandedOver m lowAreas [(.kernelStack, some (PhysFrame.ofNumber 0x10))]
      (a'.memoryMap.sort (.insertion _)) := by
  obtain ⟨hreserved, hnodup⟩ :=
    h.bootable.reserved h.created lowMemory_regions lowLayout_areas h.reserved
  exact handedOver_of_reserved hreserved hnodup h.drawn (by simp)

theorem LowBoot.frames {m : MemoryMap} {a a' : FrameAllocator} (h : LowBoot m a a') :
    (a'.memoryMap.sort (.insertion _)).frames.length = 32366 := by
  have hlen := h.handedOver.conserved.length_eq
  have hcreated : m.frames.length = 32639 := by
    rw [MemoryMap.frames, MemoryMap.usableNumbers, h.regions]
    simp [FrameRange.frameNumbers]
  have harea : (areaFrames lowAreas).length = 272 := by
    simp [areaFrames, lowAreas, FrameRange.frameNumbers]
  rw [List.length_append, List.length_append, hcreated, harea] at hlen
  simp only [drawn_cons_some, List.length_cons] at hlen
  change _ = 272 + (0 + 1 + _) at hlen
  omega

end

end LlmOs.Boot
