import LlmOs.BootPaging

set_option autoImplicit false

/-!
# The window on physical memory

The part of `bootloader_main` that maps all physical memory in pages of 2 MiB, and
`memory.rs` of the kernel, which reaches every page table through that window. The
mapper is that of the `x86_64` crate. A panic is `none`, and so is an error of the
mapper here, since `bootloader_main` expects a mapping.
-/
namespace LlmOs.Boot
open Memory

def LEVEL_4_SIZE : ℕ := 4096 * 512 * 512 * 512

/-- `Size2MiB::SIZE`. -/
def HUGE_SIZE : ℕ := 4096 * 512

def level4EntriesFor (maxPhys : ℕ) : ℕ := (maxPhys + (LEVEL_4_SIZE - 1)) / LEVEL_4_SIZE

/-- The start of `Page::from_page_table_indices_1gib(idx, 0)`. -/
def level4Start (idx : ℕ) : Option UInt64 :=
  (VirtAddr.new (.ofNat (idx * LEVEL_4_SIZE))).map (fun addr => .ofNat addr.value)

def physicalMemoryOffset (configured : Option UInt64) (u : UsedLevel4Entries) (maxPhys : ℕ) :
    Option (UInt64 × UsedLevel4Entries) :=
  match configured with
  | some offset => some (offset, u)
  | none =>
    (u.getFreeEntries (level4EntriesFor maxPhys)).bind (fun (idx, u) =>
      (level4Start idx).map (fun offset => (offset, u)))

def virtForPhys (offset : UInt64) (phys : ℕ) : Option VirtAddr :=
  VirtAddr.new (.ofNat (phys + offset.toNat))

@[ext] structure HugePage where
  startAddress : ℕ
  aligned : startAddress % HUGE_SIZE = 0
  deriving DecidableEq

def HugePage.containingAddress (addr : VirtAddr) : HugePage :=
  ⟨addr.value - addr.value % HUGE_SIZE, by unfold HUGE_SIZE; omega⟩

structure HugeFrame where
  startAddress : ℕ
  aligned : startAddress % HUGE_SIZE = 0

def HugeFrame.ofNumber (i : ℕ) : HugeFrame := ⟨i * HUGE_SIZE, Nat.mul_mod_left _ _⟩

structure HugeMapper (T : Type) where
  mapTo : {A : Type} → [Memory.FrameAllocator A] → T → HugePage → HugeFrame → PageTableFlags → A →
    Option (T × A)
  entry : T → HugePage → Option (HugeFrame × PageTableFlags)

/-- `map_to` refuses a page that is mapped, and changes no other one. -/
structure HugeMapper.Contract {T : Type} (mapper : HugeMapper T) : Prop where
  fresh : ∀ {A : Type} [Memory.FrameAllocator A] {t t' : T} {page : HugePage} {frame : HugeFrame}
    {flags : PageTableFlags} {a a' : A}, mapper.mapTo t page frame flags a = some (t', a') →
      mapper.entry t page = none
  installs : ∀ {A : Type} [Memory.FrameAllocator A] {t t' : T} {page : HugePage}
    {frame : HugeFrame} {flags : PageTableFlags} {a a' : A},
    mapper.mapTo t page frame flags a = some (t', a') → mapper.entry t' page = some (frame, flags)
  others : ∀ {A : Type} [Memory.FrameAllocator A] {t t' : T} {page : HugePage} {frame : HugeFrame}
    {flags : PageTableFlags} {a a' : A}, mapper.mapTo t page frame flags a = some (t', a') →
      ∀ q, q ≠ page → mapper.entry t' q = mapper.entry t q

/-- The frames of `range_inclusive(start_frame, end_frame)`, by their number. -/
def windowFrames (maxPhys : ℕ) : Option (List ℕ) :=
  (PhysAddr.new maxPhys).map (fun last => List.range (last.value / HUGE_SIZE + 1))

section
variable {T A : Type} [Memory.FrameAllocator A] (mapper : HugeMapper T)

def mapFrames (offset : UInt64) : List ℕ → T → A → Option (T × A)
  | [], t, a => some (t, a)
  | i :: frames, t, a =>
    (virtForPhys offset (HugeFrame.ofNumber i).startAddress).bind (fun addr =>
      (mapper.mapTo t (.containingAddress addr) (.ofNumber i) (PRESENT ||| WRITABLE) a).bind
        (fun (t, a) => mapFrames offset frames t a))

def mapPhysicalMemory (offset : UInt64) (maxPhys : ℕ) (t : T) (a : A) : Option (T × A) :=
  (windowFrames maxPhys).bind (fun frames => mapFrames mapper offset frames t a)

/-- What an access to an address of the window reaches. -/
def HugeMapper.translate (t : T) (addr : VirtAddr) : Option ℕ :=
  (mapper.entry t (.containingAddress addr)).map (fun (frame, _) =>
    frame.startAddress + addr.value % HUGE_SIZE)

end

/-- Where `active_level_4_table` and the kernel's `OffsetPageTable` look for the
physical address `phys`. -/
def physToVirt (offset : UInt64) (phys : ℕ) : Option VirtAddr :=
  (VirtAddr.new offset).bind (fun addr => addr.add phys)

section
variable {T A : Type} [Memory.FrameAllocator A] {mapper : HugeMapper T}

/-- Pages that are mapped stay as they are, whatever is mapped beside them. -/
theorem mapFrames_keeps (hmapper : mapper.Contract) {offset : UInt64} {frames : List ℕ} {t t' : T}
    {a a' : A} (h : mapFrames mapper offset frames t a = some (t', a')) {page : HugePage}
    (hpage : mapper.entry t page ≠ none) : mapper.entry t' page = mapper.entry t page := by
  induction frames generalizing t a with
  | nil =>
    rw [mapFrames, Option.some.injEq, Prod.mk.injEq] at h
    rw [h.1]
  | cons i frames ih =>
    obtain ⟨addr, _, hrest⟩ := Option.bind_eq_some_iff.1 h
    obtain ⟨⟨t₁, a₁⟩, hmap, hrest⟩ := Option.bind_eq_some_iff.1 hrest
    have hne : page ≠ .containingAddress addr := by
      rintro rfl
      exact hpage (hmapper.fresh hmap)
    have hkept := hmapper.others hmap page hne
    rw [ih hrest (hkept ▸ hpage), hkept]

theorem mapFrames_entry (hmapper : mapper.Contract) {offset : UInt64} {frames : List ℕ} {t t' : T}
    {a a' : A} (h : mapFrames mapper offset frames t a = some (t', a')) {i : ℕ} (hi : i ∈ frames) :
    ∃ addr, virtForPhys offset (i * HUGE_SIZE) = some addr ∧
      mapper.entry t' (.containingAddress addr) = some (.ofNumber i, PRESENT ||| WRITABLE) := by
  induction frames generalizing t a with
  | nil => cases hi
  | cons j frames ih =>
    obtain ⟨addr, haddr, hbind⟩ := Option.bind_eq_some_iff.1 h
    obtain ⟨⟨t₁, a₁⟩, hmap, hrest⟩ := Option.bind_eq_some_iff.1 hbind
    dsimp only at hrest
    obtain rfl | hi := List.mem_cons.1 hi
    · refine ⟨addr, haddr, ?_⟩
      have hinstalled := hmapper.installs hmap
      have hmapped : mapper.entry t₁ (.containingAddress addr) ≠ none := by simp [hinstalled]
      rw [mapFrames_keeps hmapper hrest hmapped, hinstalled]
    · exact ih hrest hi

/-- The window begins at its offset. -/
theorem physToVirt_zero {offset : UInt64} {addr : VirtAddr}
    (h : virtForPhys offset 0 = some addr) : physToVirt offset 0 = some addr := by
  rw [virtForPhys, VirtAddr.new_ofNat_eq_some_iff] at h
  have hoffset := offset.toNat_lt
  have hfirst : VirtAddr.new offset = some addr :=
    VirtAddr.new_eq_some_iff.2 ⟨by omega, by omega⟩
  have hcanonical := addr.canonical
  rw [physToVirt, hfirst, Option.bind_some, VirtAddr.add, VirtAddr.new_ofNat_eq_some_iff]
  omega

/-- With an offset that is a multiple of the page size the kernel finds a frame's
page and the place in it. -/
theorem physToVirt_aligned {offset : UInt64} (hoffset : offset.toNat % HUGE_SIZE = 0) {phys : ℕ}
    (hphys : phys < 2 ^ 53) {first addr : VirtAddr} (hfirst : virtForPhys offset 0 = some first)
    (haddr : virtForPhys offset (phys / HUGE_SIZE * HUGE_SIZE) = some addr) :
    ∃ va, physToVirt offset phys = some va ∧
      HugePage.containingAddress va = .containingAddress addr ∧
      va.value % HUGE_SIZE = phys % HUGE_SIZE := by
  rw [virtForPhys, VirtAddr.new_ofNat_eq_some_iff] at hfirst haddr
  have hlt := offset.toNat_lt
  have hnew : VirtAddr.new offset = some first := VirtAddr.new_eq_some_iff.2 ⟨by omega, by omega⟩
  have hcanonical := first.canonical
  have hcanonical' := addr.canonical
  unfold HUGE_SIZE at *
  obtain ⟨va, hva⟩ := VirtAddr.exists_new (show
    (first.value + phys) % 2 ^ 64 < 2 ^ 48 ∨ 2 ^ 64 - 2 ^ 47 ≤ (first.value + phys) % 2 ^ 64 by
      omega)
  refine ⟨va, ?_, ?_, ?_⟩
  · rw [physToVirt, hnew, Option.bind_some, VirtAddr.add, hva]
  · rw [VirtAddr.new_ofNat_eq_some_iff] at hva
    have hcanonical'' := va.canonical
    apply HugePage.ext
    change va.value - va.value % (4096 * 512) = addr.value - addr.value % (4096 * 512)
    omega
  · rw [VirtAddr.new_ofNat_eq_some_iff] at hva
    omega

end

/-- Tables with pages of 2 MiB only: the tables present below the root, by level and
by the number of the first page they serve, and the mapped pages. -/
structure HugeTables where
  present : List (ℕ × ℕ)
  mapped : List (HugePage × HugeFrame × PageTableFlags)

namespace HugeTables

def absent (t : HugeTables) (page : HugePage) : List (ℕ × ℕ) :=
  [(3, page.startAddress / 2 ^ 39), (2, page.startAddress / 2 ^ 30)].filter
    (fun table => !t.present.contains table)

def mapper : HugeMapper HugeTables where
  mapTo t page frame flags a :=
    match drawFrames (t.absent page).length a with
    | some (some _, a) =>
      if (t.mapped.lookup page).isSome then none
      else some (⟨t.absent page ++ t.present, (page, frame, flags) :: t.mapped⟩, a)
    | _ => none
  entry t page := t.mapped.lookup page

theorem mapTo_some {A : Type} [Memory.FrameAllocator A] {t t' : HugeTables} {page : HugePage}
    {frame : HugeFrame} {flags : PageTableFlags} {a a' : A}
    (h : mapper.mapTo t page frame flags a = some (t', a')) :
    t.mapped.lookup page = none ∧ t'.mapped = (page, frame, flags) :: t.mapped := by
  simp only [mapper] at h
  split at h
  · split_ifs at h with hmapped
    rw [Option.some.injEq, Prod.mk.injEq] at h
    obtain ⟨rfl, _⟩ := h
    exact ⟨Option.not_isSome_iff_eq_none.1 hmapped, rfl⟩
  · cases h

theorem mapper_contract : mapper.Contract where
  fresh h := (mapTo_some h).1
  installs h := by
    change List.lookup _ _ = _
    rw [(mapTo_some h).2]
    exact List.lookup_cons_self
  others h q hq := by
    change List.lookup q _ = List.lookup q _
    have hne : (q == _) = false := beq_false_of_ne hq
    rw [(mapTo_some h).2, List.lookup_cons, hne]

end HugeTables

theorem level4Start_some {idx : ℕ} (h : idx < 512) :
    ∃ offset, level4Start idx = some offset ∧ offset.toNat % 2 ^ 48 = idx * LEVEL_4_SIZE ∧
      (offset.toNat < 2 ^ 47 ∨ 2 ^ 64 - 2 ^ 47 ≤ offset.toNat) := by
  unfold level4Start LEVEL_4_SIZE
  obtain ⟨va, hva⟩ := VirtAddr.exists_new (show idx * (4096 * 512 * 512 * 512) % 2 ^ 64 < 2 ^ 48 ∨
    2 ^ 64 - 2 ^ 47 ≤ idx * (4096 * 512 * 512 * 512) % 2 ^ 64 by omega)
  have hcanonical := va.canonical
  refine ⟨.ofNat va.value, by rw [hva, Option.map_some], ?_⟩
  rw [VirtAddr.new_ofNat_eq_some_iff] at hva
  have hnat : (UInt64.ofNat va.value).toNat = va.value % 2 ^ 64 := UInt64.toNat_ofNat'
  rw [hnat]
  omega

/-- The window fits into the level 4 entries that were taken for it exactly if the
memory does not end on a border of 512 GiB: the last frame that is mapped is the one
that contains the end address, not the one before it. -/
theorem window_in_block_iff {segments : List ProgramHeader64} {u₀ u u' : UsedLevel4Entries}
    {blocks : List (ℕ × ℕ)} (hnew : UsedLevel4Entries.new segments = some u₀)
    (htakes : UsedLevel4Entries.Takes u₀ blocks u) {maxPhys : ℕ} {offset : UInt64}
    (h : physicalMemoryOffset none u maxPhys = some (offset, u')) :
    ∃ idx, u.getFreeEntries (level4EntriesFor maxPhys) = some (idx, u') ∧
      ((∀ i ≤ maxPhys / HUGE_SIZE, ∃ addr, virtForPhys offset (i * HUGE_SIZE) = some addr ∧
          UsedLevel4Entries.InBlock (idx, level4EntriesFor maxPhys) addr.p4Index) ↔
        ¬ LEVEL_4_SIZE ∣ maxPhys) := by
  obtain ⟨⟨idx, u₁⟩, htake, hstart⟩ := Option.bind_eq_some_iff.1 h
  obtain ⟨offset', hoffset', heq⟩ := Option.map_eq_some_iff.1 hstart
  rw [Prod.mk.injEq] at heq
  obtain ⟨rfl, rfl⟩ := heq
  refine ⟨idx, htake, ?_⟩
  have htaken := UsedLevel4Entries.getFreeEntries_some htake
  have hpos := htaken.pos
  have hbound := fun k hk =>
    ((UsedLevel4Entries.isFree_new hnew k).1 (htakes.isFree_of_isFree (htaken.free k hk))).1
  have hfirst := hbound idx ⟨le_rfl, by dsimp only; omega⟩
  have hend := hbound (idx + level4EntriesFor maxPhys - 1) ⟨by dsimp only; omega, by dsimp only; omega⟩
  obtain ⟨offset, hoffset, hmod, hcanonical⟩ := level4Start_some hfirst.2
  obtain rfl : offset' = offset := Option.some.inj (hoffset'.symm.trans hoffset)
  have hlt := offset'.toNat_lt
  unfold UsedLevel4Entries.InBlock level4EntriesFor virtForPhys VirtAddr.p4Index at *
  unfold LEVEL_4_SIZE HUGE_SIZE at *
  dsimp only
  constructor
  · intro hall hdvd
    obtain ⟨addr, haddr, hin⟩ := hall (maxPhys / (4096 * 512)) le_rfl
    rw [VirtAddr.new_ofNat_eq_some_iff] at haddr
    omega
  · intro hdvd i hi
    obtain ⟨addr, haddr⟩ := VirtAddr.exists_new (show
      (i * (4096 * 512) + offset'.toNat) % 2 ^ 64 < 2 ^ 48 ∨
        2 ^ 64 - 2 ^ 47 ≤ (i * (4096 * 512) + offset'.toNat) % 2 ^ 64 by omega)
    refine ⟨addr, haddr, ?_⟩
    rw [VirtAddr.new_ofNat_eq_some_iff] at haddr
    omega

/-- Firmware that reports an area up to 1 TiB: the window needs a third entry. -/
theorem window_out_of_block_terabyte : ∃ u₀ u u' offset,
    UsedLevel4Entries.new UsedLevel4Entries.twoSegments = some u₀ ∧
    UsedLevel4Entries.Takes u₀ [(1, 1)] u ∧
    physicalMemoryOffset none u (2 ^ 40) = some (offset, u') ∧
    ∃ idx, u.getFreeEntries 2 = some (idx, u') ∧
      ¬ ∀ i ≤ 2 ^ 40 / HUGE_SIZE, ∃ addr, virtForPhys offset (i * HUGE_SIZE) = some addr ∧
        UsedLevel4Entries.InBlock (idx, 2) addr.p4Index := by
  have hrun : ((UsedLevel4Entries.new UsedLevel4Entries.twoSegments).bind (fun u =>
      (u.getFreeEntries 1).bind (fun r => (physicalMemoryOffset none r.2 (2 ^ 40)).map (fun s =>
        (r.1, s.1))))) = some (1, 0x10000000000) := by decide +kernel
  obtain ⟨u₀, hnew, hrun⟩ := Option.bind_eq_some_iff.1 hrun
  obtain ⟨⟨i, u⟩, htake, hrun⟩ := Option.bind_eq_some_iff.1 hrun
  obtain ⟨⟨offset, u'⟩, hwindow, heq⟩ := Option.map_eq_some_iff.1 hrun
  rw [Prod.mk.injEq] at heq
  obtain ⟨rfl, rfl⟩ := heq
  have htakes := UsedLevel4Entries.Takes.cons htake (.nil u)
  obtain ⟨idx, hidx, hiff⟩ := window_in_block_iff hnew htakes hwindow
  refine ⟨u₀, u, u', _, hnew, htakes, hwindow, idx, hidx, fun hall => ?_⟩
  exact hiff.1 hall (by decide)

end LlmOs.Boot
