import LlmOs.BootHandOff
import LlmOs.BootPaging

set_option autoImplicit false

/-!
# Loading the kernel

`map_segment` and `map_kernel` of `bootloader/src/page_table.rs`, and the part of
`bootloader_main` that calls them. A segment is mapped
to the frames of the file where it can be, and what lies beyond the file is backed by
fresh frames and zeroed. A panic and a page fault have no result.
-/
namespace LlmOs.Boot
open Memory

structure TlsTemplate where
  startAddr : UInt64
  memSize : UInt64
  fileSize : UInt64
  deriving DecidableEq, Repr

structure MemoryInfo where
  stackEnd : ℕ
  tlsSegment : Option TlsTemplate

inductive MapKernelError where
  | mapping (e : MapToError)
  | multipleTlsSegments

def PhysAddr.addU64 (addr : PhysAddr) (n : UInt64) : Option PhysAddr :=
  PhysAddr.new (UInt64.ofNat addr.value + n).toNat

def VirtAddr.sub (addr : VirtAddr) (n : ℕ) : Option VirtAddr :=
  if n ≤ addr.value then VirtAddr.new (.ofNat (addr.value - n)) else none

def alignUp (addr align : ℕ) : ℕ := (addr + (align - 1)) / align * align

/-- `Page + n`. -/
def Page.add (page : Page) (n : ℕ) : Option Page :=
  (VirtAddr.new (.ofNat (page.startAddress + n * 4096))).map (fun addr =>
    Page.containingAddress addr.value)

def Page.range (first last : Page) : List Page :=
  (List.range ((last.startAddress - first.startAddress) / 4096)).map first.next

/-- The iterator steps to the frame behind `last` too. -/
def PhysFrame.rangeInclusive (first last : PhysFrame) : Option (List PhysFrame) :=
  if first.startAddress ≤ last.startAddress then
    (PhysFrame.add last 1).map (fun stop =>
      (List.range ((stop.startAddress - first.startAddress) / 4096)).map (fun k =>
        PhysFrame.ofNumber (first.startAddress / 4096 + k)))
  else some []

def NO_EXECUTE : PageTableFlags := 0x8000000000000000

def segmentFlags (segment : ProgramHeader64) : PageTableFlags :=
  PRESENT ||| (if segment.execute then 0 else NO_EXECUTE) |||
    (if segment.write then WRITABLE else 0)

def TEMP_PAGE : Page := Page.containingAddress 0xfeeefeee000

section
variable {T : Type} (m : Machine T) (sorter : SortUnstableBy MemoryRegion)

def mapFile (flags : PageTableFlags) (startPage : Page) (startFrame endFrame : PhysFrame) :
    Run MapToError (BootState T) Unit := do
  let frames ← .ofOption (PhysFrame.rangeInclusive startFrame endFrame)
  frames.forM (fun frame => do
    let offset := (frame.startAddress - startFrame.startAddress) / 4096
    let page ← .ofOption (Page.add startPage offset)
    mapPage m sorter page frame flags)

def copyBytes (t : T) (source target : PhysFrame) : T :=
  (List.range 4096).foldl (fun t' i =>
    m.store t' (target.startAddress + i) (m.byte t (source.startAddress + i))) t

def copyPage (source target : Page) : Run MapToError (BootState T) Unit :=
  .ofStep (fun s => (m.entry s.1 source).bind (fun sourceEntry =>
    (m.entry s.1 target).map (fun targetEntry =>
      (.ok (), copyBytes m s.1 sourceEntry.1 targetEntry.1, s.2))))

def unmapPage (page : Page) : Run MapToError (BootState T) Unit :=
  .ofStep (fun s =>
    match m.unmap s.1 page with
    | (.ok (), t) => some (.ok (), t, s.2)
    | (.error .parentEntryHugePage, t) => some (.error .parentEntryHugePage, t, s.2)
    | (.error _, _) => none)

/-- The last page of the file part may hold the start of the next segment too, so it
is copied before its end is zeroed. The page it is copied through stays mapped. -/
def copyLastPage (flags : PageTableFlags) (virtStart : VirtAddr) (fileSize : UInt64) :
    Run MapToError (BootState T) Unit := do
  let newFrame ← allocate sorter .kernel
  mapPage m sorter TEMP_PAGE newFrame flags
  let lastAddr ← .ofOption ((virtStart.add fileSize.toNat).bind (fun addr => addr.sub 1))
  let lastPage := Page.containingAddress lastAddr.value
  copyPage m lastPage TEMP_PAGE
  unmapPage m lastPage
  mapPage m sorter lastPage newFrame flags

def mapFresh (regionType : MemoryRegionType) (flags : PageTableFlags) (pages : List Page) :
    Run MapToError (BootState T) Unit :=
  pages.forM (fun page => do
    let frame ← allocate sorter regionType
    mapPage m sorter page frame flags)

def storeByte (addr : VirtAddr) (b : UInt8) : Run MapToError (BootState T) Unit :=
  .ofStep (fun s => (m.entry s.1 (.containingAddress addr.value)).map (fun entry =>
    (.ok (), m.store s.1 (entry.1.startAddress + addr.value % 4096) b, s.2)))

def zeroBytes (virtStart : VirtAddr) (fileSize memSize : UInt64) :
    Run MapToError (BootState T) Unit :=
  (List.range' fileSize.toNat (memSize.toNat - fileSize.toNat)).forM (fun offset => do
    let addr ← .ofOption (virtStart.add offset)
    storeByte m addr 0)

/-- The part of a segment that is not in the file. -/
def mapZeroed (flags : PageTableFlags) (virtStart : VirtAddr) (fileSize memSize : UInt64) :
    Run MapToError (BootState T) Unit := do
  let zeroStart ← .ofOption (virtStart.add fileSize.toNat)
  let zeroEnd ← .ofOption (virtStart.add memSize.toNat)
  (if zeroStart.value % 4096 ≠ 0 then copyLastPage m sorter flags virtStart fileSize
    else return)
  let startAddr ← .ofOption (VirtAddr.new (.ofNat (alignUp zeroStart.value 4096)))
  mapFresh m sorter .kernel flags
    (Page.rangeInclusive (.containingAddress startAddr.value) (.containingAddress zeroEnd.value))
  zeroBytes m virtStart fileSize memSize

def mapLoad (segment : ProgramHeader64) (kernelStart : PhysAddr) :
    Run MapToError (BootState T) Unit := do
  let physStart ← .ofOption (PhysAddr.addU64 kernelStart segment.offset)
  let virtStart ← .ofOption (VirtAddr.new segment.virtualAddr)
  let physEnd ← .ofOption (PhysAddr.addU64 physStart segment.fileSize)
  let physLast ← .ofOption (PhysAddr.sub physEnd 1)
  let flags := segmentFlags segment
  mapFile m sorter flags (.containingAddress virtStart.value) (.containingAddress physStart)
    (.containingAddress physLast)
  (if segment.memSize > segment.fileSize then
    mapZeroed m sorter flags virtStart segment.fileSize segment.memSize
    else return)

def mapSegment (segment : ProgramHeader64) (kernelStart : PhysAddr) :
    Run MapToError (BootState T) (Option TlsTemplate) :=
  match segment.type with
  | none => .ofOption none
  | some .load => do
    mapLoad m sorter segment kernelStart
    return none
  | some .tls => return some ⟨segment.virtualAddr, segment.memSize, segment.fileSize⟩
  | some .other => return none

def mapSegments (kernelStart : PhysAddr) : List ProgramHeader64 → Option TlsTemplate →
    Run MapKernelError (BootState T) (Option TlsTemplate)
  | [], tlsSegment => return tlsSegment
  | segment :: segments, tlsSegment => do
    let tls ← (mapSegment m sorter segment kernelStart).mapError .mapping
    match tls with
    | none => mapSegments kernelStart segments tlsSegment
    | some tls =>
      if tlsSegment.isSome then throw .multipleTlsSegments
      else mapSegments kernelStart segments (some tls)

/-- The page at `stackStart` is left unmapped as a guard page. -/
def mapKernel (kernelStart : PhysAddr) (stackStart : Page) (stackSize : ℕ)
    (segments : List ProgramHeader64) : Run MapKernelError (BootState T) MemoryInfo := do
  let tlsSegment ← mapSegments m sorter kernelStart segments none
  let stackStart ← .ofOption (Page.add stackStart 1)
  let stackEnd ← .ofOption (Page.add stackStart stackSize)
  (mapFresh m sorter .kernelStack (PRESENT ||| WRITABLE) (Page.range stackStart stackEnd)).mapError
    .mapping
  return ⟨stackEnd.startAddress, tlsSegment⟩

/-- The page for the boot information, then the kernel. -/
def loadKernel (kernelStart : PhysAddr) (bootInfo stackStart : Page) (stackSize : ℕ)
    (segments : List ProgramHeader64) : Run MapKernelError (BootState T) MemoryInfo := do
  (mapFresh m sorter .bootInfo (PRESENT ||| WRITABLE) [bootInfo]).mapError .mapping
  mapKernel m sorter kernelStart stackStart stackSize segments

end

theorem pageAddress_aligned (n : ℕ) : n * 4096 % 4096 = 0 := Nat.mul_mod_left n 4096

/-- The page with a number. -/
def pageAt (n : ℕ) : Page := ⟨n * 4096, pageAddress_aligned n⟩

theorem pageAt_injective : Function.Injective pageAt := by
  intro a b h
  have haddr : a * 4096 = b * 4096 := congrArg Page.startAddress h
  omega

theorem containingAddress_pageAt (addr : ℕ) : Page.containingAddress addr = pageAt (addr / 4096) := by
  ext
  change addr - addr % 4096 = addr / 4096 * 4096
  omega

theorem eq_pageAt (page : Page) : page = pageAt (page.startAddress / 4096) := by
  have haligned := page.aligned
  ext
  change page.startAddress = page.startAddress / 4096 * 4096
  omega

theorem next_pageAt (n k : ℕ) : (pageAt n).next k = pageAt (n + k) := by
  ext
  change n * 4096 + k * 4096 = (n + k) * 4096
  omega

/-- A run of pages. -/
def pagesFrom (n count : ℕ) : List Page := (List.range' n count).map pageAt

theorem mem_pagesFrom {n count : ℕ} {page : Page} :
    page ∈ pagesFrom n count ↔ ∃ k, n ≤ k ∧ k < n + count ∧ pageAt k = page := by
  simp only [pagesFrom, List.mem_map, List.mem_range'_1, and_assoc]

theorem pageAt_mem_pagesFrom {n count k : ℕ} :
    pageAt k ∈ pagesFrom n count ↔ n ≤ k ∧ k < n + count := by
  rw [mem_pagesFrom]
  constructor
  · rintro ⟨j, hlow, hhigh, heq⟩
    obtain rfl := pageAt_injective heq
    exact ⟨hlow, hhigh⟩
  · rintro ⟨hlow, hhigh⟩
    exact ⟨k, hlow, hhigh, rfl⟩

theorem map_next_pageAt (n count : ℕ) :
    (List.range count).map (pageAt n).next = pagesFrom n count := by
  rw [pagesFrom, List.range'_eq_map_range, List.map_map]
  apply List.map_congr_left
  intro k _
  exact next_pageAt n k

theorem rangeInclusive_pageAt (a b : ℕ) :
    Page.rangeInclusive (pageAt a) (pageAt b) = pagesFrom a (b + 1 - a) := by
  rw [Page.rangeInclusive, map_next_pageAt]
  congr 1
  change (b * 4096 + 4096 - a * 4096) / 4096 = b + 1 - a
  omega

theorem range_pageAt (a b : ℕ) : Page.range (pageAt a) (pageAt b) = pagesFrom a (b - a) := by
  rw [Page.range, map_next_pageAt]
  congr 1
  change (b * 4096 - a * 4096) / 4096 = b - a
  omega

/-- Addresses from `low` up to `high` that lie in one half of the address space. -/
def InHalf (low high : ℕ) : Prop := high ≤ 2 ^ 47 ∨ 2 ^ 64 - 2 ^ 47 ≤ low ∧ high ≤ 2 ^ 64

theorem InHalf.mono {low high low' high' : ℕ} (h : InHalf low high) (hlow : low ≤ low')
    (hhigh : high' ≤ high) : InHalf low' high' := by
  unfold InHalf at *
  omega

theorem VirtAddr.value_of_new {n : ℕ} {va : VirtAddr} (h : VirtAddr.new (.ofNat n) = some va)
    (hhalf : InHalf n (n + 1)) : va.value = n := by
  rw [VirtAddr.new_ofNat_eq_some_iff] at h
  have hcanonical := va.canonical
  unfold InHalf at hhalf
  omega

theorem Page.add_some {n k : ℕ} {page : Page} (h : Page.add (pageAt n) k = some page)
    (hhalf : InHalf ((n + k) * 4096) ((n + k + 1) * 4096)) : page = pageAt (n + k) := by
  have hstart : (pageAt n).startAddress + k * 4096 = (n + k) * 4096 := (Nat.add_mul n k 4096).symm
  rw [Page.add, hstart] at h
  obtain ⟨va, hva, rfl⟩ := Option.map_eq_some_iff.1 h
  have hvalue : va.value = (n + k) * 4096 :=
    VirtAddr.value_of_new hva (hhalf.mono le_rfl (by omega))
  rw [containingAddress_pageAt, hvalue, Nat.mul_div_cancel _ (by omega)]

theorem PhysFrame.rangeInclusive_some {k l : ℕ} {frames : List PhysFrame}
    (h : PhysFrame.rangeInclusive (.ofNumber k) (.ofNumber l) = some frames) :
    frames = (List.range (l + 1 - k)).map (fun i => PhysFrame.ofNumber (k + i)) := by
  have hk : (PhysFrame.ofNumber k).startAddress = k * 4096 := rfl
  have hl : (PhysFrame.ofNumber l).startAddress = l * 4096 := rfl
  unfold PhysFrame.rangeInclusive at h
  split_ifs at h with hle
  · obtain ⟨stop, hstop, rfl⟩ := Option.map_eq_some_iff.1 h
    obtain ⟨addr, haddr, rfl⟩ := Option.map_eq_some_iff.1 hstop
    have hvalue := PhysAddr.new_some haddr
    rw [hl] at hvalue
    rw [containingAddress_eq, hvalue, hk]
    change List.map _ (List.range (((l * 4096 + 1 * 4096) / 4096 * 4096 - k * 4096) / 4096)) = _
    rw [Nat.mul_div_cancel _ (by omega),
      show ((l * 4096 + 1 * 4096) / 4096 * 4096 - k * 4096) / 4096 = l + 1 - k by omega]
  · obtain rfl := Option.some.inj h
    rw [hk, hl] at hle
    rw [show l + 1 - k = 0 by omega]
    rfl

section
variable {T : Type} {m : Machine T} {sorter : SortUnstableBy MemoryRegion}

/-- The file part: consecutive pages show consecutive frames of the file. -/
theorem mapFile_ends (hm : m.Contract) {s : BootState T} (hs : Sound m s) {flags : PageTableFlags}
    {n k l : ℕ} (hhalf : InHalf (n * 4096) ((n + (l + 1 - k)) * 4096)) :
    (mapFile m sorter flags (pageAt n) (.ofNumber k) (.ofNumber l)).Ends s
      (fun _ s' => Step m s s' (pagesFrom n (l + 1 - k)) ∧
        ∀ i < l + 1 - k, m.entry s'.1 (pageAt (n + i)) = some (.ofNumber (k + i), flags))
      (Failed m s (pagesFrom n (l + 1 - k))) := by
  refine .ofOption_bind (fun frames hframes => ?_)
  obtain rfl := PhysFrame.rangeInclusive_some hframes
  have hnumber : ∀ j, (PhysFrame.ofNumber j).startAddress = j * 4096 := fun j => rfl
  let page : PhysFrame → Page := fun f => pageAt (n + (f.startAddress / 4096 - k))
  have hpage : ∀ i, page (.ofNumber (k + i)) = pageAt (n + i) := by
    intro i
    change pageAt (n + ((k + i) * 4096 / 4096 - k)) = pageAt (n + i)
    congr 1
    omega
  have hpages : ((List.range (l + 1 - k)).map (fun i => PhysFrame.ofNumber (k + i))).map page =
      pagesFrom n (l + 1 - k) := by
    rw [List.map_map, pagesFrom, List.range'_eq_map_range, List.map_map]
    exact List.map_congr_left (fun i _ => hpage i)
  rw [← hpages]
  refine (forM_maps page (fun f s' => m.entry s'.1 (page f) = some (f, flags)) hs ?_ ?_).mono ?_ ?_
  · intro f s₁ s₂ pages hstep hentry
    rw [hstep.entry_eq (by simp [hentry]), hentry]
  · intro f hf s₁ pages hstep
    obtain ⟨i, hi, rfl⟩ := List.mem_map.1 hf
    rw [List.mem_range] at hi
    refine .ofOption_bind (fun p hp => ?_)
    have hoffset : ((PhysFrame.ofNumber (k + i)).startAddress -
        (PhysFrame.ofNumber k).startAddress) / 4096 = i := by
      rw [hnumber, hnumber]
      omega
    rw [hoffset] at hp
    obtain rfl := Page.add_some hp (hhalf.mono (by omega) (by omega))
    rw [hpage]
    exact mapPage_ends hm hstep.sound _ _ _
  · rintro _ s' ⟨hstep, hall⟩
    refine ⟨hstep, fun i hi => ?_⟩
    rw [← hpage]
    exact hall _ (List.mem_map_of_mem (List.mem_range.2 hi))
  · intro e s' hfail
    exact hfail

/-- Pages with a fresh frame each. -/
theorem mapFresh_ends (hm : m.Contract) {s : BootState T} (hs : Sound m s)
    {regionType : MemoryRegionType} (hT : regionType ≠ .usable) (flags : PageTableFlags)
    (pages : List Page) :
    (mapFresh m sorter regionType flags pages).Ends s
      (fun _ s' => Step m s s' pages ∧ ∀ page ∈ pages, ∃ g, m.entry s'.1 page = some (g, flags) ∧
        Owned m s' g ∧ g ∈ s.2.memoryMap.frames)
      (Failed m s pages) := by
  refine (forM_maps id (fun page s' => ∃ g, m.entry s'.1 page = some (g, flags) ∧
    Owned m s' g ∧ g ∈ s.2.memoryMap.frames) hs ?_ ?_).mono ?_ ?_
  · rintro page s₁ s₂ done hstep ⟨g, hentry, hg, hfree⟩
    refine ⟨g, ?_, hstep.owned g hg, hfree⟩
    rw [hstep.entry_eq (by simp [hentry]), hentry]
  · intro page _ s₁ done hstep
    refine (allocate_ends hstep.sound hT s₁ [page]).bind ?_
    rintro g s₂ ⟨hdraw, hfree, hg⟩
    refine (mapPage_ends hm hdraw.sound page g flags).mono ?_ ?_
    · rintro _ s₃ ⟨hmap, hentry⟩
      exact ⟨hdraw.trans hmap, g, hentry, hmap.owned g hg, hstep.free g hfree⟩
    · intro e s₃ hfail
      have hwhole : Failed m s₁ ([] ++ [page] ++ []) e s₃ := hfail.after hdraw
      exact hwhole
  · rintro _ s' ⟨hstep, hall⟩
    exact ⟨by simpa using hstep, hall⟩
  · intro e s' hfail
    simpa using hfail

theorem frameOf_add {f : PhysFrame} {i : ℕ} (hi : i < 4096) : frameOf (f.startAddress + i) = f := by
  have haligned := f.aligned
  ext
  change (f.startAddress + i) / 4096 * 4096 = f.startAddress
  omega

theorem frameOf_add_inj {f g : PhysFrame} {i j : ℕ} (hi : i < 4096) (hj : j < 4096)
    (h : f.startAddress + i = g.startAddress + j) : f = g ∧ i = j := by
  have hf := f.aligned
  have hg := g.aligned
  exact ⟨PhysFrame.ext (by omega), by omega⟩

/-- The copy of a frame into one that holds no page table. -/
theorem copyBytes_spec (hm : m.Contract) (t : T) (f : PhysFrame) {g : PhysFrame}
    (hg : ¬ m.holdsTable t g) : SameTables m t (copyBytes m t f g) ∧
      (∀ phys, frameOf phys ≠ g → m.byte (copyBytes m t f g) phys = m.byte t phys) ∧
      ∀ i < 4096, m.byte (copyBytes m t f g) (g.startAddress + i) = m.byte t (f.startAddress + i) := by
  suffices h : ∀ n ≤ 4096, ∀ t', t' = (List.range n).foldl (fun t' i =>
      m.store t' (g.startAddress + i) (m.byte t (f.startAddress + i))) t →
      SameTables m t t' ∧ (∀ phys, frameOf phys ≠ g → m.byte t' phys = m.byte t phys) ∧
      ∀ i < n, m.byte t' (g.startAddress + i) = m.byte t (f.startAddress + i) from
    h 4096 le_rfl _ rfl
  intro n
  induction n with
  | zero =>
    intro _ t' ht'
    rw [ht']
    exact ⟨.refl m t, fun _ _ => rfl, by simp⟩
  | succ n ih =>
    rintro hn t' rfl
    rw [List.range_succ, List.foldl_append, List.foldl_cons, List.foldl_nil]
    obtain ⟨hsame, hothers, hcopied⟩ := ih (by omega) _ rfl
    have hframe : frameOf (g.startAddress + n) = g := frameOf_add (by omega)
    refine ⟨hsame.store hm (by rwa [hframe]) _, ?_, ?_⟩
    · intro phys hphys
      have hne : phys ≠ g.startAddress + n := fun heq => hphys (by rw [heq, hframe])
      rw [hm.stored, if_neg hne, hothers phys hphys]
    · intro i hi
      rw [hm.stored]
      by_cases heq : i = n
      · rw [heq, if_pos rfl]
      · rw [if_neg (by omega), hcopied i (by omega)]

end

end LlmOs.Boot
