import LlmOs.LoadedKernel
import LlmOs.PhysicalWindow

set_option autoImplicit false

/-!
# From the firmware's map to the loaded kernel

The steps of `bootloader_main` between the marks in the memory map and the window on
physical memory: the page for the boot information, the kernel's segments and its
stack. What they rely on is what the marks have left.
-/
namespace LlmOs.Boot
open Memory Ownership

def bootInfoPage (configured : Option UInt64) (u : UsedLevel4Entries) :
    Option (Page × UsedLevel4Entries) :=
  match configured with
  | some addr => (VirtAddr.new addr).map (fun addr => (Page.containingAddress addr.value, u))
  | none =>
    (u.getFreeEntries 1).bind (fun (idx, u) =>
      (level4Start idx).map (fun start => (Page.containingAddress start.toNat, u)))

def kernelStackAddress (configured : Option UInt64) (bootInfo : Page) : Option Page :=
  match configured with
  | some addr => (VirtAddr.new addr).map (fun addr => Page.containingAddress addr.value)
  | none => Page.add bootInfo 1

section
variable {T : Type} {m : Machine T} {sorter : SortUnstableBy MemoryRegion}

/-- The run as a whole. -/
theorem loadKernel_ends (hm : m.Contract) {s : BootState T} {kernelStart : PhysAddr}
    {kernelSize : ℕ} {segments : List ProgramHeader64}
    (h : Prepared m s kernelStart kernelSize segments) {stackStart : Page} {stackSize : ℕ}
    (hstack : StackInHalf stackStart stackSize) (bootInfo : Page) :
    (loadKernel m sorter kernelStart bootInfo stackStart stackSize segments).Ends s
      (fun _ s' => Step m s s' (bootInfo :: kernelPages segments stackStart stackSize) ∧
        ∀ segment ∈ segments, segment.type = some .load →
          Loaded m s' segment (fun i => m.byte s.1 (kernelStart.value + i)))
      (fun _ _ => True) := by
  refine ((mapFresh_ends hm h.sound (by decide) _ [bootInfo]).mapError
    (fun _ _ _ => trivial)).bind ?_
  rintro _ s₁ ⟨hinfo, _⟩
  refine (mapKernel_ends hm (h.step hinfo) hstack).mono ?_ (fun _ _ _ => trivial)
  rintro _ s' ⟨hstep, hloaded, _⟩
  refine ⟨hinfo.trans hstep, fun segment hsegment htype => ?_⟩
  have hsegmentLoaded := hloaded segment hsegment htype
  refine { hsegmentLoaded with file := fun i hi => ?_ }
  have hinFile := (h.load segment hsegment htype).inFile
  rw [hsegmentLoaded.file i hi]
  exact congrArg some (h.file.byte hinfo (by omega))

/-- The stack is mapped behind the page that is given for it. -/
theorem stack_mapped {s s' : BootState T} {segments : List ProgramHeader64}
    {bootInfo stackStart : Page} {stackSize : ℕ}
    (h : Step m s s' (bootInfo :: kernelPages segments stackStart stackSize)) {i : ℕ}
    (hi : i < stackSize) : m.entry s'.1 (stackStart.next (i + 1)) ≠ none := by
  apply h.mapped
  rw [eq_pageAt stackStart, next_pageAt, ← eq_pageAt stackStart]
  refine List.mem_cons_of_mem _ (List.mem_append_right _ (pageAt_mem_pagesFrom.2 ?_))
  omega

theorem LowLoad.run {a : FrameAllocator} {s₁ s' : BootState WalkedMemory} {info : MemoryInfo}
    (h : LowLoad a s₁ info s') : loadKernel WalkedMemory.machine (.insertion _)
      lowLayout.kernelStart (pageAt (2 ^ 28)) (pageAt (2 ^ 28 + 1)) 1 lowSegments (lowStart a) =
        some (.ok info, s') := by
  have hinfo : Run.mapError MapKernelError.mapping (mapFresh WalkedMemory.machine (.insertion _)
      .bootInfo (PRESENT ||| WRITABLE) [pageAt (2 ^ 28)]) (lowStart a) = some (.ok (), s₁) := by
    rw [Run.mapError, h.bootInfo]
    rfl
  rw [loadKernel, Run.bind_apply, hinfo]
  exact h.kernel

/-- The pages of a segment lie in level 4 entries that count as used. -/
theorem segment_uses {kernelStart : PhysAddr} {kernelSize : ℕ} {segment : ProgramHeader64}
    (hload : Loadable kernelStart kernelSize segment) {k : ℕ}
    (hlow : segment.virtualAddr.toNat / 4096 ≤ k)
    (hhigh : k ≤ (segment.virtualAddr.toNat + segment.memSize.toNat) / 4096) :
    UsedLevel4Entries.SegmentUses segment (k * 4096 / 2 ^ 39 % 512) := by
  have hinHalf := hload.inHalf
  have hhalf : UsedLevel4Entries.InOneHalf segment := by
    unfold UsedLevel4Entries.InOneHalf
    unfold InHalf at hinHalf
    omega
  have hexists : ∃ addr : VirtAddr, addr.value = max segment.virtualAddr.toNat (k * 4096) := by
    unfold InHalf at hinHalf
    exact ⟨⟨_, by omega⟩, rfl⟩
  obtain ⟨addr, haddr⟩ := hexists
  have hindex : addr.p4Index = k * 4096 / 2 ^ 39 % 512 := by
    unfold VirtAddr.p4Index
    omega
  rw [← hindex]
  exact UsedLevel4Entries.uses_of_address hhalf (by omega) (by omega)

/-- Without a configured address the boot information starts a level 4 entry that no
segment uses. -/
theorem bootInfoPage_free {segments : List ProgramHeader64} {u₀ u u' : UsedLevel4Entries}
    {blocks : List (ℕ × ℕ)} (hnew : UsedLevel4Entries.new segments = some u₀)
    (htakes : UsedLevel4Entries.Takes u₀ blocks u) {bootInfo : Page}
    (hinfo : bootInfoPage none u = some (bootInfo, u')) :
    ∃ n, bootInfo = pageAt n ∧ n % 2 ^ 27 = 0 ∧ InHalf (n * 4096) ((n + 2 ^ 27) * 4096) ∧
      ∀ segment ∈ segments, ¬ UsedLevel4Entries.SegmentUses segment (n * 4096 / 2 ^ 39 % 512) := by
  dsimp only [bootInfoPage] at hinfo
  obtain ⟨⟨idx, u₁⟩, htake, hstart⟩ := Option.bind_eq_some_iff.1 hinfo
  obtain ⟨start, hlevel4, heq⟩ := Option.map_eq_some_iff.1 hstart
  rw [Prod.mk.injEq] at heq
  obtain ⟨rfl, rfl⟩ := heq
  have htaken := UsedLevel4Entries.getFreeEntries_some htake
  obtain ⟨hbounds, hclear⟩ := (UsedLevel4Entries.isFree_new hnew idx).1
    (htakes.isFree_of_isFree (htaken.free idx ⟨le_refl idx, Nat.lt_succ_self idx⟩))
  obtain ⟨start', hlevel4', hmod, hcanonical⟩ := level4Start_some hbounds.2
  obtain rfl : start = start' := Option.some.inj (hlevel4.symm.trans hlevel4')
  have hlt := start.toNat_lt
  unfold LEVEL_4_SIZE at hmod
  refine ⟨start.toNat / 4096, containingAddress_pageAt _, by omega, ?_, ?_⟩
  · unfold InHalf
    omega
  · rw [show start.toNat / 4096 * 4096 / 2 ^ 39 % 512 = idx by omega]
    exact hclear

/-- The page behind the boot information is in nothing that is mapped for the kernel. -/
theorem guard_not_mem {kernelStart : PhysAddr} {kernelSize : ℕ} {segments : List ProgramHeader64}
    (hload : ∀ segment ∈ segments, segment.type = some .load →
      Loadable kernelStart kernelSize segment) {n : ℕ} (hn : n % 2 ^ 27 = 0)
    (hclear : ∀ segment ∈ segments,
      ¬ UsedLevel4Entries.SegmentUses segment (n * 4096 / 2 ^ 39 % 512)) (stackSize : ℕ) :
    pageAt (n + 1) ∉ pageAt n :: kernelPages segments (pageAt (n + 1)) stackSize := by
  have haddress : (pageAt (n + 1)).startAddress = (n + 1) * 4096 := rfl
  rw [List.mem_cons, kernelPages, List.mem_append, haddress, pageAt_mem_pagesFrom,
    List.mem_flatMap]
  rintro (hpage | ⟨segment, hsegment, hpage⟩ | hpage)
  · have hsame := pageAt_injective hpage
    omega
  · obtain ⟨htype, htemp | ⟨k, hk, hlow, hhigh⟩⟩ := segmentPages_cases (hload segment hsegment) hpage
    · have hsame : (n + 1) * 4096 = 0xfeeefeee000 := congrArg Page.startAddress htemp
      omega
    · obtain rfl := pageAt_injective hk
      have huses := segment_uses (hload segment hsegment htype) hlow hhigh
      rw [show (n + 1) * 4096 / 2 ^ 39 % 512 = n * 4096 / 2 ^ 39 % 512 by omega] at huses
      exact hclear segment hsegment huses
  · omega

end

end LlmOs.Boot
