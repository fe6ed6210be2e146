import LlmOs.LoadedSegment

set_option autoImplicit false

/-!
# The kernel in memory

`map_kernel` as a whole: when it succeeds, what it leaves, and exactly when it does.
-/
namespace LlmOs.Boot
open Memory Ownership

def segmentPages (segment : ProgramHeader64) : List Page :=
  if segment.type = some .load then segment.loadPages else []

/-- The pages that `map_kernel` maps, in its order. -/
def kernelPages (segments : List ProgramHeader64) (stackStart : Page) (stackSize : ℕ) : List Page :=
  segments.flatMap segmentPages ++ pagesFrom (stackStart.startAddress / 4096 + 1) stackSize

def tlsSegments (segments : List ProgramHeader64) : ℕ :=
  segments.countP (fun segment => segment.type = some .tls)

section
variable {T : Type} {m : Machine T} {sorter : SortUnstableBy MemoryRegion}

/-- How `map_kernel` can fail. -/
def KernelFailed (m : Machine T) (s : BootState T) (pages : List Page) (tls : ℕ) :
    MapKernelError → BootState T → Prop
  | .mapping e, s' => Failed m s pages e s'
  | .multipleTlsSegments, _ => 1 < tls

/-- The frames of the kernel's file hold its bytes. -/
def FileOwned (m : Machine T) (s : BootState T) (kernelStart : PhysAddr) (kernelSize : ℕ) : Prop :=
  ∀ k, kernelStart.value / 4096 ≤ k → k ≤ (kernelStart.value + kernelSize - 1) / 4096 →
    Owned m s (.ofNumber k)

/-- What the loader relies on: the usable frames are in nobody's hands, the kernel's
file lies in frames that are in use, below the limit of physical addresses, and its
segments are as a linker makes them. -/
structure Prepared (m : Machine T) (s : BootState T) (kernelStart : PhysAddr) (kernelSize : ℕ)
    (segments : List ProgramHeader64) : Prop where
  sound : Sound m s
  below : kernelStart.value + kernelSize < 2 ^ 52
  file : FileOwned m s kernelStart kernelSize
  load : ∀ segment ∈ segments, segment.type = some .load → Loadable kernelStart kernelSize segment

/-- The stack and its guard page leave room for a page in their half of the address
space. -/
def StackInHalf (stackStart : Page) (stackSize : ℕ) : Prop :=
  InHalf stackStart.startAddress (stackStart.startAddress + (stackSize + 2) * 4096)

/-- The page tables that the bootloader starts with lie in their area. -/
def TablesInArea (m : Machine T) (t : T) (layout : BootLayout) : Prop :=
  ∀ f, m.holdsTable t f → ∃ k, f = .ofNumber k ∧ layout.pageTableStart.value / 4096 ≤ k ∧
    k ≤ (layout.pageTableEnd.value - 1) / 4096

/-- A frame of a marked area is not usable any more. -/
theorem not_mem_frames_of_covers {areas : List MemoryRegion} {map map' : MemoryMap}
    (h : Reserved areas map map') {R : MemoryRegion} (hR : R ∈ areas) (hT : R.regionType ≠ .usable)
    {k : ℕ} (hk : R.covers k = true) : PhysFrame.ofNumber k ∉ map'.frames := by
  intro hmem
  have husable := usable_of_mem_frames hmem
  rw [(h.moved R hR k hk).2, Multiset.mem_singleton] at husable
  exact hT husable.symm

/-- After the marks the loader can rely on its frames. -/
theorem prepared_of_reserved {areas : List MemoryRegion} {map : MemoryMap} {a : FrameAllocator}
    {layout : BootLayout} (h : Reserved areas map a.memoryMap) (hnodup : map.frames.Nodup)
    (hareas : usedAreas layout = some areas) {t : T} (htables : TablesInArea m t layout)
    {segments : List ProgramHeader64} (hload : ∀ segment ∈ segments, segment.type = some .load →
      Loadable layout.kernelStart layout.kernelSize segment) :
    Prepared m (t, a) layout.kernelStart layout.kernelSize segments := by
  obtain ⟨hbelow, ⟨K, hK, hKtype, hKcovers⟩, P, hP, hPtype, hPcovers⟩ := usedAreas_cover hareas
  have hmarked : map.frames.Perm (areaFrames areas ++ a.memoryMap.frames) := by
    have hperm := h.perm.map PhysFrame.ofNumber
    rwa [List.map_append] at hperm
  refine ⟨⟨h.orderly.wellFormed, ?_, ?_⟩, hbelow, ?_, hload⟩
  · exact (hmarked.nodup_iff.1 hnodup).sublist (List.sublist_append_right _ _)
  · intro f hf
    obtain ⟨k, rfl, hlow, hhigh⟩ := htables f hf
    exact not_mem_frames_of_covers h hP (by rw [hPtype]; decide) (hPcovers k hlow hhigh)
  · intro k hlow hhigh
    have hcovers := hKcovers k hlow hhigh
    refine ⟨not_mem_frames_of_covers h hK (by rw [hKtype]; decide) hcovers, fun htable => ?_⟩
    obtain ⟨j, hj, hlow', hhigh'⟩ := htables _ htable
    obtain rfl := PhysFrame.ofNumber_injective hj
    have hkernel := (h.moved K hK k hcovers).2
    rw [(h.moved P hP k (hPcovers k hlow' hhigh')).2, hPtype, hKtype, Multiset.singleton_inj] at hkernel
    cases hkernel

theorem FileOwned.step {s s' : BootState T} {kernelStart : PhysAddr} {kernelSize : ℕ}
    {pages : List Page} (h : FileOwned m s kernelStart kernelSize) (hstep : Step m s s' pages) :
    FileOwned m s' kernelStart kernelSize :=
  fun k hlow hhigh => hstep.owned _ (h k hlow hhigh)

theorem Prepared.step {s s' : BootState T} {kernelStart : PhysAddr} {kernelSize : ℕ}
    {segments : List ProgramHeader64} {pages : List Page}
    (h : Prepared m s kernelStart kernelSize segments) (hstep : Step m s s' pages) :
    Prepared m s' kernelStart kernelSize segments :=
  ⟨hstep.sound, h.below, h.file.step hstep, h.load⟩

theorem FileOwned.byte {s s' : BootState T} {kernelStart : PhysAddr} {kernelSize : ℕ}
    {pages : List Page} (h : FileOwned m s kernelStart kernelSize) (hstep : Step m s s' pages)
    {i : ℕ} (hi : i < kernelSize) :
    m.byte s'.1 (kernelStart.value + i) = m.byte s.1 (kernelStart.value + i) :=
  hstep.bytes _ (h _ (by omega) (by omega))

theorem read_step {s s' : BootState T} {pages : List Page} (hstep : Step m s s' pages) {addr : ℕ}
    {f : PhysFrame} {flags : PageTableFlags}
    (hentry : m.entry s.1 (.containingAddress addr) = some (f, flags)) (howned : Owned m s f) :
    m.read s'.1 addr = m.read s.1 addr := by
  have hmod : addr % 4096 < 4096 := Nat.mod_lt _ (by omega)
  have hentry' : m.entry s'.1 (.containingAddress addr) = some (f, flags) := by
    rw [hstep.entry_eq (by simp [hentry]), hentry]
  rw [Machine.read, Machine.read, Machine.translate, Machine.translate, hentry, hentry']
  exact congrArg some (hstep.bytes _ (by rwa [frameOf_add hmod]))

/-- A loaded segment stays loaded. -/
theorem Loaded.step {s s' : BootState T} {pages : List Page} {segment : ProgramHeader64}
    {image : ℕ → UInt8} (h : Loaded m s segment image)
    (hsizes : segment.fileSize.toNat ≤ segment.memSize.toNat) (hstep : Step m s s' pages) :
    Loaded m s' segment image where
  backed i hi := by
    obtain ⟨f, hentry, howned⟩ := h.backed i hi
    refine ⟨f, ?_, hstep.owned f howned⟩
    rw [hstep.entry_eq (by simp [hentry]), hentry]
  file i hi := by
    obtain ⟨f, hentry, howned⟩ := h.backed i (by omega)
    rw [read_step hstep hentry howned, h.file i hi]
  zero i hlow hhigh := by
    obtain ⟨f, hentry, howned⟩ := h.backed i hhigh
    rw [read_step hstep hentry howned, h.zero i hlow hhigh]

section Kernel

variable {kernelStart : PhysAddr} {kernelSize : ℕ}

/-- One segment, of whatever type. -/
theorem mapSegment_ends (hm : m.Contract) {s₀ s : BootState T} {pages : List Page}
    (hstep : Step m s₀ s pages) (hkernel : kernelStart.value + kernelSize < 2 ^ 52)
    (hfile : FileOwned m s₀ kernelStart kernelSize) {segment : ProgramHeader64}
    (hload : segment.type = some .load → Loadable kernelStart kernelSize segment) :
    (mapSegment m sorter segment kernelStart).Ends s
      (fun tls s' => Step m s s' (segmentPages segment) ∧
        (segment.type = some .load →
          Loaded m s' segment (fun i => m.byte s₀.1 (kernelStart.value + i))) ∧
        (tls.isSome ↔ segment.type = some .tls))
      (Failed m s (segmentPages segment)) := by
  unfold mapSegment segmentPages
  cases htype : segment.type with
  | none => exact .ofOption (fun a ha => by cases ha)
  | some type =>
    cases type with
    | load =>
      have hloadable := hload htype
      have hinFile := hloadable.inFile
      rw [if_pos rfl]
      refine (mapLoad_ends hm hstep.sound hkernel hloadable (hfile.step hstep)).bind ?_
      rintro _ s' ⟨hstep', hloaded⟩
      refine .pure ⟨hstep', fun _ => ?_, by simp⟩
      refine { hloaded with file := fun i hi => ?_ }
      rw [hloaded.file i hi]
      exact congrArg some (hfile.byte hstep (by omega))
    | tls =>
      rw [if_neg (by simp)]
      exact .pure ⟨.refl hstep.sound, by simp, by simp⟩
    | other =>
      rw [if_neg (by simp)]
      exact .pure ⟨.refl hstep.sound, by simp, by simp⟩

/-- The loop over the segments. -/
theorem mapSegments_ends (hm : m.Contract) {s₀ : BootState T}
    (hkernel : kernelStart.value + kernelSize < 2 ^ 52)
    (hfile : FileOwned m s₀ kernelStart kernelSize) {segments : List ProgramHeader64}
    (hload : ∀ segment ∈ segments, segment.type = some .load →
      Loadable kernelStart kernelSize segment)
    {s : BootState T} {pages : List Page} (hstep : Step m s₀ s pages) (tls : Option TlsTemplate) :
    (mapSegments m sorter kernelStart segments tls).Ends s
      (fun _ s' => Step m s s' (segments.flatMap segmentPages) ∧
        (∀ segment ∈ segments, segment.type = some .load →
          Loaded m s' segment (fun i => m.byte s₀.1 (kernelStart.value + i))) ∧
        tlsSegments segments + tls.toList.length ≤ 1)
      (KernelFailed m s (segments.flatMap segmentPages)
        (tlsSegments segments + tls.toList.length)) := by
  induction segments generalizing s pages tls with
  | nil =>
    refine .pure ⟨.refl hstep.sound, by simp, ?_⟩
    cases tls <;> simp [tlsSegments]
  | cons segment segments ih =>
    rw [List.forall_mem_cons] at hload
    rw [List.flatMap_cons]
    refine ((mapSegment_ends hm hstep hkernel hfile hload.1).mapError ?_).bind ?_
    · intro e s' hfail
      exact Failed.append hstep.sound hfail _
    rintro found s₁ ⟨hstep₁, hloaded, hfound⟩
    have hrest : ∀ tls', tlsSegments segments + tls'.toList.length =
        tlsSegments (segment :: segments) + tls.toList.length →
        (mapSegments m sorter kernelStart segments tls').Ends s₁
          (fun _ s' => Step m s s' (segmentPages segment ++ segments.flatMap segmentPages) ∧
            (∀ segment' ∈ segment :: segments, segment'.type = some .load →
              Loaded m s' segment' (fun i => m.byte s₀.1 (kernelStart.value + i))) ∧
            tlsSegments (segment :: segments) + tls.toList.length ≤ 1)
          (KernelFailed m s (segmentPages segment ++ segments.flatMap segmentPages)
            (tlsSegments (segment :: segments) + tls.toList.length)) := by
      intro tls' hcount
      refine (ih hload.2 (hstep.trans hstep₁) tls').mono ?_ ?_
      · rintro _ s' ⟨hstep', hall, hone⟩
        refine ⟨hstep₁.trans hstep', List.forall_mem_cons.2 ⟨fun htype => ?_, hall⟩, hcount ▸ hone⟩
        exact (hloaded htype).step (hload.1 htype).fileSize_le hstep'
      · intro e s' hfail
        cases e with
        | mapping e =>
          have hwhole : Failed m s
              (segmentPages segment ++ segments.flatMap segmentPages ++ []) e s' :=
            Failed.after hstep₁ hfail
          rwa [List.append_nil] at hwhole
        | multipleTlsSegments => exact hcount ▸ hfail
    cases found with
    | none =>
      refine hrest tls ?_
      have hother : segment.type ≠ some .tls := fun h => by simpa using hfound.2 h
      rw [tlsSegments, tlsSegments, List.countP_cons_of_neg (by simpa using hother)]
    | some template =>
      have htls : segment.type = some .tls := hfound.1 rfl
      have hcount : tlsSegments (segment :: segments) = tlsSegments segments + 1 := by
        rw [tlsSegments, tlsSegments, List.countP_cons_of_pos (by simpa using htls)]
      cases tls with
      | none => exact hrest (some template) hcount.symm
      | some earlier =>
        refine .throw ?_
        change 1 < tlsSegments (segment :: segments) + 1
        omega

/-- The pages of the stack, behind the guard page. -/
theorem stack_pages {stackStart first last : Page} {stackSize : ℕ}
    (hfirst : Page.add stackStart 1 = some first) (hlast : Page.add first stackSize = some last)
    (hhalf : StackInHalf stackStart stackSize) :
    Page.range first last = pagesFrom (stackStart.startAddress / 4096 + 1) stackSize := by
  have haligned := stackStart.aligned
  rw [eq_pageAt stackStart] at hfirst
  obtain rfl := Page.add_some hfirst (hhalf.mono (by omega) (by omega))
  obtain rfl := Page.add_some hlast (hhalf.mono (by omega) (by omega))
  rw [range_pageAt, Nat.add_sub_cancel_left]

/-- `map_kernel`, when it succeeds and when it fails. -/
theorem mapKernel_ends (hm : m.Contract) {s : BootState T} {segments : List ProgramHeader64}
    (h : Prepared m s kernelStart kernelSize segments) {stackStart : Page} {stackSize : ℕ}
    (hstack : StackInHalf stackStart stackSize) :
    (mapKernel m sorter kernelStart stackStart stackSize segments).Ends s
      (fun _ s' => Step m s s' (kernelPages segments stackStart stackSize) ∧
        (∀ segment ∈ segments, segment.type = some .load →
          Loaded m s' segment (fun i => m.byte s.1 (kernelStart.value + i))) ∧
        tlsSegments segments ≤ 1)
      (KernelFailed m s (kernelPages segments stackStart stackSize) (tlsSegments segments)) := by
  unfold kernelPages
  refine ((mapSegments_ends hm h.below h.file h.load (.refl h.sound) none).mono
    (fun _ _ h => h) ?_).bind ?_
  · intro e s' hfail
    cases e with
    | mapping e => exact Failed.append h.sound hfail _
    | multipleTlsSegments => exact hfail
  rintro tls s₁ ⟨hstep, hloaded, htls⟩
  refine .ofOption_bind (fun first hfirst => ?_)
  refine .ofOption_bind (fun last hlast => ?_)
  rw [stack_pages hfirst hlast hstack]
  refine ((mapFresh_ends hm hstep.sound (by decide) _ _).mapError ?_).bind ?_
  · intro e s' hfail
    have hwhole : Failed m s (segments.flatMap segmentPages ++
        pagesFrom (stackStart.startAddress / 4096 + 1) stackSize ++ []) e s' := hfail.after hstep
    rwa [List.append_nil] at hwhole
  rintro _ s' ⟨hstack', _⟩
  refine .pure ⟨hstep.trans hstack', fun segment hsegment htype => ?_, htls⟩
  exact (hloaded segment hsegment htype).step (h.load segment hsegment htype).fileSize_le hstack'

/-- A kernel whose two segments share a page of the file. The second one goes on
beyond the file. -/
def lowSegments : List ProgramHeader64 :=
  [⟨some .load, true, false, 0, 0x200000, 0x1800, 0x1800⟩,
    ⟨some .load, false, true, 0x1800, 0x203800, 0x900, 0x910⟩]

def lowStart (a : FrameAllocator) : BootState WalkedMemory :=
  (⟨⟨[], []⟩, [.ofNumber 1, .ofNumber 2, .ofNumber 3, .ofNumber 4], fun phys => .ofNat phys⟩, a)

/-- A boot on `lowMemory` that loads `lowSegments`, with a stack of one page. -/
structure LowLoad (a : FrameAllocator) (s₁ : BootState WalkedMemory) (info : MemoryInfo)
    (s' : BootState WalkedMemory) : Prop where
  bootInfo : mapFresh WalkedMemory.machine (.insertion _) .bootInfo (PRESENT ||| WRITABLE)
    [pageAt (2 ^ 28)] (lowStart a) = some (.ok (), s₁)
  kernel : mapKernel WalkedMemory.machine (.insertion _) lowLayout.kernelStart
    (pageAt (2 ^ 28 + 1)) 1 lowSegments s₁ = some (.ok info, s')
  left : s'.2.memoryMap.frames ≠ []

theorem lowLoad_exists : ∃ map a a' s₁ info s', LowBoot map a a' ∧ LowLoad a s₁ info s' := by
  obtain ⟨map, a, a', h⟩ := lowBoot_exists
  have hrun : ((createFrom (.insertion _) lowMemory).bind (fun map =>
      (reserveUsed (.insertion _) lowLayout map).bind (fun a =>
        (mapFresh WalkedMemory.machine (.insertion _) .bootInfo (PRESENT ||| WRITABLE)
          [pageAt (2 ^ 28)] (lowStart a)).bind (fun r =>
            (mapKernel WalkedMemory.machine (.insertion _) lowLayout.kernelStart
              (pageAt (2 ^ 28 + 1)) 1 lowSegments r.2).map (fun q =>
                (r.1.isOk, q.1.isOk, q.2.2.memoryMap.frames.isEmpty)))))) =
      some (true, true, false) := by decide +kernel
  rw [h.created, Option.bind_some, h.reserved, Option.bind_some] at hrun
  obtain ⟨⟨r, s₁⟩, hinfo, hrun⟩ := Option.bind_eq_some_iff.1 hrun
  obtain ⟨⟨q, s'⟩, hkernel, heq⟩ := Option.map_eq_some_iff.1 hrun
  simp only [Prod.mk.injEq] at heq
  cases r with
  | error e => simp [Except.isOk, Except.toBool] at heq
  | ok _ =>
    cases q with
    | error e => simp [Except.isOk, Except.toBool] at heq
    | ok info =>
      refine ⟨map, a, a', s₁, info, s', h, hinfo, hkernel, ?_⟩
      rw [← List.isEmpty_eq_false_iff]
      exact heq.2.2

theorem lowSegments_loadable : ∀ segment ∈ lowSegments, segment.type = some .load →
    Loadable lowLayout.kernelStart lowLayout.kernelSize segment := by
  have h : ∀ segment ∈ lowSegments,
      segment.offset.toNat + segment.fileSize.toNat ≤ lowLayout.kernelSize ∧
      segment.fileSize.toNat ≤ segment.memSize.toNat ∧
      segment.virtualAddr.toNat % 4096 =
        (lowLayout.kernelStart.value + segment.offset.toNat) % 4096 ∧
      segment.virtualAddr.toNat + segment.memSize.toNat + 4096 ≤ 2 ^ 47 := by decide
  intro segment hsegment _
  obtain ⟨hinFile, hsizes, hcongruent, hhalf⟩ := h segment hsegment
  exact ⟨hinFile, hsizes, hcongruent, .inl hhalf⟩

theorem lowStack_inHalf : StackInHalf (pageAt (2 ^ 28 + 1)) 1 := .inl (by decide)

theorem lowStart_tables (a : FrameAllocator) :
    TablesInArea WalkedMemory.machine (lowStart a).1 lowLayout := by
  intro f hf
  have hnumbers : f ∈ [1, 2, 3, 4].map PhysFrame.ofNumber := hf
  obtain ⟨k, hk, rfl⟩ := List.mem_map.1 hnumbers
  refine ⟨k, rfl, ?_⟩
  have hall : ∀ k ∈ [1, 2, 3, 4], lowLayout.pageTableStart.value / 4096 ≤ k ∧
      k ≤ (lowLayout.pageTableEnd.value - 1) / 4096 := by decide
  exact hall k hk

/-- The state that `LowLoad` starts from. -/
theorem lowStart_prepared {map : MemoryMap} {a a' : FrameAllocator} (h : LowBoot map a a') :
    Prepared WalkedMemory.machine (lowStart a) lowLayout.kernelStart lowLayout.kernelSize
      lowSegments := by
  obtain ⟨hreserved, hnodup⟩ :=
    h.bootable.reserved h.created lowMemory_regions lowLayout_areas h.reserved
  exact prepared_of_reserved hreserved hnodup lowLayout_areas (lowStart_tables a)
    lowSegments_loadable

theorem LowLoad.prepared {map : MemoryMap} {a a' : FrameAllocator} {s₁ s' : BootState WalkedMemory}
    {info : MemoryInfo} (h : LowLoad a s₁ info s') (hboot : LowBoot map a a') :
    Prepared WalkedMemory.machine s₁ lowLayout.kernelStart lowLayout.kernelSize lowSegments := by
  have hstart := lowStart_prepared hboot
  have hends : (mapFresh WalkedMemory.machine (.insertion _) .bootInfo (PRESENT ||| WRITABLE)
      [pageAt (2 ^ 28)]).Ends (lowStart a) _ _ :=
    mapFresh_ends WalkedMemory.machine_contract hstart.sound (by decide) _ _
  obtain ⟨hstep, _⟩ := hends.returns h.bootInfo
  exact hstart.step hstep

/-- Where the pages of a segment lie. -/
theorem segmentPages_cases {segment : ProgramHeader64} {page : Page}
    (hload : segment.type = some .load → Loadable kernelStart kernelSize segment)
    (h : page ∈ segmentPages segment) : segment.type = some .load ∧ (page = TEMP_PAGE ∨
      ∃ k, page = pageAt k ∧ segment.virtualAddr.toNat / 4096 ≤ k ∧
        k ≤ (segment.virtualAddr.toNat + segment.memSize.toNat) / 4096) := by
  unfold segmentPages at h
  split_ifs at h with htype
  · have hsizes := (hload htype).fileSize_le
    have hend : segment.filePageEnd =
        (segment.virtualAddr.toNat + segment.fileSize.toNat + 4095) / 4096 := rfl
    refine ⟨htype, ?_⟩
    unfold ProgramHeader64.loadPages ProgramHeader64.tempPages at h
    obtain h | h := List.mem_append.1 h
    · obtain ⟨k, hlow, hhigh, rfl⟩ := mem_pagesFrom.1 h
      exact .inr ⟨k, rfl, hlow, by omega⟩
    · split_ifs at h with hlt hends
      · obtain h | h := List.mem_append.1 h
        · exact .inl (List.mem_singleton.1 h)
        · obtain ⟨k, hlow, hhigh, rfl⟩ := mem_pagesFrom.1 h
          exact .inr ⟨k, rfl, by omega, by omega⟩
      · obtain ⟨k, hlow, hhigh, rfl⟩ := mem_pagesFrom.1 h
        exact .inr ⟨k, rfl, by omega, by omega⟩
      · cases h
  · cases h

/-- A segment whose last file page has to be copied. -/
def CopiesLastPage (segment : ProgramHeader64) : Prop :=
  segment.type = some .load ∧ segment.memSize > segment.fileSize ∧ segment.EndsInPage

instance (segment : ProgramHeader64) : Decidable (CopiesLastPage segment) :=
  inferInstanceAs (Decidable (_ ∧ _ ∧ _))

theorem temp_mem_segmentPages {segment : ProgramHeader64} (h : CopiesLastPage segment) :
    TEMP_PAGE ∈ segmentPages segment := by
  rw [segmentPages, if_pos h.1, ProgramHeader64.loadPages, if_pos h.2.1, ProgramHeader64.tempPages,
    if_pos h.2.2]
  simp

theorem countP_copies_le (segments : List ProgramHeader64) :
    segments.countP (fun segment => CopiesLastPage segment) ≤
      (segments.flatMap segmentPages).count TEMP_PAGE := by
  induction segments with
  | nil => simp
  | cons segment segments ih =>
    rw [List.flatMap_cons, List.count_append]
    by_cases hcopies : CopiesLastPage segment
    · have hpos := List.count_pos_iff.2 (temp_mem_segmentPages hcopies)
      rw [List.countP_cons_of_pos (by simpa using hcopies)]
      omega
    · rw [List.countP_cons_of_neg (by simpa using hcopies)]
      omega

end Kernel

end

end LlmOs.Boot
