import LlmOs.HeapInit

set_option autoImplicit false

/-!
# How many frames heap set-up needs

The heap lies under one level-1 table, so the first `map_to` creates whatever is
missing on its path and the later ones create nothing. Heap frames and table
frames come from one counter, which fixes the number of usable frames that the
set-up needs and the frame behind every page.
-/
namespace LlmOs.Memory

/-- What the crate documents of the tables below the root: `map_to` creates the
missing ones of levels 3, 2 and 1 on the path of its page, and no huge page. -/
structure Mapper.WalkContract {T : Type} (mapper : Mapper T) (tables : PageTables T)
    (present : T → ℕ × ℕ → Bool) : Prop extends mapper.Contract tables where
  missing_eq : ∀ t page, ¬tables.hugeParent t page → tables.missing t page =
    ((WalkedTables.path page).filter (fun table => !present t table)).length
  creates : ∀ {A : Type} [FrameAllocator A] {t t' : T} {page : Page} {frame : PhysFrame}
    {flags : PageTableFlags} {a a' : A},
    mapper.mapTo t page frame flags a = some (.ok (), t', a') →
      ∀ table ∈ WalkedTables.path page, present t' table = true
  keepsHuge : ∀ {A : Type} [FrameAllocator A] {t t' : T} {page : Page} {frame : PhysFrame}
    {flags : PageTableFlags} {a a' : A},
    mapper.mapTo t page frame flags a = some (.ok (), t', a') →
      ∀ q, tables.hugeParent t' q → tables.hugeParent t q

/-- The missing tables on the path of the heap range. -/
def missingTables {T : Type} (present : T → ℕ × ℕ → Bool) (t : T) : ℕ :=
  ((WalkedTables.path (Page.containingAddress HEAP_START)).filter
    (fun table => !present t table)).length

/-- Pages that are still to be mapped, all under one level-1 table. -/
structure Mappable {T : Type} (tables : PageTables T) (t : T) (pages : List Page) : Prop where
  nodup : pages.Nodup
  unmapped : ∀ page ∈ pages, tables.entry t page = none
  noHuge : ∀ page ∈ pages, ¬tables.hugeParent t page
  samePath : ∀ page ∈ pages, ∀ q ∈ pages, WalkedTables.path q = WalkedTables.path page

theorem path_pageRange {page : Page} (h : page ∈ pageRange) :
    WalkedTables.path page = WalkedTables.path (Page.containingAddress HEAP_START) := by
  obtain ⟨hend, hstart⟩ := (mem_pageRange page).1 h
  have haligned := page.aligned
  have hfirst : (Page.containingAddress HEAP_START).startAddress = 0x444444440000 := rfl
  have hlow : 0x444444440000 < page.startAddress + 4096 := hstart
  have hhigh : page.startAddress < 0x444444540000 := hend
  simp only [WalkedTables.path, hfirst, List.cons.injEq, Prod.mk.injEq, true_and, and_true]
  omega

section
variable {T : Type} {mapper : Mapper T} {tables : PageTables T} {present : T → ℕ × ℕ → Bool}
  {m : MemoryMap}

theorem mapPages_cons_short (hmapper : mapper.Contract tables) (hm : m.Valid) {next : ℕ} {t : T}
    {page : Page} (hnext : next ≤ m.frames.length)
    (hshort : m.frames.length < next + 1 + tables.missing t page) (pages : List Page) :
    ∃ t' a', mapPages mapper (page :: pages) t (BootInfoFrameAllocator.mk m next) =
      some (.error .frameAllocationFailed, t', a') := by
  rw [mapPages, allocateFrame_eq hm]
  by_cases hlt : next < m.frames.length
  · have hdraws := hmapper.draws t page m.frames[next] (PRESENT ||| WRITABLE)
      (BootInfoFrameAllocator.mk m (next + 1))
    rw [drawFrames_short hm hlt hshort] at hdraws
    obtain ⟨t', hmap⟩ := hdraws
    rw [List.getElem?_eq_getElem hlt]
    simp only [hmap]
    exact ⟨_, _, rfl⟩
  · rw [List.getElem?_eq_none (by omega)]
    exact ⟨_, _, rfl⟩

/-- Once a page is mapped, the pages beside it are ready and miss no table. -/
theorem Mappable.step (hmapper : mapper.WalkContract tables present) {A : Type} [FrameAllocator A]
    {t t₁ : T} {page : Page} {pages : List Page} {frame : PhysFrame} {flags : PageTableFlags}
    {a a' : A} (h : Mappable tables t (page :: pages))
    (hmap : mapper.mapTo t page frame flags a = some (.ok (), t₁, a')) :
    Mappable tables t₁ pages ∧ ∀ q ∈ pages, tables.missing t₁ q = 0 := by
  obtain ⟨hpage, hpages⟩ := List.nodup_cons.1 h.nodup
  have hhuge : ∀ q ∈ pages, ¬tables.hugeParent t₁ q := fun q hq huge =>
    h.noHuge q (by simp [hq]) (hmapper.keepsHuge hmap q huge)
  refine ⟨⟨hpages, ?_, hhuge, ?_⟩, ?_⟩
  · intro q hq
    rw [hmapper.others hmap q (fun heq => hpage (heq ▸ hq))]
    exact h.unmapped q (by simp [hq])
  · intro q hq q' hq'
    exact h.samePath q (by simp [hq]) q' (by simp [hq'])
  · intro q hq
    rw [hmapper.missing_eq t₁ q (hhuge q hq), h.samePath page (by simp) q (by simp [hq]),
      List.length_eq_zero_iff, List.filter_eq_nil_iff]
    intro table htable
    rw [hmapper.creates hmap table htable]
    decide

theorem mapPages_enough_shared (hmapper : mapper.WalkContract tables present) (hm : m.Valid)
    {page : Page} {pages : List Page} {next : ℕ} {t : T} (h : Mappable tables t (page :: pages))
    (henough : next + 1 + tables.missing t page + pages.length ≤ m.frames.length) :
    ∃ t', mapPages mapper (page :: pages) t (BootInfoFrameAllocator.mk m next) =
        some (.ok (), t', BootInfoFrameAllocator.mk m
          (next + 1 + tables.missing t page + pages.length)) ∧
      (∃ f, m.frames[next]? = some f ∧ tables.entry t' page = some (f, PRESENT ||| WRITABLE)) ∧
      ∀ i q, pages[i]? = some q → ∃ f, m.frames[next + 1 + tables.missing t page + i]? = some f ∧
        tables.entry t' q = some (f, PRESENT ||| WRITABLE) := by
  induction pages generalizing page next t with
  | nil =>
    have hlt : next < m.frames.length := by omega
    obtain ⟨t₁, hmap, hrun⟩ := mapPages_cons_enough hmapper.toContract hm
      (h.unmapped page (by simp)) (h.noHuge page (by simp)) hlt henough []
    refine ⟨t₁, hrun, ⟨m.frames[next], List.getElem?_eq_getElem hlt, hmapper.installs hmap⟩, ?_⟩
    intro i q hq
    cases hq
  | cons q rest ih =>
    rw [List.length_cons] at henough
    have hlt : next < m.frames.length := by omega
    obtain ⟨t₁, hmap, hrun⟩ := mapPages_cons_enough hmapper.toContract hm
      (h.unmapped page (by simp)) (h.noHuge page (by simp)) hlt (by omega) (q :: rest)
    obtain ⟨hready, hmissing⟩ := h.step hmapper hmap
    have hzero := hmissing q (by simp)
    obtain ⟨t', hrest, hfirst, hothers⟩ := ih hready
      (show next + 1 + tables.missing t page + 1 + tables.missing t₁ q + rest.length ≤ _ by omega)
    rw [hzero] at hrest hothers
    refine ⟨t', ?_, ⟨m.frames[next], List.getElem?_eq_getElem hlt, ?_⟩, ?_⟩
    · rw [hrun, hrest, List.length_cons]
      congr 4
      omega
    · rw [mapPages_others hmapper.toContract hrest page (List.nodup_cons.1 h.nodup).1,
        hmapper.installs hmap]
    · intro i q' hq'
      cases i with
      | zero =>
        cases hq'
        exact hfirst
      | succ i =>
        obtain ⟨f, hf, hentry⟩ := hothers i q' hq'
        refine ⟨f, ?_, hentry⟩
        rw [← hf]
        congr 1
        omega

theorem mapPages_short_shared (hmapper : mapper.WalkContract tables present) (hm : m.Valid)
    {page : Page} {pages : List Page} {next : ℕ} {t : T} (h : Mappable tables t (page :: pages))
    (hnext : next ≤ m.frames.length)
    (hshort : m.frames.length < next + 1 + tables.missing t page + pages.length) :
    ∃ t' a', mapPages mapper (page :: pages) t (BootInfoFrameAllocator.mk m next) =
      some (.error .frameAllocationFailed, t', a') := by
  induction pages generalizing page next t with
  | nil => exact mapPages_cons_short hmapper.toContract hm hnext hshort []
  | cons q rest ih =>
    by_cases hfirst : m.frames.length < next + 1 + tables.missing t page
    · exact mapPages_cons_short hmapper.toContract hm hnext hfirst (q :: rest)
    · obtain ⟨t₁, hmap, hrun⟩ := mapPages_cons_enough hmapper.toContract hm
        (h.unmapped page (by simp)) (h.noHuge page (by simp))
        (show next < m.frames.length by omega) (by omega) (q :: rest)
      obtain ⟨hready, hmissing⟩ := h.step hmapper hmap
      rw [List.length_cons] at hshort
      have hzero := hmissing q (by simp)
      rw [hrun]
      exact ih hready (by omega) (by omega)

theorem pageRange_mappable {t : T} (hunmapped : ∀ page ∈ pageRange, tables.entry t page = none)
    (hhuge : ∀ page ∈ pageRange, ¬tables.hugeParent t page) : Mappable tables t pageRange where
  nodup := pageRange_nodup
  unmapped := hunmapped
  noHuge := hhuge
  samePath page hpage q hq := by rw [path_pageRange hpage, path_pageRange hq]

theorem pageRange_cons : ∃ pages, pageRange = Page.containingAddress HEAP_START :: pages ∧
    pages.length = 255 := by
  refine ⟨(List.range' 1 255).map (Page.containingAddress HEAP_START).next, ?_, by simp⟩
  rw [pageRange_eq, List.range_eq_range', List.range'_succ, List.map_cons]
  rfl

/-- Heap set-up over a fresh boot allocator succeeds exactly when there is a
usable frame for each of the 256 pages and for each missing table. -/
theorem init_heap_ok_iff (hmapper : mapper.WalkContract tables present) (hm : m.Valid) {t : T}
    (hunmapped : ∀ page ∈ pageRange, tables.entry t page = none)
    (hhuge : ∀ page ∈ pageRange, ¬tables.hugeParent t page) :
    missingTables present t ≤ 3 ∧ pageRange.length = 256 ∧
      (∀ page ∈ pageRange,
        WalkedTables.path page = WalkedTables.path (Page.containingAddress HEAP_START)) ∧
      ∃ r t' a' heap,
        initHeap mapper t (BootInfoFrameAllocator.init m) .empty = some (r, t', a', heap) ∧
        (r = .ok () ↔ 256 + missingTables present t ≤ m.frames.length) ∧
        (r ≠ .ok () → r = .error .frameAllocationFailed) ∧
        (r = .ok () →
          (∀ i page, pageRange[i]? = some page →
            ∃ f, m.frames[if i = 0 then 0 else i + missingTables present t]? = some f ∧
              tables.entry t' page = some (f, PRESENT ||| WRITABLE)) ∧
          allocateFrames (256 + missingTables present t) (BootInfoFrameAllocator.init m) =
            some ((m.frames.take (256 + missingTables present t)).map some, a')) := by
  obtain ⟨pages, hpages, hlength⟩ := pageRange_cons
  have hready := pageRange_mappable hunmapped hhuge
  rw [hpages] at hready
  have hmissing : tables.missing t (Page.containingAddress HEAP_START) = missingTables present t :=
    hmapper.missing_eq t _ (hready.noHuge _ (by simp))
  refine ⟨?_, by rw [hpages, List.length_cons, hlength], fun _ => path_pageRange, ?_⟩
  · rw [← hmissing]
    exact hmapper.missing_le t _
  by_cases henough : 256 + missingTables present t ≤ m.frames.length
  · have hfits : 0 + 1 + tables.missing t (Page.containingAddress HEAP_START) + pages.length ≤
        m.frames.length := by omega
    obtain ⟨t', hrun, hfirst, hothers⟩ := mapPages_enough_shared hmapper hm hready hfits
    rw [hmissing, hlength, show 0 + 1 + missingTables present t + 255 =
      256 + missingTables present t by omega] at hrun
    rw [initHeap, BootInfoFrameAllocator.init, hpages, hrun]
    refine ⟨_, _, _, _, rfl, ⟨fun _ => henough, fun _ => rfl⟩, fun h => absurd rfl h, fun _ => ?_⟩
    constructor
    · intro i page hpage
      cases i with
      | zero =>
        cases hpage
        exact hfirst
      | succ i =>
        obtain ⟨f, hf, hentry⟩ := hothers i page hpage
        refine ⟨f, ?_, hentry⟩
        rw [← hf, if_neg (Nat.succ_ne_zero i), hmissing]
        congr 1
        omega
    · have hcalls := allocateFrames_eq hm (256 + missingTables present t) 0
      rw [map_getElem?_range' henough, Nat.zero_add] at hcalls
      exact hcalls
  · obtain ⟨t', a', hrun⟩ := mapPages_short_shared hmapper hm hready (Nat.zero_le m.frames.length)
      (by omega)
    rw [initHeap, BootInfoFrameAllocator.init, hpages, hrun]
    refine ⟨_, _, _, _, rfl, ⟨fun h => (by cases h), fun h => absurd h henough⟩, fun _ => rfl, ?_⟩
    intro h
    cases h

end

namespace WalkedTables

def isPresent (t : WalkedTables) (table : ℕ × ℕ) : Bool := t.present.contains table

theorem mapTo_present {A : Type} [FrameAllocator A] {t t' : WalkedTables} {page : Page}
    {frame : PhysFrame} {flags : PageTableFlags} {a a' : A}
    (h : mapper.mapTo t page frame flags a = some (.ok (), t', a')) :
    t'.present = t.absent page ++ t.present := by
  simp only [mapper] at h
  split at h
  · cases h
  · cases h
  · split at h
    · cases h
    · cases h
      rfl

theorem mapper_walkContract : mapper.WalkContract observe isPresent where
  toContract := mapper_contract
  missing_eq t page _ := by
    change ((path page).filter _).length = _
    simp only [isPresent, List.contains_eq_mem, decide_not]
  creates {_ _ t _ _ _ _ _ _} h table htable := by
    rw [isPresent, mapTo_present h, List.contains_iff_mem, List.mem_append]
    by_cases hold : table ∈ t.present
    · exact Or.inr hold
    · exact Or.inl (List.mem_filter.2 ⟨htable, by simpa using hold⟩)
  keepsHuge _ _ huge := huge

end WalkedTables

/-- One usable region of exactly as many frames as the heap and three tables need. -/
def tightRegion : MemoryMap := .ofRegions [⟨⟨16, 275⟩, .usable⟩] (by decide)

theorem tightRegion_valid : tightRegion.Valid :=
  ⟨by decide, by
    rw [show tightRegion.regions = [⟨⟨16, 275⟩, .usable⟩] from rfl]
    exact List.pairwise_singleton _ _⟩

theorem tightRegion_frames : tightRegion.frames.length = 259 := by
  rw [MemoryMap.frames, MemoryMap.usableNumbers,
    show tightRegion.regions = [⟨⟨16, 275⟩, .usable⟩] from rfl]
  simp [FrameRange.frameNumbers]

theorem init_heap_ok_iff_tight :
    WalkedTables.mapper.WalkContract WalkedTables.observe WalkedTables.isPresent ∧
      tightRegion.Valid ∧ missingTables WalkedTables.isPresent ⟨[], []⟩ = 3 ∧
      ∃ t' a' heap,
        initHeap WalkedTables.mapper ⟨[], []⟩ (BootInfoFrameAllocator.init tightRegion) .empty =
          some (.ok (), t', a', heap) ∧
        ∀ i page, pageRange[i]? = some page →
          ∃ f, tightRegion.frames[if i = 0 then 0 else i + 3]? = some f ∧
            WalkedTables.observe.entry t' page = some (f, PRESENT ||| WRITABLE) := by
  have hthree : missingTables WalkedTables.isPresent ⟨[], []⟩ = 3 := rfl
  obtain ⟨_, _, _, r, t', a', heap, hrun, hok, _, hframes⟩ := init_heap_ok_iff
    WalkedTables.mapper_walkContract tightRegion_valid (t := ⟨[], []⟩) (fun _ _ => rfl)
    (fun _ _ => id)
  rw [hthree, tightRegion_frames] at hok
  obtain rfl := hok.2 le_rfl
  refine ⟨WalkedTables.mapper_walkContract, tightRegion_valid, hthree, t', a', heap, hrun, ?_⟩
  have hpages := (hframes rfl).1
  rw [hthree] at hpages
  exact hpages

end LlmOs.Memory
