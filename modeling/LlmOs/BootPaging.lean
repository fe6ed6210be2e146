import LlmOs.BootAllocation
import LlmOs.HeapInit
import LlmOs.Level4Entries
import LlmOs.PartialRun

set_option autoImplicit false

/-!
# Page tables while the bootloader runs

`map_page` of `bootloader/src/page_table.rs` and the machine under it: page tables
that live in frames of their own, the bytes of all other frames, and the `x86_64`
crate's mapper. The bootloader writes through pages that are not marked writable,
since it sets the write-protect bit only when all is mapped.
-/
namespace LlmOs.Boot
open Memory

/-- Page tables are drawn from the same allocator as everything else. -/
structure PageTableAllocator where
  sorter : SortUnstableBy MemoryRegion
  allocator : FrameAllocator

instance : Memory.FrameAllocator PageTableAllocator where
  allocateFrame p := (p.allocator.allocateFrame p.sorter .pageTable).map
    (fun (frame, a) => (frame, { p with allocator := a }))

inductive UnmapError where
  | parentEntryHugePage | pageNotMapped | invalidFrameAddress
  deriving DecidableEq

/-- Page tables and physical memory. `holdsTable` tells which frames hold tables. -/
structure Machine (T : Type) extends Mapper T, PageTables T where
  unmap : T → Page → Except UnmapError Unit × T
  byte : T → ℕ → UInt8
  store : T → ℕ → UInt8 → T
  holdsTable : T → PhysFrame → Prop

abbrev BootState (T : Type) := T × FrameAllocator

/-- The frame that holds the byte at a physical address. -/
def frameOf (phys : ℕ) : PhysFrame := .ofNumber (phys / 4096)

section
variable {T : Type}

/-- Documented behaviour of the crate and of the hardware. `map_to` refuses a page
that is mapped. It and `unmap` write to frames that hold page tables, and a store to
any other frame leaves the tables alone. -/
structure Machine.Contract (m : Machine T) : Prop
    extends Mapper.Contract m.toMapper m.toPageTables where
  fresh : ∀ {A : Type} [Memory.FrameAllocator A] {t t' : T} {page : Page} {frame : PhysFrame}
    {flags : PageTableFlags} {a a' : A}, m.mapTo t page frame flags a = some (.ok (), t', a') →
      m.entry t page = none
  newTables : ∀ {A : Type} [Memory.FrameAllocator A] {t t' : T} {page : Page} {frame : PhysFrame}
    {flags : PageTableFlags} {a a₁ a' : A} {drawn : List PhysFrame},
    drawFrames (m.missing t page) a = some (some drawn, a₁) →
    m.mapTo t page frame flags a = some (.ok (), t', a') →
      ∀ f, m.holdsTable t' f → m.holdsTable t f ∨ f ∈ drawn
  mapBytes : ∀ {A : Type} [Memory.FrameAllocator A] {t t' : T} {page : Page} {frame : PhysFrame}
    {flags : PageTableFlags} {a a' : A}, m.mapTo t page frame flags a = some (.ok (), t', a') →
      ∀ phys, ¬ m.holdsTable t' (frameOf phys) → m.byte t' phys = m.byte t phys
  mapHuge : ∀ {A : Type} [Memory.FrameAllocator A] {t t' : T} {page : Page} {frame : PhysFrame}
    {flags : PageTableFlags} {a a' : A}, m.mapTo t page frame flags a = some (.ok (), t', a') →
      ∀ q, m.hugeParent t' q → m.hugeParent t q
  unmapped : ∀ {t t' : T} {page : Page}, m.unmap t page = (.ok (), t') →
    m.entry t' page = none ∧ (∀ q, q ≠ page → m.entry t' q = m.entry t q) ∧
      (∀ f, m.holdsTable t' f → m.holdsTable t f) ∧ (∀ q, m.hugeParent t' q → m.hugeParent t q) ∧
      ∀ phys, ¬ m.holdsTable t (frameOf phys) → m.byte t' phys = m.byte t phys
  unmaps : ∀ {t : T} {page : Page}, m.entry t page ≠ none → ∃ t', m.unmap t page = (.ok (), t')
  stored : ∀ (t : T) (phys : ℕ) (b : UInt8) (q : ℕ),
    m.byte (m.store t phys b) q = if q = phys then b else m.byte t q
  storeTables : ∀ {t : T} {phys : ℕ} (b : UInt8), ¬ m.holdsTable t (frameOf phys) →
    (∀ page, m.entry (m.store t phys b) page = m.entry t page) ∧
      (∀ f, m.holdsTable (m.store t phys b) f ↔ m.holdsTable t f) ∧
      ∀ q, m.hugeParent (m.store t phys b) q ↔ m.hugeParent t q

def allocate (sorter : SortUnstableBy MemoryRegion) (regionType : MemoryRegionType) :
    Run MapToError (BootState T) PhysFrame :=
  .ofStep (fun s => (s.2.allocateFrame sorter regionType).map (fun (frame, a) =>
    match frame with
    | some frame => (.ok frame, s.1, a)
    | none => (.error .frameAllocationFailed, s.1, a)))

def mapPage (m : Machine T) (sorter : SortUnstableBy MemoryRegion) (page : Page) (frame : PhysFrame)
    (flags : PageTableFlags) : Run MapToError (BootState T) Unit :=
  .ofStep (fun s => (m.mapTo s.1 page frame flags (PageTableAllocator.mk sorter s.2)).map
    (fun (r, t, p) => (r, t, p.allocator)))

/-- What the state has to keep for everything that follows: no frame of a page table
is usable. -/
structure Sound (m : Machine T) (s : BootState T) : Prop where
  wellFormed : WellFormed s.2.memoryMap
  nodup : s.2.memoryMap.frames.Nodup
  tables : ∀ f, m.holdsTable s.1 f → f ∉ s.2.memoryMap.frames

/-- A frame with contents of its own: neither usable nor a page table. -/
def Owned (m : Machine T) (s : BootState T) (f : PhysFrame) : Prop :=
  f ∉ s.2.memoryMap.frames ∧ ¬ m.holdsTable s.1 f

/-- What has become of the machine once exactly `pages` were mapped anew: the frames
that had contents still have them. -/
structure Step (m : Machine T) (s s' : BootState T) (pages : List Page) : Prop where
  sound : Sound m s'
  free : ∀ f ∈ s'.2.memoryMap.frames, f ∈ s.2.memoryMap.frames
  owned : ∀ f, Owned m s f → Owned m s' f
  bytes : ∀ phys, Owned m s (frameOf phys) → m.byte s'.1 phys = m.byte s.1 phys
  nodup : pages.Nodup
  fresh : ∀ page ∈ pages, m.entry s.1 page = none
  mapped : ∀ page ∈ pages, m.entry s'.1 page ≠ none
  others : ∀ page, page ∉ pages → m.entry s'.1 page = m.entry s.1 page
  huge : ∀ page, m.hugeParent s'.1 page → m.hugeParent s.1 page

/-- How mapping `pages` can fail. -/
def Failed (m : Machine T) (s : BootState T) (pages : List Page) :
    MapToError → BootState T → Prop
  | .frameAllocationFailed, s' => s'.2.memoryMap.frames = []
  | .pageAlreadyMapped _, _ => ¬ (pages.Nodup ∧ ∀ page ∈ pages, m.entry s.1 page = none)
  | .parentEntryHugePage, _ => ∃ page ∈ pages, m.hugeParent s.1 page

variable {m : Machine T} {sorter : SortUnstableBy MemoryRegion}

theorem Step.refl {s : BootState T} (h : Sound m s) : Step m s s [] where
  sound := h
  free _ hf := hf
  owned _ hf := hf
  bytes _ _ := rfl
  nodup := .nil
  fresh := by simp
  mapped := by simp
  others _ _ := rfl
  huge _ h := h

/-- A page that is mapped keeps its entry. -/
theorem Step.entry_eq {s s' : BootState T} {pages : List Page} (h : Step m s s' pages)
    {page : Page} (hpage : m.entry s.1 page ≠ none) : m.entry s'.1 page = m.entry s.1 page :=
  h.others page (fun hmem => hpage (h.fresh page hmem))

theorem Step.trans {s s' s'' : BootState T} {pages pages' : List Page} (h : Step m s s' pages)
    (h' : Step m s' s'' pages') : Step m s s'' (pages ++ pages') where
  sound := h'.sound
  free f hf := h.free f (h'.free f hf)
  owned f hf := h'.owned f (h.owned f hf)
  bytes phys hphys := (h'.bytes phys (h.owned _ hphys)).trans (h.bytes phys hphys)
  nodup := by
    refine List.nodup_append.2 ⟨h.nodup, h'.nodup, ?_⟩
    rintro p hp q hq rfl
    exact h.mapped p hp (h'.fresh p hq)
  fresh page hpage := by
    obtain hpage | hpage := List.mem_append.1 hpage
    · exact h.fresh page hpage
    · have hnone := h'.fresh page hpage
      by_cases hmem : page ∈ pages
      · exact h.fresh page hmem
      · rwa [h.others page hmem] at hnone
  mapped page hpage := by
    obtain hpage | hpage := List.mem_append.1 hpage
    · rw [h'.entry_eq (h.mapped page hpage)]
      exact h.mapped page hpage
    · exact h'.mapped page hpage
  others page hpage := by
    rw [List.mem_append, not_or] at hpage
    rw [h'.others page hpage.2, h.others page hpage.1]
  huge page hpage := h.huge page (h'.huge page hpage)

/-- A failure of a later part is a failure of the whole. -/
theorem Failed.after {s s' s'' : BootState T} {done pages rest : List Page} {e : MapToError}
    (h : Step m s s' done) (hfail : Failed m s' pages e s'') :
    Failed m s (done ++ pages ++ rest) e s'' := by
  cases e with
  | frameAllocationFailed => exact hfail
  | pageAlreadyMapped f =>
    rintro ⟨hnodup, hnone⟩
    have hleft := (List.nodup_append.1 hnodup).1
    apply hfail
    refine ⟨(List.nodup_append.1 hleft).2.1, fun page hpage => ?_⟩
    have hout : page ∉ done := fun hdone =>
      (List.nodup_append.1 hleft).2.2 page hdone page hpage rfl
    rw [h.others page hout]
    exact hnone page (by simp [hpage])
  | parentEntryHugePage =>
    obtain ⟨page, hpage, hhuge⟩ := hfail
    exact ⟨page, by simp [hpage], h.huge page hhuge⟩

theorem Failed.append {s s' : BootState T} {pages : List Page} {e : MapToError} (hs : Sound m s)
    (h : Failed m s pages e s') (rest : List Page) : Failed m s (pages ++ rest) e s' :=
  Failed.after (.refl hs) h

/-- What drawing one frame leaves. -/
theorem allocateFrame_frames {a a' : FrameAllocator} {regionType : MemoryRegionType}
    {frame : Option PhysFrame} (hm : WellFormed a.memoryMap) (hT : regionType ≠ .usable)
    (h : a.allocateFrame sorter regionType = some (frame, a')) :
    (frame = none ∧ a'.memoryMap.frames = []) ∨
      ∃ f, frame = some f ∧ WellFormed a'.memoryMap ∧
        a.memoryMap.frames.Perm (f :: a'.memoryMap.frames) := by
  obtain ⟨rfl, rfl, hempty⟩ | ⟨k, rfl, hwell, hhand⟩ := FrameAllocator.allocateFrame_some hm h
  · exact .inl ⟨rfl, hempty⟩
  · exact .inr ⟨_, rfl, hwell, frames_perm hhand hT⟩

theorem drawFrames_frames {n : ℕ} {p p' : PageTableAllocator} {frames : Option (List PhysFrame)}
    (hm : WellFormed p.allocator.memoryMap) (h : drawFrames n p = some (frames, p')) :
    (frames = none ∧ p'.allocator.memoryMap.frames = []) ∨
      ∃ fs, frames = some fs ∧ WellFormed p'.allocator.memoryMap ∧
        p.allocator.memoryMap.frames.Perm (fs ++ p'.allocator.memoryMap.frames) := by
  induction n generalizing p frames with
  | zero =>
    rw [drawFrames, Option.some.injEq, Prod.mk.injEq] at h
    obtain ⟨rfl, rfl⟩ := h
    exact .inr ⟨[], rfl, hm, List.Perm.refl _⟩
  | succ n ih =>
    rw [drawFrames] at h
    split at h
    · cases h
    · rename_i p₁ hdraw
      rw [Option.some.injEq, Prod.mk.injEq] at h
      obtain ⟨rfl, rfl⟩ := h
      obtain ⟨⟨frame, a⟩, ha, heq⟩ := Option.map_eq_some_iff.1 hdraw
      rw [Prod.mk.injEq] at heq
      obtain ⟨rfl, rfl⟩ := heq
      obtain ⟨_, hempty⟩ | ⟨f, hf, _⟩ := allocateFrame_frames hm (by decide) ha
      · exact .inl ⟨rfl, hempty⟩
      · cases hf
    · rename_i f p₁ hdraw
      obtain ⟨⟨rest, p₂⟩, hrest, heq⟩ := Option.map_eq_some_iff.1 h
      rw [Prod.mk.injEq] at heq
      obtain ⟨rfl, rfl⟩ := heq
      obtain ⟨⟨frame, a⟩, ha, heq⟩ := Option.map_eq_some_iff.1 hdraw
      rw [Prod.mk.injEq] at heq
      obtain ⟨rfl, rfl⟩ := heq
      obtain ⟨hnone, _⟩ | ⟨f', hf, hwell, hperm⟩ := allocateFrame_frames hm (by decide) ha
      · cases hnone
      · obtain rfl := Option.some.inj hf
        obtain ⟨rfl, hempty⟩ | ⟨fs, rfl, hwell', hperm'⟩ := ih hwell hrest
        · exact .inl ⟨rfl, hempty⟩
        · exact .inr ⟨f :: fs, rfl, hwell', hperm.trans (hperm'.cons f)⟩

/-- Frames that were drawn are no longer usable, and were no page tables. -/
theorem Sound.drawn {s : BootState T} (hs : Sound m s) {drawn rest : List PhysFrame}
    (hperm : s.2.memoryMap.frames.Perm (drawn ++ rest)) :
    rest.Nodup ∧ (∀ f ∈ rest, f ∈ s.2.memoryMap.frames) ∧
      ∀ f ∈ drawn, f ∉ rest ∧ ¬ m.holdsTable s.1 f := by
  have hnodup := List.nodup_append.1 (hperm.nodup_iff.1 hs.nodup)
  refine ⟨hnodup.2.1, fun f hf => hperm.mem_iff.2 (List.mem_append_right _ hf), ?_⟩
  intro f hf
  refine ⟨fun hrest => hnodup.2.2 f hf f hrest rfl, fun htable => ?_⟩
  exact hs.tables f htable (hperm.mem_iff.2 (List.mem_append_left _ hf))

theorem allocate_ends {s : BootState T} (hs : Sound m s) {regionType : MemoryRegionType}
    (hT : regionType ≠ .usable) (s₀ : BootState T) (pages : List Page) :
    (allocate sorter regionType).Ends s (fun f s' => Step m s s' [] ∧
      f ∈ s.2.memoryMap.frames ∧ Owned m s' f) (Failed m s₀ pages) where
  returns {f s'} hrun := by
    obtain ⟨⟨frame, a⟩, ha, heq⟩ := Option.map_eq_some_iff.1 hrun
    obtain ⟨rfl, _⟩ | ⟨f', rfl, hwell, hperm⟩ := allocateFrame_frames hs.wellFormed hT ha
    · simp at heq
    · simp only [Prod.mk.injEq, Except.ok.injEq] at heq
      obtain ⟨rfl, rfl⟩ := heq
      obtain ⟨hnodup, hsub, hdrawn⟩ :=
        hs.drawn (show s.2.memoryMap.frames.Perm ([f'] ++ a.memoryMap.frames) from hperm)
      obtain ⟨hfree, htable⟩ := hdrawn f' (List.mem_singleton_self f')
      have hstep : Step m s (s.1, a) [] :=
        { Step.refl hs with
          sound := ⟨hwell, hnodup, fun f hf hmem => hs.tables f hf (hsub f hmem)⟩
          free := hsub
          owned := fun f hf => ⟨fun hmem => hf.1 (hsub f hmem), hf.2⟩ }
      exact ⟨hstep, hperm.mem_iff.2 List.mem_cons_self, hfree, htable⟩
  fails {e s'} hrun := by
    obtain ⟨⟨frame, a⟩, ha, heq⟩ := Option.map_eq_some_iff.1 hrun
    obtain ⟨rfl, hempty⟩ | ⟨f', rfl, _⟩ := allocateFrame_frames hs.wellFormed hT ha
    · simp only [Prod.mk.injEq, Except.error.injEq] at heq
      obtain ⟨rfl, rfl⟩ := heq
      exact hempty
    · simp at heq

/-- What one `map_page` does, or why it fails. -/
theorem mapPage_ends (hm : m.Contract) {s : BootState T} (hs : Sound m s) (page : Page)
    (frame : PhysFrame) (flags : PageTableFlags) :
    (mapPage m sorter page frame flags).Ends s (fun _ s' => Step m s s' [page] ∧
      m.entry s'.1 page = some (frame, flags)) (Failed m s [page]) := by
  have hdraws := hm.draws s.1 page frame flags (PageTableAllocator.mk sorter s.2)
  constructor
  · intro _ s' hrun
    obtain ⟨⟨r, t', p'⟩, hmap, heq⟩ := Option.map_eq_some_iff.1 hrun
    simp only [Prod.mk.injEq] at heq
    obtain ⟨rfl, rfl⟩ := heq
    split at hdraws
    · rw [hdraws] at hmap
      cases hmap
    · obtain ⟨t, hfail⟩ := hdraws
      rw [hfail] at hmap
      simp at hmap
    · rename_i fs p hframes
      obtain ⟨hnone, _⟩ | ⟨fs', hfs, hwell, hperm⟩ := drawFrames_frames hs.wellFormed hframes
      · cases hnone
      obtain rfl := Option.some.inj hfs
      obtain ⟨r, t, hmap', _⟩ := hdraws
      rw [hmap', Option.some.injEq, Prod.mk.injEq, Prod.mk.injEq] at hmap
      obtain ⟨rfl, rfl, rfl⟩ := hmap
      obtain ⟨hnodup, hsub, hdrawn⟩ := hs.drawn hperm
      have htables := hm.newTables hframes hmap'
      have howned : ∀ f, Owned m s f → Owned m (t, p.allocator) f := by
        intro f hf
        refine ⟨fun hmem => hf.1 (hsub f hmem), fun htable => ?_⟩
        obtain hold | hnew := htables f htable
        · exact hf.2 hold
        · exact hf.1 (hperm.mem_iff.2 (List.mem_append_left _ hnew))
      refine ⟨⟨⟨hwell, hnodup, ?_⟩, hsub, howned, ?_, List.nodup_singleton page, ?_, ?_, ?_,
        hm.mapHuge hmap'⟩, hm.installs hmap'⟩
      · intro f htable hmem
        obtain hold | hnew := htables f htable
        · exact hs.tables f hold (hsub f hmem)
        · exact (hdrawn f hnew).1 hmem
      · intro phys hphys
        exact hm.mapBytes hmap' phys (howned _ hphys).2
      · intro q hq
        rw [List.mem_singleton.1 hq]
        exact hm.fresh hmap'
      · intro q hq
        rw [List.mem_singleton.1 hq, hm.installs hmap']
        simp
      · intro q hq
        exact hm.others hmap' q (fun h => hq (by simp [h]))
  · intro e s' hrun
    obtain ⟨⟨r, t', p'⟩, hmap, heq⟩ := Option.map_eq_some_iff.1 hrun
    simp only [Prod.mk.injEq] at heq
    obtain ⟨rfl, rfl⟩ := heq
    split at hdraws
    · rw [hdraws] at hmap
      cases hmap
    · rename_i p hframes
      obtain ⟨t, hfail⟩ := hdraws
      rw [hfail, Option.some.injEq, Prod.mk.injEq, Prod.mk.injEq, Except.error.injEq] at hmap
      obtain ⟨rfl, rfl, rfl⟩ := hmap
      obtain ⟨_, hempty⟩ | ⟨fs, hfs, _⟩ := drawFrames_frames hs.wellFormed hframes
      · exact hempty
      · cases hfs
    · obtain ⟨r, t, hmap', hcases⟩ := hdraws
      rw [hmap', Option.some.injEq, Prod.mk.injEq] at hmap
      obtain ⟨rfl, _⟩ := hmap
      obtain hok | ⟨hmapped, hentry⟩ | ⟨hhuge, hparent⟩ := hcases
      · cases hok
      · obtain rfl := Except.error.inj hmapped
        exact fun h => hentry (h.2 page (List.mem_singleton_self page))
      · obtain rfl := Except.error.inj hhuge
        exact ⟨page, List.mem_singleton_self page, hparent⟩

/-- A loop that maps one page for each item, and what it makes of each page stays
as it is while the others are mapped. -/
theorem forM_maps {α : Type} {xs : List α} {f : α → Run MapToError (BootState T) PUnit}
    (page : α → Page) (good : α → BootState T → Prop) {s : BootState T} (hs : Sound m s)
    (hgood : ∀ x s₁ s₂ pages, Step m s₁ s₂ pages → good x s₁ → good x s₂)
    (hstep : ∀ x ∈ xs, ∀ s₁ pages, Step m s s₁ pages → (f x).Ends s₁
      (fun _ s₂ => Step m s₁ s₂ [page x] ∧ good x s₂) (Failed m s₁ [page x])) :
    Run.Ends (xs.forM f) s (fun _ s' => Step m s s' (xs.map page) ∧ ∀ x ∈ xs, good x s')
      (Failed m s (xs.map page)) := by
  refine Run.Ends.forM (fun done s' => Step m s s' (done.map page) ∧ ∀ x ∈ done, good x s')
    ⟨Step.refl hs, by simp⟩ ?_
  rintro done x rest s₁ hxs ⟨hdone, hall⟩
  refine (hstep x (by simp [hxs]) s₁ _ hdone).mono ?_ ?_
  · rintro _ s₂ ⟨hmap, hx⟩
    refine ⟨by simpa using hdone.trans hmap, ?_⟩
    intro y hy
    obtain hy | hy := List.mem_append.1 hy
    · exact hgood y s₁ s₂ _ hmap (hall y hy)
    · rw [List.mem_singleton.1 hy]
      exact hx
  · intro e s₂ hfail
    have hwhole : Failed m s (done.map page ++ [page x] ++ rest.map page) e s₂ := hfail.after hdone
    rw [hxs, List.map_append, List.map_cons]
    simpa using hwhole

/-- Stores changed some bytes, and no page table. -/
structure SameTables (m : Machine T) (t t' : T) : Prop where
  entry : ∀ page, m.entry t' page = m.entry t page
  table : ∀ f, m.holdsTable t' f ↔ m.holdsTable t f
  huge : ∀ page, m.hugeParent t' page ↔ m.hugeParent t page

theorem SameTables.refl (m : Machine T) (t : T) : SameTables m t t :=
  ⟨fun _ => rfl, fun _ => Iff.rfl, fun _ => Iff.rfl⟩

theorem SameTables.store (hm : m.Contract) {t t' : T} (h : SameTables m t t') {phys : ℕ}
    (hphys : ¬ m.holdsTable t (frameOf phys)) (b : UInt8) : SameTables m t (m.store t' phys b) := by
  rw [← h.table] at hphys
  obtain ⟨hentry, htable, hhuge⟩ := hm.storeTables b hphys
  refine ⟨fun page => ?_, fun f => ?_, fun page => ?_⟩
  · rw [hentry, h.entry]
  · rw [htable, h.table]
  · rw [hhuge, h.huge]

theorem SameTables.owned {s : BootState T} {t : T} (h : SameTables m s.1 t) {f : PhysFrame}
    (hf : Owned m s f) : Owned m (t, s.2) f :=
  ⟨hf.1, fun htable => hf.2 ((h.table f).1 htable)⟩

/-- Stores into frames that had no contents before. -/
theorem Step.write {s₀ s : BootState T} {pages : List Page} (h : Step m s₀ s pages) {t : T}
    (hsame : SameTables m s.1 t)
    (hbytes : ∀ phys, Owned m s₀ (frameOf phys) → m.byte t phys = m.byte s.1 phys) :
    Step m s₀ (t, s.2) pages where
  sound := ⟨h.sound.wellFormed, h.sound.nodup, fun f hf => h.sound.tables f ((hsame.table f).1 hf)⟩
  free := h.free
  owned f hf := hsame.owned (h.owned f hf)
  bytes phys hphys := (hbytes phys hphys).trans (h.bytes phys hphys)
  nodup := h.nodup
  fresh := h.fresh
  mapped page hpage := by
    rw [hsame.entry]
    exact h.mapped page hpage
  others page hpage := by
    rw [hsame.entry]
    exact h.others page hpage
  huge page hpage := h.huge page ((hsame.huge page).1 hpage)

theorem unmap_sound (hm : m.Contract) {s : BootState T} (hs : Sound m s) {page : Page} {t : T}
    (h : m.unmap s.1 page = (.ok (), t)) : Sound m (t, s.2) where
  wellFormed := hs.wellFormed
  nodup := hs.nodup
  tables f hf := hs.tables f ((hm.unmapped h).2.2.1 f hf)

section Remap

variable {s s' : BootState T} {page : Page} {t : T}

theorem remap_owned (hm : m.Contract) (hunmap : m.unmap s.1 page = (.ok (), t))
    (hmap : Step m (t, s.2) s' [page]) {f : PhysFrame} (hf : Owned m s f) : Owned m s' f :=
  hmap.owned f ⟨hf.1, fun htable => hf.2 ((hm.unmapped hunmap).2.2.1 f htable)⟩

theorem remap_bytes (hm : m.Contract) (hunmap : m.unmap s.1 page = (.ok (), t))
    (hmap : Step m (t, s.2) s' [page]) {phys : ℕ} (hphys : Owned m s (frameOf phys)) :
    m.byte s'.1 phys = m.byte s.1 phys := by
  obtain ⟨_, _, htables, _, hbytes⟩ := hm.unmapped hunmap
  rw [hmap.bytes phys ⟨hphys.1, fun htable => hphys.2 (htables _ htable)⟩, hbytes phys hphys.2]

theorem remap_entry (hm : m.Contract) (hunmap : m.unmap s.1 page = (.ok (), t))
    (hmap : Step m (t, s.2) s' [page]) {q : Page} (hq : q ≠ page) :
    m.entry s'.1 q = m.entry s.1 q := by
  rw [hmap.others q (by simpa using hq), (hm.unmapped hunmap).2.1 q hq]

/-- A page that was mapped on the way is unmapped and mapped to another frame. -/
theorem Step.remap (hm : m.Contract) {s₀ : BootState T} {pages : List Page}
    (h : Step m s₀ s pages) (hpage : page ∈ pages) (hunmap : m.unmap s.1 page = (.ok (), t))
    (hmap : Step m (t, s.2) s' [page]) : Step m s₀ s' pages where
  sound := hmap.sound
  free f hf := h.free f (hmap.free f hf)
  owned f hf := remap_owned hm hunmap hmap (h.owned f hf)
  bytes phys hphys := (remap_bytes hm hunmap hmap (h.owned _ hphys)).trans (h.bytes phys hphys)
  nodup := h.nodup
  fresh := h.fresh
  mapped q hq := by
    by_cases heq : q = page
    · rw [heq]
      exact hmap.mapped page (List.mem_singleton_self page)
    · rw [remap_entry hm hunmap hmap heq]
      exact h.mapped q hq
  others q hq := by
    have hne : q ≠ page := fun heq => hq (heq ▸ hpage)
    rw [remap_entry hm hunmap hmap hne, h.others q hq]
  huge q hq := h.huge q ((hm.unmapped hunmap).2.2.2.1 q (hmap.huge q hq))

end Remap

end

/-- Four-level tables with the frames that hold them, and the bytes of memory. -/
structure WalkedMemory where
  tables : WalkedTables
  tableFrames : List PhysFrame
  ram : ℕ → UInt8

namespace WalkedMemory

/-- A new table is cleared before it is used. -/
def withTables (t : WalkedMemory) (page : Page) (frames : List PhysFrame) : WalkedMemory :=
  ⟨{ t.tables with present := t.tables.absent page ++ t.tables.present }, frames ++ t.tableFrames,
    fun phys => if frameOf phys ∈ frames then 0 else t.ram phys⟩

def withEntry (t : WalkedMemory) (page : Page) (frame : PhysFrame) (flags : PageTableFlags) :
    WalkedMemory :=
  { t with tables := { t.tables with mapped := (page, frame, flags) :: t.tables.mapped } }

def machine : Machine WalkedMemory where
  mapTo t page frame flags a :=
    match drawFrames (t.tables.absent page).length a with
    | none => none
    | some (none, a) => some (.error .frameAllocationFailed, t, a)
    | some (some frames, a) =>
      if (t.tables.mapped.lookup page).isSome then
        some (.error (.pageAlreadyMapped frame), t.withTables page frames, a)
      else some (.ok (), (t.withTables page frames).withEntry page frame flags, a)
  entry t page := t.tables.mapped.lookup page
  missing t page := (t.tables.absent page).length
  hugeParent _ _ := False
  unmap t page :=
    if (t.tables.mapped.lookup page).isSome then
      (.ok (), { t with tables :=
        { t.tables with mapped := t.tables.mapped.filter (fun e => e.1 ≠ page) } })
    else (.error .pageNotMapped, t)
  byte t := t.ram
  store t phys b := { t with ram := Function.update t.ram phys b }
  holdsTable t f := f ∈ t.tableFrames

theorem mapTo_ok {A : Type} [Memory.FrameAllocator A] {t t' : WalkedMemory} {page : Page}
    {frame : PhysFrame} {flags : PageTableFlags} {a a' : A}
    (h : machine.mapTo t page frame flags a = some (.ok (), t', a')) :
    t.tables.mapped.lookup page = none ∧ ∃ frames,
      drawFrames (t.tables.absent page).length a = some (some frames, a') ∧
      t' = (t.withTables page frames).withEntry page frame flags := by
  simp only [machine] at h
  split at h
  · cases h
  · simp at h
  · rename_i frames a₁ hdraw
    split_ifs at h with hmapped
    · simp at h
    · rw [Option.some.injEq, Prod.mk.injEq, Prod.mk.injEq] at h
      obtain ⟨_, rfl, rfl⟩ := h
      exact ⟨Option.not_isSome_iff_eq_none.1 hmapped, frames, hdraw, rfl⟩

theorem mapTo_mapped {A : Type} [Memory.FrameAllocator A] {t t' : WalkedMemory} {page : Page}
    {frame : PhysFrame} {flags : PageTableFlags} {a a' : A} {r : Except MapToError Unit}
    (h : machine.mapTo t page frame flags a = some (r, t', a')) :
    t'.tables.mapped = t.tables.mapped ∨
      t'.tables.mapped = (page, frame, flags) :: t.tables.mapped := by
  simp only [machine] at h
  split at h
  · cases h
  · rw [Option.some.injEq, Prod.mk.injEq, Prod.mk.injEq] at h
    exact .inl (by rw [← h.2.1])
  · split_ifs at h with hmapped
    · rw [Option.some.injEq, Prod.mk.injEq, Prod.mk.injEq] at h
      exact .inl (by rw [← h.2.1]; rfl)
    · rw [Option.some.injEq, Prod.mk.injEq, Prod.mk.injEq] at h
      exact .inr (by rw [← h.2.1]; rfl)

theorem lookup_filter_ne (l : List (Page × PhysFrame × PageTableFlags)) (page q : Page) :
    (l.filter (fun e => e.1 ≠ page)).lookup q = if q = page then none else l.lookup q := by
  induction l with
  | nil => simp
  | cons e l ih =>
    obtain ⟨p, f⟩ := e
    by_cases hp : p = page
    · rw [List.filter_cons_of_neg (by simp [hp]), ih, List.lookup_cons]
      split_ifs with hq
      · rfl
      · rw [beq_false_of_ne (show q ≠ p from fun h => hq (h.trans hp))]
    · rw [List.filter_cons_of_pos (by simp [hp]), List.lookup_cons, ih, List.lookup_cons]
      by_cases hq : q = p
      · have hne : q ≠ page := hq ▸ hp
        rw [beq_iff_eq.2 hq, if_neg hne, if_neg hne]
      · rw [beq_false_of_ne hq]

theorem machine_contract : machine.Contract where
  missing_le t page := List.length_filter_le _ (WalkedTables.path page)
  draws t page frame flags a := by
    simp only [machine]
    cases drawFrames (t.tables.absent page).length a with
    | none => rfl
    | some drawn =>
      obtain ⟨frames, a'⟩ := drawn
      cases frames with
      | none => exact ⟨t, rfl⟩
      | some frames =>
        dsimp only
        split_ifs with hmapped
        · refine ⟨_, _, rfl, .inr (.inl ⟨rfl, fun hnone => ?_⟩)⟩
          rw [hnone] at hmapped
          cases hmapped
        · exact ⟨_, _, rfl, .inl rfl⟩
  installs h := by
    obtain ⟨_, frames, _, rfl⟩ := mapTo_ok h
    exact List.lookup_cons_self
  others h q hq := by
    change List.lookup q _ = List.lookup q _
    obtain hmapped | hmapped := mapTo_mapped h
    · rw [hmapped]
    · rw [hmapped, List.lookup_cons, beq_false_of_ne hq]
  fresh h := (mapTo_ok h).1
  newTables hdraw h := by
    obtain ⟨_, frames, hdraw', rfl⟩ := mapTo_ok h
    intro f hf
    change drawFrames _ _ = _ at hdraw
    have heq := Option.some.inj (hdraw.symm.trans hdraw')
    rw [Prod.mk.injEq, Option.some.injEq] at heq
    rw [heq.1]
    exact (List.mem_append.1 hf).symm
  mapBytes h := by
    obtain ⟨_, frames, _, rfl⟩ := mapTo_ok h
    intro phys hphys
    exact if_neg (fun hmem => hphys (List.mem_append_left _ hmem))
  mapHuge _ _ hhuge := hhuge
  unmapped {t t' page} h := by
    have hif : (if (t.tables.mapped.lookup page).isSome then
        ((Except.ok (), { t with tables :=
          { t.tables with mapped := t.tables.mapped.filter (fun e => e.1 ≠ page) } }) :
          Except UnmapError Unit × WalkedMemory)
        else (.error .pageNotMapped, t)) = (.ok (), t') := h
    split_ifs at hif with hmapped
    · rw [Prod.mk.injEq] at hif
      obtain ⟨_, rfl⟩ := hif
      refine ⟨?_, ?_, fun _ hf => hf, fun _ hhuge => hhuge, fun _ _ => rfl⟩
      · change List.lookup page _ = none
        rw [lookup_filter_ne, if_pos rfl]
      · intro q hq
        change List.lookup q _ = List.lookup q _
        rw [lookup_filter_ne, if_neg hq]
    · simp at hif
  unmaps {t page} h := ⟨_, if_pos (Option.isSome_iff_ne_none.2 h)⟩
  stored t phys b q := Function.update_apply t.ram phys b q
  storeTables _ _ := ⟨fun _ => rfl, fun _ => Iff.rfl, fun _ => Iff.rfl⟩

end WalkedMemory

end LlmOs.Boot
