import LlmOs.KernelLoader

set_option autoImplicit false

/-!
# A segment in memory

What `map_segment` leaves: the segment reads as the kernel's file says, its file part
byte for byte and zeros up to its size in memory. All it writes to are frames that it
drew itself.
-/
namespace LlmOs.Boot
open Memory

/-- Where an access through the page tables goes. -/
def Machine.translate {T : Type} (m : Machine T) (t : T) (addr : ℕ) : Option ℕ :=
  (m.entry t (.containingAddress addr)).map (fun entry => entry.1.startAddress + addr % 4096)

def Machine.read {T : Type} (m : Machine T) (t : T) (addr : ℕ) : Option UInt8 :=
  (m.translate t addr).map (m.byte t)

section
variable {T : Type} {m : Machine T} {sorter : SortUnstableBy MemoryRegion}

theorem copyPage_ends {s : BootState T} {source target : Page} {f g : PhysFrame}
    {flags flags' : PageTableFlags} (hsource : m.entry s.1 source = some (f, flags))
    (htarget : m.entry s.1 target = some (g, flags')) (err : MapToError → BootState T → Prop) :
    (copyPage m source target).Ends s (fun _ s' => s' = (copyBytes m s.1 f g, s.2)) err := by
  have hrun : copyPage m source target s = some (.ok (), copyBytes m s.1 f g, s.2) := by
    simp [copyPage, Run.ofStep, hsource, htarget]
  constructor
  · intro _ s' h
    rw [hrun, Option.some.injEq, Prod.mk.injEq] at h
    exact h.2.symm
  · intro e s' h
    rw [hrun] at h
    simp at h

theorem unmapPage_ends (hm : m.Contract) {s : BootState T} {page : Page}
    (hpage : m.entry s.1 page ≠ none) (err : MapToError → BootState T → Prop) :
    (unmapPage m page).Ends s (fun _ s' => ∃ t, m.unmap s.1 page = (.ok (), t) ∧ s' = (t, s.2))
      err := by
  obtain ⟨t, ht⟩ := hm.unmaps hpage
  have hrun : unmapPage m page s = some (.ok (), t, s.2) := by
    simp [unmapPage, Run.ofStep, ht]
  constructor
  · intro _ s' h
    rw [hrun, Option.some.injEq, Prod.mk.injEq] at h
    exact ⟨t, ht, h.2.symm⟩
  · intro e s' h
    rw [hrun] at h
    simp at h

/-- What has become of the last page of the file part: it shows a fresh frame with
the same bytes. Nothing else has changed that anyone sees. -/
structure Copied (m : Machine T) (s s' : BootState T) (page : Page) (f : PhysFrame)
    (flags : PageTableFlags) (g : PhysFrame) : Prop where
  entry : m.entry s'.1 page = some (g, flags)
  owned : Owned m s' g
  free : g ∈ s.2.memoryMap.frames
  bytes : ∀ i < 4096, m.byte s'.1 (g.startAddress + i) = m.byte s.1 (f.startAddress + i)
  others : ∀ q, q ≠ page → q ≠ TEMP_PAGE → m.entry s'.1 q = m.entry s.1 q
  othersOwned : ∀ x, Owned m s x → Owned m s' x
  othersBytes : ∀ phys, Owned m s (frameOf phys) → m.byte s'.1 phys = m.byte s.1 phys

theorem not_owned_of_free {s₀ s : BootState T} {pages : List Page} (h : Step m s₀ s pages)
    {g : PhysFrame} (hg : g ∈ s.2.memoryMap.frames) : ¬ Owned m s₀ g :=
  fun howned => howned.1 (h.free g hg)

theorem copyLastPage_ends (hm : m.Contract) {s₀ s : BootState T} {pages : List Page}
    (hstep : Step m s₀ s pages) {flags : PageTableFlags} {virtStart : VirtAddr}
    {fileSize : UInt64} {page : Page} {f : PhysFrame}
    (hlast : ∀ addr, (virtStart.add fileSize.toNat).bind (fun addr => addr.sub 1) = some addr →
      Page.containingAddress addr.value = page)
    (hpage : page ∈ pages) (hentry : m.entry s.1 page = some (f, flags)) (hf : Owned m s f) :
    (copyLastPage m sorter flags virtStart fileSize).Ends s
      (fun _ s' => Step m s₀ s' (pages ++ [TEMP_PAGE]) ∧ ∃ g, Copied m s s' page f flags g)
      (Failed m s₀ (pages ++ [TEMP_PAGE])) := by
  refine (allocate_ends hstep.sound (by decide) s₀ _).bind ?_
  rintro g s₁ ⟨hdraw, hfree, hg⟩
  refine ((mapPage_ends hm hdraw.sound TEMP_PAGE g flags).mono (fun _ _ h => h) ?_).bind ?_
  · intro e s' hfail
    have hwhole : Failed m s₀ (pages ++ [] ++ [TEMP_PAGE] ++ []) e s' :=
      hfail.after (hstep.trans hdraw)
    simpa using hwhole
  rintro _ s₂ ⟨hmapTemp, htemp⟩
  have hsince : Step m s s₂ [TEMP_PAGE] := hdraw.trans hmapTemp
  have hstep₂ : Step m s₀ s₂ (pages ++ [TEMP_PAGE]) := hstep.trans hsince
  have hentry₂ : m.entry s₂.1 page = some (f, flags) := by
    rw [hsince.entry_eq (by simp [hentry]), hentry]
  have hg₂ : Owned m s₂ g := hmapTemp.owned g hg
  refine .ofOption_bind (fun addr haddr => ?_)
  rw [hlast addr haddr]
  refine (copyPage_ends hentry₂ htemp _).bind ?_
  rintro _ s₃ rfl
  obtain ⟨hsame, hothers, hcopied⟩ := copyBytes_spec hm s₂.1 f hg₂.2
  have hkept : ∀ {s' : BootState T}, ¬ Owned m s' g → ∀ phys, Owned m s' (frameOf phys) →
      m.byte (copyBytes m s₂.1 f g) phys = m.byte s₂.1 phys := by
    intro s' hnot phys hphys
    exact hothers phys (fun heq => hnot (heq ▸ hphys))
  have hstep₃ := hstep₂.write hsame (hkept (not_owned_of_free hstep hfree))
  have hsince₃ := hsince.write hsame (hkept (fun howned => howned.1 hfree))
  have hentry₃ : m.entry (copyBytes m s₂.1 f g) page = some (f, flags) := by
    rw [hsame.entry, hentry₂]
  refine (unmapPage_ends hm (by simp [hentry₃]) _).bind ?_
  rintro _ s₄ ⟨t, hunmap, rfl⟩
  have hmem : page ∈ pages ++ [TEMP_PAGE] := List.mem_append_left _ hpage
  refine (mapPage_ends hm (unmap_sound hm hstep₃.sound hunmap) page g flags).mono ?_ ?_
  · rintro _ s₅ ⟨hmap, hentry₅⟩
    refine ⟨hstep₃.remap hm hmem hunmap hmap, g, hentry₅,
      remap_owned hm hunmap hmap (hsame.owned hg₂), hfree, ?_, ?_, ?_, ?_⟩
    · intro i hi
      have hphys : Owned m s₂ (frameOf (g.startAddress + i)) := by rwa [frameOf_add hi]
      have hsource : Owned m s (frameOf (f.startAddress + i)) := by rwa [frameOf_add hi]
      rw [remap_bytes hm hunmap hmap (hsame.owned hphys), hcopied i hi, hsince.bytes _ hsource]
    · intro q hq hqtemp
      rw [remap_entry hm hunmap hmap hq, hsince₃.others q (by simpa using hqtemp)]
    · intro x hx
      exact remap_owned hm hunmap hmap (hsince₃.owned x hx)
    · intro phys hphys
      rw [remap_bytes hm hunmap hmap (hsince₃.owned _ hphys), hsince₃.bytes phys hphys]
  · intro e s₅ hfail
    cases e with
    | frameAllocationFailed => exact hfail
    | pageAlreadyMapped f' =>
      refine absurd ⟨List.nodup_singleton page, ?_⟩ hfail
      intro q hq
      rw [List.mem_singleton.1 hq]
      exact (hm.unmapped hunmap).1
    | parentEntryHugePage =>
      obtain ⟨q, hq, hhuge⟩ := hfail
      rw [List.mem_singleton.1 hq] at hhuge
      exact ⟨page, hmem, hstep₃.huge page ((hm.unmapped hunmap).2.2.2.1 page hhuge)⟩

theorem storeByte_ends (s : BootState T) (addr : VirtAddr) (b : UInt8)
    (err : MapToError → BootState T → Prop) :
    (storeByte m addr b).Ends s (fun _ s' => ∃ phys, m.translate s.1 addr.value = some phys ∧
      s' = (m.store s.1 phys b, s.2)) err where
  returns {_ s'} h := by
    obtain ⟨entry, hentry, heq⟩ := Option.map_eq_some_iff.1 h
    rw [Prod.mk.injEq] at heq
    exact ⟨_, by rw [Machine.translate, hentry]; rfl, heq.2.symm⟩
  fails {e s'} h := by
    obtain ⟨entry, hentry, heq⟩ := Option.map_eq_some_iff.1 h
    simp at heq

theorem SameTables.translate {t t' : T} (h : SameTables m t t') (addr : ℕ) :
    m.translate t' addr = m.translate t addr := by
  rw [Machine.translate, Machine.translate, h.entry]

/-- The loop that zeroes: the places of its addresses are zero, all others as before. -/
theorem zeroBytes_ends (hm : m.Contract) {s : BootState T} {virtStart : VirtAddr}
    {fileSize memSize : UInt64}
    (hhalf : InHalf virtStart.value (virtStart.value + memSize.toNat))
    (hplaces : ∀ j, fileSize.toNat ≤ j → j < memSize.toNat → ∀ phys,
      m.translate s.1 (virtStart.value + j) = some phys → ¬ m.holdsTable s.1 (frameOf phys))
    (err : MapToError → BootState T → Prop) :
    (zeroBytes m virtStart fileSize memSize).Ends s
      (fun _ s' => s'.2 = s.2 ∧ SameTables m s.1 s'.1 ∧
        (∀ j, fileSize.toNat ≤ j → j < memSize.toNat → ∀ phys,
          m.translate s.1 (virtStart.value + j) = some phys → m.byte s'.1 phys = 0) ∧
        ∀ phys, (∀ j, fileSize.toNat ≤ j → j < memSize.toNat →
          m.translate s.1 (virtStart.value + j) ≠ some phys) → m.byte s'.1 phys = m.byte s.1 phys)
      err := by
  have hmem : ∀ j, j ∈ List.range' fileSize.toNat (memSize.toNat - fileSize.toNat) ↔
      fileSize.toNat ≤ j ∧ j < memSize.toNat := by
    intro j
    rw [List.mem_range'_1]
    omega
  refine (Run.Ends.forM (fun done s' => s'.2 = s.2 ∧ SameTables m s.1 s'.1 ∧
    (∀ j ∈ done, ∀ phys, m.translate s.1 (virtStart.value + j) = some phys →
      m.byte s'.1 phys = 0) ∧
    ∀ phys, (∀ j ∈ done, m.translate s.1 (virtStart.value + j) ≠ some phys) →
      m.byte s'.1 phys = m.byte s.1 phys) ⟨rfl, .refl m s.1, by simp, by simp⟩ ?_).mono ?_
    (fun _ _ h => h)
  · rintro done x rest s₁ hxs ⟨hallocator, hsame, hzeroed, hothers⟩
    obtain ⟨hlow, hhigh⟩ := (hmem x).1 (by rw [hxs]; simp)
    refine .ofOption_bind (fun addr haddr => ?_)
    have hvalue : addr.value = virtStart.value + x :=
      VirtAddr.value_of_new haddr (hhalf.mono (by omega) (by omega))
    refine (storeByte_ends s₁ addr 0 err).mono ?_ (fun _ _ h => h)
    rintro _ s₂ ⟨phys, hphys, rfl⟩
    rw [hvalue, hsame.translate] at hphys
    refine ⟨hallocator, hsame.store hm (hplaces x hlow hhigh phys hphys) 0, ?_, ?_⟩
    · intro j hj q hq
      rw [hm.stored]
      split_ifs with heq
      · rfl
      · obtain hj | hj := List.mem_append.1 hj
        · exact hzeroed j hj q hq
        · rw [List.mem_singleton.1 hj, hphys, Option.some.injEq] at hq
          exact absurd hq.symm heq
    · intro q hq
      have hne : q ≠ phys := by
        rintro rfl
        exact hq x (by simp) hphys
      rw [hm.stored, if_neg hne, hothers q (fun j hj => hq j (List.mem_append_left _ hj))]
  · rintro _ s' ⟨hallocator, hsame, hzeroed, hothers⟩
    refine ⟨hallocator, hsame, fun j hlow hhigh => hzeroed j ((hmem j).2 ⟨hlow, hhigh⟩), ?_⟩
    intro phys hphys
    exact hothers phys (fun j hj => hphys j ((hmem j).1 hj).1 ((hmem j).1 hj).2)

end

namespace ProgramHeader64

/-- The number of the first page behind the file part. -/
def filePageEnd (segment : ProgramHeader64) : ℕ :=
  (segment.virtualAddr.toNat + segment.fileSize.toNat + 4095) / 4096

def filePages (segment : ProgramHeader64) : List Page :=
  pagesFrom (segment.virtualAddr.toNat / 4096)
    (segment.filePageEnd - segment.virtualAddr.toNat / 4096)

/-- The file part ends in the middle of a page. -/
def EndsInPage (segment : ProgramHeader64) : Prop :=
  (segment.virtualAddr.toNat + segment.fileSize.toNat) % 4096 ≠ 0

instance (segment : ProgramHeader64) : Decidable segment.EndsInPage :=
  inferInstanceAs (Decidable (_ ≠ _))

def tempPages (segment : ProgramHeader64) : List Page :=
  if segment.EndsInPage then [TEMP_PAGE] else []

/-- The loop goes up to the page that contains the end address, so a segment that
ends on a page border takes up a page behind its end. -/
def zeroPages (segment : ProgramHeader64) : List Page :=
  pagesFrom segment.filePageEnd
    ((segment.virtualAddr.toNat + segment.memSize.toNat) / 4096 + 1 - segment.filePageEnd)

/-- The pages that a loaded segment takes up. -/
def loadPages (segment : ProgramHeader64) : List Page :=
  segment.filePages ++
    (if segment.memSize > segment.fileSize then segment.tempPages ++ segment.zeroPages else [])

end ProgramHeader64

/-- What the ELF format demands of a segment that is loaded, and that its addresses
leave room for a page in their half of the address space. -/
structure Loadable (kernelStart : PhysAddr) (kernelSize : ℕ) (segment : ProgramHeader64) :
    Prop where
  inFile : segment.offset.toNat + segment.fileSize.toNat ≤ kernelSize
  fileSize_le : segment.fileSize.toNat ≤ segment.memSize.toNat
  congruent : segment.virtualAddr.toNat % 4096 =
    (kernelStart.value + segment.offset.toNat) % 4096
  inHalf : InHalf segment.virtualAddr.toNat
    (segment.virtualAddr.toNat + segment.memSize.toNat + 4096)

/-- A segment as its program header wants it. `image` is the kernel's file. -/
structure Loaded {T : Type} (m : Machine T) (s : BootState T) (segment : ProgramHeader64)
    (image : ℕ → UInt8) : Prop where
  backed : ∀ i < segment.memSize.toNat, ∃ f,
    m.entry s.1 (.containingAddress (segment.virtualAddr.toNat + i)) =
      some (f, segmentFlags segment) ∧ Owned m s f
  file : ∀ i < segment.fileSize.toNat,
    m.read s.1 (segment.virtualAddr.toNat + i) = some (image (segment.offset.toNat + i))
  zero : ∀ i, segment.fileSize.toNat ≤ i → i < segment.memSize.toNat →
    m.read s.1 (segment.virtualAddr.toNat + i) = some 0

section
variable {T : Type} {m : Machine T} {sorter : SortUnstableBy MemoryRegion}

/-- `page` shows a frame with the bytes that `source` had. -/
structure Shows (m : Machine T) (s s' : BootState T) (flags : PageTableFlags) (page : Page)
    (source f : PhysFrame) : Prop where
  entry : m.entry s'.1 page = some (f, flags)
  owned : Owned m s' f
  bytes : ∀ i < 4096, m.byte s'.1 (f.startAddress + i) = m.byte s.1 (source.startAddress + i)

theorem Shows.step {s s₁ s₂ : BootState T} {flags : PageTableFlags} {page : Page}
    {source f : PhysFrame} (h : Shows m s s₁ flags page source f) {pages : List Page}
    (hstep : Step m s₁ s₂ pages) : Shows m s s₂ flags page source f where
  entry := by rw [hstep.entry_eq (by simp [h.entry]), h.entry]
  owned := hstep.owned f h.owned
  bytes i hi := by
    rw [hstep.bytes _ (by rw [frameOf_add hi]; exact h.owned), h.bytes i hi]

section Segment

variable {segment : ProgramHeader64} {flags : PageTableFlags} {source : ℕ → PhysFrame}
  {s s₁ : BootState T}

/-- The file part as it stands before anything is zeroed. Its last page shows a fresh
frame if something else may lie behind its end. -/
structure FileShown (m : Machine T) (s s' : BootState T) (segment : ProgramHeader64)
    (flags : PageTableFlags) (source : ℕ → PhysFrame) (n : ℕ) (f : PhysFrame) : Prop
    extends Shows m s s' flags (pageAt n) (source n) f where
  fresh : n + 1 = segment.filePageEnd → segment.EndsInPage → ¬ Owned m s f
  kept : ¬ (n + 1 = segment.filePageEnd ∧ segment.EndsInPage) → Owned m s f

theorem lastPage_eq {virtStart : VirtAddr} (hvalue : virtStart.value = segment.virtualAddr.toNat)
    (hhalf : InHalf segment.virtualAddr.toNat
      (segment.virtualAddr.toNat + segment.fileSize.toNat + 4096))
    (hends : segment.EndsInPage) {addr : VirtAddr}
    (h : (virtStart.add segment.fileSize.toNat).bind (fun addr => addr.sub 1) = some addr) :
    Page.containingAddress addr.value = pageAt (segment.filePageEnd - 1) := by
  obtain ⟨zeroStart, hzeroStart, hsub⟩ := Option.bind_eq_some_iff.1 h
  have hzero : zeroStart.value = segment.virtualAddr.toNat + segment.fileSize.toNat := by
    rw [VirtAddr.value_of_new hzeroStart (by rw [hvalue]; exact hhalf.mono (by omega) (by omega)),
      hvalue]
  unfold VirtAddr.sub at hsub
  split_ifs at hsub with hpos
  unfold ProgramHeader64.EndsInPage at hends
  have hvalue' : addr.value = segment.virtualAddr.toNat + segment.fileSize.toNat - 1 := by
    rw [hzero] at hsub
    apply VirtAddr.value_of_new hsub
    unfold InHalf at hhalf ⊢
    omega
  rw [containingAddress_pageAt, hvalue', ProgramHeader64.filePageEnd]
  congr 1
  omega

/-- The last page is replaced by a copy if the file part ends in the middle of it. -/
theorem copyStage_ends (hm : m.Contract) (hstep : Step m s s₁ segment.filePages)
    {virtStart : VirtAddr} (hvalue : virtStart.value = segment.virtualAddr.toNat)
    (hhalf : InHalf segment.virtualAddr.toNat
      (segment.virtualAddr.toNat + segment.fileSize.toNat + 4096))
    (hshown : ∀ n, segment.virtualAddr.toNat / 4096 ≤ n → n < segment.filePageEnd →
      m.entry s₁.1 (pageAt n) = some (source n, flags) ∧ Owned m s (source n)) :
    Run.Ends (if segment.EndsInPage then
        copyLastPage m sorter flags virtStart segment.fileSize else return) s₁
      (fun _ s₂ => Step m s s₂ (segment.filePages ++ segment.tempPages) ∧
        ∀ n, segment.virtualAddr.toNat / 4096 ≤ n → n < segment.filePageEnd →
          ∃ f, FileShown m s s₂ segment flags source n f)
      (Failed m s (segment.filePages ++ segment.tempPages)) := by
  have hbefore : ∀ n, segment.virtualAddr.toNat / 4096 ≤ n → n < segment.filePageEnd →
      Shows m s s₁ flags (pageAt n) (source n) (source n) := by
    intro n hlow hhigh
    obtain ⟨hentry, howned⟩ := hshown n hlow hhigh
    refine ⟨hentry, hstep.owned _ howned, fun i hi => ?_⟩
    exact hstep.bytes _ (by rwa [frameOf_add hi])
  unfold ProgramHeader64.tempPages
  by_cases hends : segment.EndsInPage
  · rw [if_pos hends, if_pos hends]
    have hlast : segment.virtualAddr.toNat / 4096 ≤ segment.filePageEnd - 1 ∧
        segment.filePageEnd - 1 < segment.filePageEnd := by
      unfold ProgramHeader64.EndsInPage at hends
      unfold ProgramHeader64.filePageEnd
      omega
    obtain ⟨hentry, howned⟩ := hshown _ hlast.1 hlast.2
    have hpage : pageAt (segment.filePageEnd - 1) ∈ segment.filePages :=
      pageAt_mem_pagesFrom.2 ⟨hlast.1, by omega⟩
    refine (copyLastPage_ends hm hstep (fun addr => lastPage_eq hvalue hhalf hends) hpage hentry
      (hstep.owned _ howned)).mono ?_ (fun _ _ h => h)
    rintro _ s₂ ⟨hstep₂, g, hcopied⟩
    refine ⟨hstep₂, fun n hlow hhigh => ?_⟩
    by_cases hn : n = segment.filePageEnd - 1
    · subst hn
      refine ⟨g, ⟨hcopied.entry, hcopied.owned, fun i hi => ?_⟩, ?_, ?_⟩
      · rw [hcopied.bytes i hi, (hbefore _ hlow hhigh).bytes i hi]
      · exact fun _ _ => not_owned_of_free hstep hcopied.free
      · exact fun hnot => absurd ⟨by omega, hends⟩ hnot
    · have hne : pageAt n ≠ pageAt (segment.filePageEnd - 1) := fun h => hn (pageAt_injective h)
      have hshows := hbefore n hlow hhigh
      have htemp : pageAt n ≠ TEMP_PAGE := by
        intro heq
        have hmem : pageAt n ∈ segment.filePages := pageAt_mem_pagesFrom.2 ⟨hlow, by omega⟩
        exact (List.nodup_append.1 hstep₂.nodup).2.2 _ hmem _ (List.mem_singleton_self _) heq
      refine ⟨source n, ⟨?_, hcopied.othersOwned _ hshows.owned, fun i hi => ?_⟩, ?_, ?_⟩
      · rw [hcopied.others _ hne htemp, hshows.entry]
      · rw [hcopied.othersBytes _ (by rw [frameOf_add hi]; exact hshows.owned), hshows.bytes i hi]
      · intro hnext
        omega
      · exact fun _ => (hshown n hlow hhigh).2
  · rw [if_neg hends, if_neg hends, List.append_nil]
    refine .pure ⟨hstep, fun n hlow hhigh => ⟨source n, hbefore n hlow hhigh, ?_, ?_⟩⟩
    · exact fun _ h => absurd h hends
    · exact fun _ => (hshown n hlow hhigh).2

/-- An address behind the file part is backed by a fresh frame, at a place that no
address of the file part has. -/
theorem zero_place {s₂ s₃ : BootState T} {pages : List Page} (hstep : Step m s s₂ pages)
    (hfile : ∀ n, segment.virtualAddr.toNat / 4096 ≤ n → n < segment.filePageEnd →
      ∃ f, FileShown m s s₂ segment flags source n f)
    (hstep₃ : Step m s₂ s₃ segment.zeroPages)
    (hfresh : ∀ page ∈ segment.zeroPages, ∃ g, m.entry s₃.1 page = some (g, flags) ∧
      Owned m s₃ g ∧ g ∈ s₂.2.memoryMap.frames)
    {j : ℕ} (hlow : segment.fileSize.toNat ≤ j) (hhigh : j < segment.memSize.toNat) :
    ∃ g, m.entry s₃.1 (pageAt ((segment.virtualAddr.toNat + j) / 4096)) = some (g, flags) ∧
      Owned m s₃ g ∧ ¬ Owned m s g ∧ ∀ i < segment.fileSize.toNat, ∀ f,
        m.entry s₃.1 (pageAt ((segment.virtualAddr.toNat + i) / 4096)) = some (f, flags) →
          f.startAddress + (segment.virtualAddr.toNat + i) % 4096 ≠
            g.startAddress + (segment.virtualAddr.toNat + j) % 4096 := by
  have hend : segment.filePageEnd =
      (segment.virtualAddr.toNat + segment.fileSize.toNat + 4095) / 4096 := rfl
  have hends : segment.EndsInPage ↔
      (segment.virtualAddr.toNat + segment.fileSize.toNat) % 4096 ≠ 0 := Iff.rfl
  have hshown : ∀ i < segment.fileSize.toNat, ∃ f,
      FileShown m s s₂ segment flags source ((segment.virtualAddr.toNat + i) / 4096) f ∧
      m.entry s₃.1 (pageAt ((segment.virtualAddr.toNat + i) / 4096)) = some (f, flags) := by
    intro i hi
    obtain ⟨f, hf⟩ := hfile ((segment.virtualAddr.toNat + i) / 4096) (by omega) (by omega)
    exact ⟨f, hf, (hf.toShows.step hstep₃).entry⟩
  by_cases hin : (segment.virtualAddr.toNat + j) / 4096 < segment.filePageEnd
  · have hlast : (segment.virtualAddr.toNat + j) / 4096 + 1 = segment.filePageEnd ∧
        (segment.virtualAddr.toNat + segment.fileSize.toNat) % 4096 ≠ 0 := by omega
    obtain ⟨g, hg⟩ := hfile ((segment.virtualAddr.toNat + j) / 4096) (by omega) hin
    have hshows := hg.toShows.step hstep₃
    have hnot := hg.fresh hlast.1 (hends.2 hlast.2)
    refine ⟨g, hshows.entry, hshows.owned, hnot, ?_⟩
    intro i hi f hf heq
    obtain ⟨hframe, hplace⟩ := frameOf_add_inj (Nat.mod_lt _ (by omega)) (Nat.mod_lt _ (by omega)) heq
    by_cases hpage : (segment.virtualAddr.toNat + i) / 4096 = (segment.virtualAddr.toNat + j) / 4096
    · omega
    · obtain ⟨f', hf', hentry⟩ := hshown i hi
      rw [hf, Option.some.injEq, Prod.mk.injEq] at hentry
      apply hnot
      rw [← hframe, hentry.1]
      exact hf'.kept (fun hlast' => hpage (by omega))
  · have hmem : pageAt ((segment.virtualAddr.toNat + j) / 4096) ∈ segment.zeroPages :=
      pageAt_mem_pagesFrom.2 ⟨by omega, by omega⟩
    obtain ⟨g, hentry, howned, hfree⟩ := hfresh _ hmem
    refine ⟨g, hentry, howned, not_owned_of_free hstep hfree, ?_⟩
    intro i hi f hf heq
    obtain ⟨hframe, _⟩ := frameOf_add_inj (Nat.mod_lt _ (by omega)) (Nat.mod_lt _ (by omega)) heq
    obtain ⟨f', hf', hentry'⟩ := hshown i hi
    rw [hf, Option.some.injEq, Prod.mk.injEq] at hentry'
    apply hf'.owned.1
    rw [← hentry'.1, hframe]
    exact hfree

/-- The byte at an address, through a page with the given flags. -/
def Reads (m : Machine T) (s : BootState T) (flags : PageTableFlags) (addr : ℕ) (b : UInt8) : Prop :=
  ∃ f, m.entry s.1 (pageAt (addr / 4096)) = some (f, flags) ∧ Owned m s f ∧
    m.byte s.1 (f.startAddress + addr % 4096) = b

theorem Reads.read_eq {addr : ℕ} {b : UInt8} (h : Reads m s flags addr b) :
    m.read s.1 addr = some b := by
  obtain ⟨f, hentry, _, hbyte⟩ := h
  rw [Machine.read, Machine.translate, containingAddress_pageAt, hentry]
  exact congrArg some hbyte

/-- What is zeroed behind the file part, and that the file part stays as it is. -/
theorem zeroStage_ends (hm : m.Contract) {s₂ s₃ : BootState T} {pages : List Page}
    (hstep : Step m s s₂ pages)
    (hfile : ∀ n, segment.virtualAddr.toNat / 4096 ≤ n → n < segment.filePageEnd →
      ∃ f, FileShown m s s₂ segment flags source n f)
    (hstep₃ : Step m s₂ s₃ segment.zeroPages)
    (hfresh : ∀ page ∈ segment.zeroPages, ∃ g, m.entry s₃.1 page = some (g, flags) ∧
      Owned m s₃ g ∧ g ∈ s₂.2.memoryMap.frames)
    {virtStart : VirtAddr} (hvalue : virtStart.value = segment.virtualAddr.toNat)
    (hhalf : InHalf segment.virtualAddr.toNat
      (segment.virtualAddr.toNat + segment.memSize.toNat))
    (err : MapToError → BootState T → Prop) :
    (zeroBytes m virtStart segment.fileSize segment.memSize).Ends s₃
      (fun _ s₄ => Step m s s₄ (pages ++ segment.zeroPages) ∧
        (∀ i < segment.fileSize.toNat, Reads m s₄ flags (segment.virtualAddr.toNat + i)
          (m.byte s.1 ((source ((segment.virtualAddr.toNat + i) / 4096)).startAddress +
            (segment.virtualAddr.toNat + i) % 4096))) ∧
        ∀ j, segment.fileSize.toNat ≤ j → j < segment.memSize.toNat →
          Reads m s₄ flags (segment.virtualAddr.toNat + j) 0)
      err := by
  have hend : segment.filePageEnd =
      (segment.virtualAddr.toNat + segment.fileSize.toNat + 4095) / 4096 := rfl
  have hplace : ∀ j, segment.fileSize.toNat ≤ j → j < segment.memSize.toNat → ∃ g,
      m.entry s₃.1 (pageAt ((segment.virtualAddr.toNat + j) / 4096)) = some (g, flags) ∧
      Owned m s₃ g ∧ ¬ Owned m s g ∧
      m.translate s₃.1 (segment.virtualAddr.toNat + j) =
        some (g.startAddress + (segment.virtualAddr.toNat + j) % 4096) ∧
      ∀ i < segment.fileSize.toNat, ∀ f,
        m.entry s₃.1 (pageAt ((segment.virtualAddr.toNat + i) / 4096)) = some (f, flags) →
          f.startAddress + (segment.virtualAddr.toNat + i) % 4096 ≠
            g.startAddress + (segment.virtualAddr.toNat + j) % 4096 := by
    intro j hlow hhigh
    obtain ⟨g, hentry, howned, hnot, hapart⟩ := zero_place hstep hfile hstep₃ hfresh hlow hhigh
    refine ⟨g, hentry, howned, hnot, ?_, hapart⟩
    rw [Machine.translate, containingAddress_pageAt, hentry]
    rfl
  have hmod : ∀ addr, addr % 4096 < 4096 := fun addr => Nat.mod_lt _ (by omega)
  refine (zeroBytes_ends hm (by rwa [hvalue]) ?_ err).mono ?_ (fun _ _ h => h)
  · intro j hlow hhigh phys hphys
    obtain ⟨g, _, howned, _, htranslate, _⟩ := hplace j hlow hhigh
    rw [hvalue, htranslate, Option.some.injEq] at hphys
    rw [← hphys, frameOf_add (hmod _)]
    exact howned.2
  · rintro _ s₄ ⟨hallocator, hsame, hzeroed, hothers⟩
    rw [hvalue] at hzeroed hothers
    obtain ⟨t, a⟩ := s₄
    dsimp only at hallocator hsame hzeroed hothers
    subst hallocator
    refine ⟨(hstep.trans hstep₃).write hsame ?_, ?_, ?_⟩
    · intro phys hphys
      refine hothers phys (fun j hlow hhigh heq => ?_)
      obtain ⟨g, _, _, hnot, htranslate, _⟩ := hplace j hlow hhigh
      rw [htranslate, Option.some.injEq] at heq
      rw [← heq, frameOf_add (hmod _)] at hphys
      exact hnot hphys
    · intro i hi
      obtain ⟨f, hf⟩ := hfile ((segment.virtualAddr.toNat + i) / 4096) (by omega) (by omega)
      have hshows := hf.toShows.step hstep₃
      refine ⟨f, by rw [hsame.entry, hshows.entry], hsame.owned hshows.owned, ?_⟩
      rw [hothers _ ?_, hshows.bytes _ (hmod _)]
      intro j hlow hhigh heq
      obtain ⟨g, _, _, _, htranslate, hapart⟩ := hplace j hlow hhigh
      rw [htranslate, Option.some.injEq] at heq
      exact hapart i hi f hshows.entry heq.symm
    · intro j hlow hhigh
      obtain ⟨g, hentry, howned, _, htranslate, _⟩ := hplace j hlow hhigh
      refine ⟨g, by rw [hsame.entry, hentry], hsame.owned howned, ?_⟩
      exact hzeroed j hlow hhigh _ htranslate

/-- The whole of a segment's part behind the file. -/
theorem mapZeroed_ends (hm : m.Contract) (hs : Sound m s) (hstep : Step m s s₁ segment.filePages)
    {virtStart : VirtAddr} (hvalue : virtStart.value = segment.virtualAddr.toNat)
    (hlt : segment.fileSize.toNat < segment.memSize.toNat)
    (hhalf : InHalf segment.virtualAddr.toNat
      (segment.virtualAddr.toNat + segment.memSize.toNat + 4096))
    (hshown : ∀ n, segment.virtualAddr.toNat / 4096 ≤ n → n < segment.filePageEnd →
      m.entry s₁.1 (pageAt n) = some (source n, flags) ∧ Owned m s (source n)) :
    (mapZeroed m sorter flags virtStart segment.fileSize segment.memSize).Ends s₁
      (fun _ s' => Step m s s' (segment.filePages ++ (segment.tempPages ++ segment.zeroPages)) ∧
        (∀ i < segment.fileSize.toNat, Reads m s' flags (segment.virtualAddr.toNat + i)
          (m.byte s.1 ((source ((segment.virtualAddr.toNat + i) / 4096)).startAddress +
            (segment.virtualAddr.toNat + i) % 4096))) ∧
        ∀ j, segment.fileSize.toNat ≤ j → j < segment.memSize.toNat →
          Reads m s' flags (segment.virtualAddr.toNat + j) 0)
      (Failed m s (segment.filePages ++ (segment.tempPages ++ segment.zeroPages))) := by
  have hend : segment.filePageEnd =
      (segment.virtualAddr.toNat + segment.fileSize.toNat + 4095) / 4096 := rfl
  rw [← List.append_assoc]
  refine .ofOption_bind (fun zeroStart hzeroStart => ?_)
  have hzero : zeroStart.value = segment.virtualAddr.toNat + segment.fileSize.toNat := by
    rw [VirtAddr.value_of_new hzeroStart (by rw [hvalue]; exact hhalf.mono (by omega) (by omega)),
      hvalue]
  refine .ofOption_bind (fun zeroEnd hzeroEnd => ?_)
  have hlast : zeroEnd.value = segment.virtualAddr.toNat + segment.memSize.toNat := by
    rw [VirtAddr.value_of_new hzeroEnd (by rw [hvalue]; exact hhalf.mono (by omega) (by omega)),
      hvalue]
  rw [hzero]
  refine ((copyStage_ends hm hstep hvalue (hhalf.mono le_rfl (by omega)) hshown).mono
    (fun _ _ h => h) ?_).bind ?_
  · intro e s' hfail
    exact Failed.append hs hfail _
  rintro _ s₂ ⟨hstep₂, hfile⟩
  refine .ofOption_bind (fun startAddr hstartAddr => ?_)
  have hstart : startAddr.value = segment.filePageEnd * 4096 := by
    rw [hend]
    exact VirtAddr.value_of_new hstartAddr (hhalf.mono (by omega) (by omega))
  rw [containingAddress_pageAt, containingAddress_pageAt, hstart, hlast,
    Nat.mul_div_cancel _ (by omega), rangeInclusive_pageAt]
  refine ((mapFresh_ends hm hstep₂.sound (by decide) flags segment.zeroPages).mono
    (fun _ _ h => h) ?_).bind ?_
  · intro e s' hfail
    have hwhole : Failed m s (segment.filePages ++ segment.tempPages ++ segment.zeroPages ++ []) e s' :=
      hfail.after hstep₂
    rwa [List.append_nil] at hwhole
  rintro _ s₃ ⟨hstep₃, hfresh⟩
  exact zeroStage_ends hm hstep₂ hfile hstep₃ hfresh hvalue (hhalf.mono le_rfl (by omega)) _

theorem PhysAddr.value_addU64 {addr sum : PhysAddr} {n : UInt64}
    (h : PhysAddr.addU64 addr n = some sum) (hlt : addr.value + n.toNat < 2 ^ 64) :
    sum.value = addr.value + n.toNat := by
  have haddr := addr.inRange
  rw [PhysAddr.new_some h, UInt64.toNat_add, UInt64.toNat_ofNat_of_lt' (by change _ < 2 ^ 64; omega)]
  omega

/-- A segment that reads as it should is loaded. -/
theorem Loaded.of_reads {image : ℕ → UInt8}
    (hfile : ∀ i < segment.fileSize.toNat, Reads m s (segmentFlags segment)
      (segment.virtualAddr.toNat + i) (image (segment.offset.toNat + i)))
    (hzero : ∀ j, segment.fileSize.toNat ≤ j → j < segment.memSize.toNat →
      Reads m s (segmentFlags segment) (segment.virtualAddr.toNat + j) 0) :
    Loaded m s segment image where
  backed i hi := by
    rw [containingAddress_pageAt]
    by_cases hlt : i < segment.fileSize.toNat
    · obtain ⟨f, hentry, howned, _⟩ := hfile i hlt
      exact ⟨f, hentry, howned⟩
    · obtain ⟨f, hentry, howned, _⟩ := hzero i (by omega) hi
      exact ⟨f, hentry, howned⟩
  file i hi := (hfile i hi).read_eq
  zero j hlow hhigh := (hzero j hlow hhigh).read_eq

/-- One segment, from the file to the bytes that the kernel reads. -/
theorem mapLoad_ends (hm : m.Contract) (hs : Sound m s) {kernelStart : PhysAddr} {kernelSize : ℕ}
    (hkernel : kernelStart.value + kernelSize < 2 ^ 52) (hload : Loadable kernelStart kernelSize segment)
    (hframes : ∀ k, kernelStart.value / 4096 ≤ k → k ≤ (kernelStart.value + kernelSize - 1) / 4096 →
      Owned m s (.ofNumber k)) :
    (mapLoad m sorter segment kernelStart).Ends s
      (fun _ s' => Step m s s' segment.loadPages ∧
        Loaded m s' segment (fun i => m.byte s.1 (kernelStart.value + i)))
      (Failed m s segment.loadPages) := by
  have hend : segment.filePageEnd =
      (segment.virtualAddr.toNat + segment.fileSize.toNat + 4095) / 4096 := rfl
  have hinFile := hload.inFile
  have hsizes := hload.fileSize_le
  have hcongruent := hload.congruent
  refine .ofOption_bind (fun physStart hphysStart => ?_)
  have hstart := PhysAddr.value_addU64 hphysStart (by omega)
  refine .ofOption_bind (fun virtStart hvirtStart => ?_)
  have hvalue : virtStart.value = segment.virtualAddr.toNat := by
    apply VirtAddr.value_of_new (by rwa [UInt64.ofNat_toNat])
    exact hload.inHalf.mono le_rfl (by omega)
  refine .ofOption_bind (fun physEnd hphysEnd => ?_)
  have hphysEnd := PhysAddr.value_addU64 hphysEnd (by omega)
  refine .ofOption_bind (fun physLast hphysLast => ?_)
  have hlast := PhysAddr.sub_one_some hphysLast
  rw [containingAddress_pageAt, containingAddress_eq, containingAddress_eq, hvalue]
  have hcount : physLast.value / 4096 + 1 - physStart.value / 4096 =
      segment.filePageEnd - segment.virtualAddr.toNat / 4096 := by omega
  have hhalf : InHalf (segment.virtualAddr.toNat / 4096 * 4096)
      ((segment.virtualAddr.toNat / 4096 +
        (physLast.value / 4096 + 1 - physStart.value / 4096)) * 4096) := by
    have hinHalf := hload.inHalf
    unfold InHalf at *
    omega
  let source : ℕ → PhysFrame := fun n =>
    .ofNumber (physStart.value / 4096 + (n - segment.virtualAddr.toNat / 4096))
  have hplace : ∀ i, (source ((segment.virtualAddr.toNat + i) / 4096)).startAddress +
      (segment.virtualAddr.toNat + i) % 4096 = kernelStart.value + (segment.offset.toNat + i) := by
    intro i
    change (physStart.value / 4096 + ((segment.virtualAddr.toNat + i) / 4096 -
      segment.virtualAddr.toNat / 4096)) * 4096 + (segment.virtualAddr.toNat + i) % 4096 = _
    omega
  refine ((mapFile_ends hm hs hhalf).mono (fun _ _ h => h) ?_).bind ?_
  · intro e s' hfail
    rw [hcount] at hfail
    exact Failed.append hs hfail _
  rintro _ s₁ ⟨hstep, hentries⟩
  rw [hcount] at hstep hentries
  have hshown : ∀ n, segment.virtualAddr.toNat / 4096 ≤ n → n < segment.filePageEnd →
      m.entry s₁.1 (pageAt n) = some (source n, segmentFlags segment) ∧ Owned m s (source n) := by
    intro n hlow hhigh
    refine ⟨?_, hframes _ (by omega) (by omega)⟩
    have hentry := hentries (n - segment.virtualAddr.toNat / 4096) (by omega)
    rwa [Nat.add_sub_cancel' hlow] at hentry
  unfold ProgramHeader64.loadPages
  by_cases hlt : segment.memSize > segment.fileSize
  · rw [if_pos hlt, if_pos hlt]
    refine (mapZeroed_ends hm hs hstep hvalue (UInt64.lt_iff_toNat_lt.1 hlt) hload.inHalf
      hshown).mono ?_ (fun _ _ h => h)
    rintro _ s' ⟨hstep', hfile, hzero⟩
    refine ⟨hstep', .of_reads (fun i hi => ?_) hzero⟩
    rw [← hplace]
    exact hfile i hi
  · rw [if_neg hlt, if_neg hlt, List.append_nil]
    have hge : segment.memSize.toNat ≤ segment.fileSize.toNat :=
      Nat.le_of_not_lt (fun h => hlt (UInt64.lt_iff_toNat_lt.2 h))
    refine .pure ⟨hstep, .of_reads (fun i hi => ?_) (fun j hlow hhigh => by omega)⟩
    obtain ⟨hentry, howned⟩ := hshown ((segment.virtualAddr.toNat + i) / 4096) (by omega) (by omega)
    refine ⟨_, hentry, hstep.owned _ howned, ?_⟩
    rw [hstep.bytes _ (by rwa [frameOf_add (Nat.mod_lt _ (by omega))]), hplace]

end Segment

end

end LlmOs.Boot
