import LlmOs.FrameAllocator

set_option autoImplicit false

/-!
# Heap set-up

`init_heap` of `allocator.rs`. The frame allocator is generic, as in the source.
The mapper is the one of the `x86_64` crate: `map_to` is a parameter, and
`Mapper.Contract` says what that crate documents of it.
-/
namespace LlmOs.Memory
open scoped List

@[ext] structure Page where
  startAddress : ℕ
  aligned : startAddress % 4096 = 0

instance : DecidableEq Page := fun p q =>
  decidable_of_iff (p.startAddress = q.startAddress) Page.ext_iff.symm

def Page.containingAddress (addr : ℕ) : Page := ⟨addr - addr % 4096, by omega⟩

def Page.next (page : Page) (n : ℕ) : Page :=
  ⟨page.startAddress + n * 4096, by have := page.aligned; omega⟩

def Page.rangeInclusive (first last : Page) : List Page :=
  (List.range ((last.startAddress + 4096 - first.startAddress) / 4096)).map first.next

abbrev PageTableFlags := UInt64

def PRESENT : PageTableFlags := 1
def WRITABLE : PageTableFlags := 2

inductive MapToError where
  | frameAllocationFailed
  | parentEntryHugePage
  | pageAlreadyMapped (frame : PhysFrame)
  deriving DecidableEq

structure Mapper (T : Type) where
  mapTo : {A : Type} → [FrameAllocator A] → T → Page → PhysFrame → PageTableFlags → A →
    Option (Except MapToError Unit × T × A)

inductive Heap where
  | empty
  | initialised (bottom size : ℕ)
  deriving DecidableEq

def HEAP_START : ℕ := 0x444444440000
def HEAP_SIZE : ℕ := 1024 * 1024

def pageRange : List Page :=
  let heapStart := HEAP_START
  let heapEnd := heapStart + HEAP_SIZE - 1
  let heapStartPage := Page.containingAddress heapStart
  let heapEndPage := Page.containingAddress heapEnd
  Page.rangeInclusive heapStartPage heapEndPage

section
variable {T A : Type} [FrameAllocator A]

/-- The loop of `init_heap`. Each iteration has two early exits. -/
def mapPages (mapper : Mapper T) : List Page → T → A → Option (Except MapToError Unit × T × A)
  | [], t, a => some (.ok (), t, a)
  | page :: pages, t, a =>
    match allocateFrame a with
    | none => none
    | some (none, a) => some (.error .frameAllocationFailed, t, a)
    | some (some frame, a) =>
      let flags := PRESENT ||| WRITABLE
      match mapper.mapTo t page frame flags a with
      | none => none
      | some (.error e, t, a) => some (.error e, t, a)
      | some (.ok (), t, a) => mapPages mapper pages t a

def initHeap (mapper : Mapper T) (t : T) (a : A) (heap : Heap) :
    Option (Except MapToError Unit × T × A × Heap) :=
  match mapPages mapper pageRange t a with
  | none => none
  | some (.error e, t, a) => some (.error e, t, a, heap)
  | some (.ok (), t, a) => some (.ok (), t, a, .initialised HEAP_START HEAP_SIZE)

/-- Draw `n` frames, up to the first call that has none. -/
def drawFrames : ℕ → A → Option (Option (List PhysFrame) × A)
  | 0, a => some (some [], a)
  | n + 1, a =>
    match allocateFrame a with
    | none => none
    | some (none, a) => some (none, a)
    | some (some frame, a) =>
      (drawFrames n a).map (fun (frames, a) => (frames.map (frame :: ·), a))

end

structure PageTables (T : Type) where
  entry : T → Page → Option (PhysFrame × PageTableFlags)
  missing : T → Page → ℕ
  hugeParent : T → Page → Prop

/-- `map_to` draws a frame for each missing table on the path of the page, then
installs the entry or gives one of its errors. No other page is mapped anew. -/
structure Mapper.Contract {T : Type} (mapper : Mapper T) (tables : PageTables T) : Prop where
  missing_le : ∀ t page, tables.missing t page ≤ 3
  draws : ∀ {A : Type} [FrameAllocator A] (t : T) (page : Page) (frame : PhysFrame)
    (flags : PageTableFlags) (a : A),
    match drawFrames (tables.missing t page) a with
    | none => mapper.mapTo t page frame flags a = none
    | some (none, a') =>
      ∃ t', mapper.mapTo t page frame flags a = some (.error .frameAllocationFailed, t', a')
    | some (some _, a') => ∃ r t', mapper.mapTo t page frame flags a = some (r, t', a') ∧
      (r = .ok () ∨ (r = .error (.pageAlreadyMapped frame) ∧ tables.entry t page ≠ none) ∨
        (r = .error .parentEntryHugePage ∧ tables.hugeParent t page))
  installs : ∀ {A : Type} [FrameAllocator A] {t t' : T} {page : Page} {frame : PhysFrame}
    {flags : PageTableFlags} {a a' : A},
    mapper.mapTo t page frame flags a = some (.ok (), t', a') →
      tables.entry t' page = some (frame, flags)
  others : ∀ {A : Type} [FrameAllocator A] {t t' : T} {page : Page} {frame : PhysFrame}
    {flags : PageTableFlags} {a a' : A} {r : Except MapToError Unit},
    mapper.mapTo t page frame flags a = some (r, t', a') →
      ∀ q, q ≠ page → tables.entry t' q = tables.entry t q

theorem pageRange_eq : pageRange = (List.range 256).map (Page.containingAddress HEAP_START).next := rfl

theorem mem_pageRange (page : Page) : page ∈ pageRange ↔
    page.startAddress < HEAP_START + HEAP_SIZE ∧ HEAP_START < page.startAddress + 4096 := by
  have haligned := page.aligned
  have hfirst : (Page.containingAddress HEAP_START).startAddress = HEAP_START := rfl
  have hstart : HEAP_START % 4096 = 0 := rfl
  have hsize : HEAP_SIZE = 256 * 4096 := rfl
  rw [pageRange_eq, List.mem_map]
  simp only [Page.ext_iff, Page.next, hfirst, List.mem_range]
  generalize HEAP_START = start at *
  constructor
  · rintro ⟨i, hi, hpage⟩
    omega
  · intro h
    exact ⟨(page.startAddress - start) / 4096, by omega, by omega⟩

theorem pageRange_nodup : pageRange.Nodup := by
  rw [pageRange_eq]
  apply List.Nodup.map _ List.nodup_range
  intro i j h
  have haddr := congrArg Page.startAddress h
  simp only [Page.next] at haddr
  omega

theorem drawFrames_enough {m : MemoryMap} (hm : m.Valid) {n next : ℕ}
    (h : next + n ≤ m.frames.length) :
    drawFrames n (BootInfoFrameAllocator.mk m next) =
      some (some ((m.frames.drop next).take n), BootInfoFrameAllocator.mk m (next + n)) := by
  induction n generalizing next with
  | zero => rfl
  | succ n ih =>
    have hlt : next < m.frames.length := by omega
    rw [drawFrames, allocateFrame_eq hm, List.getElem?_eq_getElem hlt]
    simp only [ih (show next + 1 + n ≤ m.frames.length by omega), Option.map_some]
    rw [List.drop_eq_getElem_cons hlt, List.take_succ_cons, Nat.add_right_comm, Nat.add_assoc]

theorem drawFrames_short {m : MemoryMap} (hm : m.Valid) {n next : ℕ}
    (hnext : next ≤ m.frames.length) (h : m.frames.length < next + n) :
    drawFrames n (BootInfoFrameAllocator.mk m next) =
      some (none, BootInfoFrameAllocator.mk m (m.frames.length + 1)) := by
  induction n generalizing next with
  | zero => omega
  | succ n ih =>
    rw [drawFrames, allocateFrame_eq hm]
    by_cases hlt : next < m.frames.length
    · rw [List.getElem?_eq_getElem hlt]
      simp only [ih (by omega) (show m.frames.length < next + 1 + n by omega), Option.map_some,
        Option.map_none]
    · obtain rfl : next = m.frames.length := by omega
      rw [List.getElem?_eq_none le_rfl]

theorem map_getElem?_range' {α : Type} {l : List α} {n : ℕ} (h : n ≤ l.length) :
    (List.range' 0 n).map (fun i => l[i]?) = (l.take n).map some := by
  apply List.ext_getElem?
  intro i
  by_cases hi : i < n
  · rw [List.getElem?_map, List.getElem?_range' hi, List.getElem?_map, List.getElem?_take_of_lt hi,
      List.getElem?_eq_getElem (by omega)]
    simp [List.getElem?_eq_getElem (show i < l.length by omega)]
  · rw [List.getElem?_eq_none (by simpa using hi), List.getElem?_eq_none (by simp; omega)]

/-- What the loop has done when it ends without an error: every page is backed
by a frame of its own, and together with the frames that went into page tables
these are the frames that the allocator handed out meanwhile. -/
structure Backed {T : Type} (tables : PageTables T) (t' : T) (pages : List Page)
    (handedOut heapFrames tableFrames : List PhysFrame) : Prop where
  entries : List.Forall₂
    (fun page frame => tables.entry t' page = some (frame, PRESENT ||| WRITABLE)) pages heapFrames
  handedOut : (heapFrames ++ tableFrames).Perm handedOut

section
variable {T : Type} {mapper : Mapper T} {tables : PageTables T}

theorem take_drop_split {α : Type} (l : List α) {next k next₁ next' : ℕ} (hlt : next < l.length)
    (hnext₁ : next₁ = next + 1 + k) (hge : next₁ ≤ next') :
    (l.drop next).take (next' - next) =
      l[next] :: ((l.drop (next + 1)).take k ++ (l.drop next₁).take (next' - next₁)) := by
  have hcount : next' - next = (k + (next' - next₁)) + 1 := by omega
  rw [List.drop_eq_getElem_cons hlt, hcount, List.take_succ_cons, List.take_add, List.drop_drop,
    hnext₁]

theorem mapTo_boot (hmapper : mapper.Contract tables) {m : MemoryMap} (hm : m.Valid) {next : ℕ}
    (hnext : next ≤ m.frames.length) (t : T) (page : Page) (frame : PhysFrame)
    (flags : PageTableFlags) :
    ∃ r t' next', mapper.mapTo t page frame flags (BootInfoFrameAllocator.mk m next) =
        some (r, t', BootInfoFrameAllocator.mk m next') ∧
      (r = .ok () → next' = next + tables.missing t page ∧ next' ≤ m.frames.length) := by
  have hdraws := hmapper.draws t page frame flags (BootInfoFrameAllocator.mk m next)
  by_cases henough : next + tables.missing t page ≤ m.frames.length
  · rw [drawFrames_enough hm henough] at hdraws
    obtain ⟨r, t', hmap, _⟩ := hdraws
    exact ⟨r, t', _, hmap, fun _ => ⟨rfl, henough⟩⟩
  · rw [drawFrames_short hm hnext (by omega)] at hdraws
    obtain ⟨t', hmap⟩ := hdraws
    exact ⟨_, t', _, hmap, fun h => by cases h⟩

theorem mapPages_others (hmapper : mapper.Contract tables) {A : Type} [FrameAllocator A]
    {pages : List Page} {t t' : T} {a a' : A} {r : Except MapToError Unit}
    (h : mapPages mapper pages t a = some (r, t', a')) (q : Page) (hq : q ∉ pages) :
    tables.entry t' q = tables.entry t q := by
  induction pages generalizing t a with
  | nil =>
    simp only [mapPages, Option.some.injEq, Prod.mk.injEq] at h
    rw [h.2.1]
  | cons page pages ih =>
    rw [mapPages] at h
    split at h
    · cases h
    · simp only [Option.some.injEq, Prod.mk.injEq] at h
      rw [h.2.1]
    · rename_i frame a₁ hframe
      dsimp only at h
      split at h
      · cases h
      · rename_i e t₁ a₂ hmap
        simp only [Option.some.injEq, Prod.mk.injEq] at h
        rw [← h.2.1]
        exact hmapper.others hmap q (fun heq => hq (by simp [heq]))
      · rename_i t₁ a₂ hmap
        rw [ih h (fun hmem => hq (by simp [hmem]))]
        exact hmapper.others hmap q (fun heq => hq (by simp [heq]))

theorem mapPages_boot (hmapper : mapper.Contract tables) {m : MemoryMap} (hm : m.Valid)
    {pages : List Page} (hpages : pages.Nodup) {next : ℕ} (hnext : next ≤ m.frames.length) (t : T) :
    ∃ r t' next', mapPages mapper pages t (BootInfoFrameAllocator.mk m next) =
        some (r, t', BootInfoFrameAllocator.mk m next') ∧
      (r = .ok () → next ≤ next' ∧ next' ≤ m.frames.length ∧ ∃ heapFrames tableFrames,
        Backed tables t' pages ((m.frames.drop next).take (next' - next)) heapFrames tableFrames) := by
  induction pages generalizing next t with
  | nil =>
    refine ⟨.ok (), t, next, rfl, fun _ => ⟨le_rfl, hnext, [], [], ?_⟩⟩
    exact ⟨.nil, by simp⟩
  | cons page pages ih =>
    obtain ⟨hpage, hpages⟩ := List.nodup_cons.1 hpages
    rw [mapPages, allocateFrame_eq hm]
    by_cases hlt : next < m.frames.length
    · rw [List.getElem?_eq_getElem hlt]
      obtain ⟨r, t₁, next₁, hmap, hok⟩ :=
        mapTo_boot hmapper hm hlt t page m.frames[next] (PRESENT ||| WRITABLE)
      simp only [hmap]
      cases r with
      | error e => exact ⟨_, _, _, rfl, fun h => by cases h⟩
      | ok _ =>
        obtain ⟨hnext₁, hle₁⟩ := hok rfl
        obtain ⟨r, t', next', hrun, hrest⟩ := ih hpages hle₁ t₁
        refine ⟨r, t', next', hrun, fun h => ?_⟩
        obtain ⟨hge, hle, heapFrames, tableFrames, hbacked⟩ := hrest h
        refine ⟨by omega, hle, m.frames[next] :: heapFrames,
          (m.frames.drop (next + 1)).take (tables.missing t page) ++ tableFrames, ?_, ?_⟩
        · refine .cons ?_ hbacked.entries
          cases h
          rw [mapPages_others hmapper hrun page hpage, hmapper.installs hmap]
        · rw [take_drop_split m.frames hlt hnext₁ hge, List.cons_append]
          apply List.Perm.cons
          calc heapFrames ++ ((m.frames.drop (next + 1)).take (tables.missing t page) ++ tableFrames)
              ~ (m.frames.drop (next + 1)).take (tables.missing t page) ++
                  (heapFrames ++ tableFrames) := List.perm_append_comm_assoc _ _ _
            _ ~ _ := hbacked.handedOut.append_left _
    · rw [List.getElem?_eq_none (by omega)]
      exact ⟨_, _, _, rfl, fun h => by cases h⟩

theorem mapTo_enough (hmapper : mapper.Contract tables) {m : MemoryMap} (hm : m.Valid)
    {next : ℕ} {t : T} {page : Page} (hunmapped : tables.entry t page = none)
    (hhuge : ¬tables.hugeParent t page)
    (henough : next + tables.missing t page ≤ m.frames.length) (frame : PhysFrame)
    (flags : PageTableFlags) :
    ∃ t', mapper.mapTo t page frame flags (BootInfoFrameAllocator.mk m next) =
      some (.ok (), t', BootInfoFrameAllocator.mk m (next + tables.missing t page)) := by
  have hdraws := hmapper.draws t page frame flags (BootInfoFrameAllocator.mk m next)
  rw [drawFrames_enough hm henough] at hdraws
  obtain ⟨r, t', hmap, rfl | ⟨_, hmapped⟩ | ⟨_, huge⟩⟩ := hdraws
  · exact ⟨t', hmap⟩
  · exact absurd hunmapped hmapped
  · exact absurd huge hhuge

theorem mapPages_cons_enough (hmapper : mapper.Contract tables) {m : MemoryMap} (hm : m.Valid)
    {next : ℕ} {t : T} {page : Page} (hunmapped : tables.entry t page = none)
    (hhuge : ¬tables.hugeParent t page)
    (hlt : next < m.frames.length)
    (henough : next + 1 + tables.missing t page ≤ m.frames.length) (pages : List Page) :
    ∃ t₁, mapper.mapTo t page m.frames[next] (PRESENT ||| WRITABLE)
        (BootInfoFrameAllocator.mk m (next + 1)) =
        some (.ok (), t₁, BootInfoFrameAllocator.mk m (next + 1 + tables.missing t page)) ∧
      mapPages mapper (page :: pages) t (BootInfoFrameAllocator.mk m next) =
        mapPages mapper pages t₁
          (BootInfoFrameAllocator.mk m (next + 1 + tables.missing t page)) := by
  obtain ⟨t₁, hmap⟩ := mapTo_enough hmapper hm hunmapped hhuge henough m.frames[next]
    (PRESENT ||| WRITABLE)
  refine ⟨t₁, hmap, ?_⟩
  rw [mapPages, allocateFrame_eq hm, List.getElem?_eq_getElem hlt]
  simp only [hmap]

/-- Four frames for each page are always enough. -/
theorem mapPages_enough (hmapper : mapper.Contract tables)
    (hhuge : ∀ t page, ¬tables.hugeParent t page) {m : MemoryMap} (hm : m.Valid)
    {pages : List Page} (hpages : pages.Nodup) {next : ℕ}
    (hnext : next + 4 * pages.length ≤ m.frames.length) {t : T}
    (hunmapped : ∀ page ∈ pages, tables.entry t page = none) :
    ∃ t' a', mapPages mapper pages t (BootInfoFrameAllocator.mk m next) = some (.ok (), t', a') := by
  induction pages generalizing next t with
  | nil => exact ⟨t, _, rfl⟩
  | cons page pages ih =>
    obtain ⟨hpage, hpages⟩ := List.nodup_cons.1 hpages
    rw [List.length_cons] at hnext
    have hmissing := hmapper.missing_le t page
    obtain ⟨t₁, hmap, hrun⟩ := mapPages_cons_enough hmapper hm (hunmapped page (by simp))
      (hhuge t page) (show next < m.frames.length by omega) (by omega) pages
    rw [hrun]
    apply ih hpages (by omega)
    intro q hq
    rw [hmapper.others hmap q (fun heq => hpage (heq ▸ hq))]
    exact hunmapped q (by simp [hq])

def PageTables.backing (tables : PageTables T) (t : T) (page : Page) : PhysFrame :=
  ((tables.entry t page).map Prod.fst).getD (PhysFrame.ofNumber 0)

theorem PageTables.backing_eq {t : T} {page : Page} {frame : PhysFrame} {flags : PageTableFlags}
    (h : tables.entry t page = some (frame, flags)) : tables.backing t page = frame := by
  rw [PageTables.backing, h]
  rfl

theorem Backed.heapFrames_eq {t' : T} {pages : List Page}
    {handedOut heapFrames tableFrames : List PhysFrame}
    (h : Backed tables t' pages handedOut heapFrames tableFrames) :
    heapFrames = pages.map (tables.backing t') := by
  have hentries := h.entries
  clear h
  induction hentries with
  | nil => rfl
  | cons hentry _ ih =>
    rw [List.map_cons, ← ih, PageTables.backing_eq hentry]

theorem Backed.entry {t' : T} {pages : List Page}
    {handedOut heapFrames tableFrames : List PhysFrame}
    (h : Backed tables t' pages handedOut heapFrames tableFrames) {page : Page}
    (hpage : page ∈ pages) :
    tables.entry t' page = some (tables.backing t' page, PRESENT ||| WRITABLE) := by
  have hentries := h.entries
  clear h
  induction hentries with
  | nil => cases hpage
  | cons hentry _ ih =>
    rcases List.mem_cons.1 hpage with rfl | hpage
    · rw [PageTables.backing_eq hentry, hentry]
    · exact ih hpage

/-- Heap set-up over a fresh boot allocator always returns. After `Ok` every page
that meets the heap is mapped writable, the backing frames and the frames of the
new page tables are distinct usable frames, namely all that the run drew, and the
allocator has been initialised on exactly the heap; after `Err` it has not. -/
theorem init_heap_safe (hmapper : mapper.Contract tables) {m : MemoryMap} (hm : m.Valid) (t : T) :
    ∃ r t' a' heap,
      initHeap mapper t (BootInfoFrameAllocator.init m) .empty = some (r, t', a', heap) ∧
      (r = .ok () → heap = .initialised HEAP_START HEAP_SIZE ∧
        ∃ (backing : Page → PhysFrame) (tableFrames : List PhysFrame),
          (∀ page : Page, page.startAddress < HEAP_START + HEAP_SIZE →
            HEAP_START < page.startAddress + 4096 →
              tables.entry t' page = some (backing page, PRESENT ||| WRITABLE)) ∧
          (pageRange.map backing ++ tableFrames).Nodup ∧
          (∀ f ∈ pageRange.map backing ++ tableFrames, f ∈ m.frames) ∧
          ∃ calls drawn, allocateFrames calls (BootInfoFrameAllocator.init m) = some (drawn, a') ∧
            drawn.Perm ((pageRange.map backing ++ tableFrames).map some)) ∧
      (∀ e, r = .error e → heap = .empty) := by
  obtain ⟨r, t', next', hrun, hok⟩ :=
    mapPages_boot hmapper hm pageRange_nodup (Nat.zero_le m.frames.length) t
  rw [initHeap, BootInfoFrameAllocator.init, hrun]
  cases r with
  | error e => exact ⟨_, _, _, _, rfl, (fun h => by cases h), fun _ _ => rfl⟩
  | ok _ =>
    obtain ⟨_, hle, heapFrames, tableFrames, hbacked⟩ := hok rfl
    refine ⟨_, _, _, _, rfl, fun _ => ⟨rfl, tables.backing t', tableFrames, ?_⟩,
      (fun _ h => by cases h)⟩
    have hdrawn := hbacked.handedOut
    rw [hbacked.heapFrames_eq, List.drop_zero, Nat.sub_zero] at hdrawn
    refine ⟨?_, ?_, ?_, ?_⟩
    · intro page hend hstart
      exact hbacked.entry ((mem_pageRange page).2 ⟨hend, hstart⟩)
    · exact hdrawn.nodup_iff.2 (hm.nodup.sublist (List.take_sublist _ _))
    · intro f hf
      exact List.mem_of_mem_take (hdrawn.mem_iff.1 hf)
    · have hcalls := allocateFrames_eq hm next' 0
      rw [map_getElem?_range' hle, Nat.zero_add] at hcalls
      exact ⟨next', _, hcalls, (hdrawn.map some).symm⟩

end

/-- Four-level tables without huge pages: the tables present below the root, by
level and by the number of the first page they serve, and the mapped pages. -/
structure WalkedTables where
  present : List (ℕ × ℕ)
  mapped : List (Page × PhysFrame × PageTableFlags)

namespace WalkedTables

def path (page : Page) : List (ℕ × ℕ) :=
  [(3, page.startAddress / 2 ^ 39), (2, page.startAddress / 2 ^ 30), (1, page.startAddress / 2 ^ 21)]

def absent (t : WalkedTables) (page : Page) : List (ℕ × ℕ) :=
  (path page).filter (fun table => table ∉ t.present)

def observe : PageTables WalkedTables where
  entry t page := t.mapped.lookup page
  missing t page := (t.absent page).length
  hugeParent _ _ := False

def mapper : Mapper WalkedTables where
  mapTo t page frame flags a :=
    match drawFrames (t.absent page).length a with
    | none => none
    | some (none, a) => some (.error .frameAllocationFailed, t, a)
    | some (some _, a) =>
      let t := { t with present := t.absent page ++ t.present }
      if (t.mapped.lookup page).isSome then some (.error (.pageAlreadyMapped frame), t, a)
      else some (.ok (), { t with mapped := (page, frame, flags) :: t.mapped }, a)

theorem mapTo_cases {A : Type} [FrameAllocator A] {t t' : WalkedTables} {page : Page}
    {frame : PhysFrame} {flags : PageTableFlags} {a a' : A} {r : Except MapToError Unit}
    (h : mapper.mapTo t page frame flags a = some (r, t', a')) :
    (t'.mapped = t.mapped ∧ r ≠ .ok ()) ∨
      t'.mapped = (page, frame, flags) :: t.mapped := by
  simp only [mapper] at h
  split at h
  · cases h
  · cases h
    exact Or.inl ⟨rfl, by simp⟩
  · split at h
    · cases h
      exact Or.inl ⟨rfl, by simp⟩
    · cases h
      exact Or.inr rfl

theorem mapper_contract : mapper.Contract observe where
  missing_le t page := List.length_filter_le _ (path page)
  draws t page frame flags a := by
    simp only [mapper, observe]
    cases drawFrames (t.absent page).length a with
    | none => rfl
    | some drawn =>
      obtain ⟨frames, a'⟩ := drawn
      cases frames with
      | none => exact ⟨t, rfl⟩
      | some frames =>
        dsimp only
        split_ifs with hmapped
        · refine ⟨_, _, rfl, Or.inr (Or.inl ⟨rfl, ?_⟩)⟩
          intro hnone
          simp [hnone] at hmapped
        · exact ⟨_, _, rfl, Or.inl rfl⟩
  installs h := by
    rcases mapTo_cases h with ⟨_, hr⟩ | hmapped
    · exact absurd rfl hr
    · simp [observe, hmapped]
  others h q hq := by
    rcases mapTo_cases h with ⟨hmapped, _⟩ | hmapped
    · simp [observe, hmapped]
    · have hne : (q == _) = false := beq_false_of_ne hq
      simp [observe, hmapped, List.lookup_cons, hne]

end WalkedTables

def twoRegions : MemoryMap :=
  .ofRegions [⟨⟨16, 116⟩, .usable⟩, ⟨⟨200, 1200⟩, .usable⟩] (by decide)

theorem twoRegions_regions :
    twoRegions.regions = [⟨⟨16, 116⟩, .usable⟩, ⟨⟨200, 1200⟩, .usable⟩] := rfl

theorem twoRegions_valid : twoRegions.Valid := by
  refine ⟨?_, ?_⟩
  · decide
  · rw [twoRegions_regions]
    simp only [List.pairwise_cons, List.mem_singleton, forall_eq, mem_frameNumbers]
    refine ⟨fun k hk => ?_, by simp, .nil⟩
    change ¬(200 ≤ k ∧ k < 1200)
    have hlt : k < 116 := hk.2
    omega

theorem twoRegions_frames : twoRegions.frames.length = 1100 := by
  rw [MemoryMap.frames, MemoryMap.usableNumbers, twoRegions_regions]
  simp [FrameRange.frameNumbers]

theorem init_heap_safe_two_regions :
    WalkedTables.mapper.Contract WalkedTables.observe ∧ twoRegions.Valid ∧
      ∃ t' a', initHeap WalkedTables.mapper ⟨[], []⟩ (BootInfoFrameAllocator.init twoRegions) .empty =
          some (.ok (), t', a', .initialised HEAP_START HEAP_SIZE) ∧
        ∃ (backing : Page → PhysFrame) (tableFrames : List PhysFrame),
          (∀ page ∈ pageRange, WalkedTables.observe.entry t' page =
            some (backing page, PRESENT ||| WRITABLE)) ∧
          (pageRange.map backing ++ tableFrames).Nodup := by
  have hframes : 0 + 4 * pageRange.length ≤ twoRegions.frames.length := by
    rw [twoRegions_frames, pageRange_eq, List.length_map, List.length_range]
    decide
  have hunmapped : ∀ page ∈ pageRange, WalkedTables.observe.entry ⟨[], []⟩ page = none :=
    fun _ _ => rfl
  obtain ⟨t₁, a₁, hpages⟩ := mapPages_enough WalkedTables.mapper_contract (fun _ _ => id)
    twoRegions_valid pageRange_nodup hframes hunmapped
  have hresult : initHeap WalkedTables.mapper ⟨[], []⟩ (BootInfoFrameAllocator.init twoRegions)
      .empty = some (.ok (), t₁, a₁, .initialised HEAP_START HEAP_SIZE) := by
    rw [initHeap, BootInfoFrameAllocator.init, hpages]
  obtain ⟨r, t', a', heap, hrun, hok, _⟩ := init_heap_safe WalkedTables.mapper_contract
    twoRegions_valid ⟨[], []⟩
  rw [hresult] at hrun
  cases hrun
  obtain ⟨_, backing, tableFrames, hentry, hnodup, _⟩ := hok rfl
  refine ⟨WalkedTables.mapper_contract, twoRegions_valid, t₁, a₁, hresult, backing, tableFrames,
    ?_, hnodup⟩
  intro page hpage
  obtain ⟨hend, hstart⟩ := (mem_pageRange page).1 hpage
  exact hentry page hend hstart

end LlmOs.Memory
