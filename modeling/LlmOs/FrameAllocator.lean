import Mathlib.Data.List.Nodup
import Mathlib.Tactic

set_option autoImplicit false

/-!
# Physical memory and the boot frame allocator

The memory map of `bootloader/src/bootinfo/memory_map.rs` and the allocator of
`memory.rs`. An operation that may panic returns an `Option`. The allocator
rebuilds its iterator on every call and takes the item at its counter. The
counter of the calls is a natural number: no run makes `2^64` of them.
-/
namespace LlmOs.Memory

inductive MemoryRegionType where
  | usable | inUse | reserved | acpiReclaimable | acpiNvs | badMemory | kernel | kernelStack
  | pageTable | bootloader | frameZero | empty | bootInfo | package | nonExhaustive
  deriving DecidableEq, Repr

structure FrameRange where
  startFrameNumber : UInt64
  endFrameNumber : UInt64
  deriving DecidableEq, Repr

def PAGE_SIZE : UInt64 := 4096

def FrameRange.startAddr (r : FrameRange) : UInt64 := r.startFrameNumber * PAGE_SIZE
def FrameRange.endAddr (r : FrameRange) : UInt64 := r.endFrameNumber * PAGE_SIZE

structure MemoryRegion where
  range : FrameRange
  regionType : MemoryRegionType
  deriving DecidableEq, Repr

def MAX_MEMORY_MAP_SIZE : ℕ := 64

structure MemoryMap where
  entries : Vector MemoryRegion MAX_MEMORY_MAP_SIZE
  nextEntryIndex : ℕ
  inBounds : nextEntryIndex ≤ MAX_MEMORY_MAP_SIZE

def MemoryMap.regions (m : MemoryMap) : List MemoryRegion := m.entries.toList.take m.nextEntryIndex

structure PhysAddr where
  value : ℕ
  inRange : value < 2 ^ 52

/-- `PhysAddr::new` panics if a bit from 52 on is set. -/
def PhysAddr.new (addr : ℕ) : Option PhysAddr :=
  if h : addr < 2 ^ 52 then some ⟨addr, h⟩ else none

@[ext] structure PhysFrame where
  startAddress : ℕ
  aligned : startAddress % 4096 = 0
  deriving DecidableEq

def PhysFrame.containingAddress (addr : PhysAddr) : PhysFrame :=
  ⟨addr.value - addr.value % 4096, by omega⟩

/-- The items of `(start..stop).step_by(step)`. -/
def stepBy (start stop step : ℕ) : List ℕ :=
  (List.range ((stop - start + (step - 1)) / step)).map (fun i => start + i * step)

/-- `nth` of an iterator whose items are computed when it reaches them: each one
up to the one that is returned may panic. -/
def nth {α : Type} : List (Option α) → ℕ → Option (Option α)
  | [], _ => some none
  | item :: _, 0 => item.map some
  | item :: items, n + 1 => item.bind (fun _ => nth items n)

class FrameAllocator (A : Type) where
  allocateFrame : A → Option (Option PhysFrame × A)

export FrameAllocator (allocateFrame)

structure BootInfoFrameAllocator where
  memoryMap : MemoryMap
  next : ℕ

namespace BootInfoFrameAllocator

def init (memoryMap : MemoryMap) : BootInfoFrameAllocator := ⟨memoryMap, 0⟩

def usableFrames (a : BootInfoFrameAllocator) : List (Option PhysFrame) :=
  let usableRegions := a.memoryMap.regions.filter (fun r => r.regionType = .usable)
  let frameAddresses := usableRegions.flatMap
    (fun r => stepBy r.range.startAddr.toNat r.range.endAddr.toNat 4096)
  frameAddresses.map (fun addr => (PhysAddr.new addr).map PhysFrame.containingAddress)

instance : FrameAllocator BootInfoFrameAllocator where
  allocateFrame a :=
    match nth a.usableFrames a.next with
    | none => none
    | some frame => some (frame, { a with next := a.next + 1 })

end BootInfoFrameAllocator

def allocateFrames {A : Type} [FrameAllocator A] :
    ℕ → A → Option (List (Option PhysFrame) × A)
  | 0, a => some ([], a)
  | n + 1, a =>
    match allocateFrame a with
    | none => none
    | some (frame, a) => (allocateFrames n a).map (fun (frames, a) => (frame :: frames, a))

def FrameRange.frameNumbers (r : FrameRange) : List ℕ :=
  List.range' r.startFrameNumber.toNat (r.endFrameNumber.toNat - r.startFrameNumber.toNat)

def PhysFrame.ofNumber (k : ℕ) : PhysFrame := ⟨k * 4096, by omega⟩

def MemoryMap.usableNumbers (m : MemoryMap) : List ℕ :=
  (m.regions.filter (fun r => r.regionType = .usable)).flatMap (fun r => r.range.frameNumbers)

def MemoryMap.frames (m : MemoryMap) : List PhysFrame := m.usableNumbers.map PhysFrame.ofNumber

/-- What `BootInfoFrameAllocator::init` demands of its caller. -/
structure MemoryMap.Valid (m : MemoryMap) : Prop where
  below : ∀ r ∈ m.regions, r.range.startFrameNumber.toNat * 4096 ≤ 2 ^ 52 ∧
    r.range.endFrameNumber.toNat * 4096 ≤ 2 ^ 52
  disjoint : m.regions.Pairwise
    (fun r s => ∀ k ∈ r.range.frameNumbers, k ∉ s.range.frameNumbers)

theorem mem_frameNumbers (r : FrameRange) (k : ℕ) :
    k ∈ r.frameNumbers ↔ r.startFrameNumber.toNat ≤ k ∧ k < r.endFrameNumber.toNat := by
  rw [FrameRange.frameNumbers, List.mem_range'_1]
  omega

theorem toNat_mul_pageSize {n : UInt64} (h : n.toNat * 4096 ≤ 2 ^ 52) :
    (n * PAGE_SIZE).toNat = n.toNat * 4096 := by
  rw [UInt64.toNat_mul, show PAGE_SIZE.toNat = 4096 from rfl]
  omega

theorem stepBy_pages (first last : ℕ) :
    stepBy (first * 4096) (last * 4096) 4096 =
      (List.range' first (last - first)).map (fun k => k * 4096) := by
  have hcount : (last * 4096 - first * 4096 + (4096 - 1)) / 4096 = last - first := by omega
  rw [stepBy, hcount, List.range'_eq_map_range, List.map_map]
  apply List.map_congr_left
  intro i _
  change first * 4096 + i * 4096 = (first + i) * 4096
  omega

theorem nth_map_some {α : Type} (l : List α) (n : ℕ) : nth (l.map some) n = some l[n]? := by
  induction l generalizing n with
  | nil => rfl
  | cons x xs ih =>
    cases n with
    | zero => rfl
    | succ n => exact ih n

theorem frame_of_page {k : ℕ} (h : k < 2 ^ 40) :
    (PhysAddr.new (k * 4096)).map PhysFrame.containingAddress = some (PhysFrame.ofNumber k) := by
  have hrange : k * 4096 < 2 ^ 52 := by omega
  rw [PhysAddr.new, dif_pos hrange]
  simp [PhysFrame.containingAddress, PhysFrame.ofNumber]

theorem PhysFrame.ofNumber_injective : Function.Injective PhysFrame.ofNumber := by
  intro j k h
  have haddr : j * 4096 = k * 4096 := congrArg PhysFrame.startAddress h
  omega

namespace MemoryMap

theorem mem_usableNumbers (m : MemoryMap) (k : ℕ) :
    k ∈ m.usableNumbers ↔ ∃ r ∈ m.regions, r.regionType = .usable ∧
      r.range.startFrameNumber.toNat ≤ k ∧ k < r.range.endFrameNumber.toNat := by
  simp only [usableNumbers, List.mem_flatMap, List.mem_filter, decide_eq_true_eq,
    mem_frameNumbers, and_assoc]

theorem Valid.lt_of_mem {m : MemoryMap} (hm : m.Valid) {k : ℕ} (hk : k ∈ m.usableNumbers) :
    k < 2 ^ 40 := by
  obtain ⟨r, hr, _, _, hlt⟩ := (mem_usableNumbers m k).1 hk
  have hend := (hm.below r hr).2
  omega

/-- No item of the iterator panics, and the items are the frames in map order. -/
theorem Valid.usableFrames {m : MemoryMap} (hm : m.Valid) (next : ℕ) :
    (BootInfoFrameAllocator.mk m next).usableFrames = m.frames.map some := by
  have haddresses : (m.regions.filter (fun r => r.regionType = .usable)).flatMap
      (fun r => stepBy r.range.startAddr.toNat r.range.endAddr.toNat 4096) =
        m.usableNumbers.map (fun k => k * 4096) := by
    rw [usableNumbers, List.map_flatMap]
    apply List.flatMap_congr
    intro r hr
    obtain ⟨hstart, hend⟩ := hm.below r (List.mem_of_mem_filter hr)
    rw [FrameRange.startAddr, FrameRange.endAddr, toNat_mul_pageSize hstart,
      toNat_mul_pageSize hend, stepBy_pages]
    rfl
  unfold BootInfoFrameAllocator.usableFrames
  simp only [haddresses, frames, List.map_map]
  apply List.map_congr_left
  intro k hk
  exact frame_of_page (hm.lt_of_mem hk)

theorem Valid.nodup {m : MemoryMap} (hm : m.Valid) : m.frames.Nodup := by
  apply List.Nodup.map PhysFrame.ofNumber_injective
  rw [usableNumbers, List.nodup_flatMap]
  refine ⟨fun r _ => List.nodup_range', ?_⟩
  exact hm.disjoint.sublist List.filter_sublist

theorem Valid.inside {m : MemoryMap} (hm : m.Valid) {f : PhysFrame} (hf : f ∈ m.frames) :
    ∃ r ∈ m.regions, r.regionType = .usable ∧ r.range.startAddr.toNat ≤ f.startAddress ∧
      f.startAddress + 4096 ≤ r.range.endAddr.toNat := by
  obtain ⟨k, hk, rfl⟩ := List.mem_map.1 hf
  obtain ⟨r, hr, hu, hlow, hhigh⟩ := (mem_usableNumbers m k).1 hk
  obtain ⟨hstart, hend⟩ := hm.below r hr
  refine ⟨r, hr, hu, ?_⟩
  rw [FrameRange.startAddr, FrameRange.endAddr, toNat_mul_pageSize hstart, toNat_mul_pageSize hend]
  change _ ≤ k * 4096 ∧ k * 4096 + 4096 ≤ _
  omega

end MemoryMap

theorem allocateFrame_eq {m : MemoryMap} (hm : m.Valid) (next : ℕ) :
    allocateFrame (BootInfoFrameAllocator.mk m next) =
      some (m.frames[next]?, BootInfoFrameAllocator.mk m (next + 1)) := by
  have hnth : nth (BootInfoFrameAllocator.mk m next).usableFrames next = some m.frames[next]? := by
    rw [hm.usableFrames, nth_map_some]
  simp only [allocateFrame, hnth]

theorem allocateFrames_eq {m : MemoryMap} (hm : m.Valid) (n next : ℕ) :
    allocateFrames n (BootInfoFrameAllocator.mk m next) =
      some ((List.range' next n).map (fun i => m.frames[i]?),
        BootInfoFrameAllocator.mk m (next + n)) := by
  induction n generalizing next with
  | zero => rfl
  | succ n ih =>
    rw [allocateFrames, allocateFrame_eq hm]
    simp only [ih (next + 1), Option.map_some, List.range'_succ, List.map_cons]
    rw [Nat.add_right_comm, Nat.add_assoc]

theorem filterMap_getElem? {α : Type} (l : List α) (n start : ℕ) :
    ((List.range' start n).map (fun i => l[i]?)).filterMap id = (l.drop start).take n := by
  induction n generalizing start with
  | zero => rfl
  | succ n ih =>
    rw [List.range'_succ, List.map_cons]
    by_cases hlt : start < l.length
    · rw [List.drop_eq_getElem_cons hlt, List.take_succ_cons, ← ih (start + 1)]
      simp [List.getElem?_eq_getElem hlt]
    · have hnext := ih (start + 1)
      rw [List.drop_eq_nil_of_le (by omega), List.take_nil] at hnext ⊢
      simpa [List.getElem?_eq_none (Nat.le_of_not_lt hlt)] using hnext

/-- `n` calls on a fresh allocator: call `i` returns frame `i` of the map, so
the frames that are returned are distinct, aligned and usable, none is left
out, and every call after the last of them returns nothing. -/
theorem frames_handed_out_once {m : MemoryMap} (hm : m.Valid) (n : ℕ) :
    ∃ returned a, allocateFrames n (BootInfoFrameAllocator.init m) = some (returned, a) ∧
      returned.length = n ∧ (∀ i < n, returned[i]? = some m.frames[i]?) ∧
      (returned.filterMap id).Nodup ∧
      (∀ f, some f ∈ returned → f.startAddress % 4096 = 0 ∧
        ∃ r ∈ m.regions, r.regionType = .usable ∧ r.range.startAddr.toNat ≤ f.startAddress ∧
          f.startAddress + 4096 ≤ r.range.endAddr.toNat) ∧
      (∀ r ∈ m.regions, r.regionType = .usable → ∀ k, r.range.startFrameNumber.toNat ≤ k →
        k < r.range.endFrameNumber.toNat → ∃ i < m.frames.length,
          m.frames[i]? = some (PhysFrame.ofNumber k) ∧
          (i < n → returned[i]? = some (some (PhysFrame.ofNumber k)))) ∧
      (∀ i < n, returned[i]? = some none ↔ m.frames.length ≤ i) := by
  have hrun := allocateFrames_eq hm n 0
  have hget : ∀ i < n, ((List.range' 0 n).map (fun i => m.frames[i]?))[i]? = some m.frames[i]? := by
    intro i hi
    rw [List.getElem?_map, List.getElem?_range' hi]
    simp
  refine ⟨_, _, hrun, by simp, hget, ?_, ?_, ?_, ?_⟩
  · rw [filterMap_getElem?, List.drop_zero]
    exact hm.nodup.sublist (List.take_sublist n m.frames)
  · intro f hf
    obtain ⟨i, _, hi⟩ := List.mem_map.1 hf
    exact ⟨f.aligned, hm.inside (List.mem_of_getElem? hi)⟩
  · intro r hr hu k hlow hhigh
    have hk : k ∈ m.usableNumbers := (MemoryMap.mem_usableNumbers m k).2 ⟨r, hr, hu, hlow, hhigh⟩
    obtain ⟨i, hi, hik⟩ := List.getElem_of_mem (List.mem_map_of_mem (f := PhysFrame.ofNumber) hk)
    have hframe : m.frames[i]? = some (PhysFrame.ofNumber k) :=
      (List.getElem?_eq_getElem hi).trans (congrArg some hik)
    refine ⟨i, hi, hframe, fun hin => ?_⟩
    rw [hget i hin, hframe]
  · intro i hi
    rw [hget i hi, Option.some.injEq, List.getElem?_eq_none_iff]

def MemoryMap.ofRegions (regions : List MemoryRegion) (h : regions.length ≤ MAX_MEMORY_MAP_SIZE) :
    MemoryMap where
  entries := Vector.ofFn (fun i => regions[i.val]?.getD ⟨⟨0, 0⟩, .empty⟩)
  nextEntryIndex := regions.length
  inBounds := h

def splitMap : MemoryMap :=
  .ofRegions [⟨⟨7, 8⟩, .usable⟩, ⟨⟨5, 5⟩, .usable⟩, ⟨⟨6, 7⟩, .reserved⟩, ⟨⟨2, 3⟩, .usable⟩]
    (by decide)

theorem splitMap_valid : splitMap.Valid := by
  refine ⟨?_, ?_⟩
  · decide
  · decide

theorem frames_handed_out_once_split :
    splitMap.Valid ∧ ∃ returned a,
      allocateFrames 3 (BootInfoFrameAllocator.init splitMap) = some (returned, a) ∧
        returned = [some (PhysFrame.ofNumber 7), some (PhysFrame.ofNumber 2), none] ∧
          (returned.filterMap id).Nodup := by
  obtain ⟨returned, a, hrun, _, hget, hnodup, _⟩ := frames_handed_out_once splitMap_valid 3
  have hcalls : allocateFrames 3 (BootInfoFrameAllocator.init splitMap) =
      some ([some (PhysFrame.ofNumber 7), some (PhysFrame.ofNumber 2), none], _) := rfl
  rw [hcalls, Option.some.injEq, Prod.mk.injEq] at hrun
  exact ⟨splitMap_valid, returned, a, by rw [hcalls, hrun.1, hrun.2], hrun.1.symm, hnodup⟩

end LlmOs.Memory
