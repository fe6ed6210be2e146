import Mathlib.Data.List.Range
import Mathlib.Tactic

set_option autoImplicit false

/-!
# The level 4 entries that the bootloader hands out

`bootloader/src/level4_entries.rs`. Each entry of the top-level page table stands
for 512 GiB of virtual addresses. The bootloader takes whole runs of entries, first
fit, so that what it maps stays clear of the kernel's segments. A panic is `none`,
and the `u64` sum of an address and a size wraps.
-/
namespace LlmOs.Boot

structure VirtAddr where
  value : ℕ
  canonical : value < 2 ^ 47 ∨ 2 ^ 64 - 2 ^ 47 ≤ value ∧ value < 2 ^ 64

/-- `VirtAddr::new` extends the sign of bit 47 if the bits above it are clear. It
panics for any other address that is not canonical. -/
def VirtAddr.new (addr : UInt64) : Option VirtAddr :=
  if hlow : addr.toNat < 2 ^ 47 then some ⟨addr.toNat, .inl hlow⟩
  else if hhigh : 2 ^ 64 - 2 ^ 47 ≤ addr.toNat then
    some ⟨addr.toNat, .inr ⟨hhigh, addr.toNat_lt⟩⟩
  else if hmid : addr.toNat < 2 ^ 48 then
    some ⟨addr.toNat + (2 ^ 64 - 2 ^ 48), .inr ⟨by omega, by omega⟩⟩
  else none

def VirtAddr.p4Index (addr : VirtAddr) : ℕ := addr.value / 2 ^ 39 % 512

def VirtAddr.add (addr : VirtAddr) (n : ℕ) : Option VirtAddr :=
  VirtAddr.new (.ofNat (addr.value + n))

/-- The low 48 bits determine a canonical address. -/
theorem VirtAddr.eq_of_mod {va wa : VirtAddr} (h : va.value % 2 ^ 48 = wa.value % 2 ^ 48) :
    va = wa := by
  obtain ⟨v, hv⟩ := va
  obtain ⟨w, hw⟩ := wa
  dsimp only at h
  obtain rfl : v = w := by omega
  rfl

theorem VirtAddr.new_eq_some_iff {addr : UInt64} {va : VirtAddr} : VirtAddr.new addr = some va ↔
    (addr.toNat < 2 ^ 48 ∨ 2 ^ 64 - 2 ^ 47 ≤ addr.toNat) ∧
      va.value % 2 ^ 48 = addr.toNat % 2 ^ 48 := by
  have hlt := addr.toNat_lt
  unfold VirtAddr.new
  split_ifs with hlow hhigh hmid
  · rw [Option.some.injEq]
    refine ⟨?_, fun h => VirtAddr.eq_of_mod h.2.symm⟩
    rintro rfl
    exact ⟨.inl (by omega), rfl⟩
  · rw [Option.some.injEq]
    refine ⟨?_, fun h => VirtAddr.eq_of_mod h.2.symm⟩
    rintro rfl
    exact ⟨.inr hhigh, rfl⟩
  · have hmod : (addr.toNat + (2 ^ 64 - 2 ^ 48)) % 2 ^ 48 = addr.toNat % 2 ^ 48 := by omega
    rw [Option.some.injEq, ← hmod]
    refine ⟨?_, fun h => VirtAddr.eq_of_mod h.2.symm⟩
    rintro rfl
    exact ⟨.inl hmid, rfl⟩
  · constructor
    · intro h
      cases h
    · rintro ⟨h | h, _⟩
      · exact absurd h hmid
      · exact absurd h hhigh

theorem VirtAddr.new_ofNat_eq_some_iff {n : ℕ} {va : VirtAddr} :
    VirtAddr.new (.ofNat n) = some va ↔
      (n % 2 ^ 64 < 2 ^ 48 ∨ 2 ^ 64 - 2 ^ 47 ≤ n % 2 ^ 64) ∧ va.value % 2 ^ 48 = n % 2 ^ 48 := by
  rw [VirtAddr.new_eq_some_iff, show (UInt64.ofNat n).toNat = n % 2 ^ 64 from UInt64.toNat_ofNat',
    show n % 2 ^ 64 % 2 ^ 48 = n % 2 ^ 48 by omega]

theorem VirtAddr.exists_new {n : ℕ} (h : n % 2 ^ 64 < 2 ^ 48 ∨ 2 ^ 64 - 2 ^ 47 ≤ n % 2 ^ 64) :
    ∃ va, VirtAddr.new (.ofNat n) = some va := by
  cases hva : VirtAddr.new (.ofNat n) with
  | some va => exact ⟨va, rfl⟩
  | none =>
    by_cases hhalf : n % 2 ^ 48 < 2 ^ 47
    · have hsome : VirtAddr.new (.ofNat n) = some ⟨n % 2 ^ 48, .inl hhalf⟩ :=
        VirtAddr.new_ofNat_eq_some_iff.2 ⟨h, by dsimp only; omega⟩
      exact ⟨_, hva ▸ hsome⟩
    · have hsome : VirtAddr.new (.ofNat n) =
          some ⟨n % 2 ^ 48 + (2 ^ 64 - 2 ^ 48), .inr ⟨by omega, by omega⟩⟩ :=
        VirtAddr.new_ofNat_eq_some_iff.2 ⟨h, by dsimp only; omega⟩
      exact ⟨_, hva ▸ hsome⟩

inductive SegmentType where
  | load | tls | other
  deriving DecidableEq, Repr

/-- `type` is `none` for a number that `get_type` does not know. -/
structure ProgramHeader64 where
  type : Option SegmentType
  execute : Bool
  write : Bool
  offset : UInt64
  virtualAddr : UInt64
  fileSize : UInt64
  memSize : UInt64
  deriving Repr

structure UsedLevel4Entries where
  entryState : Vector Bool 512

namespace UsedLevel4Entries

def setUsed (u : UsedLevel4Entries) (i : ℕ) : UsedLevel4Entries :=
  ⟨u.entryState.setIfInBounds i true⟩

def markSegment (u : UsedLevel4Entries) (segment : ProgramHeader64) : Option UsedLevel4Entries :=
  (VirtAddr.new segment.virtualAddr).bind (fun startAddr =>
    (VirtAddr.new (segment.virtualAddr + segment.memSize)).map (fun endAddr =>
      (List.range' startAddr.p4Index (endAddr.p4Index + 1 - startAddr.p4Index)).foldl setUsed u))

def new (segments : List ProgramHeader64) : Option UsedLevel4Entries :=
  segments.foldlM markSegment (setUsed ⟨Vector.replicate 512 false⟩ 0)

def isFree (u : UsedLevel4Entries) (i : ℕ) : Bool := u.entryState[i]? == some false

/-- `windows(num)` panics for windows of size zero. -/
def findWindow (u : UsedLevel4Entries) (num : ℕ) : Option ℕ :=
  if num = 0 then none
  else (List.range (512 + 1 - num)).find? (fun idx =>
    (List.range num).all (fun i => u.isFree (idx + i)))

def getFreeEntries (u : UsedLevel4Entries) (num : ℕ) : Option (ℕ × UsedLevel4Entries) :=
  (u.findWindow num).map (fun idx => (idx, (List.range' idx num).foldl setUsed u))

theorem isFree_setUsed (u : UsedLevel4Entries) (i k : ℕ) :
    (u.setUsed i).isFree k = true ↔ u.isFree k = true ∧ k ≠ i := by
  unfold isFree setUsed
  rw [beq_iff_eq, beq_iff_eq, Vector.getElem?_setIfInBounds]
  split_ifs with hik hlt
  · simp [hik]
  · simp [hik.symm ▸ hlt]
  · simp [Ne.symm hik]

theorem isFree_foldl_setUsed (u : UsedLevel4Entries) (l : List ℕ) (k : ℕ) :
    (l.foldl setUsed u).isFree k = true ↔ u.isFree k = true ∧ k ∉ l := by
  induction l generalizing u with
  | nil => simp
  | cons i l ih =>
    rw [List.foldl_cons, ih, isFree_setUsed, List.mem_cons, not_or, and_assoc]

theorem lt_of_isFree {u : UsedLevel4Entries} {k : ℕ} (h : u.isFree k = true) : k < 512 := by
  rw [isFree, beq_iff_eq] at h
  exact (Vector.getElem?_eq_some_iff.1 h).1

theorem isFree_start (k : ℕ) :
    (setUsed ⟨Vector.replicate 512 false⟩ 0).isFree k = true ↔ 0 < k ∧ k < 512 := by
  rw [isFree_setUsed, isFree, beq_iff_eq, Vector.getElem?_replicate]
  split_ifs with hk
  · simp only [true_and]
    omega
  · simp [hk]

/-- The entries that a run of `num` from `idx` takes up. -/
def InBlock (block : ℕ × ℕ) (k : ℕ) : Prop := block.1 ≤ k ∧ k < block.1 + block.2

structure Taken (u : UsedLevel4Entries) (num idx : ℕ) (u' : UsedLevel4Entries) : Prop where
  pos : 0 < num
  free : ∀ k, InBlock (idx, num) k → u.isFree k = true
  least : ∀ j < idx, ∃ k, InBlock (j, num) k ∧ u.isFree k = false
  after : ∀ k, u'.isFree k = true ↔ u.isFree k = true ∧ ¬ InBlock (idx, num) k

theorem window_iff (u : UsedLevel4Entries) (num idx : ℕ) :
    (List.range num).all (fun i => u.isFree (idx + i)) = true ↔
      ∀ k, InBlock (idx, num) k → u.isFree k = true := by
  rw [List.all_eq_true]
  constructor
  · rintro h k ⟨hlow, hhigh⟩
    have hfree := h (k - idx) (List.mem_range.2 (by dsimp only at *; omega))
    rwa [Nat.add_sub_cancel' hlow] at hfree
  · intro h i hi
    rw [List.mem_range] at hi
    exact h _ ⟨by dsimp only; omega, by dsimp only; omega⟩

theorem exists_used_of_not_window {u : UsedLevel4Entries} {num idx : ℕ}
    (h : ¬ (List.range num).all (fun i => u.isFree (idx + i)) = true) :
    ∃ k, InBlock (idx, num) k ∧ u.isFree k = false := by
  rw [window_iff] at h
  simp only [not_forall] at h
  obtain ⟨k, hk, hused⟩ := h
  exact ⟨k, hk, Bool.eq_false_of_not_eq_true hused⟩

theorem getFreeEntries_some {u u' : UsedLevel4Entries} {num idx : ℕ}
    (h : u.getFreeEntries num = some (idx, u')) : Taken u num idx u' := by
  obtain ⟨idx', hfind, heq⟩ := Option.map_eq_some_iff.1 h
  rw [Prod.mk.injEq] at heq
  obtain ⟨rfl, rfl⟩ := heq
  unfold findWindow at hfind
  split_ifs at hfind with hnum
  rw [List.find?_range_eq_some] at hfind
  obtain ⟨hwindow, _, hbefore⟩ := hfind
  refine ⟨Nat.pos_of_ne_zero hnum, (window_iff _ _ _).1 hwindow, ?_, ?_⟩
  · intro j hj
    exact exists_used_of_not_window (by simpa using hbefore j hj)
  · intro k
    rw [isFree_foldl_setUsed, List.mem_range'_1]
    rfl

/-- The bootloader stops exactly when no run of that length is free. -/
theorem getFreeEntries_eq_none_iff (u : UsedLevel4Entries) (num : ℕ) :
    u.getFreeEntries num = none ↔
      num = 0 ∨ ∀ idx, ∃ k, InBlock (idx, num) k ∧ u.isFree k = false := by
  rw [getFreeEntries, Option.map_eq_none_iff, findWindow]
  split_ifs with hnum
  · simp [hnum]
  · rw [List.find?_range_eq_none]
    constructor
    · intro h
      refine .inr (fun idx => ?_)
      by_cases hidx : idx < 512 + 1 - num
      · exact exists_used_of_not_window (by simpa using h idx hidx)
      · refine ⟨idx + num - 1, ⟨by dsimp only; omega, by dsimp only; omega⟩, ?_⟩
        by_contra hfree
        have hlt := lt_of_isFree (Bool.eq_true_of_not_eq_false hfree)
        omega
    · rintro (h | h) idx hidx
      · exact absurd h hnum
      · obtain ⟨k, hk, hused⟩ := h idx
        have hwindow : ¬ (List.range num).all (fun i => u.isFree (idx + i)) = true := by
          rw [window_iff]
          intro hfree
          rw [hfree k hk] at hused
          cases hused
        simpa using hwindow

/-- The entries that `new` takes for a segment. -/
def SegmentUses (segment : ProgramHeader64) (k : ℕ) : Prop :=
  ∃ startAddr ∈ VirtAddr.new segment.virtualAddr,
    ∃ endAddr ∈ VirtAddr.new (segment.virtualAddr + segment.memSize),
      startAddr.p4Index ≤ k ∧ k ≤ endAddr.p4Index

theorem isFree_markSegment {u u' : UsedLevel4Entries} {segment : ProgramHeader64}
    (h : u.markSegment segment = some u') (k : ℕ) :
    u'.isFree k = true ↔ u.isFree k = true ∧ ¬ SegmentUses segment k := by
  obtain ⟨startAddr, hstart, hrest⟩ := Option.bind_eq_some_iff.1 h
  obtain ⟨endAddr, hend, rfl⟩ := Option.map_eq_some_iff.1 hrest
  have huses : SegmentUses segment k ↔ startAddr.p4Index ≤ k ∧ k ≤ endAddr.p4Index := by
    simp [SegmentUses, hstart, hend]
  rw [isFree_foldl_setUsed, List.mem_range'_1, huses]
  apply and_congr_right
  intro _
  omega

theorem isFree_foldlM_markSegment {segments : List ProgramHeader64} {u u' : UsedLevel4Entries}
    (h : segments.foldlM markSegment u = some u') (k : ℕ) :
    u'.isFree k = true ↔ u.isFree k = true ∧ ∀ segment ∈ segments, ¬ SegmentUses segment k := by
  induction segments generalizing u with
  | nil =>
    obtain rfl := Option.some.inj h
    simp
  | cons segment segments ih =>
    rw [List.foldlM_cons] at h
    obtain ⟨u₁, hfirst, hrest⟩ := Option.bind_eq_some_iff.1 h
    rw [ih hrest, isFree_markSegment hfirst, List.forall_mem_cons, and_assoc]

theorem isFree_new {segments : List ProgramHeader64} {u : UsedLevel4Entries}
    (h : new segments = some u) (k : ℕ) :
    u.isFree k = true ↔ (0 < k ∧ k < 512) ∧ ∀ segment ∈ segments, ¬ SegmentUses segment k := by
  rw [isFree_foldlM_markSegment h, isFree_start]

/-- Calls of `get_free_entries`, with the block that each of them returned. -/
inductive Takes : UsedLevel4Entries → List (ℕ × ℕ) → UsedLevel4Entries → Prop where
  | nil (u : UsedLevel4Entries) : Takes u [] u
  | cons {u u₁ u' : UsedLevel4Entries} {num idx : ℕ} {blocks : List (ℕ × ℕ)}
      (first : u.getFreeEntries num = some (idx, u₁)) (rest : Takes u₁ blocks u') :
      Takes u ((idx, num) :: blocks) u'

theorem Takes.free {u u' : UsedLevel4Entries} {blocks : List (ℕ × ℕ)} (h : Takes u blocks u') :
    ∀ block ∈ blocks, ∀ k, InBlock block k → u.isFree k = true := by
  induction h with
  | nil u => simp
  | cons first rest ih =>
    have htaken := getFreeEntries_some first
    intro block hblock k hk
    obtain rfl | hblock := List.mem_cons.1 hblock
    · exact htaken.free k hk
    · exact ((htaken.after k).1 (ih block hblock k hk)).1

theorem Takes.isFree_of_isFree {u u' : UsedLevel4Entries} {blocks : List (ℕ × ℕ)}
    (h : Takes u blocks u') {k : ℕ} (hk : u'.isFree k = true) : u.isFree k = true := by
  induction h with
  | nil u => exact hk
  | cons first rest ih => exact (((getFreeEntries_some first).after k).1 (ih hk)).1

theorem Takes.apart {u u' : UsedLevel4Entries} {blocks : List (ℕ × ℕ)} (h : Takes u blocks u') :
    blocks.Pairwise (fun b c => ∀ k, InBlock b k → ¬ InBlock c k) := by
  induction h with
  | nil u => exact .nil
  | cons first rest ih =>
    have htaken := getFreeEntries_some first
    refine List.pairwise_cons.2 ⟨?_, ih⟩
    intro block hblock k hk hother
    exact ((htaken.after k).1 (rest.free block hblock k hother)).2 hk

/-- Every block is the first run of its length that was free at its turn. -/
theorem Takes.least {u u' : UsedLevel4Entries} {blocks : List (ℕ × ℕ)} (h : Takes u blocks u')
    {before after : List (ℕ × ℕ)} {idx num : ℕ} (heq : blocks = before ++ (idx, num) :: after) :
    ∀ j < idx, ∃ k, InBlock (j, num) k ∧
      (u.isFree k = false ∨ ∃ block ∈ before, InBlock block k) := by
  induction h generalizing before with
  | nil u => simp at heq
  | @cons u u₁ u' num' idx' blocks first rest ih =>
    have htaken := getFreeEntries_some first
    cases before with
    | nil =>
      rw [List.nil_append, List.cons_eq_cons, Prod.mk.injEq] at heq
      obtain ⟨⟨rfl, rfl⟩, _⟩ := heq
      intro j hj
      obtain ⟨k, hk, hused⟩ := htaken.least j hj
      exact ⟨k, hk, .inl hused⟩
    | cons block before =>
      rw [List.cons_append, List.cons_eq_cons] at heq
      obtain ⟨rfl, heq⟩ := heq
      intro j hj
      obtain ⟨k, hk, hused | ⟨c, hc, hkc⟩⟩ := ih heq j hj
      · refine ⟨k, hk, ?_⟩
        by_cases hfree : u.isFree k = true
        · refine .inr ⟨_, List.mem_cons_self, ?_⟩
          by_contra hout
          rw [(htaken.after k).2 ⟨hfree, hout⟩] at hused
          cases hused
        · exact .inl (Bool.eq_false_of_not_eq_true hfree)
      · exact ⟨k, hk, .inr ⟨c, List.mem_cons_of_mem _ hc, hkc⟩⟩

theorem Takes.pos {u u' : UsedLevel4Entries} {blocks : List (ℕ × ℕ)} (h : Takes u blocks u') :
    ∀ block ∈ blocks, 0 < block.2 := by
  induction h with
  | nil u => simp
  | cons first rest ih => exact List.forall_mem_cons.2 ⟨(getFreeEntries_some first).pos, ih⟩

/-- The addresses of a segment, its end included, lie in one half of the address
space. -/
def InOneHalf (segment : ProgramHeader64) : Prop :=
  segment.virtualAddr.toNat + segment.memSize.toNat < 2 ^ 47 ∨
    2 ^ 64 - 2 ^ 47 ≤ segment.virtualAddr.toNat ∧
      segment.virtualAddr.toNat + segment.memSize.toNat < 2 ^ 64

theorem new_of_canonical (addr : UInt64)
    (h : addr.toNat < 2 ^ 47 ∨ 2 ^ 64 - 2 ^ 47 ≤ addr.toNat) :
    ∃ va, VirtAddr.new addr = some va ∧ va.value = addr.toNat := by
  unfold VirtAddr.new
  split_ifs with hlow hhigh hmid
  · exact ⟨_, rfl, rfl⟩
  · exact ⟨_, rfl, rfl⟩
  · omega
  · omega

theorem uses_of_address {segment : ProgramHeader64} (h : InOneHalf segment) {addr : VirtAddr}
    (hlow : segment.virtualAddr.toNat ≤ addr.value)
    (hhigh : addr.value ≤ segment.virtualAddr.toNat + segment.memSize.toNat) :
    SegmentUses segment addr.p4Index := by
  have hend : (segment.virtualAddr + segment.memSize).toNat =
      segment.virtualAddr.toNat + segment.memSize.toNat := by
    rw [UInt64.toNat_add]
    unfold InOneHalf at h
    omega
  unfold InOneHalf at h
  obtain ⟨startAddr, hstart, hstartValue⟩ :=
    new_of_canonical segment.virtualAddr (by omega)
  obtain ⟨endAddr, hendAddr, hendValue⟩ :=
    new_of_canonical (segment.virtualAddr + segment.memSize) (by omega)
  refine ⟨startAddr, hstart, endAddr, hendAddr, ?_⟩
  unfold VirtAddr.p4Index
  rw [hstartValue, hendValue, hend]
  omega

/-- Whatever runs of entries are asked for, in whatever order: they lie apart, stay
clear of entry 0 and of every address of the kernel's segments, and each is the
lowest one without entry 0, an entry of an earlier run or one that `new` has marked
for a segment. -/
theorem level4_blocks_apart {segments : List ProgramHeader64} {u u' : UsedLevel4Entries}
    {blocks : List (ℕ × ℕ)} (hsegments : ∀ segment ∈ segments, InOneHalf segment)
    (hnew : new segments = some u) (h : Takes u blocks u') :
    blocks.Pairwise (fun b c => ∀ k, InBlock b k → ¬ InBlock c k) ∧
      (∀ block ∈ blocks, 0 < block.1 ∧ block.1 + block.2 ≤ 512) ∧
      (∀ block ∈ blocks, ∀ segment ∈ segments, ∀ addr : VirtAddr,
        segment.virtualAddr.toNat ≤ addr.value →
        addr.value ≤ segment.virtualAddr.toNat + segment.memSize.toNat →
          ¬ InBlock block addr.p4Index) ∧
      ∀ before idx num after, blocks = before ++ (idx, num) :: after → ∀ j < idx,
        ∃ k, InBlock (j, num) k ∧ (k = 0 ∨ (∃ segment ∈ segments, SegmentUses segment k) ∨
          ∃ block ∈ before, InBlock block k) := by
  have hbounds : ∀ block ∈ blocks, 0 < block.1 ∧ block.1 + block.2 ≤ 512 := by
    intro block hblock
    have hpos := h.pos block hblock
    have hfirst := (isFree_new hnew _).1
      (h.free block hblock block.1 ⟨le_rfl, by omega⟩)
    have hlast := (isFree_new hnew _).1
      (h.free block hblock (block.1 + block.2 - 1) ⟨by omega, by omega⟩)
    exact ⟨hfirst.1.1, by omega⟩
  refine ⟨h.apart, hbounds, ?_, ?_⟩
  · intro block hblock segment hsegment addr hlow hhigh hin
    have hfree := (isFree_new hnew _).1 (h.free block hblock _ hin)
    exact hfree.2 segment hsegment (uses_of_address (hsegments segment hsegment) hlow hhigh)
  · intro before idx num after heq j hj
    obtain ⟨k, hk, hused | hblock⟩ := h.least heq j hj
    · refine ⟨k, hk, ?_⟩
      by_contra hclear
      simp only [not_or, not_exists, not_and] at hclear
      have hend := (hbounds (idx, num) (by simp [heq])).2
      have hlt := hk.2
      dsimp only at hend hlt
      have hfree := (isFree_new hnew k).2 ⟨⟨by omega, by omega⟩, hclear.2.1⟩
      rw [hfree] at hused
      cases hused
    · exact ⟨k, hk, .inr (.inr hblock)⟩

/-- A kernel with one segment in the low and one in the high half. -/
def twoSegments : List ProgramHeader64 :=
  [⟨some .load, true, false, 0, 0x200000, 0x3000, 0x3000⟩,
    ⟨some .load, false, true, 0x3000, 0xffff800000000000, 0x1000, 0x5000⟩]

theorem level4_blocks_apart_two_segments : ∃ u u', new twoSegments = some u ∧
    Takes u [(1, 1), (2, 1), (3, 2)] u' ∧
      ∀ segment ∈ twoSegments, ∀ addr : VirtAddr, segment.virtualAddr.toNat ≤ addr.value →
        addr.value ≤ segment.virtualAddr.toNat + segment.memSize.toNat →
          ¬ InBlock (3, 2) addr.p4Index := by
  have hrun : ((new twoSegments).bind (fun u => (u.getFreeEntries 1).bind (fun r =>
      (r.2.getFreeEntries 1).bind (fun s => (s.2.getFreeEntries 2).map (fun t =>
        (r.1, s.1, t.1)))))) = some (1, 2, 3) := by decide +kernel
  obtain ⟨u, hnew, hrun⟩ := Option.bind_eq_some_iff.1 hrun
  obtain ⟨⟨i, u₁⟩, hfirst, hrun⟩ := Option.bind_eq_some_iff.1 hrun
  obtain ⟨⟨j, u₂⟩, hsecond, hrun⟩ := Option.bind_eq_some_iff.1 hrun
  obtain ⟨⟨k, u₃⟩, hthird, heq⟩ := Option.map_eq_some_iff.1 hrun
  simp only [Prod.mk.injEq] at heq
  obtain ⟨rfl, rfl, rfl⟩ := heq
  have htakes := Takes.cons hfirst (.cons hsecond (.cons hthird (.nil u₃)))
  have hhalf : ∀ segment ∈ twoSegments, InOneHalf segment := by
    unfold InOneHalf
    decide
  obtain ⟨_, _, hclear, _⟩ := level4_blocks_apart hhalf hnew htakes
  exact ⟨u, u₃, hnew, htakes, hclear (3, 2) (by simp)⟩

end UsedLevel4Entries

end LlmOs.Boot
