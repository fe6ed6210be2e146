import LlmOs.BootFrameAllocator

set_option autoImplicit false

/-!
# Runs of the bootloader's frame allocator

Everything that the bootloader sets up draws its frames from one allocator, and
what it asks for next may depend on what it got. A run is any sequence of calls
that did not panic, with the log of the requested types and the answers.
-/
namespace LlmOs.Boot
open Memory Ownership

abbrev DrawLog := List (MemoryRegionType × Option PhysFrame)

def drawn (log : DrawLog) : List PhysFrame := log.filterMap Prod.snd

@[simp] theorem drawn_cons_none (T : MemoryRegionType) (log : DrawLog) :
    drawn ((T, none) :: log) = drawn log := rfl

@[simp] theorem drawn_cons_some (T : MemoryRegionType) (frame : PhysFrame) (log : DrawLog) :
    drawn ((T, some frame) :: log) = frame :: drawn log := rfl

theorem mem_drawn {log : DrawLog} {T : MemoryRegionType} {frame : PhysFrame}
    (h : (T, some frame) ∈ log) : frame ∈ drawn log :=
  List.mem_filterMap.2 ⟨_, h, rfl⟩

inductive Draws (sorter : SortUnstableBy MemoryRegion) :
    FrameAllocator → DrawLog → FrameAllocator → Prop where
  | nil (a : FrameAllocator) : Draws sorter a [] a
  | cons {a a₁ a' : FrameAllocator} {T : MemoryRegionType} {frame : Option PhysFrame}
      {log : DrawLog} (first : a.allocateFrame sorter T = some (frame, a₁))
      (rest : Draws sorter a₁ log a') : Draws sorter a ((T, frame) :: log) a'

section
variable {sorter : SortUnstableBy MemoryRegion}

/-- Handing frames over takes them from the list that the kernel will draw from. -/
theorem usableNumbers_perm {m m' : MemoryMap} {T : MemoryRegionType} {R : List ℕ}
    (h : Handover m.ledger m'.ledger (fun k => k ∈ R) .usable T) (hR : R.Nodup)
    (hT : T ≠ .usable) : m.usableNumbers.Perm (R ++ m'.usableNumbers) := by
  rw [List.perm_iff_count]
  intro k
  rw [List.count_append, MemoryMap.count_usableNumbers, MemoryMap.count_usableNumbers,
    h.count_eq hT k, hR.count, add_comm]

theorem frames_perm {m m' : MemoryMap} {T : MemoryRegionType} {k : ℕ}
    (h : Handover m.ledger m'.ledger (fun j => j = k) .usable T) (hT : T ≠ .usable) :
    m.frames.Perm (PhysFrame.ofNumber k :: m'.frames) := by
  have hone : Handover m.ledger m'.ledger (fun j => j ∈ [k]) .usable T := by
    simpa only [List.mem_singleton] using h
  exact (usableNumbers_perm hone (List.nodup_singleton k) hT).map PhysFrame.ofNumber

theorem frames_eq_nil {m : MemoryMap}
    (h : ∀ r ∈ m.regions, r.regionType = .usable → r.range.isEmpty = true) : m.frames = [] := by
  rw [MemoryMap.frames, List.map_eq_nil_iff, List.eq_nil_iff_forall_not_mem]
  intro k hk
  obtain ⟨r, hr, husable, hlow, hhigh⟩ := (MemoryMap.mem_usableNumbers m k).1 hk
  have hempty := (FrameRange.isEmpty_iff r.range).1 (h r hr husable)
  omega

namespace FrameAllocator

/-- What a call that returns has done. -/
theorem allocateFrame_some {a a₁ : FrameAllocator} {T : MemoryRegionType}
    {frame : Option PhysFrame} (hm : WellFormed a.memoryMap)
    (h : a.allocateFrame sorter T = some (frame, a₁)) :
    (frame = none ∧ a₁ = a ∧ a.memoryMap.frames = []) ∨
    ∃ k, frame = some (PhysFrame.ofNumber k) ∧ WellFormed a₁.memoryMap ∧
      Handover a.memoryMap.ledger a₁.memoryMap.ledger (fun j => j = k) .usable T := by
  obtain ⟨hnone, _⟩ | ⟨hout, hall⟩ | ⟨k, a', hsome, hwell, hhand⟩ :=
    allocateFrame_cases sorter hm T
  · rw [hnone] at h
    cases h
  · rw [hout, Option.some.injEq, Prod.mk.injEq] at h
    exact .inl ⟨h.1.symm, h.2.symm, frames_eq_nil hall⟩
  · rw [hsome, Option.some.injEq, Prod.mk.injEq] at h
    obtain ⟨rfl, rfl⟩ := h
    exact .inr ⟨k, rfl, hwell, hhand⟩

end FrameAllocator

theorem Draws.wellFormed {a a' : FrameAllocator} {log : DrawLog} (h : Draws sorter a log a')
    (hm : WellFormed a.memoryMap) : WellFormed a'.memoryMap := by
  induction h with
  | nil a => exact hm
  | cons first rest ih =>
    obtain ⟨_, rfl, _⟩ | ⟨_, _, hwell, _⟩ := FrameAllocator.allocateFrame_some hm first
    · exact ih hm
    · exact ih hwell

/-- No frame is lost and none is handed out twice: the usable frames at the start
are those that were drawn and those that are left. -/
theorem Draws.frames_perm {a a' : FrameAllocator} {log : DrawLog} (h : Draws sorter a log a')
    (hm : WellFormed a.memoryMap) (hT : ∀ e ∈ log, e.1 ≠ .usable) :
    a.memoryMap.frames.Perm (drawn log ++ a'.memoryMap.frames) := by
  induction h with
  | nil a => exact List.Perm.refl _
  | @cons a a₁ a' T frame log first rest ih =>
    have htail := fun e he => hT e (List.mem_cons_of_mem _ he)
    obtain ⟨rfl, rfl, _⟩ | ⟨k, rfl, hwell, hhand⟩ := FrameAllocator.allocateFrame_some hm first
    · exact ih hm htail
    · have hfirst := Boot.frames_perm hhand (hT _ List.mem_cons_self)
      exact hfirst.trans ((ih hwell htail).cons _)

theorem Draws.card_ledger {a a' : FrameAllocator} {log : DrawLog} (h : Draws sorter a log a')
    (hm : WellFormed a.memoryMap) (k : ℕ) :
    (a'.memoryMap.ledger k).card = (a.memoryMap.ledger k).card := by
  induction h with
  | nil a => rfl
  | cons first rest ih =>
    obtain ⟨_, rfl, _⟩ | ⟨j, _, hwell, hhand⟩ := FrameAllocator.allocateFrame_some hm first
    · exact ih hm
    · rw [ih hwell, hhand.card_eq]

theorem Draws.ledger_kept {a a' : FrameAllocator} {log : DrawLog} (h : Draws sorter a log a')
    (hm : WellFormed a.memoryMap) {k : ℕ} (hk : PhysFrame.ofNumber k ∉ drawn log) :
    a'.memoryMap.ledger k = a.memoryMap.ledger k := by
  induction h with
  | nil a => rfl
  | cons first rest ih =>
    obtain ⟨rfl, rfl, _⟩ | ⟨j, rfl, hwell, hhand⟩ := FrameAllocator.allocateFrame_some hm first
    · exact ih hm hk
    · rw [drawn_cons_some, List.mem_cons, not_or] at hk
      rw [ih hwell hk.2]
      exact hhand.kept k (fun hkj => hk.1 (congrArg PhysFrame.ofNumber hkj))

theorem Draws.ledger_moved {a a' : FrameAllocator} {log : DrawLog} (h : Draws sorter a log a')
    (hm : WellFormed a.memoryMap) (hnodup : a.memoryMap.frames.Nodup)
    (hT : ∀ e ∈ log, e.1 ≠ .usable) {T : MemoryRegionType} {k : ℕ}
    (hk : (T, some (PhysFrame.ofNumber k)) ∈ log) :
    a'.memoryMap.ledger k = T ::ₘ (a.memoryMap.ledger k).erase .usable := by
  induction h with
  | nil a => cases hk
  | @cons a a₁ a' T' frame log first rest ih =>
    have htail := fun e he => hT e (List.mem_cons_of_mem _ he)
    obtain ⟨rfl, rfl, _⟩ | ⟨j, rfl, hwell, hhand⟩ := FrameAllocator.allocateFrame_some hm first
    · exact ih hm hnodup htail (by simpa using hk)
    · have hperm := (Boot.frames_perm hhand (hT _ List.mem_cons_self)).trans
        ((rest.frames_perm hwell htail).cons _)
      have hfresh := List.nodup_cons.1 (hperm.nodup_iff.1 hnodup)
      obtain hhead | hlater := List.mem_cons.1 hk
      · rw [Prod.mk.injEq, Option.some.injEq] at hhead
        obtain ⟨rfl, hkj⟩ := hhead
        obtain rfl := PhysFrame.ofNumber_injective hkj
        have hlater : PhysFrame.ofNumber k ∉ drawn log :=
          fun hmem => hfresh.1 (List.mem_append_left _ hmem)
        rw [rest.ledger_kept hwell hlater]
        exact hhand.eq_cons_erase rfl
      · have hne : k ≠ j := by
          rintro rfl
          exact hfresh.1 (List.mem_append_left _ (mem_drawn hlater))
        have hleft := (rest.frames_perm hwell htail).nodup_iff.2 hfresh.2
        rw [ih hwell hleft htail hlater, hhand.kept k hne]

theorem Draws.length_drawn {a a' : FrameAllocator} {log : DrawLog} (h : Draws sorter a log a')
    (hm : WellFormed a.memoryMap) (hT : ∀ e ∈ log, e.1 ≠ .usable) :
    (drawn log).length = min log.length a.memoryMap.frames.length := by
  induction h with
  | nil a => exact (Nat.zero_min _).symm
  | cons first rest ih =>
    have htail := fun e he => hT e (List.mem_cons_of_mem _ he)
    obtain ⟨rfl, rfl, hnone⟩ | ⟨j, rfl, hwell, hhand⟩ := FrameAllocator.allocateFrame_some hm first
    · have hlen := ih hm htail
      rw [hnone] at hlen ⊢
      simpa using hlen
    · have hlen := (Boot.frames_perm hhand (hT _ List.mem_cons_self)).length_eq
      have hrest := ih hwell htail
      rw [List.length_cons] at hlen
      rw [drawn_cons_some, List.length_cons, List.length_cons]
      omega

/-- Any run: the frames it draws are distinct and were usable, each is recorded
under the type it was requested for, no other frame changes hands, and a call comes
away empty only when every usable frame has been drawn. -/
theorem boot_draws_exact {a a' : FrameAllocator} {log : DrawLog} (hm : WellFormed a.memoryMap)
    (hnodup : a.memoryMap.frames.Nodup) (h : Draws sorter a log a')
    (hT : ∀ e ∈ log, e.1 ≠ .usable) :
    a.memoryMap.frames.Perm (drawn log ++ a'.memoryMap.frames) ∧ (drawn log).Nodup ∧
      (drawn log).length = min log.length a.memoryMap.frames.length ∧
      (∀ T k, (T, some (PhysFrame.ofNumber k)) ∈ log →
        a'.memoryMap.ledger k = T ::ₘ (a.memoryMap.ledger k).erase .usable) ∧
      ∀ k, PhysFrame.ofNumber k ∉ drawn log →
        a'.memoryMap.ledger k = a.memoryMap.ledger k := by
  have hperm := h.frames_perm hm hT
  refine ⟨hperm, ?_, h.length_drawn hm hT, ?_, ?_⟩
  · exact (hperm.nodup_iff.1 hnodup).sublist (List.sublist_append_left _ _)
  · intro T k hk
    exact h.ledger_moved hm hnodup hT hk
  · intro k hk
    exact h.ledger_kept hm hk

end

def smallMap : MemoryMap :=
  .ofRegions [⟨⟨0, 1⟩, .frameZero⟩, ⟨⟨1, 3⟩, .usable⟩, ⟨⟨8, 9⟩, .usable⟩] (by decide)

theorem smallMap_wellFormed : WellFormed smallMap where
  settled := by
    unfold MemoryMap.Settled
    decide +kernel
  bounded := by
    have h : ∀ r ∈ smallMap.regions,
        r.range.startFrameNumber.toNat ≤ r.range.endFrameNumber.toNat ∧
          r.range.endFrameNumber.toNat < 2 ^ 40 := by decide +kernel
    exact fun r hr => ⟨(h r hr).1, (h r hr).2⟩

theorem boot_draws_exact_small :
    WellFormed smallMap ∧ smallMap.frames.Nodup ∧
      ∃ a', Draws (.insertion _) ⟨smallMap⟩ [(.kernel, some (PhysFrame.ofNumber 1))] a' ∧
        smallMap.frames.Perm (PhysFrame.ofNumber 1 :: a'.memoryMap.frames) ∧
        a'.memoryMap.ledger 1 = {.kernel} := by
  have hnodup : smallMap.frames.Nodup := by decide +kernel
  have hcall : ((⟨smallMap⟩ : FrameAllocator).allocateFrame (.insertion _) .kernel).map Prod.fst =
      some (some (PhysFrame.ofNumber 1)) := by decide +kernel
  obtain ⟨⟨frame, a'⟩, hfirst, rfl⟩ := Option.map_eq_some_iff.1 hcall
  have hdraws := Draws.cons hfirst (.nil a')
  obtain ⟨hperm, _, _, hmoved, _⟩ :=
    boot_draws_exact smallMap_wellFormed hnodup hdraws (by simp)
  refine ⟨smallMap_wellFormed, hnodup, a', hdraws, hperm, ?_⟩
  rw [hmoved .kernel 1 (List.mem_singleton_self _)]
  decide +kernel

end LlmOs.Boot
