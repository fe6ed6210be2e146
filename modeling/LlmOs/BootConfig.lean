import LlmOs.BootedKernel
import LlmOs.RustInt

set_option autoImplicit false

/-!
# The kernel manifest

`bootloader/build.rs` reads the table `package.metadata.bootloader` of the kernel's
manifest and turns it into the constants that the bootloader is compiled with. A
panic of the build is an error here, with the message it shows.
-/
namespace LlmOs.BootConfig
open RustText RustInt Memory Boot

/-- `char::to_digit`: the digits, then the letters of either case. -/
def toDigit (radix : ℕ) (c : Char) : Option ℕ :=
  let n := c.toNat
  let d := if 48 ≤ n ∧ n ≤ 57 then n - 48 else if 97 ≤ n ∧ n ≤ 122 then n - 87
    else if 65 ≤ n ∧ n ≤ 90 then n - 55 else radix
  if d < radix then some d else none

inductive IntErrorKind where
  | empty | invalidDigit | posOverflow
  deriving DecidableEq

def accumulate (radix : ℕ) (acc : ℕ) (c : Char) : Except IntErrorKind ℕ :=
  match toDigit radix c with
  | none => .error .invalidDigit
  | some d => if acc * radix + d < 2 ^ 64 then .ok (acc * radix + d) else .error .posOverflow

/-- `u64::from_str_radix`: a plus sign may come first, and a minus sign is no digit. -/
def fromStrRadix (radix : ℕ) : Str → Except IntErrorKind UInt64
  | [] => .error .empty
  | ['+'] => .error .invalidDigit
  | '+' :: ds => (ds.foldlM (accumulate radix) 0).map .ofNat
  | ds => (ds.foldlM (accumulate radix) 0).map .ofNat

inductive Panic where
  | notInteger (key value : Str) (kind : IntErrorKind)
  | unaligned (key value : Str)
  | givenAsInteger (key : Str) (i : I64)
  | offsetUnsupported
  | sizeNotPositive
  | unknownKey (key : Str)
  deriving DecidableEq

def Panic.message : Panic → Str
  | .notInteger key value kind =>
    "`".toList ++ key ++ "` in the kernel manifest must be an integer (is `".toList ++ value ++
      "`): ParseIntError \x7b kind: ".toList ++
      (match kind with
        | .empty => "Empty".toList
        | .invalidDigit => "InvalidDigit".toList
        | .posOverflow => "PosOverflow".toList) ++ " \x7d".toList
  | .unaligned key value =>
    "`".toList ++ key ++ "` in the kernel manifest must be aligned to 4KiB (is `".toList ++ value ++
      "`)".toList
  | .givenAsInteger key i =>
    "`".toList ++ key ++ "` in the kernel manifest must be given as a string, ".toList ++
      "as toml does not support unsigned 64-bit integers (try `".toList ++ key ++
      " = \"".toList ++ intText i.val ++ "\"`)".toList
  | .offsetUnsupported =>
    "`physical-memory-offset` is only supported when the `map_physical_memory` ".toList ++
      "feature of the crate is enabled".toList
  | .sizeNotPositive => "`kernel-stack-size` in kernel manifest must be positive".toList
  | .unknownKey key =>
    "unknown key '".toList ++ key ++ "' in kernel manifest ".toList ++
      "- you may need to update the bootloader crate".toList

def parseAlignedAddr (key value : Str) : Except Panic UInt64 :=
  let num := if startsWith value "0x".toList then fromStrRadix 16 (value.drop 2)
    else fromStrRadix 10 value
  match num with
  | .error kind => .error (.notInteger key value kind)
  | .ok num => if num % 0x1000 ≠ 0 then .error (.unaligned key value) else .ok num

/-- What a key of a toml table can have; the other kinds are not told apart. -/
inductive Value where
  | integer (i : I64)
  | string (s : Str)
  | other

structure Table where
  entries : List (Str × Value)
  nodup : (entries.map Prod.fst).Nodup

structure BootloaderConfig where
  physicalMemoryOffset : Option UInt64
  kernelStackAddress : Option UInt64
  kernelStackSize : Option UInt64
  bootInfoAddress : Option UInt64
  deriving DecidableEq

def BootloaderConfig.default : BootloaderConfig := ⟨none, none, none, none⟩

def parseEntry (mapPhysicalMemory : Bool) (cfg : BootloaderConfig) (entry : Str × Value) :
    Except Panic BootloaderConfig :=
  let (key, value) := entry
  match value with
  | .integer i =>
    if key = "kernel-stack-address".toList ∨ key = "physical-memory-offset".toList ∨
        key = "boot-info-address".toList then .error (.givenAsInteger key i)
    else if key = "kernel-stack-size".toList then
      if i.val ≤ 0 then .error .sizeNotPositive
      else .ok { cfg with kernelStackSize := some (.ofNat i.val.toNat) }
    else .error (.unknownKey key)
  | .string s =>
    if key = "kernel-stack-address".toList then
      (parseAlignedAddr key s).map (fun n => { cfg with kernelStackAddress := some n })
    else if key = "boot-info-address".toList then
      (parseAlignedAddr key s).map (fun n => { cfg with bootInfoAddress := some n })
    else if key = "physical-memory-offset".toList then
      if mapPhysicalMemory then
        (parseAlignedAddr key s).map (fun n => { cfg with physicalMemoryOffset := some n })
      else .error .offsetUnsupported
    else .error (.unknownKey key)
  | .other => .error (.unknownKey key)

def parseToConfig (mapPhysicalMemory : Bool) (table : Table) : Except Panic BootloaderConfig :=
  table.entries.foldlM (parseEntry mapPhysicalMemory) .default

/-- `KERNEL_STACK_SIZE`, in pages. -/
def BootloaderConfig.stackSize (cfg : BootloaderConfig) : UInt64 := cfg.kernelStackSize.getD 512

/-! ## What is accepted -/

/-- The digits of a text, the first one first, with the value they have. -/
def Digits (radix : ℕ) (ds : Str) (n : ℕ) : Prop :=
  ds ≠ [] ∧ ∃ vs, ds.mapM (toDigit radix) = some vs ∧ n = Nat.ofDigits radix vs.reverse

def Numeral (radix : ℕ) (s : Str) (n : ℕ) : Prop :=
  Digits radix s n ∨ ∃ ds, s = '+' :: ds ∧ Digits radix ds n

/-- The texts that stand for an address: hexadecimal behind `0x`, else decimal. -/
structure Address (s : Str) (n : ℕ) : Prop where
  numeral : (∃ t, s = "0x".toList ++ t ∧ Numeral 16 t n) ∨ Numeral 10 s n
  fits : n < 2 ^ 64
  aligned : n % 4096 = 0

def horner (radix acc : ℕ) (vs : List ℕ) : ℕ := vs.foldl (fun a d => a * radix + d) acc

theorem horner_zero (radix : ℕ) (vs : List ℕ) :
    horner radix 0 vs = Nat.ofDigits radix vs.reverse := by
  rw [Nat.ofDigits_eq_foldr, List.foldr_reverse, horner]
  simp [Nat.mul_comm, Nat.add_comm]

theorem le_horner {radix : ℕ} (hradix : 0 < radix) (acc : ℕ) (vs : List ℕ) :
    acc ≤ horner radix acc vs := by
  induction vs generalizing acc with
  | nil => exact le_refl acc
  | cons d vs ih =>
    calc acc ≤ acc * radix := Nat.le_mul_of_pos_right acc hradix
      _ ≤ acc * radix + d := Nat.le_add_right _ _
      _ ≤ horner radix (acc * radix + d) vs := ih _

theorem foldlM_accumulate_iff {radix : ℕ} (hradix : 0 < radix) {acc : ℕ} (hacc : acc < 2 ^ 64)
    (ds : Str) (n : ℕ) :
    ds.foldlM (accumulate radix) acc = .ok n ↔
      ∃ vs, ds.mapM (toDigit radix) = some vs ∧ n = horner radix acc vs ∧ n < 2 ^ 64 := by
  induction ds generalizing acc with
  | nil =>
    constructor
    · intro h
      cases h
      exact ⟨[], rfl, rfl, hacc⟩
    · rintro ⟨vs, hvs, rfl, _⟩
      cases hvs
      rfl
  | cons c ds ih =>
    rw [List.foldlM_cons, List.mapM_cons, accumulate]
    cases hdigit : toDigit radix c with
    | none =>
      refine iff_of_false (fun h => by cases h) ?_
      rintro ⟨vs, hvs, _⟩
      cases hvs
    | some d =>
      dsimp only
      split_ifs with hlt
      · change ds.foldlM (accumulate radix) (acc * radix + d) = .ok n ↔ _
        rw [ih hlt]
        constructor
        · rintro ⟨vs, hvs, hn, hfits⟩
          exact ⟨d :: vs, by rw [hvs]; rfl, hn, hfits⟩
        · rintro ⟨vs, hvs, hn, hfits⟩
          obtain ⟨_, hd, hvs⟩ := Option.bind_eq_some_iff.1 hvs
          obtain ⟨rest, hrest, hvs⟩ := Option.bind_eq_some_iff.1 hvs
          cases hd
          cases hvs
          exact ⟨rest, hrest, hn, hfits⟩
      · refine iff_of_false (fun h => by cases h) ?_
        rintro ⟨vs, hvs, rfl, hfits⟩
        obtain ⟨_, hd, hvs⟩ := Option.bind_eq_some_iff.1 hvs
        obtain ⟨rest, hrest, hvs⟩ := Option.bind_eq_some_iff.1 hvs
        cases hd
        cases hvs
        -- the value only grows from here
        have hgrows : acc * radix + d ≤ horner radix (acc * radix + d) rest := le_horner hradix _ rest
        exact hlt (Nat.lt_of_le_of_lt hgrows hfits)

theorem toDigit_plus (radix : ℕ) : toDigit radix '+' = none := by
  simp [toDigit]

theorem map_ofNat_eq_ok_iff {r : Except IntErrorKind ℕ} {u : UInt64}
    (hr : ∀ n, r = .ok n → n < 2 ^ 64) : r.map UInt64.ofNat = .ok u ↔ r = .ok u.toNat := by
  cases r with
  | error kind => simp [Except.map]
  | ok n =>
    have hn := hr n rfl
    simp only [Except.map, Except.ok.injEq]
    constructor
    · rintro rfl
      rw [UInt64.toNat_ofNat', Nat.mod_eq_of_lt hn]
    · rintro rfl
      exact UInt64.ofNat_toNat

/-- `from_str_radix` accepts the numerals whose value fits. -/
theorem fromStrRadix_ok_iff {radix : ℕ} (hradix : 0 < radix) (s : Str) (u : UInt64) :
    fromStrRadix radix s = .ok u ↔ Numeral radix s u.toNat := by
  have hdigits : ∀ ds : Str, ds ≠ [] →
      ((ds.foldlM (accumulate radix) 0).map UInt64.ofNat = .ok u ↔ Digits radix ds u.toNat) := by
    intro ds hne
    rw [map_ofNat_eq_ok_iff (fun n hn => by
      obtain ⟨_, _, _, hfits⟩ := (foldlM_accumulate_iff hradix (by decide) ds n).1 hn
      exact hfits), foldlM_accumulate_iff hradix (by decide)]
    simp only [horner_zero, Digits]
    constructor
    · rintro ⟨vs, hvs, hn, _⟩
      exact ⟨hne, vs, hvs, hn⟩
    · rintro ⟨_, vs, hvs, hn⟩
      exact ⟨vs, hvs, hn, u.toNat_lt⟩
  have hplus : ∀ (ds : Str) (n : ℕ), ¬ Digits radix ('+' :: ds) n := by
    rintro ds n ⟨_, vs, hvs, _⟩
    rw [List.mapM_cons, toDigit_plus] at hvs
    cases hvs
  unfold fromStrRadix
  split
  · refine iff_of_false (fun h => by cases h) ?_
    rintro (⟨hne, _⟩ | ⟨ds, hds, _⟩)
    · exact hne rfl
    · cases hds
  · refine iff_of_false (fun h => by cases h) ?_
    rintro (h | ⟨ds, hds, hne, _⟩)
    · exact hplus _ _ h
    · cases hds
      exact hne rfl
  · rename_i ds hne
    rw [hdigits ds (fun h => hne (by rw [h]))]
    constructor
    · exact fun h => .inr ⟨ds, rfl, h⟩
    · rintro (h | ⟨ds', hds, h⟩)
      · exact absurd h (hplus _ _)
      · cases hds
        exact h
  · rename_i hnil hsign hplus'
    rw [hdigits s hnil]
    constructor
    · exact .inl
    · rintro (h | ⟨ds, hds, _⟩)
      · exact h
      · exact absurd hds (hplus' ds)

theorem not_decimal (t : Str) (n : ℕ) : ¬ Numeral 10 ("0x".toList ++ t) n := by
  have hx : toDigit 10 'x' = none := by decide
  rintro (⟨_, vs, hvs, _⟩ | ⟨ds, hds, _⟩)
  · change ('0' :: 'x' :: t).mapM (toDigit 10) = some vs at hvs
    rw [List.mapM_cons, List.mapM_cons, hx] at hvs
    cases hvs
  · exact absurd (List.cons.inj hds).1 (by decide)

theorem parseAlignedAddr_ok_iff (key s : Str) (u : UInt64) :
    parseAlignedAddr key s = .ok u ↔ Address s u.toNat := by
  have hread : (if startsWith s "0x".toList then fromStrRadix 16 (s.drop 2) else
      fromStrRadix 10 s) = .ok u ↔
      (∃ t, s = "0x".toList ++ t ∧ Numeral 16 t u.toNat) ∨ Numeral 10 s u.toNat := by
    split_ifs with hhex
    · obtain ⟨t, rfl⟩ := (startsWith_iff _ _).1 hhex
      rw [show ("0x".toList ++ t).drop 2 = t from List.drop_left' rfl,
        fromStrRadix_ok_iff (by decide)]
      constructor
      · exact fun h => .inl ⟨t, rfl, h⟩
      · rintro (⟨t', ht, h⟩ | h)
        · rwa [List.append_cancel_left ht]
        · exact absurd h (not_decimal t _)
    · rw [fromStrRadix_ok_iff (by decide)]
      constructor
      · exact .inr
      · rintro (⟨t, rfl, _⟩ | h)
        · exact absurd (startsWith_append _ _) hhex
        · exact h
  have haligned : u % 0x1000 = 0 ↔ u.toNat % 4096 = 0 := by
    rw [← UInt64.toNat_inj, UInt64.toNat_mod]
    rfl
  unfold parseAlignedAddr
  dsimp only
  generalize hnum : (if startsWith s "0x".toList then fromStrRadix 16 (s.drop 2) else
      fromStrRadix 10 s) = num at hread ⊢
  cases num with
  | error kind =>
    refine iff_of_false (fun h => by cases h) (fun h => ?_)
    have hnumeral := hread.2 h.numeral
    cases hnumeral
  | ok n =>
    dsimp only
    split_ifs with hmod
    · refine iff_of_false (fun h => by cases h) (fun h => hmod ?_)
      obtain rfl : n = u := Except.ok.inj (hread.2 h.numeral)
      exact haligned.2 h.aligned
    · constructor
      · intro h
        obtain rfl : n = u := Except.ok.inj h
        exact ⟨hread.1 rfl, n.toNat_lt, haligned.1 (not_not.1 hmod)⟩
      · exact fun h => congrArg Except.ok (Except.ok.inj (hread.2 h.numeral))

inductive Field where
  | physicalMemoryOffset | kernelStackAddress | kernelStackSize | bootInfoAddress
  deriving DecidableEq

def Field.key : Field → Str
  | .physicalMemoryOffset => "physical-memory-offset".toList
  | .kernelStackAddress => "kernel-stack-address".toList
  | .kernelStackSize => "kernel-stack-size".toList
  | .bootInfoAddress => "boot-info-address".toList

theorem Field.key_injective : Function.Injective Field.key := by
  intro f g h
  cases f <;> cases g <;> first | rfl | exact absurd h (by decide)

namespace BootloaderConfig

def get (cfg : BootloaderConfig) : Field → Option UInt64
  | .physicalMemoryOffset => cfg.physicalMemoryOffset
  | .kernelStackAddress => cfg.kernelStackAddress
  | .kernelStackSize => cfg.kernelStackSize
  | .bootInfoAddress => cfg.bootInfoAddress

def set (cfg : BootloaderConfig) (f : Field) (n : UInt64) : BootloaderConfig :=
  match f with
  | .physicalMemoryOffset => { cfg with physicalMemoryOffset := some n }
  | .kernelStackAddress => { cfg with kernelStackAddress := some n }
  | .kernelStackSize => { cfg with kernelStackSize := some n }
  | .bootInfoAddress => { cfg with bootInfoAddress := some n }

theorem get_set (cfg : BootloaderConfig) (f g : Field) (n : UInt64) :
    (cfg.set f n).get g = if g = f then some n else cfg.get g := by
  cases f <;> cases g <;> rfl

end BootloaderConfig

/-- What a field can have in the manifest, with the constant it gives. The addresses
are strings, the size is a positive integer. -/
def Reads (mapPhysicalMemory : Bool) (f : Field) : Value → UInt64 → Prop
  | .integer i, n => f = .kernelStackSize ∧ 0 < i.val ∧ n.toNat = i.val
  | .string s, n => f ≠ .kernelStackSize ∧
      (f = .physicalMemoryOffset → mapPhysicalMemory = true) ∧ Address s n.toNat
  | .other, _ => False

theorem map_eq_ok_iff {α β : Type} {r : Except Panic α} {g : α → β} {b : β} :
    r.map g = .ok b ↔ ∃ a, r = .ok a ∧ b = g a := by
  cases r with
  | error e => simp [Except.map]
  | ok a => simp [Except.map, eq_comm]

theorem parseEntry_integer_iff {mapPhysicalMemory : Bool} {cfg cfg' : BootloaderConfig} {key : Str}
    {i : I64} : parseEntry mapPhysicalMemory cfg (key, .integer i) = .ok cfg' ↔
      key = Field.kernelStackSize.key ∧ 0 < i.val ∧
        cfg' = cfg.set .kernelStackSize (.ofNat i.val.toNat) := by
  unfold parseEntry
  dsimp only
  split_ifs with haddress hsize hpos
  · refine iff_of_false (fun h => by cases h) ?_
    rintro ⟨rfl, _⟩
    exact absurd haddress (by decide)
  · exact iff_of_false (fun h => by cases h) (fun h => by omega)
  · constructor
    · intro h
      cases h
      exact ⟨hsize, by omega, rfl⟩
    · rintro ⟨_, _, rfl⟩
      rfl
  · exact iff_of_false (fun h => by cases h) (fun h => hsize h.1)

theorem parseEntry_string_iff {mapPhysicalMemory : Bool} {cfg cfg' : BootloaderConfig} {key s : Str} :
    parseEntry mapPhysicalMemory cfg (key, .string s) = .ok cfg' ↔
      ∃ f n, key = Field.key f ∧ f ≠ .kernelStackSize ∧
        (f = .physicalMemoryOffset → mapPhysicalMemory = true) ∧ Address s n.toNat ∧
        cfg' = cfg.set f n := by
  have hfield : ∀ f : Field, key = f.key → f ≠ .kernelStackSize →
      (f = .physicalMemoryOffset → mapPhysicalMemory = true) →
      ((parseAlignedAddr key s).map (cfg.set f) = .ok cfg' ↔
        ∃ f n, key = Field.key f ∧ f ≠ .kernelStackSize ∧
          (f = .physicalMemoryOffset → mapPhysicalMemory = true) ∧ Address s n.toNat ∧
          cfg' = cfg.set f n) := by
    intro f hkey hne hfeature
    rw [map_eq_ok_iff]
    constructor
    · rintro ⟨n, hn, hcfg⟩
      exact ⟨f, n, hkey, hne, hfeature, (parseAlignedAddr_ok_iff key s n).1 hn, hcfg⟩
    · rintro ⟨g, n, hkey', _, _, hn, hcfg⟩
      obtain rfl : f = g := Field.key_injective (hkey.symm.trans hkey')
      exact ⟨n, (parseAlignedAddr_ok_iff key s n).2 hn, hcfg⟩
  unfold parseEntry
  dsimp only
  split_ifs with hstack hinfo hoffset hfeature
  · exact hfield .kernelStackAddress hstack (by decide) (fun h => by cases h)
  · exact hfield .bootInfoAddress hinfo (by decide) (fun h => by cases h)
  · exact hfield .physicalMemoryOffset hoffset (by decide) (fun _ => hfeature)
  · refine iff_of_false (fun h => by cases h) ?_
    rintro ⟨f, n, hkey, _, hf, _⟩
    exact hfeature (hf (Field.key_injective (hkey.symm.trans hoffset)))
  · refine iff_of_false (fun h => by cases h) ?_
    rintro ⟨f, n, hkey, hne, _⟩
    cases f with
    | physicalMemoryOffset => exact hoffset hkey
    | kernelStackAddress => exact hstack hkey
    | kernelStackSize => exact hne rfl
    | bootInfoAddress => exact hinfo hkey

theorem parseEntry_ok_iff {mapPhysicalMemory : Bool} {cfg cfg' : BootloaderConfig} {key : Str}
    {value : Value} : parseEntry mapPhysicalMemory cfg (key, value) = .ok cfg' ↔
      ∃ f n, key = Field.key f ∧ Reads mapPhysicalMemory f value n ∧ cfg' = cfg.set f n := by
  cases value with
  | integer i =>
    have hlt : i.val ≤ 2 ^ 63 - 1 := i.inRange.2
    rw [parseEntry_integer_iff]
    constructor
    · rintro ⟨hkey, hpos, hcfg⟩
      refine ⟨.kernelStackSize, _, hkey, ⟨rfl, hpos, ?_⟩, hcfg⟩
      rw [UInt64.toNat_ofNat', Nat.mod_eq_of_lt (by omega)]
      omega
    · rintro ⟨f, n, hkey, ⟨rfl, hpos, hn⟩, hcfg⟩
      refine ⟨hkey, hpos, ?_⟩
      rw [hcfg, ← hn, Int.toNat_natCast, UInt64.ofNat_toNat]
  | string s =>
    rw [parseEntry_string_iff]
    simp only [Reads, and_assoc]
  | other =>
    refine iff_of_false (fun h => by cases h) ?_
    rintro ⟨f, n, _, hreads, _⟩
    exact hreads

theorem Reads.unique {mapPhysicalMemory : Bool} {f : Field} {value : Value} {n n' : UInt64}
    (h : Reads mapPhysicalMemory f value n) (h' : Reads mapPhysicalMemory f value n') : n = n' := by
  cases value with
  | integer i =>
    apply UInt64.toNat_inj.1
    have hn := h.2.2
    have hn' := h'.2.2
    omega
  | string s =>
    have hn := (parseAlignedAddr_ok_iff f.key s n).2 h.2.2
    have hn' := (parseAlignedAddr_ok_iff f.key s n').2 h'.2.2
    exact Except.ok.inj (hn.symm.trans hn')
  | other => exact absurd h (fun h => h)

theorem parseEntries_get {mapPhysicalMemory : Bool} {entries : List (Str × Value)}
    (hnodup : (entries.map Prod.fst).Nodup) {cfg cfg' : BootloaderConfig}
    (h : entries.foldlM (parseEntry mapPhysicalMemory) cfg = .ok cfg') :
    (∀ e ∈ entries, ∃ f n, e.1 = Field.key f ∧ Reads mapPhysicalMemory f e.2 n) ∧
      ∀ f n, cfg'.get f = some n ↔
        (∃ value, (f.key, value) ∈ entries ∧ Reads mapPhysicalMemory f value n) ∨
          (f.key ∉ entries.map Prod.fst ∧ cfg.get f = some n) := by
  induction entries generalizing cfg with
  | nil =>
    cases h
    exact ⟨by simp, by simp⟩
  | cons e entries ih =>
    obtain ⟨key, value⟩ := e
    rw [List.map_cons, List.nodup_cons] at hnodup
    rw [List.foldlM_cons] at h
    cases hentry : parseEntry mapPhysicalMemory cfg (key, value) with
    | error panic =>
      rw [hentry] at h
      cases h
    | ok cfg₁ =>
      rw [hentry] at h
      obtain ⟨f, n, rfl, hreads, rfl⟩ := parseEntry_ok_iff.1 hentry
      obtain ⟨haccepted, hget⟩ := ih hnodup.2 h
      refine ⟨List.forall_mem_cons.2 ⟨⟨f, n, rfl, hreads⟩, haccepted⟩, fun g k => ?_⟩
      rw [hget, BootloaderConfig.get_set]
      by_cases hg : g = f
      · subst hg
        have habsent : ∀ v, (g.key, v) ∉ entries :=
          fun v hv => hnodup.1 (List.mem_map.2 ⟨_, hv, rfl⟩)
        rw [if_pos rfl]
        constructor
        · rintro (⟨v, hv, _⟩ | ⟨_, hn⟩)
          · exact absurd hv (habsent v)
          · cases hn
            exact .inl ⟨value, List.mem_cons_self, hreads⟩
        · rintro (⟨v, hv, hk⟩ | ⟨hkey, _⟩)
          · rcases List.mem_cons.1 hv with heq | hv
            · cases heq
              exact .inr ⟨hnodup.1, congrArg some (hreads.unique hk)⟩
            · exact absurd hv (habsent v)
          · exact absurd List.mem_cons_self hkey
      · have hne : g.key ≠ f.key := fun h => hg (Field.key_injective h)
        rw [if_neg hg, List.map_cons, List.mem_cons, not_or, and_iff_right hne]
        refine or_congr_left (exists_congr (fun v => and_congr_left (fun _ => ?_)))
        rw [List.mem_cons, or_iff_right]
        exact fun h => hne (congrArg Prod.fst h)

theorem parseEntries_ok {mapPhysicalMemory : Bool} {entries : List (Str × Value)}
    (h : ∀ e ∈ entries, ∃ f n, e.1 = Field.key f ∧ Reads mapPhysicalMemory f e.2 n)
    (cfg : BootloaderConfig) :
    ∃ cfg', entries.foldlM (parseEntry mapPhysicalMemory) cfg = .ok cfg' := by
  induction entries generalizing cfg with
  | nil => exact ⟨cfg, rfl⟩
  | cons e entries ih =>
    obtain ⟨key, value⟩ := e
    obtain ⟨⟨f, n, hkey, hreads⟩, hrest⟩ := List.forall_mem_cons.1 h
    obtain ⟨cfg', hcfg⟩ := ih hrest (cfg.set f n)
    refine ⟨cfg', ?_⟩
    rw [List.foldlM_cons, parseEntry_ok_iff.2 ⟨f, n, hkey, hreads, rfl⟩]
    exact hcfg

/-- The build accepts a manifest if and only if each entry is a known field with a
value of its kind: an aligned address in hexadecimal or decimal that fits 64 bits,
or a positive size. Then each field is what its entry says, in whatever order the
entries come, and a field without an entry is left open. -/
theorem manifest_accepted_iff (mapPhysicalMemory : Bool) (table : Table) :
    ((∃ cfg, parseToConfig mapPhysicalMemory table = .ok cfg) ↔
      ∀ e ∈ table.entries, ∃ f n, e.1 = Field.key f ∧ Reads mapPhysicalMemory f e.2 n) ∧
    ∀ cfg, parseToConfig mapPhysicalMemory table = .ok cfg → ∀ f n,
      cfg.get f = some n ↔
        ∃ value, (Field.key f, value) ∈ table.entries ∧ Reads mapPhysicalMemory f value n := by
  refine ⟨⟨?_, fun h => parseEntries_ok h _⟩, fun cfg hcfg f n => ?_⟩
  · rintro ⟨cfg, hcfg⟩
    exact (parseEntries_get table.nodup hcfg).1
  · rw [(parseEntries_get table.nodup hcfg).2, or_iff_left]
    rintro ⟨_, hdefault⟩
    cases f <;> cases hdefault

/-- An address that the processor takes as it is. -/
def Canonical (addr : UInt64) : Prop := addr.toNat < 2 ^ 47 ∨ 2 ^ 64 - 2 ^ 47 ≤ addr.toNat

theorem page_kept_iff {addr : UInt64} (haligned : addr.toNat % 4096 = 0) {va : VirtAddr}
    (h : VirtAddr.new addr = some va) :
    (Page.containingAddress va.value).startAddress = addr.toNat ↔ Canonical addr := by
  have hlt := addr.toNat_lt
  have hcanonical := va.canonical
  have hmod := (VirtAddr.new_eq_some_iff.1 h).2
  unfold Canonical
  change va.value - va.value % 4096 = addr.toNat ↔ _
  omega

theorem new_eq_none_iff (addr : UInt64) :
    VirtAddr.new addr = none ↔ 2 ^ 48 ≤ addr.toNat ∧ ¬ Canonical addr := by
  unfold VirtAddr.new Canonical
  split_ifs with hlow hhigh hmid
  · exact iff_of_false (fun h => by cases h) (fun h => h.2 (.inl hlow))
  · exact iff_of_false (fun h => by cases h) (fun h => h.2 (.inr hhigh))
  · exact iff_of_false (fun h => by cases h) (fun h => by omega)
  · exact iff_of_true rfl (by omega)

theorem aligned_of_parse {mapPhysicalMemory : Bool} {table : Table} {cfg : BootloaderConfig}
    (h : parseToConfig mapPhysicalMemory table = .ok cfg) {f : Field} (hf : f ≠ .kernelStackSize)
    {addr : UInt64} (haddr : cfg.get f = some addr) : addr.toNat % 4096 = 0 := by
  obtain ⟨value, _, hreads⟩ | ⟨_, hdefault⟩ := ((parseEntries_get table.nodup h).2 f addr).1 haddr
  · cases value with
    | integer i => exact absurd hreads.1 hf
    | string s => exact hreads.2.2.aligned
    | other => exact absurd hreads (fun h => h)
  · cases f <;> cases hdefault

/-- The part of `bootloader_main` that the two addresses and the stack size go into:
the pages they stand for, and the load. -/
def loadConfigured {T : Type} (m : Machine T) (sorter : SortUnstableBy MemoryRegion)
    (cfg : BootloaderConfig) (u : UsedLevel4Entries) (kernelStart : PhysAddr)
    (segments : List ProgramHeader64) :
    Run MapKernelError (BootState T) (Page × Page × MemoryInfo) := do
  let (bootInfo, _) ← .ofOption (bootInfoPage cfg.bootInfoAddress u)
  let stackStart ← .ofOption (kernelStackAddress cfg.kernelStackAddress bootInfo)
  let info ← loadKernel m sorter kernelStart bootInfo stackStart cfg.stackSize.toNat segments
  return (bootInfo, stackStart, info)

section
variable {T : Type} {m : Machine T} {sorter : SortUnstableBy MemoryRegion}
  {mapPhysicalMemory : Bool} {table : Table} {cfg : BootloaderConfig}

theorem loadConfigured_ok {u : UsedLevel4Entries} {kernelStart : PhysAddr}
    {segments : List ProgramHeader64} {s s' : BootState T} {bootInfo stackStart : Page}
    {info : MemoryInfo}
    (h : loadConfigured m sorter cfg u kernelStart segments s =
      some (.ok (bootInfo, stackStart, info), s')) :
    (∃ u', bootInfoPage cfg.bootInfoAddress u = some (bootInfo, u')) ∧
      kernelStackAddress cfg.kernelStackAddress bootInfo = some stackStart ∧
      loadKernel m sorter kernelStart bootInfo stackStart cfg.stackSize.toNat segments s =
        some (.ok info, s') := by
  have hends : (loadConfigured m sorter cfg u kernelStart segments).Ends s
      (fun r s' => (∃ u', bootInfoPage cfg.bootInfoAddress u = some (r.1, u')) ∧
        kernelStackAddress cfg.kernelStackAddress r.1 = some r.2.1 ∧
        loadKernel m sorter kernelStart r.1 r.2.1 cfg.stackSize.toNat segments s =
          some (.ok r.2.2, s')) (fun _ _ => True) := by
    refine .ofOption_bind (fun (bootInfo, u') hinfo => .ofOption_bind (fun stackStart hstack => ?_))
    have hload : (loadKernel m sorter kernelStart bootInfo stackStart cfg.stackSize.toNat
        segments).Ends s (fun info s' => loadKernel m sorter kernelStart bootInfo stackStart
          cfg.stackSize.toNat segments s = some (.ok info, s')) (fun _ _ => True) :=
      ⟨fun hrun => hrun, fun _ => trivial⟩
    exact hload.bind (fun info s' hrun => .pure ⟨⟨u', hinfo⟩, hstack, hrun⟩)
  exact hends.returns h

theorem bootInfoPage_some {addr : UInt64} {u u' : UsedLevel4Entries} {page : Page}
    (h : bootInfoPage (some addr) u = some (page, u')) :
    ∃ va, VirtAddr.new addr = some va ∧ page = .containingAddress va.value := by
  obtain ⟨va, hva, heq⟩ := Option.map_eq_some_iff.1 h
  exact ⟨va, hva, (congrArg Prod.fst heq).symm⟩

theorem kernelStackAddress_some {addr : UInt64} {bootInfo page : Page}
    (h : kernelStackAddress (some addr) bootInfo = some page) :
    ∃ va, VirtAddr.new addr = some va ∧ page = .containingAddress va.value := by
  obtain ⟨va, hva, heq⟩ := Option.map_eq_some_iff.1 h
  exact ⟨va, hva, heq.symm⟩

/-- No page stands for an address that `VirtAddr::new` does not take. -/
theorem loadConfigured_panics {addr : UInt64} (hnone : VirtAddr.new addr = none)
    (haddr : cfg.bootInfoAddress = some addr ∨ cfg.kernelStackAddress = some addr)
    (u : UsedLevel4Entries) (kernelStart : PhysAddr) (segments : List ProgramHeader64)
    (s : BootState T) : loadConfigured m sorter cfg u kernelStart segments s = none := by
  rw [loadConfigured, Run.bind_apply, Run.ofOption]
  cases hinfo : bootInfoPage cfg.bootInfoAddress u with
  | none => rfl
  | some r =>
    obtain hboot | hstack := haddr
    · rw [hboot] at hinfo
      obtain ⟨va, hva, _⟩ := bootInfoPage_some hinfo
      rw [hnone] at hva
      cases hva
    · have hstackNone : kernelStackAddress cfg.kernelStackAddress r.1 = none := by
        rw [hstack, kernelStackAddress, hnone]
        rfl
      dsimp only [Option.map_some]
      rw [Run.bind_apply, Run.ofOption, hstackNone]
      rfl

/-- The two addresses that the bootloader would choose by itself. -/
def lowTable : Table where
  entries := [("boot-info-address".toList, .string "0x10000000000".toList),
    ("kernel-stack-address".toList, .string "0x10000001000".toList),
    ("kernel-stack-size".toList, .integer ⟨1, by decide⟩)]
  nodup := by decide

def lowConfig : BootloaderConfig := ⟨none, some 0x10000001000, some 1, some 0x10000000000⟩

theorem lowTable_parsed : parseToConfig true lowTable = .ok lowConfig := by decide +kernel

theorem lowConfig_loads {a : FrameAllocator} {s₁ s' : BootState WalkedMemory} {info : MemoryInfo}
    (h : LowLoad a s₁ info s') (u : UsedLevel4Entries) :
    loadConfigured WalkedMemory.machine (.insertion _) lowConfig u lowLayout.kernelStart lowSegments
      (lowStart a) = some (.ok (pageAt (2 ^ 28), pageAt (2 ^ 28 + 1), info), s') := by
  have hinfo : bootInfoPage lowConfig.bootInfoAddress u = some (pageAt (2 ^ 28), u) := rfl
  have hstack : kernelStackAddress lowConfig.kernelStackAddress (pageAt (2 ^ 28)) =
      some (pageAt (2 ^ 28 + 1)) := rfl
  rw [loadConfigured, Run.bind_apply, Run.ofOption, hinfo]
  dsimp only [Option.map_some]
  rw [Run.bind_apply, Run.ofOption, hstack]
  dsimp only [Option.map_some]
  rw [Run.bind_apply, show lowConfig.stackSize.toNat = 1 from rfl, h.run]
  rfl

end

end LlmOs.BootConfig
