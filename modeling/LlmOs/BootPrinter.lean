import LlmOs.PagedText

set_option autoImplicit false

/-!
# How the bootloader prints

The two printers of `bootloader/src/printer`, which show what a panic of the
bootloader reports. Both write through a raw pointer, without a bound: the memory
behind `VGA_BUFFER` is a function of the offset, and so is what lies behind the
screen.
-/
namespace LlmOs.BootPrinter
open PagedText

abbrev Vram := ℕ → UInt8

def fill (n : ℕ) (v : Vram) : Vram :=
  (List.range n).foldl (fun v i => Function.update v i 0) v

theorem fill_eq (n : ℕ) (v : Vram) (i : ℕ) : fill n v i = if i < n then 0 else v i := by
  have hstep : ∀ (v : Vram) (j k : ℕ), Function.update v j 0 k = if k = j then 0 else v k :=
    fun v j k => Function.update_apply v j 0 k
  rw [fill, foldl_fill hstep]
  simp

namespace VgaText80x25

def SCREEN_SIZE : ℕ := 80 * 25

structure Printer where
  currentOffset : ℕ
  vram : Vram

namespace Printer

def clearScreen (p : Printer) : Printer := ⟨0, fill SCREEN_SIZE p.vram⟩

theorem vram_clearScreen (p : Printer) (i : ℕ) :
    p.clearScreen.vram i = if i < 2000 then 0 else p.vram i := by
  dsimp only [clearScreen]
  rw [fill_eq, SCREEN_SIZE]

def writeByte (p : Printer) (byte : UInt8) : Printer :=
  ⟨p.currentOffset + 2,
    Function.update (Function.update p.vram p.currentOffset byte) (p.currentOffset + 1) 0x4f⟩

def writeStr (p : Printer) (bytes : List UInt8) : Printer := bytes.foldl writeByte p

def writeStrs (p : Printer) (pieces : List (List UInt8)) : Printer := pieces.foldl writeStr p

theorem writeStrs_eq (p : Printer) (pieces : List (List UInt8)) :
    p.writeStrs pieces = p.writeStr pieces.flatten := by
  rw [writeStrs, writeStr, List.foldl_flatten]
  rfl

end Printer

/-- A cell is two bytes, the character and its colours. -/
def messageByte (message : List UInt8) (i : ℕ) : Option UInt8 :=
  if i % 2 = 0 then message[i / 2]? else message[i / 2]?.map (fun _ => 0x4f)

theorem messageByte_concat (message : List UInt8) (byte : UInt8) (i : ℕ) :
    messageByte (message ++ [byte]) i =
      if i = 2 * message.length + 1 then some 0x4f
      else if i = 2 * message.length then some byte
      else messageByte message i := by
  unfold messageByte
  rcases Nat.lt_trichotomy (i / 2) message.length with hlt | heq | hgt
  · rw [List.getElem?_append_left hlt, if_neg (show ¬ i = 2 * message.length + 1 by omega),
      if_neg (show ¬ i = 2 * message.length by omega)]
  · rw [heq, List.getElem?_concat_length, List.getElem?_eq_none le_rfl]
    rcases Nat.mod_two_eq_zero_or_one i with hmod | hmod
    · rw [if_pos hmod, if_neg (by omega), if_pos (by omega)]
    · rw [if_neg (by omega), if_pos (by omega)]
      rfl
  · rw [List.getElem?_eq_none (by simp; omega), List.getElem?_eq_none (by omega),
      if_neg (show ¬ i = 2 * message.length + 1 by omega),
      if_neg (show ¬ i = 2 * message.length by omega)]

theorem messageByte_of_le {message : List UInt8} {i : ℕ} (h : message.length ≤ i / 2) :
    messageByte message i = none := by
  rw [messageByte, List.getElem?_eq_none h]
  split_ifs <;> rfl

theorem messageByte_isSome {message : List UInt8} {i : ℕ} (h : i / 2 < message.length) :
    messageByte message i = some (if i % 2 = 0 then message[i / 2] else 0x4f) := by
  rw [messageByte, List.getElem?_eq_getElem h]
  split_ifs <;> rfl

/-- What is in memory once a message was printed on a cleared screen. -/
theorem vram_writeStr (p : Printer) (message : List UInt8) :
    (p.clearScreen.writeStr message).currentOffset = 2 * message.length ∧
      ∀ i, (p.clearScreen.writeStr message).vram i =
        (messageByte message i).getD (if i < 2000 then 0 else p.vram i) := by
  induction message using List.reverseRecOn with
  | nil =>
    refine ⟨rfl, fun i => ?_⟩
    rw [messageByte_of_le (Nat.zero_le _), Option.getD_none]
    change p.clearScreen.vram i = _
    rw [Printer.vram_clearScreen]
  | append_singleton message byte ih =>
    obtain ⟨hoffset, hvram⟩ := ih
    rw [Printer.writeStr, List.foldl_concat]
    change (Printer.writeByte (p.clearScreen.writeStr message) byte).currentOffset = _ ∧
      ∀ i, (Printer.writeByte (p.clearScreen.writeStr message) byte).vram i = _
    refine ⟨?_, fun i => ?_⟩
    · rw [Printer.writeByte, hoffset, List.length_append, List.length_singleton]
      rfl
    · rw [Printer.writeByte, hoffset, messageByte_concat]
      simp only [Function.update_apply, hvram]
      by_cases hodd : i = 2 * message.length + 1
      · rw [if_pos hodd, if_pos hodd]
        rfl
      · rw [if_neg hodd, if_neg hodd]
        by_cases heven : i = 2 * message.length
        · rw [if_pos heven, if_pos heven]
          rfl
        · rw [if_neg heven, if_neg heven]

/-- For a message in any pieces on a cleared screen: nothing but the message is on
the 80 by 25 cells, whatever was there, if and only if it has at least 2000 bytes,
and it stays on the screen if and only if it has at most 2000. The loop of
`clear_screen` counts bytes where `SCREEN_SIZE` counts cells. -/
theorem message_alone_iff (pieces : List (List UInt8)) :
    ((∀ p : Printer, ∀ i < 4000, (p.clearScreen.writeStrs pieces).vram i =
        (messageByte pieces.flatten i).getD 0) ↔ 2000 ≤ pieces.flatten.length) ∧
      ((∀ p : Printer, ∀ i, 4000 ≤ i → (p.clearScreen.writeStrs pieces).vram i = p.vram i) ↔
        pieces.flatten.length ≤ 2000) := by
  simp only [Printer.writeStrs_eq, (vram_writeStr _ _).2]
  generalize pieces.flatten = message
  refine ⟨⟨fun h => ?_, fun hlen p i hi => ?_⟩, ⟨fun h => ?_, fun hlen p i hi => ?_⟩⟩
  · -- the last cell keeps what was there
    by_contra hlen
    have hcell := h ⟨0, fun _ => 1⟩ 3999 (by decide)
    rw [messageByte_of_le (show message.length ≤ 3999 / 2 by omega)] at hcell
    simp at hcell
  · rw [messageByte_isSome (show i / 2 < message.length by omega)]
    rfl
  · -- the first cell behind the screen gets its colours
    by_contra hlen
    have hcell := h ⟨0, fun _ => 1⟩ 4001 (by decide)
    rw [messageByte_isSome (show 4001 / 2 < message.length by omega)] at hcell
    simp at hcell
  · rw [messageByte_of_le (show message.length ≤ i / 2 by omega), Option.getD_none,
      if_neg (by omega)]

end VgaText80x25

namespace Vga320x200

def SCREEN_WIDTH : ℕ := 320
def SCREEN_HEIGHT : ℕ := 200

/-- `font8x8::BASIC_FONTS`, which has every ASCII character: eight rows of bits. -/
abbrev Font := Char → ℕ → UInt8

structure Printer where
  xPos : ℕ
  yPos : ℕ
  vram : Vram

def ink (font : Font) (c : Char) (y x : ℕ) : Prop := font c y &&& (1 <<< UInt8.ofNat x) ≠ 0

instance (font : Font) (c : Char) (y x : ℕ) : Decidable (ink font c y x) :=
  inferInstanceAs (Decidable (_ ≠ _))

def draw (font : Font) (c : Char) (xPos yPos : ℕ) (v : Vram) : Vram :=
  (List.range 8).foldl (fun v y => (List.range 8).foldl (fun v x =>
    if ink font c y x then Function.update v ((yPos + y) * SCREEN_WIDTH + xPos + x) 0xf else v) v) v

/-- `' '..='~'`. -/
def printable (c : Char) : Prop := 0x20 ≤ c.toNat ∧ c.toNat ≤ 0x7e

instance (c : Char) : Decidable (printable c) := inferInstanceAs (Decidable (_ ∧ _))

namespace Printer

def clearScreen (p : Printer) : Printer := ⟨0, 0, fill (SCREEN_WIDTH * SCREEN_HEIGHT) p.vram⟩

theorem vram_clearScreen (p : Printer) (i : ℕ) :
    p.clearScreen.vram i = if i < 64000 then 0 else p.vram i := by
  dsimp only [clearScreen]
  rw [fill_eq, SCREEN_WIDTH, SCREEN_HEIGHT]

def newline (p : Printer) : Printer :=
  let yPos := p.yPos
  let p := { p with yPos := yPos + 8, xPos := 0 }
  if yPos ≥ SCREEN_HEIGHT then p.clearScreen else p

/-- No result stands for the panic on an unprintable character. -/
def writeChar (font : Font) (p : Printer) (c : Char) : Option Printer :=
  if c = '\n' then some p.newline
  else
    let xPos := p.xPos
    let p := { p with xPos := xPos + 8 }
    if printable c then
      let p := { p with vram := draw font c xPos p.yPos p.vram }
      some (if xPos + 8 ≥ SCREEN_WIDTH then p.newline else p)
    else none

def writeStr (font : Font) (p : Printer) (text : List Char) : Option Printer :=
  text.foldlM (writeChar font) p

end Printer

/-- The pixel of an offset on the screen, as row and column of the character it
belongs to. -/
theorem draw_eq (font : Font) (c : Char) {col : ℕ} (hcol : col < 40) (row : ℕ) (v : Vram) (i : ℕ) :
    draw font c (8 * col) (8 * row) v i =
      if i / 320 / 8 = row ∧ i % 320 / 8 = col ∧ ink font c (i / 320 % 8) (i % 320 % 8) then 0xf
      else v i := by
  have hx : ∀ (y : ℕ) (v : Vram) (x k : ℕ),
      (if ink font c y x then
        Function.update v ((8 * row + y) * SCREEN_WIDTH + 8 * col + x) 0xf else v) k =
      if ink font c y x ∧ k = (8 * row + y) * 320 + 8 * col + x then 0xf else v k := by
    intro y v x k
    by_cases hink : ink font c y x
    · simp only [hink, if_true, true_and, Function.update_apply]
      rfl
    · simp [hink]
  have hy := fun (v : Vram) (y k : ℕ) => foldl_fill (hx y) (List.range 8) v k
  rw [draw, foldl_fill hy]
  congr 1
  simp only [List.mem_range, eq_iff_iff]
  constructor
  · rintro ⟨y, hy, x, hx, hink, rfl⟩
    have hrow : ((8 * row + y) * 320 + 8 * col + x) / 320 = 8 * row + y := by omega
    have hmod : ((8 * row + y) * 320 + 8 * col + x) % 320 = 8 * col + x := by omega
    rw [hrow, hmod, show (8 * row + y) % 8 = y by omega, show (8 * col + x) % 8 = x by omega]
    exact ⟨by omega, by omega, hink⟩
  · rintro ⟨hrow, hcol, hink⟩
    exact ⟨_, Nat.mod_lt _ (by decide), _, Nat.mod_lt _ (by decide), hink, by omega⟩

def lit (font : Font) (cell : Option Char) (i : ℕ) : Prop :=
  ∃ c, cell = some c ∧ ink font c (i / 320 % 8) (i % 320 % 8)

/-- The offset belongs to a character of a row that ran off the screen. -/
def Spilled (font : Font) (r : Rows Char) (i : ℕ) : Prop :=
  i < 208 * 320 ∧ ∃ row, row % 26 = 25 ∧ lit font (r.cell row (i % 320 / 8)) i

/-- The printer has shown these rows since the screen was cleared, on pages of 26
rows of which the last is below the screen. -/
structure Shows (font : Font) (v : Vram) (p : Printer) (r : Rows Char) : Prop where
  column : p.xPos = 8 * r.last.length
  line : p.yPos = 8 * (r.ended.length % 26)
  on : ∀ i < 64000, (lit font (r.pageCell 26 (i / 320 / 8) (i % 320 / 8)) i → p.vram i = 0xf) ∧
    (¬ lit font (r.pageCell 26 (i / 320 / 8) (i % 320 / 8)) i → p.vram i = 0)
  off : ∀ i, 64000 ≤ i → (Spilled font r i → p.vram i = 0xf) ∧
    (¬ Spilled font r i → p.vram i = v i)

theorem not_lit_none (font : Font) (i : ℕ) : ¬ lit font none i := by
  rintro ⟨c, hc, _⟩
  cases hc

theorem Shows.start (font : Font) (p : Printer) : Shows font p.vram p.clearScreen ⟨[], []⟩ := by
  have hempty : ∀ row col, Rows.cell (⟨[], []⟩ : Rows Char) row col = none := by
    intro row col
    cases row <;> rfl
  refine ⟨rfl, rfl, fun i hi => ?_, fun i hi => ?_⟩
  · rw [Printer.vram_clearScreen, if_pos hi, Rows.pageCell, hempty]
    exact ⟨fun h => absurd h (not_lit_none font i), fun _ => rfl⟩
  · rw [Printer.vram_clearScreen, if_neg (by omega)]
    refine ⟨?_, fun _ => rfl⟩
    rintro ⟨_, row, _, h⟩
    rw [hempty] at h
    exact absurd h (not_lit_none font i)

theorem spilled_end (font : Font) (r : Rows Char) (i : ℕ) :
    Spilled font ⟨r.ended ++ [r.last], []⟩ i ↔ Spilled font r i := by
  simp only [Spilled, Rows.cell_end]

theorem Shows.newline {font : Font} {v : Vram} {p : Printer} {r : Rows Char}
    (h : Shows font v p r) : Shows font v p.newline ⟨r.ended ++ [r.last], []⟩ := by
  obtain ⟨hcolumn, hline, hon, hoff⟩ := h
  have hlength : (r.ended ++ [r.last]).length = r.ended.length + 1 := by simp
  by_cases hfull : p.yPos ≥ 200
  · -- the 26th row ends, and a new page starts
    have hnew : p.newline = (Printer.mk 0 (p.yPos + 8) p.vram).clearScreen := if_pos hfull
    have hpage : (r.ended.length + 1) / 26 * 26 = r.ended.length + 1 := by omega
    rw [hnew]
    refine ⟨rfl, ?_, fun i hi => ?_, fun i hi => ?_⟩
    · dsimp only [Printer.clearScreen]
      omega
    · rw [Printer.vram_clearScreen, if_pos hi, Rows.pageCell, hlength, hpage, Rows.cell_end,
        r.cell_below (by omega)]
      exact ⟨fun h => absurd h (not_lit_none font i), fun _ => rfl⟩
    · rw [Printer.vram_clearScreen, if_neg (by omega), spilled_end]
      exact hoff i hi
  · have hnew : p.newline = ⟨0, p.yPos + 8, p.vram⟩ := if_neg hfull
    have hpage : (r.ended.length + 1) / 26 = r.ended.length / 26 := by omega
    rw [hnew]
    refine ⟨rfl, ?_, fun i hi => ?_, fun i hi => ?_⟩
    · dsimp only
      omega
    · rw [Rows.pageCell, hlength, hpage, Rows.cell_end]
      exact hon i hi
    · rw [spilled_end]
      exact hoff i hi

theorem lit_some (font : Font) (c : Char) (i : ℕ) :
    lit font (some c) i ↔ ink font c (i / 320 % 8) (i % 320 % 8) := by
  simp [lit]

theorem spilled_append (font : Font) (r : Rows Char) (c : Char) (i : ℕ) :
    Spilled font ⟨r.ended, r.last ++ [c]⟩ i ↔ Spilled font r i ∨
      (i < 208 * 320 ∧ r.ended.length % 26 = 25 ∧ i % 320 / 8 = r.last.length ∧
        ink font c (i / 320 % 8) (i % 320 % 8)) := by
  simp only [Spilled, Rows.cell_append]
  constructor
  · rintro ⟨hi, row, hrow, hlit⟩
    split_ifs at hlit with hcursor
    · obtain ⟨rfl, hcol⟩ := hcursor
      exact .inr ⟨hi, hrow, hcol, (lit_some font c i).1 hlit⟩
    · exact .inl ⟨hi, row, hrow, hlit⟩
  · rintro (⟨hi, row, hrow, hlit⟩ | ⟨hi, hrow, hcol, hink⟩)
    · refine ⟨hi, row, hrow, ?_⟩
      rw [if_neg]
      · exact hlit
      · rintro ⟨rfl, hcol⟩
        rw [hcol, r.cell_cursor] at hlit
        exact not_lit_none font i hlit
    · refine ⟨hi, r.ended.length, hrow, ?_⟩
      rw [if_pos ⟨rfl, hcol⟩]
      exact (lit_some font c i).2 hink

theorem Shows.put {font : Font} {v : Vram} {p : Printer} {r : Rows Char}
    (h : Shows font v p r) (hfits : r.last.length < 40) (c : Char) :
    Shows font v ⟨p.xPos + 8, p.yPos, draw font c p.xPos p.yPos p.vram⟩
      ⟨r.ended, r.last ++ [c]⟩ := by
  obtain ⟨hcolumn, hline, hon, hoff⟩ := h
  have hdraw := draw_eq font c hfits (r.ended.length % 26) p.vram
  rw [hcolumn, hline]
  refine ⟨?_, rfl, fun i hi => ?_, fun i hi => ?_⟩
  · simp only [List.length_append, List.length_singleton]
    omega
  · have hcell : r.ended.length / 26 * 26 + i / 320 / 8 = r.ended.length ↔
        i / 320 / 8 = r.ended.length % 26 := by omega
    simp only [hdraw, Rows.pageCell, Rows.cell_append, hcell]
    by_cases hcursor : i / 320 / 8 = r.ended.length % 26 ∧ i % 320 / 8 = r.last.length
    · rw [if_pos hcursor, lit_some]
      by_cases hink : ink font c (i / 320 % 8) (i % 320 % 8)
      · rw [if_pos ⟨hcursor.1, hcursor.2, hink⟩]
        exact ⟨fun _ => rfl, fun hn => absurd hink hn⟩
      · rw [if_neg (fun h => hink h.2.2)]
        refine ⟨fun hn => absurd hn hink, fun _ => (hon i hi).2 ?_⟩
        rw [Rows.pageCell, hcell.2 hcursor.1, hcursor.2, r.cell_cursor]
        exact not_lit_none font i
    · rw [if_neg hcursor, if_neg (fun h => hcursor ⟨h.1, h.2.1⟩)]
      exact hon i hi
  · have hrow : i < 208 * 320 ∧ r.ended.length % 26 = 25 ↔ i / 320 / 8 = r.ended.length % 26 := by
      omega
    simp only [hdraw, spilled_append]
    by_cases hdrawn : i / 320 / 8 = r.ended.length % 26 ∧ i % 320 / 8 = r.last.length ∧
        ink font c (i / 320 % 8) (i % 320 % 8)
    · rw [if_pos hdrawn]
      obtain ⟨hi', hlast⟩ := hrow.2 hdrawn.1
      exact ⟨fun _ => rfl, fun hn => absurd (.inr ⟨hi', hlast, hdrawn.2⟩) hn⟩
    · rw [if_neg hdrawn]
      refine ⟨?_, fun hn => (hoff i hi).2 (fun hs => hn (.inl hs))⟩
      rintro (hs | ⟨hi', hlast, hcol, hink⟩)
      · exact (hoff i hi).1 hs
      · exact absurd ⟨hrow.1 ⟨hi', hlast⟩, hcol, hink⟩ hdrawn

theorem Shows.writeChar {font : Font} {v : Vram} {p : Printer} {r : Rows Char}
    (h : Shows font v p r) (hfits : r.last.length < 40) {c : Char} (hc : c = '\n' ∨ printable c) :
    ∃ p', p.writeChar font c = some p' ∧
      Shows font v p' (r.put 40 (fun c => decide (c = '\n')) c) := by
  unfold Printer.writeChar Rows.put
  by_cases hbreak : c = '\n'
  · rw [if_pos hbreak, if_pos (decide_eq_true hbreak)]
    exact ⟨_, rfl, h.newline⟩
  · have hprintable : printable c := hc.resolve_left hbreak
    have hput := h.put hfits c
    have hcolumn := h.column
    rw [if_neg hbreak, if_neg (show ¬ decide (c = '\n') = true by simp [hbreak])]
    dsimp only
    rw [if_pos hprintable]
    refine ⟨_, rfl, ?_⟩
    by_cases hfull : 40 ≤ r.last.length + 1
    · rw [if_pos (show p.xPos + 8 ≥ SCREEN_WIDTH by rw [SCREEN_WIDTH]; omega), if_pos hfull]
      exact hput.newline
    · rw [if_neg (show ¬ p.xPos + 8 ≥ SCREEN_WIDTH by rw [SCREEN_WIDTH]; omega), if_neg hfull]
      exact hput

def shownRows (text : List Char) : Rows Char := rows 40 (fun c => decide (c = '\n')) text

theorem shows_writeStr (font : Font) (p : Printer) {text : List Char}
    (htext : ∀ c ∈ text, c = '\n' ∨ printable c) :
    ∃ p', p.clearScreen.writeStr font text = some p' ∧ Shows font p.vram p' (shownRows text) := by
  induction text using List.reverseRecOn with
  | nil => exact ⟨_, rfl, .start font p⟩
  | append_singleton text c ih =>
    obtain ⟨p', hrun, hshows⟩ := ih (fun c hc => htext c (List.mem_append_left _ hc))
    obtain ⟨p'', hchar, hshows'⟩ := hshows.writeChar (length_last_rows (by decide) text)
      (htext c (by simp))
    refine ⟨p'', ?_, by rwa [shownRows, rows_concat]⟩
    rw [Printer.writeStr, List.foldlM_append]
    change (p.clearScreen.writeStr font text).bind _ = _
    rw [hrun]
    simp [hchar]

/-- Whatever was on the screen, after a message of printable characters and line
breaks a pixel of the screen is lit if and only if it belongs to a character of the
current page, and the cursor is behind the last one. A page has 26 rows, and the
screen shows 25 of them. -/
theorem page_shown (font : Font) (p : Printer) {text : List Char}
    (htext : ∀ c ∈ text, c = '\n' ∨ printable c) :
    ∃ p', p.clearScreen.writeStr font text = some p' ∧
      p'.xPos = 8 * (shownRows text).last.length ∧ p'.xPos < 320 ∧
      p'.yPos = 8 * ((shownRows text).ended.length % 26) ∧ p'.yPos ≤ 200 ∧
      ∀ x < 320, ∀ y < 200,
        (p'.vram (y * 320 + x) = 0xf ∨ p'.vram (y * 320 + x) = 0) ∧
        (p'.vram (y * 320 + x) = 0xf ↔
          ∃ c, (shownRows text).pageCell 26 (y / 8) (x / 8) = some c ∧
            ink font c (y % 8) (x % 8)) := by
  obtain ⟨p', hrun, hcolumn, hline, hon, _⟩ := shows_writeStr font p htext
  have hlast : (shownRows text).last.length < 40 := length_last_rows (by decide) text
  refine ⟨p', hrun, hcolumn, by omega, hline, by omega, fun x hx y hy => ?_⟩
  have hpixel := hon (y * 320 + x) (by omega)
  rw [show (y * 320 + x) / 320 = y by omega, show (y * 320 + x) % 320 = x by omega] at hpixel
  unfold lit at hpixel
  rw [show (y * 320 + x) / 320 = y by omega, show (y * 320 + x) % 320 = x by omega] at hpixel
  by_cases hlit : ∃ c, (shownRows text).pageCell 26 (y / 8) (x / 8) = some c ∧
      ink font c (y % 8) (x % 8)
  · exact ⟨.inl (hpixel.1 hlit), iff_of_true (hpixel.1 hlit) hlit⟩
  · have hdark := hpixel.2 hlit
    exact ⟨.inr hdark, iff_of_false (by rw [hdark]; decide) hlit⟩

/-- The rows of the letter in the font. -/
def letterA : Font := fun c y =>
  if c = 'A' then [0x0c, 0x1e, 0x33, 0x33, 0x3f, 0x33, 0x33, 0x00].getD y 0 else 0

theorem printable_of_all {text : List Char}
    (h : text.all (fun c => decide (c = '\n' ∨ printable c)) = true) :
    ∀ c ∈ text, c = '\n' ∨ printable c :=
  fun c hc => of_decide_eq_true (List.all_eq_true.1 h c hc)

theorem page_shown_letter :
    ∃ p', (Printer.mk 1 1 (fun _ => 7)).clearScreen.writeStr letterA "A\nA".toList = some p' ∧
      p'.xPos = 8 ∧ p'.yPos = 8 ∧ p'.vram (0 * 320 + 2) = 0xf ∧ p'.vram (8 * 320 + 0) = 0 := by
  obtain ⟨p', hrun, hcolumn, _, hline, _, hpixel⟩ :=
    page_shown letterA ⟨1, 1, fun _ => 7⟩ (printable_of_all (show "A\nA".toList.all _ = true by decide))
  have hlit := hpixel 2 (by decide) 0 (by decide)
  have hdark := hpixel 0 (by decide) 8 (by decide)
  refine ⟨p', hrun, hcolumn, hline, hlit.2.2 ⟨'A', by decide, by decide⟩, ?_⟩
  refine hdark.1.resolve_left (fun h => ?_)
  obtain ⟨c, hc, hink⟩ := hdark.2.1 h
  obtain rfl : 'A' = c := Option.some.inj hc
  exact absurd hink (by decide)

/-- Every pixel that a message writes is on the screen if and only if the message
has no ink in a row whose number is 25 modulo 26. -/
theorem stays_on_screen_iff (font : Font) {text : List Char}
    (htext : ∀ c ∈ text, c = '\n' ∨ printable c) :
    (∀ p : Printer, ∃ p', p.clearScreen.writeStr font text = some p' ∧
      ∀ i, 64000 ≤ i → p'.vram i = p.vram i) ↔
    ∀ row, row % 26 = 25 → ∀ col c, (shownRows text).cell row col = some c →
      ∀ y < 8, ∀ x < 8, ¬ ink font c y x := by
  constructor
  · intro h row hrow col c hcell y hy x hx hink
    have hcol : col < 40 := cell_rows_lt (by decide) hcell
    -- the pixel is below the screen, where a one was before
    obtain ⟨p', hrun, hsame⟩ := h ⟨0, 0, fun _ => 1⟩
    obtain ⟨p'', hrun', hshows⟩ := shows_writeStr font ⟨0, 0, fun _ => 1⟩ htext
    obtain rfl : p' = p'' := Option.some.inj (hrun.symm.trans hrun')
    have hspilled : Spilled font (shownRows text) ((200 + y) * 320 + 8 * col + x) := by
      refine ⟨by omega, row, hrow, c, ?_, ?_⟩
      · rwa [show ((200 + y) * 320 + 8 * col + x) % 320 / 8 = col by omega]
      · rwa [show ((200 + y) * 320 + 8 * col + x) / 320 % 8 = y by omega,
          show ((200 + y) * 320 + 8 * col + x) % 320 % 8 = x by omega]
    have hlit := (hshows.off _ (by omega)).1 hspilled
    rw [hsame _ (by omega)] at hlit
    have hone : (1 : UInt8) = 0xf := hlit
    exact absurd hone (by decide)
  · intro h p
    obtain ⟨p', hrun, hshows⟩ := shows_writeStr font p htext
    refine ⟨p', hrun, fun i hi => (hshows.off i hi).2 ?_⟩
    rintro ⟨_, row, hrow, c, hcell, hink⟩
    exact h row hrow _ c hcell _ (Nat.mod_lt _ (by decide)) _ (Nat.mod_lt _ (by decide)) hink

/-- The 26th line of a message. -/
theorem leaves_screen_line_26 :
    ¬ ∀ p : Printer, ∃ p',
      p.clearScreen.writeStr letterA (List.replicate 25 '\n' ++ ['A']) = some p' ∧
        ∀ i, 64000 ≤ i → p'.vram i = p.vram i := by
  intro h
  have htext : ∀ c ∈ List.replicate 25 '\n' ++ ['A'], c = '\n' ∨ printable c :=
    printable_of_all (by decide)
  have hblank := (stays_on_screen_iff letterA htext).1 h
  exact hblank 25 (by decide) 0 'A' (by decide) 0 (by decide) 2 (by decide) (by decide)

end Vga320x200

end LlmOs.BootPrinter
