import LlmOs.RustText
import LlmOs.WrappedText

set_option autoImplicit false

/-!
# The VGA text writer

`vga_buffer.rs`. An index outside the buffer panics, so every operation on it
returns an `Option`; the loops are the folds of the source.
-/
namespace LlmOs.Vga
open RustText WrappedText

abbrev ColorCode := UInt8

structure ScreenChar where
  asciiCharacter : UInt8
  colorCode : ColorCode
  deriving DecidableEq, Repr

def BUFFER_HEIGHT : ℕ := 25
def BUFFER_WIDTH : ℕ := 80

/-- The screen, row by row from the top. -/
structure Buffer where
  chars : List (List ScreenChar)
  height : chars.length = BUFFER_HEIGHT
  width : ∀ row ∈ chars, row.length = BUFFER_WIDTH

def Buffer.read (b : Buffer) (row col : ℕ) : Option ScreenChar := do
  let cells ← b.chars[row]?
  cells[col]?

theorem length_of_mem_modify {rows : List (List ScreenChar)} {n row col : ℕ} (c : ScreenChar)
    (h : ∀ cells ∈ rows, cells.length = n) :
    ∀ cells ∈ rows.modify row (fun cells => cells.set col c), cells.length = n := by
  intro cells hmem
  obtain ⟨i, hi, rfl⟩ := List.getElem_of_mem hmem
  rw [List.length_modify] at hi
  rw [List.getElem_modify]
  split_ifs
  · rw [List.length_set]
    exact h _ (List.getElem_mem hi)
  · exact h _ (List.getElem_mem hi)

def Buffer.write (b : Buffer) (row col : ℕ) (c : ScreenChar) : Option Buffer :=
  if row < BUFFER_HEIGHT ∧ col < BUFFER_WIDTH then
    some { chars := b.chars.modify row (fun cells => cells.set col c)
           height := (List.length_modify _ _ _).trans b.height
           width := length_of_mem_modify c b.width }
  else none

structure Writer where
  columnPosition : ℕ
  colorCode : ColorCode
  buffer : Buffer

namespace Writer

def clearRow (w : Writer) (row : ℕ) : Option Writer := do
  let blank : ScreenChar := ⟨0x20, w.colorCode⟩
  let buffer ← (List.range BUFFER_WIDTH).foldlM (fun b col => b.write row col blank) w.buffer
  return { w with buffer := buffer }

def copyCell (row : ℕ) (b : Buffer) (col : ℕ) : Option Buffer := do
  let character ← b.read row col
  b.write (row - 1) col character

def newLine (w : Writer) : Option Writer := do
  let buffer ← (List.range' 1 (BUFFER_HEIGHT - 1)).foldlM
    (fun b row => (List.range BUFFER_WIDTH).foldlM (copyCell row) b) w.buffer
  let w ← clearRow { w with buffer := buffer } (BUFFER_HEIGHT - 1)
  return { w with columnPosition := 0 }

def writeByte (w : Writer) (byte : UInt8) : Option Writer :=
  if byte = 0x0a then w.newLine
  else do
    let w ← if w.columnPosition ≥ BUFFER_WIDTH then w.newLine else some w
    let row := BUFFER_HEIGHT - 1
    let col := w.columnPosition
    let buffer ← w.buffer.write row col ⟨byte, w.colorCode⟩
    return { w with buffer := buffer, columnPosition := w.columnPosition + 1 }

def shown (byte : UInt8) : UInt8 :=
  if (0x20 ≤ byte ∧ byte ≤ 0x7e) ∨ byte = 0x0a then byte else 0xfe

def writeBytes (w : Writer) (bytes : List UInt8) : Option Writer :=
  bytes.foldlM (fun w byte => w.writeByte (shown byte)) w

def writeString (w : Writer) (s : Str) : Option Writer := w.writeBytes (s.flatMap String.utf8EncodeChar)

def writeStrings (w : Writer) (strings : List Str) : Option Writer := strings.foldlM writeString w

end Writer

theorem Buffer.lt_length (b : Buffer) : BUFFER_HEIGHT - 1 < b.chars.length := by
  rw [b.height]
  decide

theorem Buffer.write_eq (b : Buffer) {row col : ℕ} (hrow : row < BUFFER_HEIGHT)
    (hcol : col < BUFFER_WIDTH) (c : ScreenChar) :
    ∃ b', b.write row col c = some b' ∧
      b'.chars = b.chars.modify row (fun cells => cells.set col c) :=
  ⟨_, if_pos ⟨hrow, hcol⟩, rfl⟩

theorem modify_set {α : Type} (l : List α) (i : ℕ) (v : α) (f : α → α) :
    (l.set i v).modify i f = l.set i (f v) := by
  apply List.ext_getElem?
  intro j
  rw [List.getElem?_modify, List.getElem?_set, List.getElem?_set]
  split_ifs <;> simp

/-- A loop that writes `cells` into a row from left to right, whatever it reads
in the other rows on the way. -/
theorem fill_row {step : Buffer → ℕ → Option Buffer} {b : Buffer} {row : ℕ}
    (hrow : row < BUFFER_HEIGHT) {cells : List ScreenChar} (hcells : cells.length = BUFFER_WIDTH)
    (hstep : ∀ (b' : Buffer) (v : List ScreenChar), b'.chars = b.chars.set row v →
      ∀ col (hcol : col < cells.length), step b' col = b'.write row col cells[col]) :
    ∃ b', (List.range BUFFER_WIDTH).foldlM step b = some b' ∧ b'.chars = b.chars.set row cells := by
  have hlt : row < b.chars.length := by rw [b.height]; exact hrow
  have hwidth : b.chars[row].length = BUFFER_WIDTH := b.width _ (List.getElem_mem hlt)
  have hloop : ∀ k ≤ BUFFER_WIDTH, ∃ b', (List.range k).foldlM step b = some b' ∧
      b'.chars = b.chars.set row (overlay (cells.take k) b.chars[row]) := by
    intro k hk
    induction k with
    | zero =>
      refine ⟨b, rfl, ?_⟩
      rw [List.take_zero, overlay_nil, List.set_getElem_self]
    | succ k ih =>
      obtain ⟨b', hfold, hchars⟩ := ih (by omega)
      have hk' : k < cells.length := by omega
      obtain ⟨b'', hwrite, hchars'⟩ := b'.write_eq hrow hk cells[k]
      refine ⟨b'', ?_, ?_⟩
      · rw [List.range_succ, List.foldlM_append, hfold]
        simp [hstep b' _ hchars k hk', hwrite]
      · rw [hchars', hchars, modify_set, set_overlay_take hk' (by omega)]
  obtain ⟨b', hfold, hchars⟩ := hloop BUFFER_WIDTH le_rfl
  refine ⟨b', hfold, ?_⟩
  rw [hchars, ← hcells, List.take_length, overlay_full (by omega)]

theorem copy_row (b : Buffer) {row : ℕ} (h : row + 1 < b.chars.length) :
    ∃ b', (List.range BUFFER_WIDTH).foldlM (Writer.copyCell (row + 1)) b = some b' ∧
      b'.chars = b.chars.set row b.chars[row + 1] := by
  have hheight := b.height
  have hwidth : b.chars[row + 1].length = BUFFER_WIDTH := b.width _ (List.getElem_mem h)
  apply fill_row (by omega) hwidth
  intro b' v hchars col hcol
  have hread : b'.read (row + 1) col = some b.chars[row + 1][col] := by
    simp [Buffer.read, hchars, h, hcol]
  rw [Writer.copyCell, hread]
  rfl

/-- The nested loop of `new_line`: every row but the first moves up by one, and
the bottom row is there twice. -/
theorem scroll (b : Buffer) :
    ∃ b', (List.range' 1 (BUFFER_HEIGHT - 1)).foldlM
        (fun b row => (List.range BUFFER_WIDTH).foldlM (Writer.copyCell row) b) b = some b' ∧
      b'.chars = overlay (b.chars.drop 1) b.chars := by
  have hheight := b.height
  have hloop : ∀ k ≤ BUFFER_HEIGHT - 1, ∃ b', (List.range' 1 k).foldlM
        (fun b row => (List.range BUFFER_WIDTH).foldlM (Writer.copyCell row) b) b = some b' ∧
      b'.chars = overlay ((b.chars.drop 1).take k) b.chars := by
    intro k hk
    induction k with
    | zero => exact ⟨b, rfl, rfl⟩
    | succ k ih =>
      obtain ⟨b', hfold, hchars⟩ := ih (by omega)
      have hlen : (b.chars.drop 1).length = b.chars.length - 1 := List.length_drop
      have hk' : k < (b.chars.drop 1).length := by omega
      obtain ⟨b'', hcopy, hchars'⟩ := copy_row b' (show k + 1 < b'.chars.length by
        rw [b'.height]; omega)
      refine ⟨b'', ?_, ?_⟩
      · rw [List.range'_1_concat, List.foldlM_append, hfold, Nat.add_comm 1 k]
        simp [hcopy]
      · have hbelow : b'.chars[k + 1]? = some (b.chars.drop 1)[k] := by
          rw [hchars, getElem?_overlay b.chars (by rw [List.length_take]; omega),
            ← List.getElem?_eq_getElem hk', List.getElem?_drop, Nat.add_comm 1 k]
        rw [hchars', (List.getElem?_eq_some_iff.1 hbelow).2, hchars,
          set_overlay_take hk' (by omega)]
  obtain ⟨b', hfold, hchars⟩ := hloop (BUFFER_HEIGHT - 1) le_rfl
  refine ⟨b', hfold, ?_⟩
  rw [hchars, List.take_of_length_le]
  rw [List.length_drop, hheight]

namespace Writer

def blankRow (w : Writer) : List ScreenChar := List.replicate BUFFER_WIDTH ⟨0x20, w.colorCode⟩

theorem clearRow_eq (w : Writer) {row : ℕ} (hrow : row < BUFFER_HEIGHT) :
    ∃ b', w.clearRow row = some { w with buffer := b' } ∧
      b'.chars = w.buffer.chars.set row w.blankRow := by
  have hcells : w.blankRow.length = BUFFER_WIDTH := List.length_replicate
  have hstep : ∀ (b' : Buffer) (v : List ScreenChar), b'.chars = w.buffer.chars.set row v →
      ∀ col (hcol : col < w.blankRow.length),
        b'.write row col ⟨0x20, w.colorCode⟩ = b'.write row col w.blankRow[col] := by
    intro b' v _ col hcol
    simp [blankRow]
  obtain ⟨b', hfold, hchars⟩ := fill_row hrow hcells hstep
  refine ⟨b', ?_, hchars⟩
  rw [clearRow, hfold]
  rfl

theorem newLine_eq (w : Writer) :
    ∃ b', w.newLine = some { w with buffer := b', columnPosition := 0 } ∧
      b'.chars = w.buffer.chars.drop 1 ++ [w.blankRow] := by
  obtain ⟨b₁, hscroll, hchars₁⟩ := scroll w.buffer
  obtain ⟨b₂, hclear, hchars₂⟩ :=
    clearRow_eq { w with buffer := b₁ } (show BUFFER_HEIGHT - 1 < BUFFER_HEIGHT by decide)
  have hlen : (w.buffer.chars.drop 1).length = BUFFER_HEIGHT - 1 := by
    rw [List.length_drop, w.buffer.height]
  refine ⟨b₂, ?_, ?_⟩
  · rw [newLine, hscroll]
    simp only [Option.bind_eq_bind, Option.bind_some, hclear]
    rfl
  · have hlt : (w.buffer.chars.drop 1).length < w.buffer.chars.length := by
      rw [hlen]
      exact w.buffer.lt_length
    have hset := set_overlay hlt w.blankRow
    rw [hlen] at hset
    rw [hchars₂]
    dsimp only
    rw [hchars₁]
    refine hset.trans (overlay_full ?_)
    rw [List.length_append, hlen, w.buffer.height]
    rfl

end Writer

end LlmOs.Vga
