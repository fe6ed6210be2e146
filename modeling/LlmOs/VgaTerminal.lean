import LlmOs.VgaBuffer

set_option autoImplicit false

/-!
# The writer as a wrapping, scrolling terminal

The screen after any sequence of writes, as a function of the text alone: its
rows go below the initial ones, and the screen is the end of that tape. Every
byte moves the writer along with the layout of the text.
-/
namespace LlmOs.Vga
open RustText WrappedText

def isBreak (byte : UInt8) : Bool := byte == 0x0a

/-- The terminal has ASCII from the blank to the tilde, and the line break; every
other byte is the block 254. -/
def glyph (byte : UInt8) : UInt8 :=
  if byte.toNat = 10 then byte
  else if 32 ≤ byte.toNat ∧ byte.toNat < 127 then byte
  else 254

def shownText (strings : List Str) : List UInt8 :=
  (strings.flatMap (fun s => s.flatMap String.utf8EncodeChar)).map glyph

namespace Writer

theorem shown_eq_glyph (byte : UInt8) : shown byte = glyph byte := by
  have hbreak : byte = 0x0a ↔ byte.toNat = 10 := by rw [← UInt8.toNat_inj]; rfl
  have hprintable : 0x20 ≤ byte ∧ byte ≤ 0x7e ↔ 32 ≤ byte.toNat ∧ byte.toNat < 127 := by
    rw [UInt8.le_iff_toNat_le, UInt8.le_iff_toNat_le, Nat.lt_succ_iff]
    rfl
  simp only [shown, glyph, hbreak, hprintable]
  split_ifs <;> tauto

def cells (w : Writer) (row : List UInt8) : List ScreenChar :=
  row.map (fun byte => ⟨byte, w.colorCode⟩)

def padded (w : Writer) (row : List UInt8) : List ScreenChar :=
  w.cells row ++ List.replicate (BUFFER_WIDTH - row.length) ⟨0x20, w.colorCode⟩

def bottomRow (w : Writer) : List ScreenChar := w.buffer.chars[BUFFER_HEIGHT - 1]?.getD []

/-- The first row goes over the bottom row that is there, the others are new. -/
def painted (w : Writer) : List (List UInt8) → List (List ScreenChar)
  | [] => []
  | first :: later => overlay (w.cells first) w.bottomRow :: later.map w.padded

def tape (w : Writer) (rows : List (List UInt8)) : List (List ScreenChar) :=
  w.buffer.chars.take (BUFFER_HEIGHT - 1) ++ w.painted rows

theorem padded_eq (w : Writer) (row : List UInt8) :
    w.padded row = overlay (w.cells row) w.blankRow := by
  rw [padded, overlay, blankRow, List.drop_replicate, cells, List.length_map]

theorem bottomRow_eq (w : Writer) (hlt : BUFFER_HEIGHT - 1 < w.buffer.chars.length) :
    w.bottomRow = w.buffer.chars[BUFFER_HEIGHT - 1] := by
  rw [bottomRow, List.getElem?_eq_getElem hlt]
  rfl

theorem length_bottomRow (w : Writer) : w.bottomRow.length = BUFFER_WIDTH := by
  rw [w.bottomRow_eq w.buffer.lt_length]
  exact w.buffer.width _ (List.getElem_mem _)

/-- The last row of the tape depends on the last row of the text only. -/
theorem tape_concat (w : Writer) (before : List (List UInt8)) :
    ∃ above base, base.length = BUFFER_WIDTH ∧
      ∀ row, w.tape (before ++ [row]) = above ++ [overlay (w.cells row) base] := by
  cases before with
  | nil => exact ⟨_, w.bottomRow, w.length_bottomRow, fun row => rfl⟩
  | cons first later =>
    refine ⟨w.tape (first :: later), w.blankRow, List.length_replicate, fun row => ?_⟩
    rw [tape, tape, List.append_assoc, List.cons_append, painted, painted, List.map_append,
      List.map_singleton, padded_eq, List.cons_append]

theorem tape_concat_empty (w : Writer) {rows : List (List UInt8)} (h : rows ≠ []) :
    w.tape (rows ++ [[]]) = w.tape rows ++ [w.blankRow] := by
  cases rows with
  | nil => exact absurd rfl h
  | cons first later =>
    rw [tape, tape, List.append_assoc, List.cons_append, painted, painted, List.map_append,
      List.map_singleton, padded_eq, List.cons_append]
    rfl

/-- The writer `v`, which was `w` at first, has shown these rows. -/
structure Shows (w v : Writer) (rows : List (List UInt8)) : Prop where
  color : v.colorCode = w.colorCode
  screen : v.buffer.chars = (w.tape rows).rtake BUFFER_HEIGHT
  column : some v.columnPosition = rows.getLast?.map List.length

end Writer

theorem drop_rtake {α : Type} {l : List α} {n : ℕ} (h : n < l.length) :
    (l.rtake (n + 1)).drop 1 = l.rtake n := by
  rw [List.rtake, List.rtake, List.drop_drop]
  congr 1
  omega

theorem modify_concat {α : Type} {l : List α} {n : ℕ} (h : l.length = n) (x : α) (f : α → α) :
    (l ++ [x]).modify n f = l ++ [f x] := by
  subst h
  induction l with
  | nil => rfl
  | cons y l ih =>
    rw [List.cons_append, List.length_cons, List.modify_succ_cons, ih, List.cons_append]

namespace Writer

theorem Shows.lt_length_tape {w v : Writer} {rows : List (List UInt8)} (h : Shows w v rows) :
    BUFFER_HEIGHT - 1 < (w.tape rows).length := by
  have hheight := v.buffer.height
  rw [h.screen, List.rtake, List.length_drop] at hheight
  have hpos : 0 < BUFFER_HEIGHT := by decide
  omega

theorem Shows.column_eq {w v : Writer} {before : List (List UInt8)} {last : List UInt8}
    (h : Shows w v (before ++ [last])) : v.columnPosition = last.length := by
  have hcolumn := h.column
  rwa [List.getLast?_concat, Option.map_some, Option.some.injEq] at hcolumn

theorem Shows.newLine {w v : Writer} {rows : List (List UInt8)} (h : Shows w v rows)
    (hrows : rows ≠ []) : ∃ v', v.newLine = some v' ∧ Shows w v' (rows ++ [[]]) := by
  obtain ⟨b', hnew, hchars⟩ := v.newLine_eq
  have hblank : v.blankRow = w.blankRow := by rw [blankRow, blankRow, h.color]
  refine ⟨_, hnew, h.color, ?_, ?_⟩
  · dsimp only
    rw [hchars, hblank, h.screen, w.tape_concat_empty hrows]
    change ((w.tape rows).rtake (BUFFER_HEIGHT - 1 + 1)).drop 1 ++ _ = List.rtake _ (BUFFER_HEIGHT - 1 + 1)
    rw [drop_rtake h.lt_length_tape, List.rtake_concat_succ]
  · rw [List.getLast?_concat]
    rfl

theorem Shows.put {w v : Writer} {before : List (List UInt8)} {last : List UInt8}
    (h : Shows w v (before ++ [last])) (hlast : last.length < BUFFER_WIDTH) (byte : UInt8) :
    v.columnPosition = last.length ∧
      ∃ b', v.buffer.write (BUFFER_HEIGHT - 1) last.length ⟨byte, v.colorCode⟩ = some b' ∧
        Shows w { v with buffer := b', columnPosition := last.length + 1 }
          (before ++ [last ++ [byte]]) := by
  obtain ⟨above, base, hbase, htape⟩ := w.tape_concat before
  have hscreen := h.screen
  rw [htape] at hscreen
  change _ = List.rtake _ (BUFFER_HEIGHT - 1 + 1) at hscreen
  rw [List.rtake_concat_succ] at hscreen
  have habove : (above.rtake (BUFFER_HEIGHT - 1)).length = BUFFER_HEIGHT - 1 := by
    have hheight := v.buffer.height
    rw [hscreen, List.length_append, List.length_singleton] at hheight
    omega
  have hcells : (w.cells last).length = last.length := List.length_map _
  obtain ⟨b', hwrite, hchars⟩ := v.buffer.write_eq (show BUFFER_HEIGHT - 1 < BUFFER_HEIGHT by decide)
    hlast ⟨byte, v.colorCode⟩
  refine ⟨h.column_eq, b', hwrite, h.color, ?_, ?_⟩
  · have hset := set_overlay (show (w.cells last).length < base.length by omega)
      ⟨byte, v.colorCode⟩
    rw [hcells] at hset
    rw [htape]
    change _ = List.rtake _ (BUFFER_HEIGHT - 1 + 1)
    rw [List.rtake_concat_succ, hchars, hscreen, modify_concat habove, hset, h.color, cells, cells,
      List.map_append]
    rfl
  · rw [List.getLast?_concat]
    simp

/-- One byte moves the writer from the layout of the text to the layout of the
text with that byte. -/
theorem Shows.writeByte {w v : Writer} {text : List UInt8}
    (h : Shows w v (layout BUFFER_WIDTH isBreak text)) (byte : UInt8) :
    ∃ v', v.writeByte byte = some v' ∧ Shows w v' (layout BUFFER_WIDTH isBreak (text ++ [byte])) := by
  have hw : 0 < BUFFER_WIDTH := by decide
  obtain ⟨before, last, hrows, hlast, hnext⟩ := layout_concat hw isBreak text
  rw [hrows] at h
  by_cases hbreak : byte = 0x0a
  · rw [layout_concat_break hw text (by simp [isBreak, hbreak]), hrows, Writer.writeByte,
      if_pos hbreak]
    exact h.newLine (by simp)
  · rw [hnext byte (by simp [isBreak, hbreak]), Writer.writeByte, if_neg hbreak]
    by_cases hfit : last.length < BUFFER_WIDTH
    · rw [if_pos hfit]
      obtain ⟨hcolumn, b', hwrite, hshows⟩ := h.put hfit byte
      have hroom : ¬last.length ≥ BUFFER_WIDTH := by omega
      refine ⟨_, ?_, hshows⟩
      simp only [hcolumn, if_neg hroom, Option.bind_eq_bind, Option.bind_some, hwrite]
      rfl
    · rw [if_neg hfit]
      obtain ⟨v₁, hnew, hshows₁⟩ := h.newLine (by simp)
      have hcolumn := h.column_eq
      obtain ⟨hcolumn₁, b', hwrite, hshows⟩ := hshows₁.put hw byte
      refine ⟨_, ?_, by simpa using hshows⟩
      have hfull : v.columnPosition ≥ BUFFER_WIDTH := by omega
      simp only [if_pos hfull, hnew, Option.bind_eq_bind, Option.bind_some, hcolumn₁, hwrite]
      rfl

theorem Shows.column_le {w v : Writer} {text : List UInt8}
    (h : Shows w v (layout BUFFER_WIDTH isBreak text)) : v.columnPosition ≤ BUFFER_WIDTH := by
  have hw : 0 < BUFFER_WIDTH := by decide
  obtain ⟨before, last, hrows, hlast, _⟩ := layout_concat hw isBreak text
  rw [hrows] at h
  have hcolumn := h.column_eq
  omega

theorem shows_start {w : Writer} (hcol : w.columnPosition = 0) : Shows w w [[]] := by
  refine ⟨rfl, ?_, by rw [hcol]; rfl⟩
  have hheight := w.buffer.height
  have hlt := w.buffer.lt_length
  have htape : w.tape [[]] = w.buffer.chars := by
    rw [tape, painted, w.bottomRow_eq hlt]
    change w.buffer.chars.take (BUFFER_HEIGHT - 1) ++ [w.buffer.chars[BUFFER_HEIGHT - 1]] = _
    rw [List.take_append_getElem hlt]
    exact List.take_of_length_le hheight.le
  rw [htape, List.rtake, hheight, Nat.sub_self, List.drop_zero]

theorem shows_writeBytes {w : Writer} (hcol : w.columnPosition = 0) (bytes : List UInt8) :
    ∃ v, w.writeBytes bytes = some v ∧
      Shows w v (layout BUFFER_WIDTH isBreak (bytes.map glyph)) := by
  induction bytes using List.reverseRecOn with
  | nil =>
    refine ⟨w, rfl, ?_⟩
    rw [List.map_nil, layout_nil (by decide)]
    exact shows_start hcol
  | append_singleton bytes byte ih =>
    obtain ⟨v, hrun, hshows⟩ := ih
    obtain ⟨v', hbyte, hshows'⟩ := hshows.writeByte (shown byte)
    refine ⟨v', ?_, by rwa [List.map_append, List.map_singleton, ← shown_eq_glyph byte]⟩
    unfold writeBytes at hrun ⊢
    rw [List.foldlM_append, hrun]
    simp [hbyte]

theorem writeStrings_eq (w : Writer) (strings : List Str) :
    w.writeStrings strings =
      w.writeBytes (strings.flatMap (fun s => s.flatMap String.utf8EncodeChar)) := by
  induction strings generalizing w with
  | nil => rfl
  | cons s strings ih =>
    rw [List.flatMap_cons, writeBytes, List.foldlM_append]
    change (w.writeString s).bind _ = (w.writeString s).bind _
    congr 1
    funext v
    exact ih v

/-- Any strings, in any number of calls, from column 0 of any screen: no index is
out of range, not even between two bytes, and the screen is the last 25 rows of
the initial ones with the rows of the text below. -/
theorem writer_refines_terminal (w : Writer) (hcol : w.columnPosition = 0) (strings : List Str) :
    (∀ bytes, bytes <+: strings.flatMap (fun s => s.flatMap String.utf8EncodeChar) →
      ∃ v, w.writeBytes bytes = some v ∧ v.columnPosition ≤ 80) ∧
    ∃ v, w.writeStrings strings = some v ∧ v.columnPosition ≤ 80 ∧ v.colorCode = w.colorCode ∧
      v.buffer.chars = (w.buffer.chars.take 24 ++
        w.painted (layout 80 isBreak (shownText strings))).rtake 25 ∧
      some v.columnPosition = (layout 80 isBreak (shownText strings)).getLast?.map List.length := by
  refine ⟨fun bytes _ => ?_, ?_⟩
  · obtain ⟨v, hrun, hshows⟩ := shows_writeBytes hcol bytes
    exact ⟨v, hrun, hshows.column_le⟩
  · rw [writeStrings_eq]
    obtain ⟨v, hrun, hshows⟩ :=
      shows_writeBytes hcol (strings.flatMap (fun s => s.flatMap String.utf8EncodeChar))
    exact ⟨v, hrun, hshows.column_le, hshows.color, hshows.screen, hshows.column⟩

def fresh : Writer where
  columnPosition := 0
  colorCode := 0x0b
  buffer :=
    { chars := List.replicate 25 (List.replicate 80 ⟨0x20, 0x0b⟩)
      height := List.length_replicate
      width := fun row hrow => by rw [List.eq_of_mem_replicate hrow]; exact List.length_replicate }

theorem writer_refines_terminal_fresh :
    fresh.columnPosition = 0 ∧
      layout 80 isBreak (shownText ["hi\n".toList, "né".toList]) =
        [[0x68, 0x69], [0x6e, 0xfe, 0xfe]] ∧
      ∃ v, fresh.writeStrings ["hi\n".toList, "né".toList] = some v ∧ v.columnPosition = 3 ∧
        v.buffer.chars = (fresh.buffer.chars.take 24 ++
          fresh.painted [[0x68, 0x69], [0x6e, 0xfe, 0xfe]]).rtake 25 := by
  have hlayout : layout 80 isBreak (shownText ["hi\n".toList, "né".toList]) =
      [[0x68, 0x69], [0x6e, 0xfe, 0xfe]] := by decide
  obtain ⟨_, v, hrun, _, _, hscreen, hcolumn⟩ :=
    writer_refines_terminal fresh rfl ["hi\n".toList, "né".toList]
  rw [hlayout] at hscreen hcolumn
  exact ⟨rfl, hlayout, v, hrun, Option.some.inj hcolumn, hscreen⟩

end Writer

end LlmOs.Vga
