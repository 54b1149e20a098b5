import Mathlib.Logic.Function.Basic
import Mathlib.Data.Nat.Bitwise

/-!
# The text screen of `drivers/screen.c`

The screen is 25 rows of 80 cells, a cursor, and the two cursor registers of the display controller.
Scrolling moves the rows up, so a cell has no fixed place in memory; the model counts the rows that have
left the screen, and a cell keeps its number in the text from the first row on.

The mirror of the output on the serial port is left out.
-/

namespace JacobOS.Vga

def vgaCols : Nat := 80
def vgaRows : Nat := 25

structure Screen where
  /-- The 16-bit cells from `VGA_MEMORY` on. -/
  vga : Nat → UInt16
  curColor : UInt8
  cursorRow : Nat
  cursorCol : Nat
  /-- Registers 14 and 15 of the display controller. -/
  cursorHigh : UInt8
  cursorLow : UInt8
  /-- How often the rows have moved up since the start.  The source does not keep this. -/
  scrolled : Nat

/-- `(u16)c` for the signed `char` `c`. -/
def charWord (c : UInt8) : UInt16 := if c < 0x80 then c.toUInt16 else c.toUInt16 ||| 0xFF00

def cell (color c : UInt8) : UInt16 := charWord c ||| (color.toUInt16 <<< 8)

def space : UInt8 := 0x20

def moveCursor (s : Screen) : Screen :=
  let pos := UInt16.ofNat (s.cursorRow * vgaCols + s.cursorCol)
  { s with cursorHigh := (pos >>> 8).toUInt8, cursorLow := (pos &&& 0xFF).toUInt8 }

/-- The loops that shift the rows up, over the first `n` cells. -/
def shiftCells (vga : Nat → UInt16) : Nat → Nat → UInt16
  | 0 => vga
  | n + 1 => Function.update (shiftCells vga n) n (shiftCells vga n (n + vgaCols))

/-- `n` cells from `start` on get `w`. -/
def fillCells (vga : Nat → UInt16) (start : Nat) (w : UInt16) : Nat → Nat → UInt16
  | 0 => vga
  | n + 1 => Function.update (fillCells vga start w n) (start + n) w

def scrollIfNeeded (s : Screen) : Screen :=
  if s.cursorRow < vgaRows then s else
    -- shift every row up by one, clear the last row
    { s with
      vga := fillCells (shiftCells s.vga ((vgaRows - 1) * vgaCols)) ((vgaRows - 1) * vgaCols)
        (cell s.curColor space) vgaCols
      cursorRow := vgaRows - 1
      scrolled := s.scrolled + 1 }

def setColor (s : Screen) (color : UInt8) : Screen := { s with curColor := color }

def clearScreen (s : Screen) : Screen :=
  moveCursor { s with
    vga := fillCells s.vga 0 (cell s.curColor space) (vgaCols * vgaRows)
    cursorRow := 0
    cursorCol := 0 }

/-- The first part of `kputc`: the character and the column it leaves the cursor in. -/
def place (s : Screen) (c : UInt8) : Screen :=
  if c = 0x0A then { s with cursorCol := 0, cursorRow := s.cursorRow + 1 }
  else if c = 0x0D then { s with cursorCol := 0 }
  else if c = 0x09 then { s with cursorCol := (s.cursorCol + 4) / 4 * 4 }
  else if c = 0x08 then
    if s.cursorCol > 0 then
      { s with
        cursorCol := s.cursorCol - 1
        vga := Function.update s.vga (s.cursorRow * vgaCols + (s.cursorCol - 1))
          (cell s.curColor space) }
    else s
  else
    { s with
      vga := Function.update s.vga (s.cursorRow * vgaCols + s.cursorCol) (cell s.curColor c)
      cursorCol := s.cursorCol + 1 }

/-- The rest of `kputc`. -/
def settle (s : Screen) : Screen :=
  let s := if s.cursorCol ≥ vgaCols then { s with cursorCol := 0, cursorRow := s.cursorRow + 1 } else s
  moveCursor (scrollIfNeeded s)

def kputc (s : Screen) (c : UInt8) : Screen := settle (place s c)

def kprint (s : Screen) : List UInt8 → Screen
  | [] => s
  | c :: cs => kprint (kputc s c) cs

/-! ## Cells -/

/-- The character that a cell shows. -/
def glyph (w : UInt16) : UInt8 := w.toUInt8

theorem glyph_cell (color c : UInt8) : glyph (cell color c) = c := by
  have hcolor : (color.toUInt16 <<< 8).toUInt8 = 0 := by
    apply UInt8.toNat_inj.mp
    rw [UInt16.toNat_toUInt8, UInt16.toNat_shiftLeft, UInt8.toNat_toUInt16, UInt8.toNat_zero]
    show (color.toNat <<< 8 % 2 ^ 16) % 2 ^ 8 = 0
    rw [Nat.shiftLeft_eq]
    omega
  have hchar : (charWord c).toUInt8 = c := by
    unfold charWord
    split
    · exact UInt8.toUInt8_toUInt16 c
    · rw [UInt16.toUInt8_or, UInt8.toUInt8_toUInt16]
      show c ||| 0 = c
      exact UInt8.or_zero
  unfold glyph cell
  rw [UInt16.toUInt8_or, hcolor, hchar, UInt8.or_zero]

theorem shiftCells_apply (vga : Nat → UInt16) (n i : Nat) :
    shiftCells vga n i = if i < n then vga (i + vgaCols) else vga i := by
  induction n generalizing i with
  | zero => rfl
  | succ n ih =>
    -- the cell that is copied is behind the ones written so far
    rw [shiftCells, Function.update_apply, ih, ih, if_neg (by omega : ¬ n + vgaCols < n)]
    by_cases hi : i = n
    · rw [if_pos hi, if_pos (by omega), hi]
    · rw [if_neg hi]
      by_cases hlt : i < n
      · rw [if_pos hlt, if_pos (by omega)]
      · rw [if_neg hlt, if_neg (by omega)]

theorem fillCells_apply (vga : Nat → UInt16) (start : Nat) (w : UInt16) (n i : Nat) :
    fillCells vga start w n i = if start ≤ i ∧ i < start + n then w else vga i := by
  induction n with
  | zero =>
    rw [fillCells, if_neg (by omega)]
  | succ n ih =>
    rw [fillCells, Function.update_apply, ih]
    by_cases hi : i = start + n
    · rw [if_pos hi, if_pos (by omega)]
    · rw [if_neg hi]
      by_cases hin : start ≤ i ∧ i < start + n
      · rw [if_pos hin, if_pos (by omega)]
      · rw [if_neg hin, if_neg (by omega)]

/-! ## The screen as a window on the text -/

namespace Screen

structure WF (s : Screen) : Prop where
  row : s.cursorRow < 25
  col : s.cursorCol < 80

/-- The cursor's place in the text, counted in cells from the first row on. -/
def abs (s : Screen) : Nat := 80 * s.scrolled + s.cursorRow * 80 + s.cursorCol

/-- The character shown at place `a` of the text, which must be on the screen. -/
def charAt (s : Screen) (a : Nat) : UInt8 := glyph (s.vga (a - 80 * s.scrolled))

/-- The place on the screen that the display controller shows the cursor at. -/
def hwCursor (s : Screen) : Nat := s.cursorHigh.toNat * 256 + s.cursorLow.toNat

/-- Nothing is shown from place `a` on. -/
def BlankFrom (s : Screen) (a : Nat) : Prop :=
  ∀ b, a ≤ b → 80 * s.scrolled ≤ b → b < 80 * s.scrolled + 2000 → s.charAt b = space

/-- The display controller shows the cursor where it is, and there is nothing behind it. -/
structure Ready (s : Screen) : Prop where
  wf : s.WF
  hw : s.hwCursor = s.cursorRow * 80 + s.cursorCol
  blank : s.BlankFrom s.abs

end Screen

theorem hwCursor_moveCursor {s : Screen} (h : s.WF) :
    (moveCursor s).hwCursor = s.cursorRow * 80 + s.cursorCol := by
  have hrow := h.row
  have hcol := h.col
  have hpos : (UInt16.ofNat (s.cursorRow * vgaCols + s.cursorCol)).toNat =
      s.cursorRow * 80 + s.cursorCol := by
    rw [UInt16.toNat_ofNat']
    show (s.cursorRow * 80 + s.cursorCol) % 2 ^ 16 = _
    omega
  have hhigh : (moveCursor s).cursorHigh.toNat = (s.cursorRow * 80 + s.cursorCol) / 256 := by
    show ((UInt16.ofNat (s.cursorRow * vgaCols + s.cursorCol)) >>> 8).toUInt8.toNat = _
    rw [UInt16.toNat_toUInt8, UInt16.toNat_shiftRight, hpos]
    show ((s.cursorRow * 80 + s.cursorCol) >>> 8) % 2 ^ 8 = _
    rw [Nat.shiftRight_eq_div_pow]
    omega
  have hlow : (moveCursor s).cursorLow.toNat = (s.cursorRow * 80 + s.cursorCol) % 256 := by
    show ((UInt16.ofNat (s.cursorRow * vgaCols + s.cursorCol)) &&& 0xFF).toUInt8.toNat = _
    rw [UInt16.toNat_toUInt8, UInt16.toNat_and, hpos]
    show ((s.cursorRow * 80 + s.cursorCol) &&& (2 ^ 8 - 1)) % 2 ^ 8 = _
    rw [Nat.and_two_pow_sub_one_eq_mod]
    omega
  unfold Screen.hwCursor
  rw [hhigh, hlow]
  omega

/-- `t` is `s` with the cursor back on the screen: what both show is the same. -/
structure Settled (s t : Screen) : Prop where
  wf : t.WF
  abs : t.abs = s.abs
  le : s.scrolled ≤ t.scrolled
  keep : ∀ a, 80 * t.scrolled ≤ a → a < 80 * s.scrolled + 2000 → t.charAt a = s.charAt a
  fresh : ∀ a, 80 * s.scrolled + 2000 ≤ a → a < 80 * t.scrolled + 2000 → t.charAt a = space
  hw : t.hwCursor = t.cursorRow * 80 + t.cursorCol
  row : t.scrolled = s.scrolled ∨ t.cursorRow = 24

theorem settled_moveCursor {s t : Screen} (h : t.WF) (habs : t.abs = s.abs) (hle : s.scrolled ≤ t.scrolled)
    (hrow : t.scrolled = s.scrolled ∨ t.cursorRow = 24)
    (hkeep : ∀ a, 80 * t.scrolled ≤ a → a < 80 * s.scrolled + 2000 → t.charAt a = s.charAt a)
    (hfresh : ∀ a, 80 * s.scrolled + 2000 ≤ a → a < 80 * t.scrolled + 2000 → t.charAt a = space) :
    Settled s (moveCursor t) :=
  ⟨⟨h.row, h.col⟩, habs, hle, hkeep, hfresh, hwCursor_moveCursor h, hrow⟩

theorem scrollIfNeeded_of_lt {s : Screen} (h : s.cursorRow < 25) : scrollIfNeeded s = s := if_pos h

-- A row has been added below the last one.
theorem settled_scroll {s t : Screen} (hrow : t.cursorRow = 25) (hcol : t.cursorCol < 80)
    (habs : t.abs = s.abs) (hvga : t.vga = s.vga) (hscr : t.scrolled = s.scrolled) :
    Settled s (moveCursor (scrollIfNeeded t)) := by
  have hneed : ¬ t.cursorRow < vgaRows := by
    rw [hrow]
    decide
  unfold scrollIfNeeded
  rw [if_neg hneed]
  have hcell : ∀ i, i < 2000 → fillCells (shiftCells t.vga ((vgaRows - 1) * vgaCols))
      ((vgaRows - 1) * vgaCols) (cell t.curColor space) vgaCols i =
        if i < 1920 then s.vga (i + 80) else cell t.curColor space := by
    intro i hi
    have h1920 : (vgaRows - 1) * vgaCols = 1920 := rfl
    have h80 : vgaCols = 80 := rfl
    rw [fillCells_apply, shiftCells_apply, h1920, h80, hvga]
    by_cases hlt : i < 1920
    · rw [if_neg (by omega), if_pos hlt, if_pos hlt]
    · rw [if_pos (by omega), if_neg hlt]
  have hrow' : vgaRows - 1 < 25 := by decide
  refine settled_moveCursor ⟨hrow', hcol⟩ ?_ (by dsimp only; omega) (Or.inr rfl) ?_ ?_
  · unfold Screen.abs at habs ⊢
    dsimp only
    rw [hrow] at habs
    have h24 : (vgaRows - 1) * 80 = 1920 := rfl
    omega
  · intro a hlo hhi
    dsimp only at hlo
    unfold Screen.charAt
    dsimp only
    rw [hcell _ (by omega), if_pos (by omega)]
    congr 2
    omega
  · intro a hlo hhi
    dsimp only at hhi
    unfold Screen.charAt
    dsimp only
    rw [hcell _ (by omega), if_neg (by omega), glyph_cell]

theorem settled_settle {s : Screen} (hcol : s.cursorCol ≤ 80)
    (hrow : s.cursorRow < 25 ∨ (s.cursorRow = 25 ∧ s.cursorCol < 80)) : Settled s (settle s) := by
  have hzero : 0 < 80 := by decide
  unfold settle
  dsimp only
  by_cases hwrap : s.cursorCol ≥ vgaCols
  · have h80 : s.cursorCol = 80 := Nat.le_antisymm hcol hwrap
    have hlt : s.cursorRow < 25 := by omega
    rw [if_pos hwrap]
    by_cases hlast : s.cursorRow = 24
    · refine settled_scroll (by dsimp only; omega) hzero ?_ rfl rfl
      unfold Screen.abs
      dsimp only
      omega
    · have hnext : s.cursorRow + 1 < 25 := by omega
      rw [scrollIfNeeded_of_lt hnext]
      refine settled_moveCursor ⟨hnext, hzero⟩ ?_ (Nat.le_refl _) (Or.inl rfl) (fun _ _ _ => rfl) ?_
      · unfold Screen.abs
        dsimp only
        omega
      · intro a hlo hhi
        dsimp only at hhi
        omega
  · have hlt : s.cursorCol < 80 := Nat.lt_of_not_le hwrap
    rw [if_neg hwrap]
    rcases hrow with hrow | ⟨hrow, -⟩
    · rw [scrollIfNeeded_of_lt hrow]
      refine settled_moveCursor ⟨hrow, hlt⟩ rfl (Nat.le_refl _) (Or.inl rfl) (fun _ _ _ => rfl) ?_
      intro a hlo hhi
      omega
    · exact settled_scroll hrow hlt rfl rfl rfl

/-! ## Printing -/

/-- What a character looks like at place `a`: a tab goes on to the next multiple of four columns. -/
def glyphs (a : Nat) (c : UInt8) : List UInt8 :=
  if c = 0x09 then List.replicate (4 - a % 4) space else [c]

theorem length_glyphs_pos (a : Nat) (c : UInt8) : 0 < (glyphs a c).length := by
  unfold glyphs
  split
  · rw [List.length_replicate]
    omega
  · exact Nat.one_pos

theorem length_glyphs_le (a : Nat) (c : UInt8) : (glyphs a c).length ≤ 4 := by
  unfold glyphs
  split
  · rw [List.length_replicate]
    omega
  · exact Nat.le_of_ble_eq_true rfl

/-- `text` has come on the screen where the cursor was. -/
structure Printed (s : Screen) (text : List UInt8) (t : Screen) : Prop where
  ready : t.Ready
  abs : t.abs = s.abs + text.length
  le : s.scrolled ≤ t.scrolled
  row : t.scrolled = s.scrolled ∨ t.cursorRow = 24
  before : ∀ a, 80 * t.scrolled ≤ a → a < s.abs → t.charAt a = s.charAt a
  text : ∀ j (hj : j < text.length), t.charAt (s.abs + j) = text[j]

theorem abs_lt {s : Screen} (h : s.WF) : s.abs < 80 * s.scrolled + 2000 := by
  have hrow := h.row
  have hcol := h.col
  unfold Screen.abs
  omega

theorem le_abs (s : Screen) : 80 * s.scrolled ≤ s.abs := by
  unfold Screen.abs
  omega

-- Printing is placing and settling.
theorem printed_of_settled {s p t : Screen} {text : List UInt8} (hs : s.WF) (hp : Settled p t)
    (hscr : p.scrolled = s.scrolled) (habs : p.abs = s.abs + text.length) (hlen : text.length ≤ 4)
    (hbefore : ∀ a, 80 * s.scrolled ≤ a → a < s.abs → p.charAt a = s.charAt a)
    (htext : ∀ j (hj : j < text.length), s.abs + j < 80 * s.scrolled + 2000 →
      p.charAt (s.abs + j) = text[j])
    (hin : s.abs + text.length ≤ 80 * s.scrolled + 2000)
    (hblank : p.BlankFrom (s.abs + text.length)) : Printed s text t := by
  have hlt := abs_lt hs
  have hle := le_abs s
  have htabs := hp.abs
  have hvis : 80 * t.scrolled ≤ s.abs := by
    rcases hp.row with heq | h24
    · rw [heq, hscr]
      exact hle
    · unfold Screen.abs at htabs
      unfold Screen.abs at habs
      unfold Screen.abs
      rw [h24] at htabs
      unfold Screen.abs at hlt hle
      omega
  have hscr' := hp.le
  have hready : t.BlankFrom t.abs := by
    intro b hb hlo hhi
    rw [htabs, habs] at hb
    by_cases hold : b < 80 * p.scrolled + 2000
    · rw [hp.keep b hlo hold]
      exact hblank b hb (by omega) hold
    · exact hp.fresh b (by omega) hhi
  refine ⟨⟨hp.wf, hp.hw, hready⟩, htabs.trans habs, hscr ▸ hp.le, hscr ▸ hp.row, ?_, ?_⟩
  · intro a hlo hhi
    rw [hp.keep a hlo (by omega)]
    exact hbefore a (by omega) hhi
  · intro j hj
    rw [hp.keep _ (by omega) (by omega)]
    exact htext j hj (by omega)

-- One cell is written, at place `p` of the text.
theorem glyph_update (s : Screen) (c : UInt8) {a p : Nat} (ha : 80 * s.scrolled ≤ a) (hp : 80 * s.scrolled ≤ p) :
    glyph (Function.update s.vga (p - 80 * s.scrolled) (cell s.curColor c) (a - 80 * s.scrolled)) =
      if a = p then c else s.charAt a := by
  rw [Function.update_apply]
  by_cases hsame : a = p
  · rw [if_pos (by rw [hsame]), if_pos hsame, glyph_cell]
  · rw [if_neg (by omega), if_neg hsame]
    rfl

-- A character that is shown as itself.
theorem printed_plain {s : Screen} (h : s.Ready) {c : UInt8} (hn : c ≠ 0x0A)
    (hr : c ≠ 0x0D) (ht : c ≠ 0x09) (hbs : c ≠ 0x08) : Printed s [c] (kputc s c) := by
  have hrow := h.wf.row
  have hcol := h.wf.col
  have hplace : place s c = { s with
      vga := Function.update s.vga (s.cursorRow * vgaCols + s.cursorCol) (cell s.curColor c)
      cursorCol := s.cursorCol + 1 } := by
    rw [place, if_neg hn, if_neg hr, if_neg ht, if_neg hbs]
  have h80 : s.cursorRow * vgaCols + s.cursorCol = s.abs - 80 * s.scrolled := by
    show s.cursorRow * 80 + s.cursorCol = _
    unfold Screen.abs
    omega
  have hset : Settled (place s c) (kputc s c) := by
    apply settled_settle
    · rw [hplace]
      exact hcol
    · rw [hplace]
      exact Or.inl hrow
  have hlo := le_abs s
  have hchar : ∀ a, 80 * s.scrolled ≤ a →
      (place s c).charAt a = if a = s.abs then c else s.charAt a := by
    intro a ha
    rw [← glyph_update s c ha hlo, ← h80, hplace]
    rfl
  refine printed_of_settled h.wf hset (by rw [hplace]) ?_ (Nat.le_of_ble_eq_true rfl) ?_ ?_ ?_ ?_
  · rw [hplace]
    unfold Screen.abs
    dsimp only [List.length_singleton]
    omega
  · intro a ha hlt
    rw [hchar a ha, if_neg (by omega)]
  · intro j hj _
    obtain rfl : j = 0 := by simpa using hj
    rw [hchar _ (by omega), if_pos (Nat.add_zero _)]
    rfl
  · have hlt := abs_lt h.wf
    rw [List.length_singleton]
    omega
  · intro b hb' hblo hbhi
    rw [List.length_singleton] at hb'
    have hscr : (place s c).scrolled = s.scrolled := by rw [hplace]
    rw [hscr] at hblo hbhi
    rw [hchar b hblo, if_neg (by omega)]
    exact h.blank b (by omega) hblo hbhi

theorem printed_tab {s : Screen} (h : s.Ready) :
    Printed s (List.replicate (4 - s.abs % 4) space) (kputc s 0x09) := by
  have hrow := h.wf.row
  have hcol := h.wf.col
  have hplace : place s 0x09 = { s with cursorCol := (s.cursorCol + 4) / 4 * 4 } := rfl
  have hset : Settled (place s 0x09) (kputc s 0x09) := by
    apply settled_settle
    · rw [hplace]
      dsimp only
      omega
    · rw [hplace]
      exact Or.inl hrow
  have hmod : s.abs % 4 = s.cursorCol % 4 := by
    unfold Screen.abs
    omega
  have hend : s.abs + (4 - s.abs % 4) ≤ 80 * s.scrolled + 2000 := by
    rw [hmod]
    unfold Screen.abs
    omega
  refine printed_of_settled h.wf hset rfl ?_ ?_ (fun _ _ _ => rfl) ?_ ?_ ?_
  · rw [hplace, List.length_replicate, hmod]
    unfold Screen.abs
    dsimp only
    omega
  · rw [List.length_replicate]
    omega
  · intro j hj hlt
    rw [List.getElem_replicate]
    have hlo := le_abs s
    exact h.blank _ (by omega) (by omega) hlt
  · rw [List.length_replicate]
    exact hend
  · intro b hb' hblo hbhi
    exact h.blank b (by omega) hblo hbhi

theorem printed_kputc {s : Screen} (h : s.Ready) {c : UInt8} (hn : c ≠ 0x0A)
    (hr : c ≠ 0x0D) (hbs : c ≠ 0x08) : Printed s (glyphs s.abs c) (kputc s c) := by
  unfold glyphs
  by_cases ht : c = 0x09
  · rw [if_pos ht, ht]
    exact printed_tab h
  · rw [if_neg ht]
    exact printed_plain h hn hr ht hbs

-- A backspace inside a row takes the cell before the cursor.
theorem place_backspace {s : Screen} (hpos : 0 < s.cursorCol) : place s 0x08 = { s with
    cursorCol := s.cursorCol - 1
    vga := Function.update s.vga (s.cursorRow * vgaCols + (s.cursorCol - 1)) (cell s.curColor space) } :=
  if_pos hpos

theorem kputc_backspace {s : Screen} (hs : s.WF) (hpos : 0 < s.cursorCol) :
    kputc s 0x08 = moveCursor (place s 0x08) := by
  have hrow := hs.row
  have hcol := hs.col
  have hnowrap : ¬ (place s 0x08).cursorCol ≥ vgaCols := by
    rw [place_backspace hpos]
    show ¬ s.cursorCol - 1 ≥ 80
    omega
  have hstay : (place s 0x08).cursorRow < 25 := by
    rw [place_backspace hpos]
    exact hrow
  unfold kputc settle
  dsimp only
  rw [if_neg hnowrap, scrollIfNeeded_of_lt hstay]

theorem charAt_backspace {s : Screen} (hpos : 0 < s.cursorCol) {a : Nat} (ha : 80 * s.scrolled ≤ a) :
    (place s 0x08).charAt a = if a + 1 = s.abs then space else s.charAt a := by
  have hlo : 80 * s.scrolled + 1 ≤ s.abs := by
    unfold Screen.abs
    omega
  have hindex : s.cursorRow * vgaCols + (s.cursorCol - 1) = s.abs - 1 - 80 * s.scrolled := by
    show s.cursorRow * 80 + (s.cursorCol - 1) = _
    unfold Screen.abs
    omega
  have hsame : a + 1 = s.abs ↔ a = s.abs - 1 := by omega
  rw [if_congr hsame rfl rfl, ← glyph_update s space ha (by omega), ← hindex, place_backspace hpos]
  rfl

theorem erased_kputc {s : Screen} (h : s.Ready) (hpos : 0 < s.cursorCol) :
    (kputc s 0x08).Ready ∧ (kputc s 0x08).abs + 1 = s.abs ∧ (kputc s 0x08).scrolled = s.scrolled ∧
      ∀ a, 80 * s.scrolled ≤ a → a + 1 < s.abs → (kputc s 0x08).charAt a = s.charAt a := by
  have hcol := h.wf.col
  have hwf : (place s 0x08).WF := by
    rw [place_backspace hpos]
    exact ⟨h.wf.row, by dsimp only; omega⟩
  have habs : (place s 0x08).abs + 1 = s.abs := by
    rw [place_backspace hpos]
    unfold Screen.abs
    dsimp only
    omega
  have hscr : (place s 0x08).scrolled = s.scrolled := by rw [place_backspace hpos]
  rw [kputc_backspace h.wf hpos]
  refine ⟨⟨⟨hwf.row, hwf.col⟩, hwCursor_moveCursor hwf, ?_⟩, habs, hscr, ?_⟩
  · intro b hb' hblo hbhi
    change 80 * (place s 0x08).scrolled ≤ b at hblo
    change b < 80 * (place s 0x08).scrolled + 2000 at hbhi
    change (place s 0x08).abs ≤ b at hb'
    rw [hscr] at hblo hbhi
    show (place s 0x08).charAt b = space
    rw [charAt_backspace hpos hblo]
    by_cases hsame : b + 1 = s.abs
    · rw [if_pos hsame]
    · rw [if_neg hsame]
      exact h.blank b (by omega) hblo hbhi
  · intro a ha hlt
    show (place s 0x08).charAt a = _
    rw [charAt_backspace hpos ha, if_neg (by omega)]

-- At the start of a row a backspace does nothing.
theorem kputc_backspace_start {s : Screen} (hs : s.WF) (hzero : s.cursorCol = 0) :
    kputc s 0x08 = moveCursor s := by
  have hplace : place s 0x08 = s := by
    show (if s.cursorCol > 0 then _ else s) = s
    exact if_neg (by omega)
  have hnowrap : ¬ s.cursorCol ≥ vgaCols := by
    rw [hzero]
    decide
  unfold kputc settle
  dsimp only
  rw [hplace, if_neg hnowrap, scrollIfNeeded_of_lt hs.row]

/-! ## Lines -/

/-- What the kernel can do to the screen. -/
inductive Reached : Screen → Prop where
  | clear (s : Screen) : Reached (clearScreen s)
  | kputc {s : Screen} (h : Reached s) (c : UInt8) : Reached (kputc s c)
  | setColor {s : Screen} (h : Reached s) (color : UInt8) : Reached (setColor s color)

/-- The screen at the start of a line: cleared, or after a newline. -/
inductive LineStart : Screen → Prop where
  | clear (s : Screen) : LineStart (clearScreen s)
  | newline {s : Screen} (h : Reached s) : LineStart (kputc s 0x0A)

/-- The place in the text where the next row starts. -/
def nextRow (s : Screen) : Nat := 80 * (s.scrolled + s.cursorRow + 1)

-- Only the row of the cursor changes.
theorem place_spec {s : Screen} (hs : s.WF) (c : UInt8) :
    (place s c).scrolled = s.scrolled ∧ (place s c).cursorCol ≤ 80 ∧
      ((place s c).cursorRow < 25 ∨ ((place s c).cursorRow = 25 ∧ (place s c).cursorCol < 80)) ∧
      s.cursorRow ≤ (place s c).cursorRow ∧ ∀ a, nextRow s ≤ a → (place s c).charAt a = s.charAt a := by
  have hrow := hs.row
  have hcol := hs.col
  have hfar : ∀ {k a}, k < 80 → nextRow s ≤ a → a - 80 * s.scrolled ≠ s.cursorRow * vgaCols + k := by
    intro k a hk ha
    unfold nextRow at ha
    show a - 80 * s.scrolled ≠ s.cursorRow * 80 + k
    omega
  unfold place
  split
  · refine ⟨rfl, Nat.zero_le _, ?_, Nat.le_succ _, fun _ _ => rfl⟩
    dsimp only
    omega
  split
  · exact ⟨rfl, Nat.zero_le _, Or.inl hrow, Nat.le_refl _, fun _ _ => rfl⟩
  split
  · exact ⟨rfl, by dsimp only; omega, Or.inl hrow, Nat.le_refl _, fun _ _ => rfl⟩
  split
  · split
    · refine ⟨rfl, by dsimp only; omega, Or.inl hrow, Nat.le_refl _, fun a ha => ?_⟩
      unfold Screen.charAt
      dsimp only
      rw [Function.update_of_ne (hfar (by omega) ha)]
    · exact ⟨rfl, by omega, Or.inl hrow, Nat.le_refl _, fun _ _ => rfl⟩
  · refine ⟨rfl, hcol, Or.inl hrow, Nat.le_refl _, fun a ha => ?_⟩
    unfold Screen.charAt
    dsimp only
    rw [Function.update_of_ne (hfar hcol ha)]

theorem wf_clearScreen (s : Screen) : (clearScreen s).WF := by
  have h25 : 0 < 25 := by decide
  have h80 : 0 < 80 := by decide
  exact ⟨h25, h80⟩

theorem blank_clearScreen (s : Screen) (a : Nat) : (clearScreen s).BlankFrom a := by
  intro b _ hlo hhi
  show glyph (fillCells s.vga 0 (cell s.curColor space) (vgaCols * vgaRows) (b - 80 * s.scrolled)) = space
  have h2000 : vgaCols * vgaRows = 2000 := rfl
  change b < 80 * s.scrolled + 2000 at hhi
  rw [fillCells_apply, h2000, if_pos (by omega), glyph_cell]

-- The rows below the cursor are blank at all times.
theorem reached_blank {s : Screen} (h : Reached s) : s.WF ∧ s.BlankFrom (nextRow s) := by
  induction h with
  | clear s => exact ⟨wf_clearScreen s, blank_clearScreen s _⟩
  | @kputc s _ c ih =>
    obtain ⟨hwf, hblank⟩ := ih
    obtain ⟨hscr, hcol, hrow, hle, hkeep⟩ := place_spec hwf c
    have hset : Settled (place s c) (kputc s c) := settled_settle hcol hrow
    have habs := hset.abs
    have htcol := hset.wf.col
    have hscr' := hset.le
    refine ⟨hset.wf, fun b hb hlo hhi => ?_⟩
    have hfar : nextRow s ≤ b := by
      unfold nextRow at hb ⊢
      unfold Screen.abs at habs
      omega
    by_cases hold : b < 80 * (place s c).scrolled + 2000
    · rw [hset.keep b hlo hold, hkeep b hfar]
      exact hblank b hfar (by omega) (by omega)
    · exact hset.fresh b (by omega) hhi
  | setColor _ color ih => exact ⟨⟨ih.1.row, ih.1.col⟩, ih.2⟩

-- A line starts on a row that is blank, and so is the rest of the screen.
theorem lineStart_ready {s : Screen} (h : LineStart s) : s.Ready := by
  cases h with
  | clear s =>
    have hwf := wf_clearScreen s
    exact ⟨hwf, hwCursor_moveCursor ⟨hwf.row, hwf.col⟩, blank_clearScreen s _⟩
  | @newline s h =>
    obtain ⟨hwf, hblank⟩ := reached_blank h
    obtain ⟨hscr, hcol, hrow, -, hkeep⟩ := place_spec hwf 0x0A
    have hset : Settled (place s 0x0A) (kputc s 0x0A) := settled_settle hcol hrow
    have hstart : (kputc s 0x0A).abs = nextRow s := by
      rw [hset.abs]
      show 80 * s.scrolled + (s.cursorRow + 1) * 80 + 0 = 80 * (s.scrolled + s.cursorRow + 1)
      omega
    have hscr' := hset.le
    refine ⟨hset.wf, hset.hw, fun b hb hlo hhi => ?_⟩
    rw [hstart] at hb
    by_cases hold : b < 80 * (place s 0x0A).scrolled + 2000
    · rw [hset.keep b hlo hold, hkeep b hb]
      exact hblank b hb (by omega) (by omega)
    · exact hset.fresh b (by omega) hhi

end JacobOS.Vga
