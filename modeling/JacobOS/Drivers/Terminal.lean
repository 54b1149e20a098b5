import JacobOS.Drivers.Screen

/-!
# The screen as a window on a terminal

The reference terminal has as many rows as are needed and never scrolls.  The screen shows the 25 rows of it
that end with the cursor's row, or the first 25, and every store to the video memory is to one of its cells.
-/

namespace JacobOS.Vga

/-! ## The reference terminal -/

structure Term where
  cells : Nat → Nat → UInt8
  row : Nat
  col : Nat

namespace Term

def blank : Term := ⟨fun _ _ => space, 0, 0⟩

/-- The cell in column `j` of the cursor's row becomes `c`. -/
def write (t : Term) (j : Nat) (c : UInt8) : Term :=
  { t with cells := Function.update t.cells t.row (Function.update (t.cells t.row) j c) }

def newline (t : Term) : Term := { t with row := t.row + 1, col := 0 }

/-- The effect of a byte before the right margin is looked at. -/
def move (t : Term) (c : UInt8) : Term :=
  if c = 0x0A then t.newline
  else if c = 0x0D then { t with col := 0 }
  else if c = 0x09 then { t with col := t.col + (4 - t.col % 4) }
  else if c = 0x08 then
    if t.col = 0 then t else { t.write (t.col - 1) space with col := t.col - 1 }
  else { t.write t.col c with col := t.col + 1 }

/-- After column 79 comes the next row. -/
def wrap (t : Term) : Term := if t.col < 80 then t else t.newline

def put (t : Term) (c : UInt8) : Term := (t.move c).wrap

/-- The first row that is shown. -/
def top (t : Term) : Nat := t.row - 24

end Term

/-! ## Calls -/

inductive Call where
  | kputc (c : UInt8)
  | setColor (color : UInt8)
  | clearScreen

def screenInit (s : Screen) : Screen := clearScreen s

def Call.run (s : Screen) : Call → Screen
  | .kputc c => Vga.kputc s c
  | .setColor color => Vga.setColor s color
  | .clearScreen => Vga.clearScreen s

def Call.ref (t : Term) : Call → Term
  | .kputc c => t.put c
  | .setColor _ => t
  | .clearScreen => .blank

/-! ## Stores -/

/-- The video memory after stores of cells, in this order. -/
def store (vga : Nat → UInt16) (stores : List (Nat × UInt16)) : Nat → UInt16 :=
  stores.foldl (fun vga p => Function.update vga p.1 p.2) vga

/-- The stores of the first part of `kputc`. -/
def placeStores (s : Screen) (c : UInt8) : List (Nat × UInt16) :=
  if c = 0x0A ∨ c = 0x0D ∨ c = 0x09 then []
  else if c = 0x08 then
    if s.cursorCol > 0 then [(s.cursorRow * vgaCols + (s.cursorCol - 1), cell s.curColor space)] else []
  else [(s.cursorRow * vgaCols + s.cursorCol, cell s.curColor c)]

/-- The stores of `n` cells with `w`, from `start` on. -/
def fillStores (start : Nat) (w : UInt16) (n : Nat) : List (Nat × UInt16) :=
  (List.range n).map fun i => (start + i, w)

def scrollStores (s : Screen) : List (Nat × UInt16) :=
  if s.cursorRow < vgaRows then [] else
    ((List.range ((vgaRows - 1) * vgaCols)).map fun i => (i, s.vga (i + vgaCols))) ++
      fillStores ((vgaRows - 1) * vgaCols) (cell s.curColor space) vgaCols

/-- The cursor is taken to the next row if it has left its own. -/
def wrapped (s : Screen) : Screen :=
  if s.cursorCol ≥ vgaCols then { s with cursorCol := 0, cursorRow := s.cursorRow + 1 } else s

def Call.stores (s : Screen) : Call → List (Nat × UInt16)
  | .kputc c => placeStores s c ++ scrollStores (wrapped (place s c))
  | .setColor _ => []
  | .clearScreen => fillStores 0 (cell s.curColor space) (vgaCols * vgaRows)

theorem settle_eq (s : Screen) : settle s = moveCursor (scrollIfNeeded (wrapped s)) := rfl

theorem store_append (vga : Nat → UInt16) (l r : List (Nat × UInt16)) :
    store vga (l ++ r) = store (store vga l) r := List.foldl_append ..

theorem store_fill (vga : Nat → UInt16) (start : Nat) (w : UInt16) (n : Nat) :
    store vga (fillStores start w n) = fillCells vga start w n := by
  induction n with
  | zero => rfl
  | succ n ih =>
    unfold fillStores at ih ⊢
    rw [List.range_succ, List.map_append, store_append, ih, fillCells]
    rfl

-- A row is read before it is written.
theorem store_shift (vga : Nat → UInt16) (n : Nat) :
    store vga ((List.range n).map fun i => (i, vga (i + vgaCols))) = shiftCells vga n := by
  induction n with
  | zero => rfl
  | succ n ih =>
    rw [List.range_succ, List.map_append, store_append, ih, shiftCells,
      shiftCells_apply vga n (n + vgaCols), if_neg (by omega)]
    rfl

theorem store_place (s : Screen) (c : UInt8) : store s.vga (placeStores s c) = (place s c).vga := by
  unfold placeStores place
  by_cases hn : c = 0x0A
  · rw [if_pos (Or.inl hn), if_pos hn]
    rfl
  by_cases hr : c = 0x0D
  · rw [if_pos (Or.inr (Or.inl hr)), if_neg hn, if_pos hr]
    rfl
  by_cases ht : c = 0x09
  · rw [if_pos (Or.inr (Or.inr ht)), if_neg hn, if_neg hr, if_pos ht]
    rfl
  rw [if_neg (by simp [hn, hr, ht]), if_neg hn, if_neg hr, if_neg ht]
  by_cases hb : c = 0x08
  · rw [if_pos hb, if_pos hb]
    split <;> rfl
  · rw [if_neg hb, if_neg hb]
    rfl

theorem store_scroll (s : Screen) : store s.vga (scrollStores s) = (scrollIfNeeded s).vga := by
  unfold scrollStores scrollIfNeeded
  by_cases hrow : s.cursorRow < vgaRows
  · rw [if_pos hrow, if_pos hrow]
    rfl
  · rw [if_neg hrow, if_neg hrow, store_append, store_shift, store_fill]

theorem wrapped_vga (s : Screen) : (wrapped s).vga = s.vga := by
  unfold wrapped
  split <;> rfl

/-- The stores of a call are what it does to the video memory. -/
theorem store_call (s : Screen) (call : Call) : (call.run s).vga = store s.vga (call.stores s) := by
  cases call with
  | kputc c =>
    show (settle (place s c)).vga = store s.vga (placeStores s c ++ scrollStores (wrapped (place s c)))
    rw [store_append, store_place, ← wrapped_vga (place s c), store_scroll, settle_eq]
    rfl
  | setColor color => rfl
  | clearScreen => exact (store_fill ..).symm

/-! ## The simulation -/

/-- The screen `s` shows the rows of `t` from `k` on, and there is nothing in the rows after them. -/
structure ShowsAt (k : Nat) (s : Screen) (t : Term) : Prop where
  row : t.row = k + s.cursorRow
  col : t.col = s.cursorCol
  cells : ∀ i j, i < 25 → j < 80 → glyph (s.vga (i * 80 + j)) = t.cells (k + i) j
  beyond : ∀ r j, k + 25 ≤ r → t.cells r j = space

namespace ShowsAt

variable {k : Nat} {s : Screen} {t : Term}

-- A cell of the cursor's row is written on both sides.
theorem write (h : ShowsAt k s t) (hrow : s.cursorRow < 25) {j₀ : Nat} (hj₀ : j₀ < 80) (c : UInt8) :
    ShowsAt k { s with vga := Function.update s.vga (s.cursorRow * vgaCols + j₀) (cell s.curColor c) }
      (t.write j₀ c) := by
  have h80 : vgaCols = 80 := rfl
  refine ⟨h.row, h.col, ?_, ?_⟩
  · intro i j hi hj
    dsimp only [Term.write]
    rw [h80, Function.update_apply, Function.update_apply, h.row]
    by_cases hsame : i = s.cursorRow
    · rw [if_pos (show k + i = k + s.cursorRow by omega), Function.update_apply, hsame]
      by_cases hcol : j = j₀
      · rw [if_pos (by omega), if_pos hcol, glyph_cell]
      · rw [if_neg (by omega), if_neg hcol]
        exact h.cells _ j hrow hj
    · rw [if_neg (by omega), if_neg (by omega)]
      exact h.cells i j hi hj
  · intro r j hr
    dsimp only [Term.write]
    rw [Function.update_of_ne (by rw [h.row]; omega)]
    exact h.beyond r j hr

-- Only the cursor moves.
theorem cursor (h : ShowsAt k s t) {row col : Nat} {s' : Screen} (hvga : s'.vga = s.vga)
    (hrow : row = k + s'.cursorRow) (hcol : col = s'.cursorCol) :
    ShowsAt k s' { t with row := row, col := col } := by
  refine ⟨hrow, hcol, ?_, h.beyond⟩
  intro i j hi hj
  rw [hvga]
  exact h.cells i j hi hj

theorem place (h : ShowsAt k s t) (hs : s.WF) (c : UInt8) : ShowsAt k (Vga.place s c) (t.move c) := by
  have hrow := h.row
  have hcol := h.col
  have hcol80 := hs.col
  unfold Vga.place Term.move
  by_cases hn : c = 0x0A
  · rw [if_pos hn, if_pos hn]
    exact h.cursor rfl (by dsimp only; omega) rfl
  rw [if_neg hn, if_neg hn]
  by_cases hr : c = 0x0D
  · rw [if_pos hr, if_pos hr]
    exact h.cursor rfl hrow rfl
  rw [if_neg hr, if_neg hr]
  by_cases ht : c = 0x09
  · rw [if_pos ht, if_pos ht]
    exact h.cursor rfl hrow (by dsimp only; omega)
  rw [if_neg ht, if_neg ht]
  by_cases hb : c = 0x08
  · rw [if_pos hb, if_pos hb]
    by_cases hpos : s.cursorCol > 0
    · rw [if_pos hpos, if_neg (by omega), hcol]
      exact (h.write hs.row (by omega) space).cursor rfl hrow rfl
    · rw [if_neg hpos, if_pos (by omega)]
      exact h
  · rw [if_neg hb, if_neg hb, hcol]
    exact (h.write hs.row hcol80 c).cursor rfl hrow rfl

theorem wrapped (h : ShowsAt k s t) : ShowsAt k (Vga.wrapped s) t.wrap := by
  have hrow := h.row
  have h80 : vgaCols = 80 := rfl
  unfold Vga.wrapped Term.wrap
  rw [h.col, h80]
  by_cases hout : s.cursorCol ≥ 80
  · rw [if_pos hout, if_neg (by omega)]
    exact h.cursor rfl (by dsimp only; omega) rfl
  · rw [if_neg hout, if_pos (by omega)]
    exact h

-- The window moves down by one row, onto a blank one.
theorem scroll (h : ShowsAt k s t) (hrow : s.cursorRow = 25) : ShowsAt (k + 1) (scrollIfNeeded s) t := by
  have hneed : ¬ s.cursorRow < vgaRows := by
    rw [hrow]
    decide
  have h1920 : (vgaRows - 1) * vgaCols = 1920 := rfl
  have h80 : vgaCols = 80 := rfl
  have htrow := h.row
  unfold scrollIfNeeded
  rw [if_neg hneed]
  refine ⟨?_, h.col, ?_, fun r j hr => h.beyond r j (by omega)⟩
  · show t.row = k + 1 + 24
    omega
  · intro i j hi hj
    dsimp only
    rw [fillCells_apply, shiftCells_apply, h1920, h80]
    by_cases hlast : i = 24
    · rw [if_pos (by omega), glyph_cell, h.beyond _ _ (by omega)]
    · rw [if_neg (by omega), if_pos (by omega), show i * 80 + j + 80 = (i + 1) * 80 + j by omega,
        h.cells (i + 1) j (by omega) hj, show k + (i + 1) = k + 1 + i by omega]

end ShowsAt

/-- The screen shows the terminal: the cursor is on the screen, and rows have only left it at the top because
the cursor is in the last one. -/
def Shows (s : Screen) (t : Term) : Prop := s.WF ∧ ∃ k, ShowsAt k s t ∧ (k = 0 ∨ s.cursorRow = 24)

theorem Shows.cursor_moved {s : Screen} {t : Term} (h : Shows s t) : Shows (moveCursor s) t := by
  obtain ⟨hs, k, hshows, hpin⟩ := h
  exact ⟨⟨hs.row, hs.col⟩, k, ⟨hshows.row, hshows.col, hshows.cells, hshows.beyond⟩, hpin⟩

theorem Shows.kputc {s : Screen} {t : Term} (h : Shows s t) (c : UInt8) : Shows (kputc s c) (t.put c) := by
  obtain ⟨hs, k, hshows, hpin⟩ := h
  obtain ⟨-, hcol, hrow, hle, -⟩ := place_spec hs c
  have hw := (hshows.place hs c).wrapped
  have hwcol : (wrapped (place s c)).cursorCol < 80 := by
    unfold wrapped
    split
    · exact (by decide : 0 < 80)
    · rename_i hin
      exact Nat.lt_of_not_le hin
  have hwrow : s.cursorRow ≤ (wrapped (place s c)).cursorRow ∧ (wrapped (place s c)).cursorRow ≤ 25 := by
    unfold wrapped
    split
    · rename_i hout
      change (place s c).cursorCol ≥ 80 at hout
      dsimp only
      omega
    · omega
  show Shows (moveCursor (scrollIfNeeded (wrapped (place s c)))) (t.move c).wrap
  apply Shows.cursor_moved
  by_cases hlast : (wrapped (place s c)).cursorRow = 25
  · have hnext := hw.scroll hlast
    have h24 : (scrollIfNeeded (wrapped (place s c))).cursorRow = 24 := by
      rw [scrollIfNeeded, if_neg (by rw [hlast]; decide)]
      rfl
    have hcol' : (scrollIfNeeded (wrapped (place s c))).cursorCol < 80 := by
      rw [scrollIfNeeded, if_neg (by rw [hlast]; decide)]
      exact hwcol
    refine ⟨⟨?_, hcol'⟩, k + 1, hnext, Or.inr h24⟩
    show (scrollIfNeeded (wrapped (place s c))).cursorRow < 25
    omega
  · have hstay : (wrapped (place s c)).cursorRow < 25 := by omega
    rw [scrollIfNeeded_of_lt hstay]
    refine ⟨⟨hstay, hwcol⟩, k, hw, ?_⟩
    omega

theorem shows_clearScreen (s : Screen) : Shows (clearScreen s) .blank := by
  refine ⟨wf_clearScreen s, 0, ⟨rfl, rfl, ?_, fun _ _ _ => rfl⟩, Or.inl rfl⟩
  intro i j hi hj
  have h2000 : vgaCols * vgaRows = 2000 := rfl
  show glyph (fillCells s.vga 0 (cell s.curColor space) (vgaCols * vgaRows) (i * 80 + j)) = space
  rw [fillCells_apply, h2000, if_pos (by omega), glyph_cell]

theorem Shows.call {s : Screen} {t : Term} (h : Shows s t) (call : Call) : Shows (call.run s) (call.ref t) := by
  cases call with
  | kputc c => exact h.kputc c
  | setColor color =>
    obtain ⟨hs, k, hshows, hpin⟩ := h
    exact ⟨⟨hs.row, hs.col⟩, k, ⟨hshows.row, hshows.col, hshows.cells, hshows.beyond⟩, hpin⟩
  | clearScreen => exact shows_clearScreen s

theorem Shows.calls {s : Screen} {t : Term} (h : Shows s t) (calls : List Call) :
    Shows (calls.foldl Call.run s) (calls.foldl Call.ref t) := by
  induction calls generalizing s t with
  | nil => exact h
  | cons call calls ih => exact ih (h.call call)

/-! ## Every sequence of calls -/

theorem mem_fillStores {start n : Nat} {w : UInt16} {p : Nat × UInt16} (h : p ∈ fillStores start w n) :
    p.1 < start + n := by
  obtain ⟨i, hi, rfl⟩ := List.mem_map.mp h
  have hlt := List.mem_range.mp hi
  dsimp only
  omega

theorem clearScreen_stores_lt {s : Screen} {p : Nat × UInt16} (hp : p ∈ Call.stores s .clearScreen) :
    p.1 < 2000 := by
  have hall : vgaCols * vgaRows = 2000 := rfl
  unfold Call.stores at hp
  rw [hall] at hp
  simpa only [Nat.zero_add] using mem_fillStores hp

-- A store is to a cell of the screen.
theorem stores_lt {s : Screen} (hs : s.WF) (call : Call) {p : Nat × UInt16} (hp : p ∈ call.stores s) : p.1 < 2000 := by
  have hrow := hs.row
  have hcol := hs.col
  have h80 : vgaCols = 80 := rfl
  cases call with
  | kputc c =>
    rcases List.mem_append.mp hp with hp | hp
    · unfold placeStores at hp
      rw [h80] at hp
      split at hp
      · exact absurd hp (by simp)
      split at hp
      · split at hp
        · rw [List.mem_singleton.mp hp]
          dsimp only
          omega
        · exact absurd hp (by simp)
      · rw [List.mem_singleton.mp hp]
        dsimp only
        omega
    · unfold scrollStores at hp
      split at hp
      · exact absurd hp (by simp)
      · rcases List.mem_append.mp hp with hp | hp
        · obtain ⟨i, hi, rfl⟩ := List.mem_map.mp hp
          have hlt : i < 1920 := List.mem_range.mp hi
          dsimp only
          omega
        · exact mem_fillStores hp
  | setColor color => exact absurd hp (by simp [Call.stores])
  | clearScreen => exact clearScreen_stores_lt hp

/-- After `screen_init` and any calls the cursor is on the screen, the cells show the last rows of the
terminal, and whatever is called next stores only to cells of the screen. -/
theorem screen_shows_terminal (s₀ : Screen) (calls : List Call) :
    let s := calls.foldl Call.run (screenInit s₀)
    let t := calls.foldl Call.ref Term.blank
    s.cursorRow < 25 ∧ s.cursorCol < 80 ∧ t.row = t.top + s.cursorRow ∧ t.col = s.cursorCol ∧
      (∀ i j, i < 25 → j < 80 → glyph (s.vga (i * 80 + j)) = t.cells (t.top + i) j) ∧
      (∀ p ∈ Call.stores s₀ .clearScreen, p.1 < 2000) ∧
      ∀ call : Call, (call.run s).vga = store s.vga (call.stores s) ∧ ∀ p ∈ call.stores s, p.1 < 2000 := by
  intro s t
  obtain ⟨hs, k, hshows, hpin⟩ : Shows s t := (shows_clearScreen s₀).calls calls
  have hrow := hshows.row
  have hlt := hs.row
  have htop : t.top = k := by
    unfold Term.top
    omega
  rw [htop]
  refine ⟨hs.row, hs.col, hrow, hshows.col, hshows.cells, ?_, ?_⟩
  · exact fun p hp => clearScreen_stores_lt hp
  · exact fun call => ⟨store_call s call, fun p hp => stores_lt hs call hp⟩

end JacobOS.Vga
