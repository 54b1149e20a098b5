import JacobOS.CString
import JacobOS.Drivers.Terminal

/-!
# The colours of the cells

A cell is one 16-bit word, the attribute in its high byte.  `cell` makes it from a signed `char`, whose sign goes
into the high byte as well.
-/

namespace JacobOS.Vga

open CString

/-- The attribute byte of a cell. -/
def attr (w : UInt16) : UInt8 := (w >>> 8).toUInt8

theorem attr_or (v w : UInt16) : attr (v ||| w) = attr v ||| attr w := by
  unfold attr
  rw [UInt16.shiftRight_or, UInt16.toUInt8_or]

theorem attr_toUInt16 (c : UInt8) : attr c.toUInt16 = 0 := by
  apply UInt8.toNat_inj.mp
  have hlt := c.toNat_lt
  unfold attr
  rw [UInt16.toNat_toUInt8, UInt16.toNat_shiftRight, UInt8.toNat_toUInt16]
  show c.toNat >>> 8 % 2 ^ 8 = 0
  rw [Nat.shiftRight_eq_div_pow]
  omega

theorem attr_shiftLeft (color : UInt8) : attr (color.toUInt16 <<< 8) = color := by
  apply UInt8.toNat_inj.mp
  have hlt := color.toNat_lt
  unfold attr
  rw [UInt16.toNat_toUInt8, UInt16.toNat_shiftRight, UInt16.toNat_shiftLeft, UInt8.toNat_toUInt16]
  show (color.toNat <<< 8 % 2 ^ 16) >>> 8 % 2 ^ 8 = color.toNat
  rw [Nat.shiftRight_eq_div_pow, Nat.shiftLeft_eq]
  omega

-- The sign of the character fills the attribute.
theorem attr_cell (color c : UInt8) : attr (cell color c) = if c < 0x80 then color else 0xFF := by
  unfold cell charWord
  rw [attr_or, attr_shiftLeft]
  by_cases hc : c < 0x80
  · rw [if_pos hc, if_pos hc, attr_toUInt16, UInt8.zero_or]
  · rw [if_neg hc, if_neg hc, attr_or, attr_toUInt16, UInt8.zero_or]
    exact UInt8.neg_one_or

/-! ## Calls that print -/

/-- `kprint_color`. -/
def kprintColor (s : Screen) (text : List UInt8) (color : UInt8) : Screen :=
  let saved := s.curColor
  let s := kprint { s with curColor := color } (cstr text)
  { s with curColor := saved }

inductive Output where
  | setColor (color : UInt8)
  | kprintColor (text : List UInt8) (color : UInt8)
  | kputc (c : UInt8)

def Output.run (s : Screen) : Output → Screen
  | .setColor color => Vga.setColor s color
  | .kprintColor text color => Vga.kprintColor s text color
  | .kputc c => Vga.kputc s c

/-- The calls of `kputc` that `kprint` makes, each with the screen it finds. -/
def kprintPuts (s : Screen) : List UInt8 → List (Screen × UInt8)
  | [] => []
  | c :: cs => (s, c) :: kprintPuts (kputc s c) cs

def Output.puts (s : Screen) : Output → List (Screen × UInt8)
  | .setColor _ => []
  | .kprintColor text color => kprintPuts { s with curColor := color } (cstr text)
  | .kputc c => [(s, c)]

/-- The calls of `kputc` of a run, each with the screen it finds. -/
def puts (s : Screen) : List Output → List (Screen × UInt8)
  | [] => []
  | o :: os => o.puts s ++ puts (o.run s) os

/-- What `kputc(c)` stores is in the current colour: the cell of the character or of the blank that it writes, and
the blanks of a row that is scrolled in.  The other cells are moved up as they are. -/
structure KeepsColors (s : Screen) (c : UInt8) : Prop where
  stores : (kputc s c).vga = store s.vga (placeStores s c ++ scrollStores (wrapped (place s c)))
  placed : ∀ p ∈ placeStores s c, attr p.2 = s.curColor ∧ (glyph p.2 = c ∨ glyph p.2 = space)
  moved : ∀ p ∈ scrollStores (wrapped (place s c)), p.1 < 1920 → p.2 = (place s c).vga (p.1 + 80)
  blank : ∀ p ∈ scrollStores (wrapped (place s c)), 1920 ≤ p.1 → attr p.2 = s.curColor ∧ glyph p.2 = space

/-! ## One call of `kputc` -/

theorem wrapped_curColor (s : Screen) : (wrapped s).curColor = s.curColor := by
  unfold wrapped
  split <;> rfl

theorem place_curColor (s : Screen) (c : UInt8) : (place s c).curColor = s.curColor := by
  unfold place
  repeat' split
  all_goals rfl

theorem scrollIfNeeded_curColor (s : Screen) : (scrollIfNeeded s).curColor = s.curColor := by
  unfold scrollIfNeeded
  split <;> rfl

theorem kputc_curColor (s : Screen) (c : UInt8) : (kputc s c).curColor = s.curColor := by
  show (scrollIfNeeded (wrapped (place s c))).curColor = s.curColor
  rw [scrollIfNeeded_curColor, wrapped_curColor, place_curColor]

-- A byte from 0x80 on is no control character.
theorem placeStores_high {s : Screen} {c : UInt8} (hc : ¬ c < 0x80) :
    placeStores s c = [(s.cursorRow * vgaCols + s.cursorCol, cell s.curColor c)] := by
  have hne : ∀ k : UInt8, k < 0x80 → c ≠ k := by
    rintro k hk rfl
    exact hc hk
  unfold placeStores
  rw [if_neg (not_or.mpr ⟨hne _ (by decide), not_or.mpr ⟨hne _ (by decide), hne _ (by decide)⟩⟩),
    if_neg (hne _ (by decide))]

-- What a row scrolled in and the rows above it get.
theorem mem_scrollStores {s : Screen} {p : Nat × UInt16} (hp : p ∈ scrollStores s) :
    (p.1 < 1920 ∧ p.2 = s.vga (p.1 + 80)) ∨ (1920 ≤ p.1 ∧ p.2 = cell s.curColor space) := by
  unfold scrollStores at hp
  split at hp
  · exact absurd hp List.not_mem_nil
  · rcases List.mem_append.mp hp with hp | hp
    · obtain ⟨i, hi, rfl⟩ := List.mem_map.mp hp
      exact Or.inl ⟨List.mem_range.mp hi, rfl⟩
    · obtain ⟨i, -, rfl⟩ := List.mem_map.mp hp
      exact Or.inr ⟨Nat.le_add_right 1920 i, rfl⟩

theorem keepsColors_iff (s : Screen) (c : UInt8) : KeepsColors s c ↔ c < 0x80 ∨ s.curColor = 0xFF := by
  have hspace : attr (cell s.curColor space) = s.curColor := by
    rw [attr_cell, if_pos (by decide)]
  constructor
  · intro h
    by_cases hc : c < 0x80
    · exact Or.inl hc
    · have hplaced := h.placed
      rw [placeStores_high hc, List.forall_mem_singleton, attr_cell, if_neg hc] at hplaced
      exact Or.inr hplaced.1.symm
  · intro h
    have hchar : attr (cell s.curColor c) = s.curColor := by
      rw [attr_cell]
      split
      · rfl
      · exact (h.resolve_left ‹_›).symm
    refine ⟨store_call s (.kputc c), ?_, ?_, ?_⟩
    · intro p hp
      unfold placeStores at hp
      split at hp
      · exact absurd hp List.not_mem_nil
      split at hp
      · split at hp
        · rw [List.mem_singleton.mp hp]
          exact ⟨hspace, Or.inr (glyph_cell ..)⟩
        · exact absurd hp List.not_mem_nil
      · rw [List.mem_singleton.mp hp]
        exact ⟨hchar, Or.inl (glyph_cell ..)⟩
    · intro p hp hlt
      rcases mem_scrollStores hp with ⟨-, heq⟩ | ⟨hge, -⟩
      · rw [heq, wrapped_vga]
      · omega
    · intro p hp hge
      rcases mem_scrollStores hp with ⟨hlt, -⟩ | ⟨-, heq⟩
      · omega
      · rw [heq, wrapped_curColor, place_curColor]
        exact ⟨hspace, glyph_cell ..⟩

/-! ## Runs -/

/-- Every byte of the run that is not ASCII is printed in colour 0xFF.  `color` is the current colour at the
start. -/
def HighInWhite (color : UInt8) : List Output → Prop
  | [] => True
  | .setColor color' :: os => HighInWhite color' os
  | .kprintColor text color' :: os => (∀ c ∈ cstr text, c < 0x80 ∨ color' = 0xFF) ∧ HighInWhite color os
  | .kputc c :: os => (c < 0x80 ∨ color = 0xFF) ∧ HighInWhite color os

theorem forall_kprintPuts (s : Screen) (text : List UInt8) :
    (∀ q ∈ kprintPuts s text, KeepsColors q.1 q.2) ↔ ∀ c ∈ text, c < 0x80 ∨ s.curColor = 0xFF := by
  induction text generalizing s with
  | nil => exact ⟨fun _ c hc => absurd hc List.not_mem_nil, fun _ q hq => absurd hq List.not_mem_nil⟩
  | cons c text ih =>
    rw [kprintPuts, List.forall_mem_cons, List.forall_mem_cons, keepsColors_iff, ih, kputc_curColor]

/-- In every run of `set_color`, `kprint_color` and `kputc`, from any screen on, cells keep the colours they are
written in exactly if no byte from 0x80 on is printed in another colour than 0xFF. -/
theorem colors_kept_iff (s : Screen) (os : List Output) :
    (∀ q ∈ puts s os, KeepsColors q.1 q.2) ↔ HighInWhite s.curColor os := by
  induction os generalizing s with
  | nil => exact ⟨fun _ => trivial, fun _ q hq => absurd hq List.not_mem_nil⟩
  | cons o os ih =>
    rw [puts, List.forall_mem_append, ih]
    cases o with
    | setColor color => exact ⟨fun h => h.2, fun h => ⟨fun q hq => absurd hq List.not_mem_nil, h⟩⟩
    | kprintColor text color =>
      rw [Output.puts, forall_kprintPuts]
      rfl
    | kputc c =>
      rw [Output.puts, List.forall_mem_singleton, keepsColors_iff, Output.run, kputc_curColor]
      rfl

/-- The screen when the kernel starts: `VGA_COLOR(VGA_LIGHT_GREY, VGA_BLACK)`. -/
def booted : Screen := screenInit ⟨fun _ => 0, 0x07, 0, 0, 0, 0, 0⟩

theorem not_colors_kept_high : ¬ ∀ q ∈ puts booted [.kputc 0x80], KeepsColors q.1 q.2 := by
  intro h
  have hone := (keepsColors_iff booted 0x80).mp (h (booted, 0x80) List.mem_cons_self)
  rw [show booted.curColor = 0x07 from rfl] at hone
  exact absurd hone (by decide)

end JacobOS.Vga
