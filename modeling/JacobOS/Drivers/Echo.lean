import JacobOS.Drivers.Keyboard
import JacobOS.Drivers.Screen

/-!
# The line on the screen

The driver keeps the line in `line_buf` and the screen keeps a cursor; a key changes both.  The screen
shows the line as long as every backspace meets a character that took one column and did not end a row:
`kputc` does not go back over the start of a row, and over a tab it goes back by one column only.
-/

namespace JacobOS.Echo

open CString Keyboard Vga

def tab : UInt8 := 0x09

/-- The driver and the screen it echoes on. -/
structure Terminal where
  kbd : Kbd
  screen : Screen

/-- The driver's output; there is no handler before Enter. -/
def output (s : Screen) : List Action → Screen
  | [] => s
  | .kputc c :: acts => output (kputc s c) acts
  | .handle _ :: acts => output s acts

def Terminal.key (t : Terminal) (sc : UInt8) : Terminal :=
  let r := keyboardCallback t.kbd sc
  ⟨r.1, output t.screen r.2⟩

def Terminal.keys (t : Terminal) : List UInt8 → Terminal
  | [] => t
  | sc :: scs => (t.key sc).keys scs

/-- `line_buf[0..line_len)`. -/
def Terminal.line (t : Terminal) : List UInt8 := t.kbd.lineBuf.take t.kbd.lineLen

/-- What `line` looks like from place `a` on. -/
def layout (a : Nat) : List UInt8 → List UInt8
  | [] => []
  | c :: line => glyphs a c ++ layout (a + (glyphs a c).length) line

/-- The text from place `a` up to the cursor that the display controller shows. -/
def shownFrom (s : Screen) (a : Nat) : List UInt8 :=
  (List.range' a (80 * s.scrolled + s.hwCursor - a)).map s.charAt

/-- Place `a` is on the screen, and from there up to the cursor it shows the line. -/
def ShowsLine (a : Nat) (t : Terminal) : Prop :=
  80 * t.screen.scrolled ≤ a ∧ a ≤ 80 * t.screen.scrolled + t.screen.hwCursor ∧
    shownFrom t.screen a = layout a t.line

/-- A backspace that the screen does not follow: the cursor is at the start of a row, or the last
character is a tab that is more than one column wide. -/
def Slips (a : Nat) (t : Terminal) (sc : UInt8) : Prop :=
  (decode t.kbd.mods sc).2 = some backspace ∧ 0 < t.kbd.lineLen ∧
    (t.screen.cursorCol = 0 ∨ ∃ line, t.line = line ++ [tab] ∧
      1 < (glyphs (a + (layout a line).length) tab).length)

/-- A colour, the prompt's text, and the colour of what is typed. -/
def prompt (s : Screen) (text : List UInt8) : Screen :=
  setColor (kprint (setColor s 0x0A) text) 0x07

/-! ## Layout -/

theorem layout_append (a : Nat) (line : List UInt8) (c : UInt8) :
    layout a (line ++ [c]) = layout a line ++ glyphs (a + (layout a line).length) c := by
  induction line generalizing a with
  | nil => simp [layout]
  | cons d line ih =>
    rw [List.cons_append, layout, layout, ih, List.append_assoc, List.length_append, Nat.add_assoc]

theorem length_layout_le (a : Nat) (line : List UInt8) : (layout a line).length ≤ 4 * line.length := by
  induction line generalizing a with
  | nil => exact Nat.zero_le _
  | cons c line ih =>
    have hone := length_glyphs_le a c
    have hrest := ih (a + (glyphs a c).length)
    rw [layout, List.length_append, List.length_cons]
    omega

-- The screen shows the line: by the cursor's place and by the single characters.
theorem showsLine_iff {a : Nat} {t : Terminal} (h : t.screen.Ready) :
    ShowsLine a t ↔ 80 * t.screen.scrolled ≤ a ∧ t.screen.abs = a + (layout a t.line).length ∧
      ∀ j (hj : j < (layout a t.line).length), t.screen.charAt (a + j) = (layout a t.line)[j] := by
  have habs : 80 * t.screen.scrolled + t.screen.hwCursor = t.screen.abs := by
    rw [h.hw]
    unfold Screen.abs
    omega
  unfold ShowsLine shownFrom
  rw [habs]
  constructor
  · rintro ⟨hlo, hle, htext⟩
    have hlen := congrArg List.length htext
    rw [List.length_map, List.length_range'] at hlen
    refine ⟨hlo, by omega, fun j hj => ?_⟩
    have hget := List.getElem_of_eq htext (by rw [htext]; exact hj)
    rw [← hget, List.getElem_map, List.getElem_range']
    simp
  · rintro ⟨hlo, hend, hchars⟩
    refine ⟨hlo, by omega, List.ext_getElem ?_ ?_⟩
    · rw [List.length_map, List.length_range']
      omega
    · intro j hj1 hj2
      rw [List.getElem_map, List.getElem_range', ← hchars j hj2]
      simp

/-! ## One key -/

-- A key other than Enter: nothing that shows, a character less, or a character more.
theorem key_cases {t : Terminal} (hwf : t.kbd.WF) {sc : UInt8}
    (hn : (decode t.kbd.mods sc).2 ≠ some newline) :
    ((t.key sc).line = t.line ∧ (t.key sc).kbd.lineLen = t.kbd.lineLen ∧
        (t.key sc).screen = t.screen ∧
        ∀ c ∈ (decode t.kbd.mods sc).2, if c = backspace then t.kbd.lineLen = 0 else t.kbd.lineLen = 127) ∨
      ((decode t.kbd.mods sc).2 = some backspace ∧ 0 < t.kbd.lineLen ∧
        (t.key sc).line = t.line.dropLast ∧ (t.key sc).kbd.lineLen + 1 = t.kbd.lineLen ∧
        (t.key sc).screen = kputc t.screen backspace) ∨
      ∃ c, (decode t.kbd.mods sc).2 = some c ∧ c ≠ newline ∧ c ≠ backspace ∧ t.kbd.lineLen < 127 ∧
        (t.key sc).line = t.line ++ [c] ∧ (t.key sc).kbd.lineLen = t.kbd.lineLen + 1 ∧
        (t.key sc).screen = kputc t.screen c := by
  obtain ⟨hbuf, hlen⟩ := hwf
  have hlt : t.kbd.lineLen < t.kbd.lineBuf.length := by
    rw [hbuf]
    exact Nat.lt_of_le_of_lt hlen (by decide)
  unfold Terminal.line Terminal.key keyboardCallback
  cases hd : decode t.kbd.mods sc with
  | mk mods c? =>
    rw [hd] at hn
    dsimp only at hn ⊢
    cases c? with
    | none => exact Or.inl ⟨rfl, rfl, rfl, fun c hc => absurd hc (by simp)⟩
    | some c =>
      have hne : c ≠ newline := fun h => hn (congrArg some h)
      dsimp only
      unfold typeChar
      dsimp only
      rw [if_neg hne]
      by_cases hb : c = backspace
      · rw [if_pos hb]
        by_cases hpos : t.kbd.lineLen > 0
        · rw [if_pos hpos]
          refine Or.inr (Or.inl ⟨congrArg some hb, hpos, ?_, Nat.sub_add_cancel hpos, rfl⟩)
          exact (List.dropLast_take hlt).symm
        · rw [if_neg hpos]
          refine Or.inl ⟨rfl, rfl, rfl, fun d hd' => ?_⟩
          obtain rfl := Option.some.inj hd'
          rw [if_pos hb]
          omega
      · rw [if_neg hb]
        by_cases hroom : t.kbd.lineLen < lineMax - 1
        · rw [if_pos hroom]
          refine Or.inr (Or.inr ⟨c, rfl, hne, hb, hroom, ?_, rfl, rfl⟩)
          dsimp only
          rw [List.take_add_one, List.getElem?_set_self hlt, List.take_set_of_le (Nat.le_refl _)]
          rfl
        · rw [if_neg hroom]
          refine Or.inl ⟨rfl, rfl, rfl, fun d hd' => ?_⟩
          obtain rfl := Option.some.inj hd'
          have hfull : ¬ t.kbd.lineLen < 127 := hroom
          rw [if_neg hb]
          omega

theorem ready_moveCursor {s : Screen} (h : s.Ready) : (moveCursor s).Ready :=
  ⟨⟨h.wf.row, h.wf.col⟩, hwCursor_moveCursor h.wf, h.blank⟩

-- The cursor is at the end of what is shown, whatever is typed.
theorem ready_key {t : Terminal} (h : t.screen.Ready) (hwf : t.kbd.WF) {sc : UInt8}
    (hn : (decode t.kbd.mods sc).2 ≠ some newline) :
    (t.key sc).screen.Ready ∧ (t.key sc).kbd.WF := by
  refine ⟨?_, wf_keyboardCallback hwf sc⟩
  rcases key_cases hwf hn with ⟨-, -, hscreen, -⟩ | ⟨-, -, -, -, hscreen⟩ | ⟨c, hc, hne, hb, -, -, -, hscreen⟩
  · rw [hscreen]
    exact h
  · rw [hscreen]
    by_cases hzero : t.screen.cursorCol = 0
    · rw [show kputc t.screen backspace = moveCursor t.screen from kputc_backspace_start h.wf hzero]
      exact ready_moveCursor h
    · exact (erased_kputc h (Nat.pos_of_ne_zero hzero)).1
  · rw [hscreen]
    exact (printed_kputc h hne (decode_char hc).2 hb).ready

-- A character more on the line is a character more on the screen.
theorem showsLine_append {a : Nat} {t u : Terminal} (h : t.screen.Ready) (hshow : ShowsLine a t)
    {c : UInt8} (hroom : t.line.length < 127) (hline : u.line = t.line ++ [c])
    (hp : Printed t.screen (glyphs t.screen.abs c) u.screen) : ShowsLine a u := by
  obtain ⟨hlo, hend, hchars⟩ := (showsLine_iff h).mp hshow
  have hlayout : layout a u.line = layout a t.line ++ glyphs t.screen.abs c := by
    rw [hline, layout_append, hend]
  have habs : u.screen.abs = a + (layout a u.line).length := by
    rw [hp.abs, hend, hlayout, List.length_append, hend]
    omega
  have hlo' : 80 * u.screen.scrolled ≤ a := by
    rcases hp.row with heq | h24
    · rw [heq]
      exact hlo
    · -- at most 127 characters of four columns follow place `a`
      have hle := length_layout_le a u.line
      rw [hline, List.length_append, List.length_singleton, ← hline] at hle
      unfold Screen.abs at habs
      rw [h24] at habs
      omega
  refine (showsLine_iff hp.ready).mpr ⟨hlo', habs, fun j hj => ?_⟩
  by_cases hj' : j < (layout a t.line).length
  · rw [hp.before _ (by omega) (by omega), hchars j hj']
    simp only [hlayout, List.getElem_append_left hj']
  · have hlen : (layout a u.line).length =
        (layout a t.line).length + (glyphs t.screen.abs c).length := by
      rw [hlayout, List.length_append]
    have htext := hp.text (j - (layout a t.line).length) (by omega)
    rw [show t.screen.abs + (j - (layout a t.line).length) = a + j by omega] at htext
    rw [htext]
    simp only [hlayout, List.getElem_append_right (Nat.le_of_not_lt hj')]

-- A tab that is more than one column wide is the only character that is.
theorem wide_iff {a : Nat} (line : List UInt8) (c : UInt8) :
    (∃ init, line ++ [c] = init ++ [tab] ∧ 1 < (glyphs (a + (layout a init).length) tab).length) ↔
      1 < (glyphs (a + (layout a line).length) c).length := by
  constructor
  · rintro ⟨init, heq, hwide⟩
    obtain ⟨rfl, hc⟩ := List.append_inj' heq rfl
    obtain rfl : c = tab := by simpa using hc
    exact hwide
  · intro hwide
    have hc : c = tab := by
      by_contra hne
      have hone : glyphs (a + (layout a line).length) c = [c] := if_neg hne
      rw [hone, List.length_singleton] at hwide
      omega
    exact ⟨line, by rw [hc], hc ▸ hwide⟩

-- A backspace is right on the screen if the cursor can go back over the whole last character.
theorem showsLine_backspace {a : Nat} {t u : Terminal} (h : t.screen.Ready) (hshow : ShowsLine a t)
    {line : List UInt8} {c : UInt8} (hline : t.line = line ++ [c]) (hline' : u.line = line)
    (hscreen : u.screen = kputc t.screen backspace) :
    ShowsLine a u ↔ t.screen.cursorCol ≠ 0 ∧
      ¬ 1 < (glyphs (a + (layout a line).length) c).length := by
  obtain ⟨hlo, hend, hchars⟩ := (showsLine_iff h).mp hshow
  have hpos := length_glyphs_pos (a + (layout a line).length) c
  have hlayout : layout a t.line = layout a line ++ glyphs (a + (layout a line).length) c := by
    rw [hline, layout_append]
  have hlen : (layout a t.line).length =
      (layout a line).length + (glyphs (a + (layout a line).length) c).length := by
    rw [hlayout, List.length_append]
  by_cases hzero : t.screen.cursorCol = 0
  · -- the cursor stays behind the character
    have hmove : u.screen = moveCursor t.screen := hscreen.trans (kputc_backspace_start h.wf hzero)
    have hready : u.screen.Ready := by
      rw [hmove]
      exact ready_moveCursor h
    refine iff_of_false (fun hu => ?_) fun hu => hu.1 hzero
    obtain ⟨-, hend', -⟩ := (showsLine_iff hready).mp hu
    rw [hmove, hline'] at hend'
    change t.screen.abs = _ at hend'
    omega
  · obtain ⟨hready, habs, hscr, hkeep⟩ := erased_kputc h (Nat.pos_of_ne_zero hzero)
    change u.screen = kputc t.screen 0x08 at hscreen
    rw [← hscreen] at hready habs hscr hkeep
    rw [showsLine_iff hready, hline', hscr]
    constructor
    · rintro ⟨-, hend', -⟩
      exact ⟨hzero, by omega⟩
    · rintro ⟨-, hone⟩
      refine ⟨hlo, by omega, fun j hj => ?_⟩
      rw [hkeep _ (by omega) (by omega), hchars j (by omega)]
      simp only [hlayout, List.getElem_append_left hj]

theorem showsLine_key {a : Nat} {t : Terminal} (h : t.screen.Ready) (hwf : t.kbd.WF)
    (hshow : ShowsLine a t) {sc : UInt8} (hn : (decode t.kbd.mods sc).2 ≠ some newline) :
    ShowsLine a (t.key sc) ↔ ¬ Slips a t sc := by
  have hlen : t.line.length = t.kbd.lineLen := by
    have hle : t.kbd.lineLen ≤ 128 := Nat.le_trans hwf.2 (by decide)
    have hbuf : t.kbd.lineBuf.length = 128 := hwf.1
    unfold Terminal.line
    rw [List.length_take, hbuf, Nat.min_eq_left hle]
  rcases key_cases hwf hn with
    ⟨hline, -, hscreen, hidle⟩ | ⟨hback, hpos, hline, -, hscreen⟩ | ⟨c, hc, hne, hb, hroom, hline, -, hscreen⟩
  · refine iff_of_true ?_ ?_
    · unfold ShowsLine
      rw [hline, hscreen]
      exact hshow
    · rintro ⟨hback, hpos, -⟩
      have hzero := hidle _ hback
      rw [if_pos rfl] at hzero
      omega
  · obtain ⟨line, c, hlast⟩ : ∃ line c, t.line = line ++ [c] := by
      have hne : t.line ≠ [] := List.ne_nil_of_length_pos (hlen ▸ hpos)
      exact ⟨_, _, (List.dropLast_append_getLast hne).symm⟩
    rw [hlast, List.dropLast_concat] at hline
    rw [showsLine_backspace h hshow hlast hline hscreen]
    unfold Slips
    rw [and_iff_right hback, and_iff_right hpos, not_or, hlast, wide_iff]
  · refine iff_of_true ?_ fun hslip => hb (Option.some.inj (hc.symm.trans hslip.1))
    have hp := printed_kputc h hne (decode_char hc).2 hb
    rw [← hscreen] at hp
    exact showsLine_append h hshow (by omega) hline hp

/-! ## Sequences of keys -/

def scEnter : UInt8 := 0x1C
def scBack : UInt8 := 0x0E

theorem decode_ne_newline {sc : UInt8} (h : sc ≠ scEnter) (m : Mods) :
    (decode m sc).2 ≠ some newline := fun hd => h (decode_newline hd)

theorem decode_scBack (m : Mods) : (decode m scBack).2 = some backspace := by
  obtain ⟨shift, caps⟩ := m
  cases shift with
  | false => cases caps <;> rfl
  | true => cases caps <;> rfl

theorem ready_keys {t : Terminal} (h : t.screen.Ready) (hwf : t.kbd.WF) {scs : List UInt8}
    (hscs : scEnter ∉ scs) : (t.keys scs).screen.Ready ∧ (t.keys scs).kbd.WF := by
  induction scs generalizing t with
  | nil => exact ⟨h, hwf⟩
  | cons sc scs ih =>
    rw [List.mem_cons, not_or] at hscs
    obtain ⟨hsc, hrest⟩ := hscs
    obtain ⟨h', hwf'⟩ := ready_key h hwf (decode_ne_newline (Ne.symm hsc) _)
    exact ih h' hwf' hrest

theorem showsLine_keys {a : Nat} {t : Terminal} (h : t.screen.Ready) (hwf : t.kbd.WF)
    (hshow : ShowsLine a t) {scs : List UInt8} (hscs : scEnter ∉ scs) :
    (∀ pre, pre <+: scs → ShowsLine a (t.keys pre)) ↔
      ∀ pre sc, pre ++ [sc] <+: scs → ¬ Slips a (t.keys pre) sc := by
  induction scs generalizing t with
  | nil =>
    refine iff_of_true (fun pre hpre => ?_) fun pre sc hpre => absurd hpre (by simp)
    rw [List.prefix_nil.mp hpre]
    exact hshow
  | cons sc scs ih =>
    rw [List.mem_cons, not_or] at hscs
    obtain ⟨hsc, hrest⟩ := hscs
    have hn := decode_ne_newline (Ne.symm hsc) t.kbd.mods
    obtain ⟨h', hwf'⟩ := ready_key h hwf hn
    have hstep := showsLine_key h hwf hshow hn
    constructor
    · intro hall pre d hpre
      have hfirst : ShowsLine a (t.key sc) := hall [sc] (by simp)
      cases pre with
      | nil =>
        obtain ⟨rfl, -⟩ := List.cons_prefix_cons.mp hpre
        exact hstep.mp hfirst
      | cons p pre =>
        obtain ⟨rfl, htail⟩ := List.cons_prefix_cons.mp hpre
        refine (ih h' hwf' hfirst hrest).mp (fun pre' hpre' => ?_) pre d htail
        exact hall (p :: pre') (List.cons_prefix_cons.mpr ⟨rfl, hpre'⟩)
    · intro hall pre hpre
      have hfirst : ShowsLine a (t.key sc) := hstep.mpr (hall [] sc (by simp))
      cases pre with
      | nil => exact hshow
      | cons p pre =>
        obtain ⟨rfl, htail⟩ := List.cons_prefix_cons.mp hpre
        refine (ih h' hwf' hfirst hrest).mpr (fun pre' d hpre' => ?_) pre htail
        exact hall (p :: pre') d (List.cons_prefix_cons.mpr ⟨rfl, hpre'⟩)

/-! ## A character and a backspace -/

/-- The key of a character and then the backspace key leave the line's length and the cursor as they
were. -/
def Restores (t : Terminal) (sc : UInt8) : Prop :=
  ((t.key sc).key scBack).kbd.lineLen = t.kbd.lineLen ∧
    ((t.key sc).key scBack).screen.hwCursor = t.screen.hwCursor

-- The cursor comes back if it has moved by one column and has not left the row.
theorem cursor_back_iff {s s₁ : Screen} (h : s.Ready) {c : UInt8}
    (hp : Printed s (glyphs s.abs c) s₁) :
    (kputc s₁ backspace).hwCursor = s.hwCursor ↔
      s.cursorCol ≠ 79 ∧ (c = tab → s.cursorCol % 4 = 3) := by
  have hcol := h.wf.col
  have hcol₁ := hp.ready.wf.col
  have hpos := length_glyphs_pos s.abs c
  have hle := length_glyphs_le s.abs c
  have habs := hp.abs
  have hscr := hp.le
  -- one column is what every character takes, except a tab in the wrong place
  have hwidth : (glyphs s.abs c).length = 1 ↔ (c = tab → s.cursorCol % 4 = 3) := by
    have hmod : s.abs % 4 = s.cursorCol % 4 := by
      unfold Screen.abs
      omega
    unfold glyphs
    by_cases hc : c = 0x09
    · rw [if_pos hc, List.length_replicate, hmod]
      exact ⟨fun hone _ => by omega, fun htab => by have := htab hc; omega⟩
    · rw [if_neg hc]
      exact iff_of_true rfl fun hc' => absurd hc' hc
  rw [← hwidth, h.hw]
  generalize (glyphs s.abs c).length = w at hpos hle habs
  by_cases hzero : s₁.cursorCol = 0
  · have hmove : kputc s₁ backspace = moveCursor s₁ := kputc_backspace_start hp.ready.wf hzero
    rw [hmove, hwCursor_moveCursor hp.ready.wf, hzero]
    unfold Screen.abs at habs
    omega
  · obtain ⟨hready, hback, hscr', -⟩ := erased_kputc hp.ready (Nat.pos_of_ne_zero hzero)
    change (kputc s₁ backspace).Ready at hready
    change (kputc s₁ backspace).abs + 1 = s₁.abs at hback
    change (kputc s₁ backspace).scrolled = s₁.scrolled at hscr'
    have hcol₂ := hready.wf.col
    have hrow := hp.row
    have hrow₁ := h.wf.row
    rw [hready.hw]
    unfold Screen.abs at habs hback
    rw [hscr'] at hback
    constructor
    · intro hsame
      omega
    · rintro ⟨hend, hone⟩
      omega

theorem restores_iff {t : Terminal} (h : t.screen.Ready) (hwf : t.kbd.WF) {sc c : UInt8}
    (hc : (decode t.kbd.mods sc).2 = some c) (hn : c ≠ newline) (hb : c ≠ backspace) :
    Restores t sc ↔ t.kbd.lineLen < 127 ∧ t.screen.cursorCol ≠ 79 ∧
      (c = tab → t.screen.cursorCol % 4 = 3) := by
  have hne : (decode t.kbd.mods sc).2 ≠ some newline := fun hd => hn (Option.some.inj (hc.symm.trans hd))
  obtain ⟨hready, hwf'⟩ := ready_key h hwf hne
  have hback := decode_scBack (t.key sc).kbd.mods
  have hnback : (decode (t.key sc).kbd.mods scBack).2 ≠ some newline := decode_ne_newline (by decide) _
  -- the backspace takes a character if there is one
  have htake : 0 < (t.key sc).kbd.lineLen →
      ((t.key sc).key scBack).kbd.lineLen + 1 = (t.key sc).kbd.lineLen ∧
        ((t.key sc).key scBack).screen = kputc (t.key sc).screen backspace := by
    intro hpos
    rcases key_cases hwf' hnback with ⟨-, -, -, hidle⟩ | ⟨-, -, -, hlen, hscreen⟩ | ⟨d, hd, -, hdb, -⟩
    · have hzero := hidle _ hback
      rw [if_pos rfl] at hzero
      omega
    · exact ⟨hlen, hscreen⟩
    · exact absurd (Option.some.inj (hd.symm.trans hback)) hdb
  unfold Restores
  rcases key_cases hwf hne with ⟨-, hlen, -, hidle⟩ | ⟨hbk, -⟩ | ⟨d, hd, -, -, hroom, -, hlen, hscreen⟩
  · have hfull := hidle c hc
    rw [if_neg hb] at hfull
    obtain ⟨hless, -⟩ := htake (by omega)
    exact iff_of_false (fun hr => by omega) fun hr => by omega
  · exact absurd (Option.some.inj (hc.symm.trans hbk)) hb
  · obtain rfl : d = c := Option.some.inj (hd.symm.trans hc)
    obtain ⟨hless, hscreen'⟩ := htake (by omega)
    have hp := printed_kputc h hn (decode_char hc).2 hb
    rw [← hscreen] at hp
    rw [hscreen', cursor_back_iff h hp, and_iff_right (by omega : _ = t.kbd.lineLen), and_iff_right hroom]

/-! ## After the prompt -/

/-- A text that moves the cursor only forward in its row: no newline, carriage return or backspace. -/
def Forward (text : List UInt8) : Prop := ∀ c ∈ text, c ≠ 0x0A ∧ c ≠ 0x0D ∧ c ≠ 0x08

theorem ready_kprint {s : Screen} (h : s.Ready) {text : List UInt8} (htext : Forward text) :
    (kprint s text).Ready := by
  induction text generalizing s with
  | nil => exact h
  | cons c text ih =>
    obtain ⟨⟨hn, hr, hb⟩, hrest⟩ := List.forall_mem_cons.mp htext
    exact ih (printed_kputc h hn hr hb).ready hrest

theorem ready_setColor {s : Screen} (h : s.Ready) (color : UInt8) : (setColor s color).Ready :=
  ⟨⟨h.wf.row, h.wf.col⟩, h.hw, h.blank⟩

theorem ready_prompt {s : Screen} (h : LineStart s) {text : List UInt8} (htext : Forward text) :
    (prompt s text).Ready :=
  ready_setColor (ready_kprint (ready_setColor (lineStart_ready h) _) htext) _

-- Before the first key there is nothing on the line and nothing behind the prompt.
theorem showsLine_start {k : Kbd} (hempty : k.lineLen = 0) {s : Screen} (h : s.Ready) :
    ShowsLine s.abs ⟨k, s⟩ := by
  have hline : (Terminal.mk k s).line = [] := by
    unfold Terminal.line
    rw [hempty, List.take_zero]
  refine (showsLine_iff h).mpr ⟨le_abs s, by rw [hline]; rfl, fun j hj => ?_⟩
  rw [hline] at hj
  exact absurd hj (Nat.not_lt_zero j)

/-- A prompt is printed at the start of a line, and keys other than Enter are typed.  The screen shows
the line after every key exactly if no backspace slips.  After the keys, a character and a backspace
leave the line's length and the cursor as they were exactly if there is room on the line and the
character neither ends the row nor is a tab of more than one column. -/
theorem screen_shows_line {s : Screen} (hs : LineStart s) {text : List UInt8} (htext : Forward text)
    {k : Kbd} (hk : k.WF) (hempty : k.lineLen = 0) {scs : List UInt8} (hscs : scEnter ∉ scs) :
    ((∀ pre, pre <+: scs → ShowsLine (prompt s text).abs (Terminal.keys ⟨k, prompt s text⟩ pre)) ↔
      ∀ pre sc, pre ++ [sc] <+: scs →
        ¬ Slips (prompt s text).abs (Terminal.keys ⟨k, prompt s text⟩ pre) sc) ∧
    ∀ sc c, (decode (Terminal.keys ⟨k, prompt s text⟩ scs).kbd.mods sc).2 = some c → c ≠ newline →
      c ≠ backspace →
      (Restores (Terminal.keys ⟨k, prompt s text⟩ scs) sc ↔
        (Terminal.keys ⟨k, prompt s text⟩ scs).kbd.lineLen < 127 ∧
        (Terminal.keys ⟨k, prompt s text⟩ scs).screen.cursorCol ≠ 79 ∧
        (c = tab → (Terminal.keys ⟨k, prompt s text⟩ scs).screen.cursorCol % 4 = 3)) := by
  have hready := ready_prompt hs htext
  refine ⟨showsLine_keys hready hk (showsLine_start hempty hready) hscs, fun sc c hc hn hb => ?_⟩
  obtain ⟨hready', hwf⟩ := @ready_keys ⟨k, prompt s text⟩ hready hk scs hscs
  exact restores_iff hready' hwf hc hn hb

/-- A cleared screen. -/
def cleared : Screen := clearScreen ⟨fun _ => 0, 0x07, 0, 0, 0, 0, 0⟩

theorem lineStart_cleared : LineStart cleared := .clear _

theorem forward_prompt : Forward (ascii "/ $ ") := by
  unfold Forward
  decide +kernel

-- `a` and the backspace key: the screen shows an empty line again.
theorem screen_shows_line_a :
    ShowsLine (prompt cleared (ascii "/ $ ")).abs
      (Terminal.keys ⟨boot.kbd, prompt cleared (ascii "/ $ ")⟩ [0x1E, scBack]) := by
  refine (screen_shows_line lineStart_cleared forward_prompt wf_boot rfl (by decide)).1.mpr ?_ _
    (List.prefix_refl _)
  intro pre sc hpre hslip
  obtain ⟨hback, hpos, hwhy⟩ := hslip
  cases pre with
  | nil => exact absurd hpos (Nat.lt_irrefl 0)
  | cons p pre =>
    obtain ⟨rfl, htail⟩ := List.cons_prefix_cons.mp hpre
    cases pre with
    | nil =>
      rcases hwhy with hzero | ⟨line, hline, -⟩
      · exact absurd hzero (by decide)
      · have hlast := congrArg List.getLast? hline
        rw [List.getLast?_concat] at hlast
        exact absurd hlast (by decide)
    | cons q pre =>
      have hlen := hpre.length_le
      rw [List.length_append] at hlen
      dsimp only [List.length_cons, List.length_nil] at hlen
      omega

-- The tab key and the backspace key after the prompt: the line is empty and the cursor three columns on.
theorem screen_shows_other :
    ¬ ShowsLine (prompt cleared (ascii "/ $ ")).abs
      (Terminal.keys ⟨boot.kbd, prompt cleared (ascii "/ $ ")⟩ [0x0F, scBack]) := by
  have hready := ready_prompt lineStart_cleared forward_prompt
  have hstart := @showsLine_start boot.kbd rfl _ hready
  have hn : ∀ m sc, sc ≠ scEnter → (decode m sc).2 ≠ some newline :=
    fun m sc hsc => decode_ne_newline hsc m
  have htab := (showsLine_key hready wf_boot hstart (hn _ 0x0F (by decide))).mpr
    fun hslip => absurd hslip.1 (by decide)
  obtain ⟨hready', hwf⟩ := @ready_key
    ⟨boot.kbd, prompt cleared (ascii "/ $ ")⟩ hready wf_boot 0x0F (hn _ _ (by decide))
  have habs : (prompt cleared (ascii "/ $ ")).abs = 4 := by decide
  rw [Terminal.keys, Terminal.keys, Terminal.keys]
  rw [showsLine_key hready' hwf htab (hn _ _ (by decide)), not_not]
  refine ⟨decode_scBack _, by decide, Or.inr ⟨[], by decide, ?_⟩⟩
  change 1 < (glyphs ((prompt cleared (ascii "/ $ ")).abs + 0) tab).length
  rw [habs]
  decide

end JacobOS.Echo
