import JacobOS.Kernel.Shell

/-!
# The keyboard driver of `drivers/keyboard.c`

`keyboard_callback` decodes a scancode and edits `line_buf`.  Enter hands the buffer to the line
handler, which is the shell: it splits the line in place and may run a program in ring 3, so further
scancodes can be delivered before it returns.  `line_len` is reset only after that.

The second part compares what the handler gets with a line editor that starts a new line at every
Enter.
-/

namespace JacobOS.Keyboard

open CString

def scLshift : UInt8 := 0x2A
def scRshift : UInt8 := 0x36
def scCaps : UInt8 := 0x3A
def releaseBit : UInt8 := 0x80
def lineMax : Nat := 128

/-- The entries of `map_lower` up to its last non-zero one. -/
def mapLower : List UInt8 :=
  [0, 27] ++ ascii "1234567890-=\x08\tqwertyuiop[]\n" ++ [0] ++ ascii "asdfghjkl;'`" ++ [0] ++
    ascii "\\zxcvbnm,./" ++ [0] ++ ascii "*" ++ [0] ++ ascii " "

def mapUpper : List UInt8 :=
  [0, 27] ++ ascii "!@#$%^&*()_+\x08\tQWERTYUIOP\x7b\x7d\n" ++ [0] ++ ascii "ASDFGHJKL:\"~" ++ [0] ++
    ascii "|ZXCVBNM<>?" ++ [0] ++ ascii "*" ++ [0] ++ ascii " "

def isLetter (c : UInt8) : Bool := (0x61 ≤ c && c ≤ 0x7A) || (0x41 ≤ c && c ≤ 0x5A)

def newline : UInt8 := 0x0A
def backspace : UInt8 := 0x08

/-- Caps lock only affects letters, and xors with shift. -/
def withCaps (caps : Bool) (c : UInt8) : UInt8 :=
  if caps && isLetter c then
    if 0x61 ≤ c ∧ c ≤ 0x7A then c - 32
    else if 0x41 ≤ c ∧ c ≤ 0x5A then c + 32
    else c
  else c

/-- The two modifiers. -/
structure Mods where
  shift : Bool
  caps : Bool
deriving DecidableEq

/-- The first part of `keyboard_callback`: the modifiers after a scancode, and the character it stands
for. -/
def decode (m : Mods) (sc : UInt8) : Mods × Option UInt8 :=
  if sc &&& releaseBit ≠ 0 then
    let code := sc &&& ~~~releaseBit
    if code = scLshift ∨ code = scRshift then ({ m with shift := false }, none) else (m, none)
  else if sc = scLshift ∨ sc = scRshift then ({ m with shift := true }, none)
  else if sc = scCaps then ({ m with caps := !m.caps }, none)
  else if sc ≥ 128 then (m, none)
  else
    let c := if m.shift then mapUpper.getD sc.toNat 0 else mapLower.getD sc.toNat 0
    if c = 0 then (m, none) else (m, some (withCaps m.caps c))

structure Kbd where
  /-- `line_buf[LINE_MAX]`. -/
  lineBuf : List UInt8
  lineLen : Nat
  mods : Mods
  /-- Whether a line handler is registered. -/
  lineHandler : Bool

/-- What the driver does to the rest of the system. -/
inductive Action where
  | kputc (c : UInt8)
  | handle (line : List UInt8)
deriving DecidableEq

/-- `submit_line` up to the handler's return.  The handler starts with `tokenize`. -/
def submitLine (k : Kbd) : Kbd × List Action :=
  let line := k.lineBuf.set k.lineLen 0
  if k.lineHandler then
    ({ k with lineBuf := (Shell.tokenizeLoop 16 line 0).1 }, [.handle (cstr line)])
  else ({ k with lineBuf := line, lineLen := 0 }, [])

/-- The second part of `keyboard_callback`. -/
def typeChar (k : Kbd) (c : UInt8) : Kbd × List Action :=
  if c = newline then
    let r := submitLine k
    (r.1, .kputc newline :: r.2)
  else if c = backspace then
    if k.lineLen > 0 then ({ k with lineLen := k.lineLen - 1 }, [.kputc backspace]) else (k, [])
  else if k.lineLen < lineMax - 1 then
    ({ k with lineBuf := k.lineBuf.set k.lineLen c, lineLen := k.lineLen + 1 }, [.kputc c])
  else (k, [])

def keyboardCallback (k : Kbd) (sc : UInt8) : Kbd × List Action :=
  let (mods, c) := decode k.mods sc
  let k := { k with mods := mods }
  match c with
  | none => (k, [])
  | some c => typeChar k c

/-! ## Nested deliveries -/

/-- The driver, and how many handler calls have not returned. -/
structure Console where
  kbd : Kbd
  pending : Nat

/-- A scancode is delivered, or a handler call returns to `submit_line`. -/
inductive Event where
  | key (sc : UInt8)
  | ret

def Action.line? : Action → Option (List UInt8)
  | .kputc _ => none
  | .handle line => some line

/-- The lines handed to the handler. -/
def linesOf (acts : List Action) : List (List UInt8) := acts.filterMap Action.line?

def Console.step (s : Console) : Event → Console × List Action
  | .key sc =>
      let r := keyboardCallback s.kbd sc
      (⟨r.1, s.pending + (linesOf r.2).length⟩, r.2)
  | .ret =>
      if s.pending = 0 then (s, []) else (⟨{ s.kbd with lineLen := 0 }, s.pending - 1⟩, [])

def Console.run (s : Console) : List Event → Console × List Action
  | [] => (s, [])
  | e :: es =>
      let r := s.step e
      let t := r.1.run es
      (t.1, r.2 ++ t.2)

/-- The console when the shell has registered its handler. -/
def boot : Console :=
  ⟨⟨List.replicate lineMax 0, 0, ⟨false, false⟩, true⟩, 0⟩

/-! ## The line editor -/

/-- What is typed since the last Enter. -/
structure Editor where
  mods : Mods
  line : List UInt8

def edit (line : List UInt8) (c : UInt8) : List UInt8 :=
  if c = backspace then line.dropLast else if line.length < 127 then line ++ [c] else line

/-- One event: the editor afterwards, and the line that Enter completes.  The editor knows nothing of
handlers. -/
def Editor.step (ed : Editor) : Event → Editor × List (List UInt8)
  | .key sc =>
      match decode ed.mods sc with
      | (mods, none) => (⟨mods, ed.line⟩, [])
      | (mods, some c) =>
          if c = newline then (⟨mods, []⟩, [ed.line]) else (⟨mods, edit ed.line c⟩, [])
  | .ret => (ed, [])

def Editor.run (ed : Editor) : List Event → Editor × List (List UInt8)
  | [] => (ed, [])
  | e :: es =>
      let r := ed.step e
      let t := r.1.run es
      (t.1, r.2 ++ t.2)

def Editor.boot : Editor := ⟨⟨false, false⟩, []⟩

/-! ## The buffer -/

/-- The buffer has its size and the line in it leaves room for the NUL. -/
def Kbd.WF (k : Kbd) : Prop := k.lineBuf.length = lineMax ∧ k.lineLen ≤ 127

theorem skipSpaces_le (s : List UInt8) : Shell.skipSpaces s ≤ s.length := by
  induction s with
  | nil => exact Nat.le_refl 0
  | cons c s ih =>
    rw [Shell.skipSpaces, List.length_cons]
    split
    · omega
    · omega

theorem length_tokenizeLoop (left : Nat) (line : List UInt8) (p : Nat) :
    (Shell.tokenizeLoop left line p).1.length = line.length := by
  induction left generalizing line p with
  | zero => rfl
  | succ left ih =>
    have hle := skipSpaces_le (line.drop p)
    rw [List.length_drop] at hle
    have hlen : (line.take p ++ List.replicate (Shell.skipSpaces (line.drop p)) 0 ++
        line.drop (p + Shell.skipSpaces (line.drop p))).length = line.length := by
      simp only [List.length_append, List.length_take, List.length_replicate, List.length_drop]
      omega
    rw [Shell.tokenizeLoop]
    split
    · rfl
    · dsimp only
      split
      · exact hlen
      · dsimp only
        rw [ih, hlen]

theorem wf_typeChar {k : Kbd} (h : k.WF) (c : UInt8) : (typeChar k c).1.WF := by
  obtain ⟨hbuf, hlen⟩ := h
  unfold typeChar
  split
  · unfold submitLine
    dsimp only
    split
    · exact ⟨by rw [length_tokenizeLoop, List.length_set, hbuf], hlen⟩
    · exact ⟨by rw [List.length_set, hbuf], Nat.zero_le _⟩
  split
  · split
    · exact ⟨hbuf, by dsimp only; omega⟩
    · exact ⟨hbuf, hlen⟩
  split
  · rename_i hlt
    have hroom : k.lineLen < 127 := hlt
    exact ⟨by rw [List.length_set, hbuf], by dsimp only; omega⟩
  · exact ⟨hbuf, hlen⟩

theorem wf_keyboardCallback {k : Kbd} (h : k.WF) (sc : UInt8) : (keyboardCallback k sc).1.WF := by
  unfold keyboardCallback
  dsimp only
  split
  · exact h
  · exact wf_typeChar (k := ⟨k.lineBuf, k.lineLen, (decode k.mods sc).1, k.lineHandler⟩) h _

theorem wf_step {s : Console} (h : s.kbd.WF) (e : Event) : (s.step e).1.kbd.WF := by
  cases e with
  | key sc => exact wf_keyboardCallback h sc
  | ret =>
    unfold Console.step
    dsimp only
    split
    · exact h
    · exact ⟨h.1, Nat.zero_le _⟩

theorem wf_run {s : Console} (h : s.kbd.WF) (es : List Event) : (s.run es).1.kbd.WF := by
  induction es generalizing s with
  | nil => exact h
  | cons e es ih => exact ih (wf_step h e)

theorem wf_boot : boot.kbd.WF := ⟨rfl, Nat.zero_le _⟩

/-! ## What the driver and the editor have in common -/

-- The characters of the tables: neither NUL nor a carriage return.
theorem withCaps_map : ∀ c ∈ mapUpper ++ mapLower, c ≠ 0 → ∀ caps,
    withCaps caps c ≠ 0 ∧ withCaps caps c ≠ 0x0D := by decide +kernel

/-- The table that the shift key selects. -/
def keyMap (m : Mods) : List UInt8 := if m.shift then mapUpper else mapLower

theorem decode_some {m : Mods} {sc c : UInt8} (h : (decode m sc).2 = some c) :
    (keyMap m).getD sc.toNat 0 ≠ 0 ∧ c = withCaps m.caps ((keyMap m).getD sc.toNat 0) := by
  have hmap : (if m.shift = true then mapUpper.getD sc.toNat 0 else mapLower.getD sc.toNat 0) =
      (keyMap m).getD sc.toNat 0 := by
    unfold keyMap
    split
    · rfl
    · rfl
  unfold decode at h
  dsimp only at h
  by_cases h1 : sc &&& releaseBit ≠ 0
  · rw [if_pos h1] at h
    split at h
    · exact absurd h (by simp)
    · exact absurd h (by simp)
  rw [if_neg h1] at h
  by_cases h2 : sc = scLshift ∨ sc = scRshift
  · rw [if_pos h2] at h
    exact absurd h (by simp)
  rw [if_neg h2] at h
  by_cases h3 : sc = scCaps
  · rw [if_pos h3] at h
    exact absurd h (by simp)
  rw [if_neg h3] at h
  by_cases h4 : sc ≥ 128
  · rw [if_pos h4] at h
    exact absurd h (by simp)
  rw [if_neg h4, hmap] at h
  by_cases h5 : (keyMap m).getD sc.toNat 0 = 0
  · rw [if_pos h5] at h
    exact absurd h (by simp)
  rw [if_neg h5] at h
  exact ⟨h5, (Option.some.inj h).symm⟩

theorem keyMap_subset (m : Mods) : keyMap m ⊆ mapUpper ++ mapLower := by
  unfold keyMap
  split
  · exact List.subset_append_left _ _
  · exact List.subset_append_right _ _

theorem decode_char {m : Mods} {sc c : UInt8} (h : (decode m sc).2 = some c) : c ≠ 0 ∧ c ≠ 0x0D := by
  obtain ⟨hne, rfl⟩ := decode_some h
  by_cases hlt : sc.toNat < (keyMap m).length
  · rw [List.getD_eq_getElem (keyMap m) 0 hlt] at hne ⊢
    exact withCaps_map _ (keyMap_subset m (List.getElem_mem hlt)) hne m.caps
  · exact absurd (List.getD_eq_default (keyMap m) 0 (by omega)) hne

-- Enter is the only key that stands for a newline.
theorem keyMap_newline : ∀ shift caps, ∀ i < 58,
    withCaps caps ((keyMap ⟨shift, caps⟩).getD i 0) = newline → i = 0x1C := by decide

theorem decode_newline {m : Mods} {sc : UInt8} (h : (decode m sc).2 = some newline) : sc = 0x1C := by
  obtain ⟨hne, heq⟩ := decode_some h
  have hlen : ∀ shift caps, (keyMap ⟨shift, caps⟩).length = 58 := by decide
  by_cases hlt : sc.toNat < 58
  · exact UInt8.toNat_inj.mp (keyMap_newline m.shift m.caps sc.toNat hlt heq.symm)
  · refine absurd (List.getD_eq_default (keyMap m) 0 ?_) hne
    rw [hlen m.shift m.caps]
    omega

/-- The editor's line is what the buffer holds, or nothing is typed yet. -/
structure Follows (k : Kbd) (ed : Editor) : Prop where
  wf : k.WF
  handler : k.lineHandler = true
  mods : k.mods = ed.mods
  text : ed.line = [] ∨ k.lineBuf.take k.lineLen = ed.line
  nonzero : 0 ∉ ed.line

/-- A character or Enter comes only while `line_len` is the length of what is typed since the last
Enter; a handler returns only while nothing is typed. -/
def Undisturbed (s : Console) (ed : Editor) : Event → Prop
  | .key sc => ∀ c ∈ (decode s.kbd.mods sc).2, c ≠ backspace → s.kbd.lineLen = ed.line.length
  | .ret => s.pending ≠ 0 → ed.line = []

instance (s : Console) (ed : Editor) (e : Event) : Decidable (Undisturbed s ed e) :=
  match e with
  | .key sc => inferInstanceAs (Decidable (∀ c ∈ (decode s.kbd.mods sc).2, c ≠ backspace →
      s.kbd.lineLen = ed.line.length))
  | .ret => inferInstanceAs (Decidable (s.pending ≠ 0 → ed.line = []))

/-- Every event of a run comes undisturbed. -/
def UndisturbedRun (s : Console) (ed : Editor) : List Event → Prop
  | [] => True
  | e :: es => Undisturbed s ed e ∧ UndisturbedRun (s.step e).1 (ed.step e).1 es

instance decidableUndisturbedRun (s : Console) (ed : Editor) :
    (es : List Event) → Decidable (UndisturbedRun s ed es)
  | [] => .isTrue trivial
  | e :: es =>
      @instDecidableAnd _ _ inferInstance (decidableUndisturbedRun (s.step e).1 (ed.step e).1 es)

namespace Follows

variable {k : Kbd} {ed : Editor}

theorem take_eq (h : Follows k ed) (hlen : k.lineLen = ed.line.length) :
    k.lineBuf.take k.lineLen = ed.line := by
  rcases h.text with hnil | htext
  · rw [hlen, hnil, List.length_nil, List.take_zero]
  · exact htext

-- The NUL that Enter stores ends the string where the line ends.
theorem cstr_set (h : Follows k ed) (hlen : k.lineLen = ed.line.length) :
    cstr (k.lineBuf.set k.lineLen 0) = ed.line := by
  have hlt : k.lineLen < k.lineBuf.length := by
    rw [h.wf.1]
    exact Nat.lt_of_le_of_lt h.wf.2 (by decide)
  rw [List.set_eq_take_append_cons_drop, if_pos hlt, h.take_eq hlen, cstr_append_zero h.nonzero]

-- A character at the end of the line.
theorem append (h : Follows k ed) (hlen : k.lineLen = ed.line.length) {c : UInt8} (hc : c ≠ 0)
    (hb : c ≠ backspace) (hroom : k.lineLen < 127) :
    Follows { k with lineBuf := k.lineBuf.set k.lineLen c, lineLen := k.lineLen + 1 }
      ⟨ed.mods, edit ed.line c⟩ := by
  have hlt : k.lineLen < k.lineBuf.length := by
    rw [h.wf.1]
    exact Nat.lt_trans hroom (by decide)
  have hedit : edit ed.line c = ed.line ++ [c] := by
    unfold edit
    rw [if_neg hb, if_pos (hlen ▸ hroom)]
  refine ⟨⟨by rw [List.length_set, h.wf.1], hroom⟩, h.handler, h.mods, Or.inr ?_, ?_⟩
  · dsimp only
    rw [hedit, List.take_add_one, List.getElem?_set_self hlt, List.take_set_of_le (Nat.le_refl _),
      h.take_eq hlen]
    rfl
  · dsimp only
    rw [hedit, List.mem_append, List.mem_singleton]
    exact not_or.mpr ⟨h.nonzero, Ne.symm hc⟩

-- A backspace takes the last character, or there is none.
theorem dropLast (h : Follows k ed) :
    Follows { k with lineLen := k.lineLen - 1 } ⟨ed.mods, edit ed.line backspace⟩ := by
  have hedit : edit ed.line backspace = ed.line.dropLast := if_pos rfl
  refine ⟨⟨h.wf.1, Nat.le_trans (Nat.sub_le _ _) h.wf.2⟩, h.handler, h.mods, ?_, ?_⟩
  · rw [hedit]
    rcases h.text with hnil | htext
    · exact Or.inl (by rw [hnil]; rfl)
    · have hlt : k.lineLen < k.lineBuf.length := by
        rw [h.wf.1]
        exact Nat.lt_of_le_of_lt h.wf.2 (by decide)
      right
      dsimp only
      rw [← htext, List.dropLast_take hlt]
  · rw [hedit]
    exact fun hin => h.nonzero (ed.line.dropLast_sublist.subset hin)

theorem typeChar (h : Follows k ed) {c : UInt8} (hc : c ≠ 0)
    (hlen : c ≠ backspace → k.lineLen = ed.line.length) :
    Follows (typeChar k c).1 ⟨ed.mods, if c = newline then [] else edit ed.line c⟩ ∧
      linesOf (typeChar k c).2 = if c = newline then [ed.line] else [] := by
  unfold Keyboard.typeChar
  by_cases hn : c = newline
  · have hlen' := hlen (by rw [hn]; decide)
    rw [if_pos hn, if_pos hn, if_pos hn]
    unfold submitLine
    dsimp only
    rw [if_pos h.handler, h.cstr_set hlen']
    refine ⟨⟨⟨?_, h.wf.2⟩, h.handler, h.mods, Or.inl rfl, by simp⟩, rfl⟩
    rw [length_tokenizeLoop, List.length_set, h.wf.1]
  rw [if_neg hn, if_neg hn, if_neg hn]
  by_cases hb : c = backspace
  · rw [if_pos hb, hb]
    by_cases hpos : k.lineLen > 0
    · rw [if_pos hpos]
      exact ⟨h.dropLast, rfl⟩
    · have hzero : k.lineLen - 1 = k.lineLen := by omega
      have hdrop := h.dropLast
      rw [hzero] at hdrop
      rw [if_neg hpos]
      exact ⟨hdrop, rfl⟩
  · rw [if_neg hb]
    by_cases hroom : k.lineLen < lineMax - 1
    · rw [if_pos hroom]
      exact ⟨h.append (hlen hb) hc hb hroom, rfl⟩
    · have hfull : edit ed.line c = ed.line := by
        have hlt : ¬ ed.line.length < 127 := by
          rw [← hlen hb]
          exact hroom
        unfold edit
        rw [if_neg hb, if_neg hlt]
      rw [if_neg hroom, hfull]
      exact ⟨h, rfl⟩

end Follows

theorem follows_step {s : Console} {ed : Editor} (h : Follows s.kbd ed) {e : Event}
    (hok : Undisturbed s ed e) :
    Follows (s.step e).1.kbd (ed.step e).1 ∧ linesOf (s.step e).2 = (ed.step e).2 := by
  cases e with
  | ret =>
    unfold Console.step
    dsimp only
    by_cases hp : s.pending = 0
    · rw [if_pos hp]
      exact ⟨h, rfl⟩
    · rw [if_neg hp]
      exact ⟨⟨⟨h.wf.1, Nat.zero_le _⟩, h.handler, h.mods, Or.inl (hok hp), h.nonzero⟩, rfl⟩
  | key sc =>
    unfold Undisturbed at hok
    dsimp only at hok
    unfold Console.step Editor.step keyboardCallback
    rw [← h.mods]
    dsimp only
    have hchar := @decode_char s.kbd.mods sc
    cases hd : decode s.kbd.mods sc with
    | mk mods c =>
      rw [hd] at hok hchar
      -- the modifiers change alike on both sides
      have h' : Follows { s.kbd with mods := mods } ⟨mods, ed.line⟩ :=
        ⟨h.wf, h.handler, rfl, h.text, h.nonzero⟩
      cases c with
      | none => exact ⟨h', rfl⟩
      | some c =>
        have hstep := h'.typeChar (hchar rfl).1 (hok c rfl)
        dsimp only at hstep ⊢
        by_cases hn : c = newline
        · rw [if_pos hn, if_pos hn] at hstep
          rw [if_pos hn]
          exact hstep
        · rw [if_neg hn, if_neg hn] at hstep
          rw [if_neg hn]
          exact hstep

theorem linesOf_append (a b : List Action) : linesOf (a ++ b) = linesOf a ++ linesOf b :=
  List.filterMap_append

theorem follows_run {s : Console} {ed : Editor} (h : Follows s.kbd ed) {es : List Event}
    (hok : UndisturbedRun s ed es) : linesOf (s.run es).2 = (ed.run es).2 := by
  induction es generalizing s ed with
  | nil => rfl
  | cons e es ih =>
    obtain ⟨hfirst, hlines⟩ := follows_step h hok.1
    rw [Console.run, Editor.run]
    dsimp only
    rw [linesOf_append, hlines, ih hfirst hok.2]

/-- `line_len` leaves room for the NUL in every run, and in every run whose events come undisturbed the
handler gets the lines that the editor completes. -/
theorem submitted_is_typed (es : List Event) :
    (boot.run es).1.kbd.lineLen ≤ 127 ∧
      (UndisturbedRun boot Editor.boot es → linesOf (boot.run es).2 = (Editor.boot.run es).2) :=
  ⟨(wf_run wf_boot es).2, follows_run ⟨wf_boot, rfl, rfl, Or.inl rfl, by simp [Editor.boot]⟩⟩

/-- The scancodes of `exec p` and Enter. -/
def execKeys : List UInt8 := [0x12, 0x2D, 0x12, 0x2E, 0x39, 0x19, 0x1C]

-- A line, the return of its handler, and another line.
theorem submitted_is_typed_twice :
    linesOf (boot.run (execKeys.map .key ++ [.ret] ++ [.key 0x2D, .key 0x1C])).2 =
      [ascii "exec p", ascii "x"] := by
  rw [(submitted_is_typed _).2]
  · decide +kernel
  · decide +kernel

-- `x` and Enter while the program of `exec p` runs: the handler gets `exec`.
theorem submitted_not_typed :
    linesOf (boot.run (execKeys.map .key ++ [.key 0x2D, .key 0x1C])).2 ≠
      (Editor.boot.run (execKeys.map .key ++ [.key 0x2D, .key 0x1C])).2 := by
  decide

end JacobOS.Keyboard
