import JacobOS.Drivers.Keyboard

/-!
# What can be typed

Every printable character stands somewhere in the two tables of the keyboard driver, so there are keys for every line
that fits in `line_buf`.
-/

namespace JacobOS.Keyboard

open CString

def Printable (c : UInt8) : Prop := 0x20 ≤ c ∧ c ≤ 0x7E

/-- The scancodes for a character: its key, or its key between the two scancodes of the left shift key. -/
def keysOf (c : UInt8) : List UInt8 :=
  match mapLower.idxOf? c with
  | some i => [UInt8.ofNat i]
  | none =>
      match mapUpper.idxOf? c with
      | some i => [scLshift, UInt8.ofNat i, scLshift ||| releaseBit]
      | none => []

/-- Shift is released, and caps lock is off. -/
def resetKeys (m : Mods) : List UInt8 := (scLshift ||| releaseBit) :: if m.caps then [scCaps] else []

def enterKey : UInt8 := 0x1C

/-- The scancodes for a line. -/
def lineKeys (m : Mods) (text : List UInt8) : List UInt8 := resetKeys m ++ text.flatMap keysOf ++ [enterKey]

/-- The driver over a row of scancodes. -/
def callbacks (k : Kbd) : List UInt8 → Kbd × List Action
  | [] => (k, [])
  | sc :: scs =>
      ((callbacks (keyboardCallback k sc).1 scs).1,
        (keyboardCallback k sc).2 ++ (callbacks (keyboardCallback k sc).1 scs).2)

theorem callbacks_append (k : Kbd) (a b : List UInt8) :
    callbacks k (a ++ b) =
      ((callbacks (callbacks k a).1 b).1, (callbacks k a).2 ++ (callbacks (callbacks k a).1 b).2) := by
  induction a generalizing k with
  | nil => rfl
  | cons sc a ih =>
    rw [List.cons_append, callbacks, ih, callbacks]
    dsimp only
    rw [List.append_assoc]

/-! ## One character -/

-- The tables, character by character.
theorem decode_keysOf : ∀ n : Fin 95, ∃ sc ∈ keysOf (UInt8.ofNat (n + 32)),
    (keysOf (UInt8.ofNat (n + 32)) = [sc] ∧ decode ⟨false, false⟩ sc = (⟨false, false⟩, some (UInt8.ofNat (n + 32)))) ∨
      (keysOf (UInt8.ofNat (n + 32)) = [scLshift, sc, scLshift ||| releaseBit] ∧
        decode ⟨true, false⟩ sc = (⟨true, false⟩, some (UInt8.ofNat (n + 32)))) := by
  decide +kernel

theorem keysOf_printable {c : UInt8} (h : Printable c) :
    ∃ sc, (keysOf c = [sc] ∧ decode ⟨false, false⟩ sc = (⟨false, false⟩, some c)) ∨
      (keysOf c = [scLshift, sc, scLshift ||| releaseBit] ∧ decode ⟨true, false⟩ sc = (⟨true, false⟩, some c)) := by
  have hlo : 32 ≤ c.toNat := UInt8.le_iff_toNat_le.mp h.1
  have hhi : c.toNat ≤ 126 := UInt8.le_iff_toNat_le.mp h.2
  obtain ⟨sc, -, hkeys⟩ := decode_keysOf ⟨c.toNat - 32, by omega⟩
  have hc : UInt8.ofNat (c.toNat - 32 + 32) = c := by
    rw [Nat.sub_add_cancel hlo, UInt8.ofNat_toNat]
  dsimp only at hkeys
  rw [hc] at hkeys
  exact ⟨sc, hkeys⟩

theorem callback_mods {k : Kbd} {sc : UInt8} {m m' : Mods} (hm : k.mods = m) (h : decode m sc = (m', none)) :
    keyboardCallback k sc = ({ k with mods := m' }, []) := by
  rw [keyboardCallback, hm, h]

theorem callback_char {k : Kbd} {sc c : UInt8} {m m' : Mods} (hm : k.mods = m) (h : decode m sc = (m', some c)) :
    keyboardCallback k sc = typeChar { k with mods := m' } c := by
  rw [keyboardCallback, hm, h]

namespace Follows

variable {k : Kbd} {m : Mods} {line : List UInt8}

theorem withMods (h : Follows k ⟨m, line⟩) (m' : Mods) : Follows { k with mods := m' } ⟨m', line⟩ :=
  ⟨h.wf, h.handler, rfl, h.text, h.nonzero⟩

theorem printable (h : Follows k ⟨m, line⟩) (hlen : k.lineLen = line.length) {c : UInt8} (hc : Printable c)
    (hroom : line.length < 127) :
    ∃ k', Keyboard.typeChar k c = (k', [.kputc c]) ∧ Follows k' ⟨m, line ++ [c]⟩ ∧ k'.lineLen = (line ++ [c]).length := by
  have hnewline : c ≠ newline := by
    rintro rfl
    exact absurd hc.1 (by decide)
  have hback : c ≠ backspace := by
    rintro rfl
    exact absurd hc.1 (by decide)
  have hzero : c ≠ 0 := by
    rintro rfl
    exact absurd hc.1 (by decide)
  have hline := h.append hlen hzero hback (hlen ▸ hroom)
  unfold edit at hline
  rw [if_neg hback, if_pos hroom] at hline
  unfold Keyboard.typeChar
  rw [if_neg hnewline, if_neg hback, if_pos (show k.lineLen < lineMax - 1 from hlen ▸ hroom)]
  refine ⟨_, rfl, hline, ?_⟩
  rw [List.length_append, ← hlen]
  rfl

-- Enter hands over the line.
theorem enter (h : Follows k ⟨m, line⟩) (hlen : k.lineLen = line.length) :
    (Keyboard.typeChar k newline).2 = [.kputc newline, .handle line] := by
  unfold Keyboard.typeChar submitLine
  rw [if_pos rfl]
  dsimp only
  rw [if_pos h.handler, h.cstr_set hlen]

theorem keysOf (h : Follows k ⟨⟨false, false⟩, line⟩) (hlen : k.lineLen = line.length) {c : UInt8} (hc : Printable c)
    (hroom : line.length < 127) :
    ∃ k', callbacks k (keysOf c) = (k', [.kputc c]) ∧ Follows k' ⟨⟨false, false⟩, line ++ [c]⟩ ∧
      k'.lineLen = (line ++ [c]).length := by
  obtain ⟨sc, ⟨hkeys, hd⟩ | ⟨hkeys, hd⟩⟩ := keysOf_printable hc
  · obtain ⟨k', htype, h', hlen'⟩ := (h.withMods ⟨false, false⟩).printable hlen hc hroom
    refine ⟨k', ?_, h', hlen'⟩
    rw [hkeys, callbacks, callback_char h.mods hd, htype]
    rfl
  · have hdown : decode ⟨false, false⟩ scLshift = (⟨true, false⟩, none) := by decide
    have hup : decode ⟨true, false⟩ (scLshift ||| releaseBit) = (⟨false, false⟩, none) := by decide
    obtain ⟨k', htype, h', hlen'⟩ := (h.withMods ⟨true, false⟩).printable hlen hc hroom
    refine ⟨{ k' with mods := ⟨false, false⟩ }, ?_, h'.withMods _, hlen'⟩
    rw [hkeys, callbacks, callback_mods h.mods hdown, callbacks, callback_char rfl hd]
    dsimp only
    rw [htype, callbacks, callback_mods h'.mods hup]
    rfl

theorem types (h : Follows k ⟨⟨false, false⟩, line⟩) (hlen : k.lineLen = line.length) {text : List UInt8}
    (htext : ∀ c ∈ text, Printable c) (hroom : line.length + text.length ≤ 127) :
    ∃ k', callbacks k (text.flatMap Keyboard.keysOf) = (k', text.map .kputc) ∧
      Follows k' ⟨⟨false, false⟩, line ++ text⟩ ∧ k'.lineLen = (line ++ text).length := by
  induction text generalizing k line with
  | nil => exact ⟨k, rfl, (List.append_nil line).symm ▸ h, (List.append_nil line).symm ▸ hlen⟩
  | cons c text ih =>
    rw [List.length_cons] at hroom
    obtain ⟨k1, hkeys, h1, hlen1⟩ := h.keysOf hlen (htext c List.mem_cons_self) (by omega)
    obtain ⟨k', hrest, h', hlen'⟩ := ih h1 hlen1 (fun c' hc' => htext c' (List.mem_cons_of_mem c hc'))
      (by rw [List.length_append]; show line.length + 1 + text.length ≤ 127; omega)
    rw [List.append_assoc, List.singleton_append] at h' hlen'
    refine ⟨k', ?_, h', hlen'⟩
    rw [List.flatMap_cons, callbacks_append, hkeys]
    dsimp only
    rw [hrest]
    rfl

end Follows

/-! ## Lines -/

theorem callbacks_resetKeys {k : Kbd} {m : Mods} (h : k.mods = m) :
    callbacks k (resetKeys m) = ({ k with mods := ⟨false, false⟩ }, []) := by
  have hup : ∀ m : Mods, decode m (scLshift ||| releaseBit) = (⟨false, m.caps⟩, none) := by
    rintro ⟨shift, caps⟩
    cases shift <;> cases caps <;> decide
  have hcaps : decode ⟨false, true⟩ scCaps = (⟨false, false⟩, none) := by decide
  unfold resetKeys
  rw [callbacks, callback_mods h (hup m)]
  cases hc : m.caps with
  | false => rfl
  | true =>
    rw [if_pos rfl, callbacks, callback_mods rfl hcaps]
    rfl

/-- Whatever the state of shift and caps lock, there are keys for every line of printable characters that fits in the
buffer: the driver echoes it and hands it to the shell, and does nothing else. -/
theorem every_line_typed {k : Kbd} {m : Mods} (h : Follows k ⟨m, []⟩) (hlen : k.lineLen = 0) {text : List UInt8}
    (htext : ∀ c ∈ text, Printable c) (hroom : text.length ≤ 127) :
    (callbacks k (lineKeys m text)).2 = text.map .kputc ++ [.kputc newline, .handle text] := by
  have henter : decode ⟨false, false⟩ enterKey = (⟨false, false⟩, some newline) := by decide
  obtain ⟨k', hkeys, h', hlen'⟩ := (h.withMods ⟨false, false⟩).types hlen htext (Nat.zero_add _ ▸ hroom)
  unfold lineKeys
  rw [callbacks_append, callbacks_append, callbacks_resetKeys h.mods]
  dsimp only
  rw [hkeys, callbacks, callback_char h'.mods henter]
  dsimp only
  rw [(h'.withMods ⟨false, false⟩).enter hlen']
  rfl

-- `cat A` with caps lock on.
theorem every_line_typed_caps :
    (callbacks { boot.kbd with mods := ⟨false, true⟩ } (lineKeys ⟨false, true⟩ (ascii "cat A"))).2 =
      (ascii "cat A").map .kputc ++ [.kputc newline, .handle (ascii "cat A")] := by
  have hall : (ascii "cat A").all (fun c => decide (0x20 ≤ c ∧ c ≤ 0x7E)) = true := by decide
  have htext : ∀ c ∈ ascii "cat A", Printable c := by
    intro c hc
    have hc := List.all_eq_true.mp hall c hc
    rwa [decide_eq_true_iff] at hc
  exact every_line_typed ⟨wf_boot, rfl, rfl, Or.inl rfl, List.not_mem_nil⟩ rfl htext (by decide)

end JacobOS.Keyboard
