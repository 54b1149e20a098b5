import JacobOS.Drivers.Echo
import JacobOS.Drivers.Terminal
import JacobOS.Drivers.Typing
import JacobOS.Kernel.TreeLaws

/-!
# From the keys to the screen

A key goes through `keyboard_callback` to the echo on the screen, and Enter through `shell_handle_line` to
`run_command`, the file system and the block cache, and back through `kprint` to the screen.  All of this together is
a line editor, a terminal without an end and a tree of files.
-/

namespace JacobOS.Tty

open BlockProgram CString Fs FileTree Keyboard Vga Shell

/-- The parts of the machine that a key can change. -/
structure State where
  kbd : Kbd
  screen : Screen
  cwd : Nat
  cache : Bcache

/-- A scancode, and which requests the heap serves while it is dealt with. -/
structure Press where
  sc : UInt8
  kmalloc : UInt32 → Bool

section Machine

variable (fuel : Nat)

/-- `shell_handle_line`: what `run_command` prints, and the prompt. -/
def shellHandleLine (kmalloc : UInt32 → Bool) (line : List UInt8) (t : State) : Option State :=
  match (runCommand fuel kmalloc t.cwd line).run Bcache.device t.cache with
  | (none, _) => none
  | (some (cwd, out), cache) =>
      match (printCwd cwd).run Bcache.device cache with
      | (path, cache) => some { t with
          screen := Echo.prompt (kprint t.screen out) (path ++ ascii " $ ")
          cwd := cwd
          cache := cache }

/-- What the driver does, and `line_len = 0` when the handler has returned. -/
def perform (kmalloc : UInt32 → Bool) : List Action → State → Option State
  | [], t => some t
  | .kputc c :: acts, t => perform kmalloc acts { t with screen := Vga.kputc t.screen c }
  | .handle line :: acts, t =>
      match shellHandleLine fuel kmalloc line t with
      | none => none
      | some t => perform kmalloc acts { t with kbd := { t.kbd with lineLen := 0 } }

def key (p : Press) (t : State) : Option State :=
  perform fuel p.kmalloc (keyboardCallback t.kbd p.sc).2 { t with kbd := (keyboardCallback t.kbd p.sc).1 }

def keys : List Press → State → Option State
  | [], t => some t
  | p :: ps, t =>
      match key fuel p t with
      | none => none
      | some t => keys ps t

end Machine

/-! ## What it is for -/

/-- A line that is being edited, a terminal that keeps all its rows, and a tree of files. -/
structure Seat where
  editor : Editor
  term : Term
  cwd : Nat
  tree : FsTree

def print (t : Term) (text : List UInt8) : Term := text.foldl Term.put t

namespace Seat

/-- Enter: the command runs on the tree. -/
noncomputable def enter (kmalloc : UInt32 → Bool) (a : Seat) : Seat :=
  let r := OnTree.runCommand kmalloc a.tree a.cwd a.editor.line
  { editor := ⟨a.editor.mods, []⟩
    term := print (print (a.term.put newline) r.1.2) (OnTree.pwd r.2 r.1.1 ++ ascii " $ ")
    cwd := r.1.1
    tree := r.2 }

/-- A character goes to the end of the line and to the screen, as long as there is room for it. -/
def char (c : UInt8) (a : Seat) : Seat :=
  if c = backspace then
    if a.editor.line = [] then a else
      { a with editor := ⟨a.editor.mods, a.editor.line.dropLast⟩, term := a.term.put backspace }
  else if a.editor.line.length < 127 then
    { a with editor := ⟨a.editor.mods, a.editor.line ++ [c]⟩, term := a.term.put c }
  else a

noncomputable def key (p : Press) (a : Seat) : Seat :=
  let r := decode a.editor.mods p.sc
  let a := { a with editor := ⟨r.1, a.editor.line⟩ }
  match r.2 with
  | none => a
  | some c => if c = newline then a.enter p.kmalloc else a.char c

noncomputable def keys : List Press → Seat → Seat
  | [], a => a
  | p :: ps, a => keys ps (a.key p)

end Seat

/-- Enter does not run `rm -r ..` below the root, nor a command that is not modelled. -/
def Allowed (p : Press) (a : Seat) : Prop :=
  (decode a.editor.mods p.sc).2 = some newline → ¬ RemovesParent a.cwd a.editor.line ∧ Modelled a.editor.line

def AllAllowed : List Press → Seat → Prop
  | [], _ => True
  | p :: ps, a => Allowed p a ∧ AllAllowed ps (a.key p)

/-- The machine is what the user takes it for. -/
structure Shown (t : State) (a : Seat) : Prop where
  kbd : Keyboard.Follows t.kbd a.editor
  len : t.kbd.lineLen = a.editor.line.length
  screen : Shows t.screen a.term
  cwd : t.cwd = a.cwd
  disk : ∃ d, Settled t.cache d ∧ Good t.cwd d ∧ treeOf d = a.tree

/-! ## The prompt only reads -/

theorem read_settled {c : Bcache} {d : Disk} (h : Settled c d) (blk : Nat) : Settled (c.read blk).2 d := by
  refine ⟨(Bcache.read_refines h.refines blk).2, ?_⟩
  unfold Bcache.read
  cases c.find blk with
  | some i => exact h.disk
  | none =>
    -- the block that makes room is on the disk already
    have hevict : ∀ n, ({ c with misses := n } : Bcache).evict.2.ata.disk = d := by
      intro n
      unfold Bcache.evict
      dsimp only
      split
      · rename_i hdirty
        have hvalid := (Bool.and_eq_true_iff.mp hdirty).1
        rw [(Bcache.writeSector_reliable h.refines.reliable _ _).2, h.refines.cached _ hvalid, h.disk]
        exact Function.update_eq_self _ _
      · exact h.disk
    exact hevict _

/-- Wherever it runs, what is on the disk stays there and the cache stands for it. -/
def Keeps {α : Type} (p : SfsM α) : Prop :=
  ∀ d : Disk, Triple Bcache.device (fun c => Settled c d) p fun _ c => Settled c d

namespace Keeps

variable {α β : Type}

theorem ret (a : α) : Keeps (pure a : SfsM α) := fun _ _ h => h

theorem bind {p : SfsM α} {f : α → SfsM β} (hp : Keeps p) (hf : ∀ a, Keeps (f a)) : Keeps (p >>= f) :=
  fun d => .bind (hp d) fun a => hf a d

theorem ite {c : Prop} [Decidable c] {p q : SfsM α} (hp : Keeps p) (hq : Keeps q) : Keeps (if c then p else q) :=
  fun d => .ite (hp d) (hq d)

theorem readBlock (blk : Nat) : Keeps (readBlock blk) := fun _ _ h => read_settled h blk

theorem readInode (i : Nat) : Keeps (readInode i) := .bind (readBlock _) fun _ => .ret _

theorem scanDirents (hit : Dirent → Bool) (ps : List UInt32) : Keeps (scanDirents hit ps) := by
  induction ps with
  | nil => exact .ret _
  | cons p ps ih =>
    refine .ite (.ret _) (.bind (readBlock _) fun buf => ?_)
    split
    · exact .ret _
    · exact ih

theorem sfsLookup (dir : Nat) (name : List UInt8) : Keeps (sfsLookup dir name) := by
  refine .bind (readInode dir) fun n => .ite (.ret _) (.bind (scanDirents _ _) ?_)
  rintro (- | ⟨blk, buf, e⟩)
  · exact .ret _
  · exact .ret _

theorem readdirLoop (index : Nat) (ps : List UInt32) (seen : Nat) : Keeps (readdirLoop index ps seen) := by
  induction ps generalizing seen with
  | nil => exact .ret _
  | cons p ps ih =>
    refine .ite (.ret _) (.bind (readBlock _) fun buf => ?_)
    split
    · exact .ret _
    · exact ih _

theorem sfsReaddir (dir index : Nat) : Keeps (sfsReaddir dir index) :=
  .bind (readInode dir) fun _ => .ite (.ret _) (readdirLoop _ _ _)

theorem nameOf (parent child : Nat) : Keeps (nameOf parent child) := by
  have hloop : ∀ calls i, Keeps (nameOfLoop parent child calls i) := by
    intro calls
    induction calls with
    | zero => exact fun _ => .ret _
    | succ calls ih =>
      intro i
      refine .bind (sfsReaddir _ _) ?_
      rintro (- | ⟨ino, nm⟩)
      · exact .ret _
      · exact .ite (.ret _) (ih _)
  exact hloop _ _

theorem printCwd (cwd : Nat) : Keeps (printCwd cwd) := by
  have hparts : ∀ n cur, Keeps (cwdParts n cur) := by
    intro n
    induction n with
    | zero => exact fun _ => .ret _
    | succ n ih =>
      intro cur
      refine .ite (.ret _) (.bind (sfsLookup _ _) ?_)
      rintro (- | parent)
      · exact .ret _
      · refine .bind (nameOf _ _) ?_
        rintro (- | nm)
        · exact .ret _
        · exact .bind (ih _) fun _ => .ret _
  exact .ite (.ret _) (.bind (hparts _ _) fun _ => .ret _)

end Keeps

/-! ## Keys -/

theorem shows_kprint {s : Screen} {t : Term} (h : Shows s t) (text : List UInt8) :
    Shows (kprint s text) (print t text) := by
  induction text generalizing s t with
  | nil => exact h
  | cons c text ih => exact ih (h.kputc c)

theorem shows_prompt {s : Screen} {t : Term} (h : Shows s t) (text : List UInt8) :
    Shows (Echo.prompt s text) (print t text) :=
  (shows_kprint (h.call (.setColor 0x0A)) text).call (.setColor 0x07)

theorem run_of_event {hello : List UInt8} {fuel cwd cwd' : Nat} {kmalloc : UInt32 → Bool} {line out : List UInt8}
    {c c' : Bcache} (h : Shell.event Bcache.device cachedPower hello fuel (.line kmalloc line) (cwd, c) =
      some (.printed out, cwd', c')) :
    (runCommand fuel kmalloc cwd line).run Bcache.device c = (some (cwd', out), c') := by
  unfold Shell.event at h
  dsimp only at h
  generalize (runCommand fuel kmalloc cwd line).run Bcache.device c = r at h ⊢
  obtain ⟨answer, c1⟩ := r
  cases answer with
  | none => cases h
  | some answer =>
    cases h
    rfl

-- The prompt through the cache.
theorem run_printCwd_cached {c : Bcache} {d : Disk} {cwd : Nat} (hset : Settled c d) (hgood : Good cwd d) :
    ∃ c', (printCwd cwd).run Bcache.device c = (OnTree.pwd (treeOf d) cwd, c') ∧ Settled c' d := by
  have hans := (Bcache.simulates_flat.run (printCwd cwd) hset.refines).1
  rw [run_printCwd_tree hgood.1 hgood.2] at hans
  exact ⟨_, Prod.ext hans rfl, Keeps.printCwd cwd d c hset⟩

-- A line handed to the shell.
theorem shown_handle {fuel : Nat} (hfuel : 64 ≤ fuel) (kmalloc : UInt32 → Bool) {line : List UInt8} {t : State}
    {term : Term} {d : Disk} (hscreen : Shows t.screen term) (hset : Settled t.cache d) (hgood : Good t.cwd d)
    (hok : ¬ RemovesParent t.cwd line) {cwd : Nat} {out : List UInt8} {tree : FsTree}
    (hrun : OnTree.runCommand kmalloc (treeOf d) t.cwd line = ((cwd, out), tree)) :
    ∃ screen cache d', shellHandleLine fuel kmalloc line t = some ⟨t.kbd, screen, cwd, cache⟩ ∧
      Shows screen (print (print term out) (OnTree.pwd tree cwd ++ ascii " $ ")) ∧ Settled cache d' ∧ Good cwd d' ∧
      treeOf d' = tree := by
  have hev : OnTree.event [] (.line kmalloc line) (t.cwd, treeOf d) = some (.printed out, cwd, tree) := by
    unfold OnTree.event
    dsimp only
    rw [hrun]
  obtain ⟨c', d', hev', hset', hgood', rfl⟩ := event_shows [] hfuel (.line kmalloc line) hset hgood
    (by rintro _ _ ⟨⟩; exact hok) hev
  obtain ⟨c'', hprompt, hset''⟩ := run_printCwd_cached hset' hgood'
  refine ⟨_, c'', d', ?_, shows_prompt (shows_kprint hscreen out) _, hset'', hgood', rfl⟩
  unfold shellHandleLine
  rw [run_of_event hev']
  dsimp only
  rw [hprompt]

section Step

variable {fuel : Nat} {t : State} {a : Seat} (h : Shown t a)

include h

-- Shift and caps lock.
theorem shown_mods (mods : Mods) :
    Shown { t with kbd := { t.kbd with mods := mods } } { a with editor := ⟨mods, a.editor.line⟩ } :=
  ⟨h.kbd.withMods mods, h.len, h.screen, h.cwd, h.disk⟩

theorem shown_char (kmalloc : UInt32 → Bool) {c : UInt8} (hc : c ≠ 0) (hn : c ≠ newline) :
    ∃ t', perform fuel kmalloc (typeChar t.kbd c).2 { t with kbd := (typeChar t.kbd c).1 } = some t' ∧
      Shown t' (a.char c) := by
  have hline := (h.kbd.typeChar hc fun _ => h.len).1
  have hlen := h.len
  rw [if_neg hn] at hline
  unfold typeChar edit at hline
  unfold typeChar Seat.char
  rw [if_neg hn] at hline ⊢
  by_cases hb : c = backspace
  · rw [if_pos hb] at hline ⊢
    rw [if_pos hb]
    by_cases hnil : a.editor.line = []
    · have hzero : ¬ t.kbd.lineLen > 0 := by
        rw [hlen, hnil]
        exact Nat.lt_irrefl 0
      rw [if_neg hzero, if_pos hnil]
      exact ⟨t, rfl, h⟩
    · have hpos : t.kbd.lineLen > 0 := by
        rw [hlen]
        exact List.length_pos_iff.mpr hnil
      rw [if_pos hpos] at hline
      rw [if_pos hb] at hline
      rw [if_pos hpos, if_neg hnil]
      refine ⟨_, rfl, ⟨hline, ?_, h.screen.kputc backspace, h.cwd, h.disk⟩⟩
      show t.kbd.lineLen - 1 = a.editor.line.dropLast.length
      rw [List.length_dropLast, hlen]
  · rw [if_neg hb] at hline ⊢
    rw [if_neg hb]
    by_cases hroom : a.editor.line.length < 127
    · have hroom' : t.kbd.lineLen < lineMax - 1 := hlen ▸ hroom
      rw [if_pos hroom', if_neg hb, if_pos hroom] at hline
      rw [if_pos hroom', if_pos hroom]
      refine ⟨_, rfl, ⟨hline, ?_, h.screen.kputc c, h.cwd, h.disk⟩⟩
      show t.kbd.lineLen + 1 = (a.editor.line ++ [c]).length
      rw [List.length_append, hlen]
      rfl
    · have hfull : ¬ t.kbd.lineLen < lineMax - 1 := hlen ▸ hroom
      rw [if_neg hfull, if_neg hroom]
      exact ⟨t, rfl, h⟩

theorem shown_enter (hfuel : 64 ≤ fuel) (kmalloc : UInt32 → Bool) (hok : ¬ RemovesParent a.cwd a.editor.line) :
    ∃ t', perform fuel kmalloc (typeChar t.kbd newline).2 { t with kbd := (typeChar t.kbd newline).1 } = some t' ∧
      Shown t' (a.enter kmalloc) := by
  have hline := (h.kbd.typeChar (c := newline) (by decide) fun _ => h.len).1
  obtain ⟨d, hset, hgood, htree⟩ := h.disk
  rw [if_pos rfl] at hline
  have hacts := h.kbd.enter h.len
  obtain ⟨⟨⟨cwd, out⟩, tree⟩, hrun⟩ : ∃ r, OnTree.runCommand kmalloc a.tree a.cwd a.editor.line = r := ⟨_, rfl⟩
  have hrun' := hrun
  rw [← htree, ← h.cwd] at hrun'
  obtain ⟨screen, cache, d', hhandle, hshows, hset', hgood', htree'⟩ := shown_handle hfuel kmalloc
    (t := { t with kbd := (typeChar t.kbd newline).1, screen := Vga.kputc t.screen newline }) (h.screen.kputc newline)
    hset hgood (h.cwd ▸ hok) hrun'
  rw [hacts]
  unfold perform perform
  rw [hhandle]
  refine ⟨_, rfl, ?_⟩
  unfold Seat.enter
  dsimp only
  rw [hrun]
  exact ⟨⟨⟨hline.wf.1, Nat.zero_le _⟩, hline.handler, hline.mods, Or.inl rfl, hline.nonzero⟩, rfl, hshows, rfl, d', hset',
    hgood', htree'⟩

theorem shown_key (hfuel : 64 ≤ fuel) {p : Press} (hok : Allowed p a) :
    ∃ t', key fuel p t = some t' ∧ Shown t' (a.key p) := by
  have hchar := @decode_char a.editor.mods p.sc
  unfold Allowed at hok
  unfold key keyboardCallback Seat.key
  rw [h.kbd.mods]
  generalize decode a.editor.mods p.sc = r at hchar hok
  obtain ⟨mods, c⟩ := r
  have hmods := shown_mods h mods
  cases c with
  | none => exact ⟨_, rfl, hmods⟩
  | some c =>
    dsimp only
    by_cases hn : c = newline
    · rw [if_pos hn, hn]
      exact shown_enter hmods hfuel p.kmalloc (hok (congrArg some hn)).1
    · rw [if_neg hn]
      exact shown_char hmods p.kmalloc (hchar rfl).1 hn

end Step

theorem shown_keys {fuel : Nat} (hfuel : 64 ≤ fuel) (ps : List Press) {t : State} {a : Seat} (h : Shown t a)
    (hok : AllAllowed ps a) : ∃ t', keys fuel ps t = some t' ∧ Shown t' (Seat.keys ps a) := by
  induction ps generalizing t a with
  | nil => exact ⟨t, rfl, h⟩
  | cons p ps ih =>
    obtain ⟨t', hkey, h'⟩ := shown_key h hfuel hok.1
    rw [keys, hkey]
    exact ih h' hok.2

/-- Whatever is typed, key by key, in any state of the machine: the commands return, the screen shows the last rows of
the terminal with what was typed, printed and prompted, the buffer holds the line that is being edited, and the disk
holds the tree, after every single key. -/
theorem session_as_typed (hello : List UInt8) {fuel : Nat} (hfuel : 64 ≤ fuel) {cwd : Nat} {c : Bcache}
    (h : Reached hello fuel (cwd, c)) {kbd : Kbd} {editor : Editor} (hkbd : Keyboard.Follows kbd editor)
    (hlen : kbd.lineLen = editor.line.length) {screen : Screen} {term : Term} (hscreen : Shows screen term)
    (ps : List Press) (hok : AllAllowed ps ⟨editor, term, cwd, treeOf c.ata.disk⟩) :
    ∃ t, keys fuel ps ⟨kbd, screen, cwd, c⟩ = some t ∧
      Shows t.screen (Seat.keys ps ⟨editor, term, cwd, treeOf c.ata.disk⟩).term ∧
      t.kbd.lineBuf.take t.kbd.lineLen = (Seat.keys ps ⟨editor, term, cwd, treeOf c.ata.disk⟩).editor.line ∧
      t.cwd = (Seat.keys ps ⟨editor, term, cwd, treeOf c.ata.disk⟩).cwd ∧
      treeOf t.cache.ata.disk = (Seat.keys ps ⟨editor, term, cwd, treeOf c.ata.disk⟩).tree := by
  obtain ⟨d, hset, hgood⟩ := h.good hello hfuel
  have hstart : Shown ⟨kbd, screen, cwd, c⟩ ⟨editor, term, cwd, treeOf c.ata.disk⟩ :=
    ⟨hkbd, hlen, hscreen, rfl, d, hset, hgood, by rw [hset.disk]⟩
  obtain ⟨t, hkeys, hend⟩ := shown_keys hfuel ps hstart hok
  obtain ⟨d', hset', -, htree'⟩ := hend.disk
  exact ⟨t, hkeys, hend.screen, hend.kbd.take_eq hend.len, hend.cwd, hset'.disk ▸ htree'⟩

theorem follows_boot : Keyboard.Follows boot.kbd Editor.boot :=
  ⟨wf_boot, rfl, rfl, Or.inl rfl, by simp [Editor.boot]⟩

/-- The scancodes of `ls` and Enter. -/
def lsKeys : List Press := [⟨0x26, fun _ => true⟩, ⟨0x1F, fun _ => true⟩, ⟨0x1C, fun _ => true⟩]

-- `ls` on a disk that was blank.
theorem session_as_typed_ls :
    ∃ c t, keys 64 lsKeys ⟨boot.kbd, clearScreen ⟨fun _ => 0, 0x07, 0, 0, 0, 0, 0⟩, sfsRoot, c⟩ = some t ∧
      Shows t.screen (Seat.keys lsKeys ⟨Editor.boot, .blank, sfsRoot, treeOf c.ata.disk⟩).term := by
  obtain ⟨c, hc⟩ := reached_blank (ascii "ELF") 64
  have hl : (decode ⟨false, false⟩ 0x26).2 ≠ some newline := by decide
  have hs : (decode ⟨false, false⟩ 0x1F).2 ≠ some newline := by decide
  have hok : AllAllowed lsKeys ⟨Editor.boot, .blank, sfsRoot, treeOf c.ata.disk⟩ := by
    refine ⟨fun hn => absurd hn hl, fun hn => absurd hn hs, fun _ => ⟨?_, ?_⟩, trivial⟩
    · exact not_removesParent_root _
    · show Modelled (ascii "ls")
      decide
  obtain ⟨t, hkeys, hshows, -⟩ :=
    session_as_typed (ascii "ELF") (Nat.le_refl 64) hc follows_boot rfl (shows_clearScreen _) lsKeys hok
  exact ⟨c, t, hkeys, hshows⟩

end JacobOS.Tty
