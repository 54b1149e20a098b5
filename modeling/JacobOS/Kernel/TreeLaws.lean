import JacobOS.Kernel.TreeHistory

/-!
# What a user can rely on

Laws of the shell that take more than one command, read off the tree: how `ls` goes with `touch`, `mkdir` and
`rm`, and that a file is there after a power cycle with what `echo` wrote to it.
-/

namespace JacobOS.Shell

open BlockProgram CString Fs FileTree Boot Numerals

/-- The line splits into these words. -/
def Typed (line : List UInt8) (words : List (List UInt8)) : Prop := (tokenize line 16).map cstr = words

theorem runCommand_typed {line cmd : List UInt8} {args : List (List UInt8)} (h : Typed line (cmd :: args))
    (kmalloc : UInt32 → Bool) (t : FsTree) (cwd : Nat) :
    OnTree.runCommand kmalloc t cwd line = OnTree.dispatch kmalloc t cwd cmd (cmd :: args) := by
  unfold OnTree.runCommand
  rw [show (tokenize line 16).map cstr = cmd :: args from h]

theorem Typed.cstr_eq {line : List UInt8} {words : List (List UInt8)} (h : Typed line words) :
    ∀ w ∈ words, cstr w = w := by
  intro w hw
  rw [← show (tokenize line 16).map cstr = words from h] at hw
  obtain ⟨arg, -, rfl⟩ := List.mem_map.mp hw
  exact cstr_cstr arg

-- A line with another command than `rm -r`.
theorem Typed.not_removesParent {line cmd : List UInt8} {args : List (List UInt8)} (h : Typed line (cmd :: args))
    (hcmd : cmd ≠ ascii "rm" ∨ args.length < 2) (cwd : Nat) : ¬ RemovesParent cwd line := by
  have hwords : (tokenize line 16).map cstr = cmd :: args := h
  rintro ⟨first, hfirst, hrm, -, third, -, hthird, -⟩
  rcases hcmd with hne | hlen
  · have hhead := congrArg (fun l : List (List UInt8) => l[0]?) hwords
    rw [List.getElem?_map, hfirst] at hhead
    rw [strcmp_eq_zero_iff] at hrm
    exact hne ((Option.some.inj hhead).symm.trans hrm)
  · have hlength := congrArg List.length hwords
    rw [List.length_map, List.length_cons] at hlength
    rw [List.getElem?_eq_none (by omega)] at hthird
    cases hthird

/-! ## The machine between two events -/

/-- A state of the machine after the first boot, whatever has been typed but `rm -r ..` below the root. -/
def Reached (hello : List UInt8) (fuel : Nat) (s : Nat × Bcache) : Prop :=
  ∃ (mem mem' : Bcache) (disk : Disk) (es : List Event), (Inv disk ∨ (disk 0).magic ≠ sfsMagic) ∧
    Guarded Bcache.device cachedPower hello fuel (.restart mem' :: es) (sfsRoot, mem.boot disk) ∧
    (history Bcache.device cachedPower hello fuel (.restart mem' :: es) (sfsRoot, mem.boot disk)).2 = some s

section Events

variable (hello : List UInt8) {fuel : Nat} (hfuel : 64 ≤ fuel)

include hfuel

theorem history_good (es : List Event) {cwd cwd' : Nat} {c c' : Bcache} {d : Disk} (hset : Settled c d)
    (hgood : Good cwd d) (hes : Guarded Bcache.device cachedPower hello fuel es (cwd, c))
    (hend : (history Bcache.device cachedPower hello fuel es (cwd, c)).2 = some (cwd', c')) :
    ∃ d', Settled c' d' ∧ Good cwd' d' := by
  induction es generalizing cwd c d with
  | nil =>
    cases hend
    exact ⟨d, hset, hgood⟩
  | cons e es ih =>
    have hfollows := eventFollows_good hello hfuel e hgood hes.1
    have hsame := event_cached hello fuel e cwd hset
    rw [history] at hend
    generalize event flat flatPower hello fuel e (cwd, d) = r at hfollows hsame
    generalize OnTree.event hello e (cwd, treeOf d) = r' at hfollows
    cases hfollows with
    | stuck =>
      generalize event Bcache.device cachedPower hello fuel e (cwd, c) = r at hsame hend
      cases hsame
      cases hend
    | seen seen cwd1 hgood1 =>
      obtain ⟨c1, hev1, hset1⟩ := hsame.of_flat
      rw [hev1] at hend
      exact ih hset1 hgood1 (hes.2 _ _ hev1) hend

theorem Reached.good {cwd : Nat} {c : Bcache} (h : Reached hello fuel (cwd, c)) : ∃ d, Settled c d ∧ Good cwd d := by
  obtain ⟨mem, mem', disk, es, hdisk, hes, hend⟩ := h
  have hset := settled_boot mem disk
  rcases hdisk with hinv | hblank
  · exact history_good hello hfuel _ hset ⟨hinv, isDir_root hinv⟩ hes hend
  · obtain ⟨seen, d, hev, hgood⟩ := event_blank hello fuel sfsRoot mem' hblank
    have hsame := event_cached hello fuel (.restart mem') sfsRoot hset
    rw [hev] at hsame
    obtain ⟨c1, hev1, hset1⟩ := hsame.of_flat
    rw [history, hev1] at hend
    exact history_good hello hfuel es hset1 hgood (hes.2 _ _ hev1) hend

-- An event of the machine, from what it is on the tree.
theorem event_shows (e : Event) {cwd : Nat} {c : Bcache} {d : Disk} (hset : Settled c d) (hgood : Good cwd d)
    (hok : ∀ kmalloc line, e = .line kmalloc line → ¬ RemovesParent cwd line) {seen : Seen} {cwd' : Nat} {t : FsTree}
    (hev : OnTree.event hello e (cwd, treeOf d) = some (seen, cwd', t)) :
    ∃ c' d', event Bcache.device cachedPower hello fuel e (cwd, c) = some (seen, cwd', c') ∧ Settled c' d' ∧
      Good cwd' d' ∧ treeOf d' = t := by
  have hfollows := eventFollows_good hello hfuel e hgood hok
  have hsame := event_cached hello fuel e cwd hset
  rw [hev] at hfollows
  generalize event flat flatPower hello fuel e (cwd, d) = r at hfollows hsame
  cases hfollows with
  | seen seen cwd' hgood' =>
    obtain ⟨c', hev', hset'⟩ := hsame.of_flat
    exact ⟨c', _, hev', hset', hgood', rfl⟩

-- A line prints what it prints on the tree.
theorem line_shows (kmalloc : UInt32 → Bool) {line cmd : List UInt8} {args : List (List UInt8)}
    (hline : Typed line (cmd :: args)) {cwd : Nat} {c : Bcache} {d : Disk} (hset : Settled c d) (hgood : Good cwd d)
    (hok : ¬ RemovesParent cwd line) {cwd' : Nat} {out : List UInt8} {t : FsTree}
    (hrun : OnTree.dispatch kmalloc (treeOf d) cwd cmd (cmd :: args) = ((cwd', out), t)) :
    ∃ c' d', event Bcache.device cachedPower hello fuel (.line kmalloc line) (cwd, c) = some (.printed out, cwd', c') ∧
      Settled c' d' ∧ Good cwd' d' ∧ treeOf d' = t := by
  apply event_shows hello hfuel (.line kmalloc line) hset hgood
  · rintro _ _ ⟨⟩
    exact hok
  · unfold OnTree.event
    dsimp only
    rw [runCommand_typed hline, hrun]

end Events

/-! ## Listings -/

/-- The line of `ls` for an entry. -/
def lsLine (t : FsTree) (e : Nat × List UInt8) : List UInt8 :=
  e.2 ++ (if kindOf (t e.1) = sfsDir then ascii "/" else []) ++ ascii "\n"

def lsLines (t : FsTree) (es : List (Nat × List UInt8)) : List UInt8 :=
  (es.filter fun e => realName e.2).flatMap (lsLine t)

theorem lsLines_append (t : FsTree) (pre post : List (Nat × List UInt8)) :
    lsLines t (pre ++ post) = lsLines t pre ++ lsLines t post := by
  unfold lsLines
  rw [List.filter_append, List.flatMap_append]

theorem lsLines_cons (t : FsTree) {e : Nat × List UInt8} (he : realName e.2 = true) (es : List (Nat × List UInt8)) :
    lsLines t (e :: es) = lsLine t e ++ lsLines t es := by
  unfold lsLines
  rw [List.filter_cons_of_pos (a := e) (p := fun e : Nat × List UInt8 => realName e.2) he, List.flatMap_cons]

theorem lsLines_congr {t t' : FsTree} {es : List (Nat × List UInt8)}
    (h : ∀ e ∈ es, realName e.2 = true → kindOf (t' e.1) = kindOf (t e.1)) : lsLines t' es = lsLines t es := by
  unfold lsLines
  rw [List.flatMap_def, List.flatMap_def]
  congr 1
  apply List.map_congr_left
  intro e he
  obtain ⟨hin, hreal⟩ := List.mem_filter.mp he
  unfold lsLine
  rw [h e hin hreal]

-- A listing is empty or ends with a newline.
theorem lsLines_end (t : FsTree) (es : List (Nat × List UInt8)) :
    lsLines t es = [] ∨ ∃ text, lsLines t es = text ++ [0x0A] := by
  unfold lsLines
  rcases List.eq_nil_or_concat (es.filter fun e => realName e.2) with hnil | ⟨init, last, hlast⟩
  · rw [hnil]
    exact Or.inl rfl
  · rw [hlast, List.concat_eq_append, List.flatMap_append, List.flatMap_singleton, lsLine, ← List.append_assoc]
    exact Or.inr ⟨_, rfl⟩

/-- What is printed, line by line.  After the last newline there is one more piece. -/
def linesOf (out : List UInt8) : List (List UInt8) := out.splitOn 0x0A

/-- There is one line more, and all others are as before, in their order. -/
def OneMore (line out out' : List UInt8) : Prop :=
  ∃ pre post, post ≠ [] ∧ linesOf out = pre ++ post ∧ linesOf out' = pre ++ line :: post

/-- One line more, for a file or a directory of this name. -/
def Named (name out out' : List UInt8) : Prop := OneMore name out out' ∨ OneMore (name ++ ascii "/") out out'

/-- A file or a directory of this name has a line. -/
def HasLine (name out : List UInt8) : Prop := name ∈ linesOf out ∨ name ++ ascii "/" ∈ linesOf out

/-- `ls` before and after, and what is printed in between. -/
def Lists (cmd name before out after : List UInt8) : Prop :=
  (cmd = ascii "touch" → (out ≠ [] ∧ after = before) ∨
    (out = [] ∧ after = before ∧ (realName name = true → HasLine name before)) ∨
    (out = [] ∧ OneMore (name.take 27) before after)) ∧
  (cmd = ascii "mkdir" → (out ≠ [] ∧ after = before) ∨ (out = [] ∧ OneMore (name.take 27 ++ ascii "/") before after)) ∧
  (cmd = ascii "rm" → (out ≠ [] ∧ after = before) ∨ (out = [] ∧ Named name after before))

-- A line is put between two others, or before the first.
theorem OneMore.insert {line pre : List UInt8} (hline : 0x0A ∉ line) (hpre : pre = [] ∨ ∃ text, pre = text ++ [0x0A])
    (post : List UInt8) : OneMore line (pre ++ post) (pre ++ (line ++ ascii "\n" ++ post)) := by
  have hnew : linesOf (line ++ ascii "\n" ++ post) = line :: linesOf post := by
    rw [List.append_assoc]
    exact List.splitOn_append_cons_self_of_not_mem hline post
  rcases hpre with rfl | ⟨text, rfl⟩
  · exact ⟨[], linesOf post, List.splitOn_ne_nil _ _, rfl, hnew⟩
  · have hold : ∀ rest, linesOf (text ++ [0x0A] ++ rest) = linesOf text ++ linesOf rest := by
      intro rest
      rw [List.append_assoc]
      exact List.splitOn_append_cons_self text rest
    refine ⟨linesOf text, linesOf post, List.splitOn_ne_nil _ _, hold post, ?_⟩
    rw [hold, hnew]

-- The line of a name, with the slash or without.
theorem named_line {name out out' : List UInt8} {p : Prop} [Decidable p]
    (h : OneMore (name ++ if p then ascii "/" else []) out out') : Named name out out' := by
  split at h
  · exact Or.inr h
  · rw [List.append_nil] at h
    exact Or.inl h

theorem Named.hasLine {name out out' : List UInt8} (h : Named name out out') : HasLine name out' := by
  rcases h with ⟨pre, post, -, -, heq⟩ | ⟨pre, post, -, -, heq⟩
  · exact Or.inl (heq ▸ List.mem_append_right _ List.mem_cons_self)
  · exact Or.inr (heq ▸ List.mem_append_right _ List.mem_cons_self)

theorem not_mem_slash {name : List UInt8} {p : Prop} [Decidable p] (h : 0x0A ∉ name) :
    0x0A ∉ name ++ if p then ascii "/" else [] := by
  rw [List.mem_append, not_or]
  refine ⟨h, ?_⟩
  split
  · decide
  · exact List.not_mem_nil

-- A listing with one entry more.
theorem oneMore_lsLines {t : FsTree} {e : Nat × List UInt8} (he : realName e.2 = true) (hnl : 0x0A ∉ e.2)
    (pre post : List (Nat × List UInt8)) :
    OneMore (e.2 ++ if kindOf (t e.1) = sfsDir then ascii "/" else []) (lsLines t (pre ++ post))
      (lsLines t (pre ++ e :: post)) := by
  rw [lsLines_append, lsLines_append, lsLines_cons t he]
  exact .insert (not_mem_slash hnl) (lsLines_end t pre) _

theorem listing_eq (t : FsTree) (dir : Nat) : OnTree.listing t dir = lsLines t (FileTree.entries t dir) := rfl

section Listing

variable {d : Disk} {cwd : Nat} (h : Good cwd d)

include h

theorem mem_entries_tree {e : Nat × List UInt8} (he : e ∈ FileTree.entries (treeOf d) cwd) :
    ∃ de ∈ entriesAt d cwd, de.pair = e := by
  rw [entries_treeOf h.2.1 h.2.2] at he
  exact List.mem_map.mp he

theorem kindOf_cwd : kindOf (treeOf d cwd) = sfsDir := by
  rw [← h.1.typeAt_eq h.2.1]
  exact h.2.2

-- The kinds of the nodes when `cwd` stays a directory and `ino` becomes something else.
theorem kindOf_updates {ino : Nat} (x : Option FsNode) (s : List (Option (Nat × List UInt8))) {j : Nat} (hj : j ≠ ino) :
    kindOf (Function.update (Function.update (treeOf d) ino x) cwd (some (.dir s)) j) = kindOf (treeOf d j) := by
  by_cases hjc : j = cwd
  · rw [hjc, Function.update_self, kindOf_cwd h]
    rfl
  · rw [Function.update_of_ne hjc, Function.update_of_ne hj]

-- A new name is one line more.
theorem listing_create {name mark : List UInt8} {node : Nat → FsNode}
    (hmark : ∀ ino, (if kindOf (some (node ino)) = sfsDir then ascii "/" else []) = mark) (hnl : 0x0A ∉ cstr name)
    (hmade : (create (treeOf d) cwd (cstr name) node).1 ≠ none) :
    OneMore ((cstr name).take 27 ++ mark) (OnTree.listing (treeOf d) cwd)
      (OnTree.listing (create (treeOf d) cwd (cstr name) node).2 cwd) := by
  unfold create at hmade ⊢
  rw [lookup_treeOf h.2.1 h.2.2, fresh_treeOf h.1] at hmade ⊢
  cases hlook : findNamed (slotsAt d cwd) name with
  | some de =>
    rw [hlook] at hmade
    exact absurd rfl hmade
  | none =>
    cases hfree : firstFree d with
    | none =>
      rw [hlook, hfree] at hmade
      exact absurd rfl hmade
    | some ino' =>
      obtain ⟨hino, hti⟩ := firstFree_some hfree
      have hne : ino' ≠ cwd := by
        rintro rfl
        exact absurd (hti.symm.trans h.2.2) (by decide)
      have hreal : realName ((cstr name).take 27) = true := by
        have hnew := Dirent.Names.put Dirent.zero hino name
        rw [← hnew.str]
        exact h.1.fresh_isReal h.2.1 h.2.2 hlook hnew
      obtain ⟨pre, post, hbefore, hafter⟩ := link_split 15 (ino', (cstr name).take 27) (slots (treeOf d) cwd)
      -- no other entry leads to the new node
      have hkept : ∀ x s, lsLines (Function.update (Function.update (treeOf d) ino' x) cwd (some (.dir s)))
          (pre ++ post) = lsLines (treeOf d) (pre ++ post) := by
        intro x s
        apply lsLines_congr
        intro e he _
        apply kindOf_updates h
        rw [← hbefore] at he
        obtain ⟨de, hde, rfl⟩ := mem_entries_tree h he
        intro heq
        exact (entry_live h hde).2 ((show de.target = ino' from heq) ▸ hti)
      dsimp only [Option.map_none]
      rw [listing_eq, listing_eq, FileTree.entries, FileTree.entries, hbefore, slots_dir (Function.update_self ..),
        hafter, ← hkept (some (node ino')) (link 15 (ino', (cstr name).take 27) (slots (treeOf d) cwd))]
      have hline := oneMore_lsLines (t := Function.update (Function.update (treeOf d) ino' (some (node ino'))) cwd
        (some (.dir (link 15 (ino', (cstr name).take 27) (slots (treeOf d) cwd))))) (e := (ino', (cstr name).take 27))
        hreal (fun hin => hnl (List.mem_of_mem_take hin)) pre post
      rwa [Function.update_of_ne hne, Function.update_self, hmark] at hline

-- No two names lead to one node.
theorem nodup_entries : (((FileTree.entries (treeOf d) cwd).filter fun e => realName e.2).map Prod.fst).Nodup := by
  have hnodup := h.1.names.nodup cwd h.2.1 h.2.2
  rw [entries_treeOf h.2.1 h.2.2, List.filter_map, List.map_map]
  exact hnodup

-- A name that is removed is one line less.
theorem listing_remove {name : List UInt8} (hnl : 0x0A ∉ cstr name)
    (hgone : (remove (treeOf d) cwd (cstr name)).1 ≠ none) :
    Named (cstr name) (OnTree.listing (remove (treeOf d) cwd (cstr name)).2 cwd) (OnTree.listing (treeOf d) cwd) := by
  unfold remove at hgone ⊢
  cases hlook : lookup (treeOf d) cwd (cstr name) with
  | none =>
    rw [hlook] at hgone
    exact absurd rfl hgone
  | some ino =>
    rw [hlook] at hgone
    dsimp only at hgone ⊢
    by_cases hok : (realName (cstr name) && isEmpty (treeOf d) ino) = true
    · rw [if_pos hok]
      obtain ⟨⟨ino', name'⟩, hfind, rfl⟩ := Option.map_eq_some_iff.mp hlook
      have hname := List.find?_some hfind
      obtain rfl : name' = cstr name := of_decide_eq_true hname
      have hreal : realName (cstr name) = true := (Bool.and_eq_true_iff.mp hok).1
      obtain ⟨pre, post, hbefore, hafter⟩ := unlink_split hfind
      -- the other names lead elsewhere
      have hnot : ∀ e, e ∈ pre ∨ e ∈ post → realName e.2 = true → e.1 ≠ ino' := by
        have hnodup := nodup_entries h
        rw [FileTree.entries, hbefore, List.filter_append,
          List.filter_cons_of_pos (a := (ino', cstr name)) (p := fun e : Nat × List UInt8 => realName e.2) hreal,
          List.map_append, List.map_cons, List.nodup_middle, List.nodup_cons] at hnodup
        intro e he hename heq
        apply hnodup.1
        rw [← List.map_append, ← List.filter_append]
        exact List.mem_map.mpr ⟨e, List.mem_filter.mpr ⟨List.mem_append.mpr he, hename⟩, heq⟩
      have hline := oneMore_lsLines (t := treeOf d) (e := (ino', cstr name)) hreal hnl pre post
      rw [listing_eq, listing_eq, FileTree.entries, FileTree.entries, hbefore, slots_dir (Function.update_self ..),
        hafter, lsLines_congr fun e he hename => kindOf_updates h _ _ (hnot e (List.mem_append.mp he) hename)]
      exact named_line hline
    · rw [if_neg hok] at hgone
      exact absurd rfl hgone

end Listing

theorem hasLine_of_lookup {t : FsTree} {dir i : Nat} {name : List UInt8} (hlook : lookup t dir name = some i)
    (hnl : 0x0A ∉ name) (hreal : realName name = true) : HasLine name (OnTree.listing t dir) := by
  obtain ⟨e, hfind, -⟩ := Option.map_eq_some_iff.mp hlook
  have hname := List.find?_some hfind
  obtain rfl : e.2 = name := of_decide_eq_true hname
  obtain ⟨pre, post, heq⟩ := List.append_of_mem (List.mem_of_find?_eq_some hfind)
  rw [listing_eq, heq]
  exact (named_line (oneMore_lsLines hreal hnl pre post)).hasLine

-- What fails leaves the tree as it is.
theorem create_fails {t : FsTree} {dir : Nat} {name : List UInt8} {node : Nat → FsNode}
    (h : (create t dir name node).1 = none) : (create t dir name node).2 = t := by
  unfold create at h ⊢
  split
  · rename_i hlook hfresh
    rw [hlook, hfresh] at h
    cases h
  · rfl

theorem remove_fails {t : FsTree} {dir : Nat} {name : List UInt8} (h : (remove t dir name).1 = none) :
    (remove t dir name).2 = t := by
  unfold remove at h ⊢
  cases hlook : lookup t dir name with
  | none => rfl
  | some ino =>
    rw [hlook] at h
    dsimp only at h ⊢
    split
    · rename_i hok
      rw [if_pos hok] at h
      cases h
    · rfl

section Listed

variable {d : Disk} {cwd : Nat} (h : Good cwd d) {name : List UInt8} (hname : cstr name = name) (hnl : 0x0A ∉ name)

include h hname hnl

theorem lists_touch : Lists (ascii "touch") name (OnTree.listing (treeOf d) cwd)
    (OnTree.touch (treeOf d) cwd [ascii "touch", name]).1
    (OnTree.listing (OnTree.touch (treeOf d) cwd [ascii "touch", name]).2 cwd) := by
  refine ⟨fun _ => ?_, fun hcmd => absurd hcmd (by decide), fun hcmd => absurd hcmd (by decide)⟩
  have hmade := @listing_create d cwd h name _ newFile (fun _ => rfl) (hname.symm ▸ hnl)
  rw [hname, List.append_nil] at hmade
  unfold OnTree.touch OnTree.lookupOrCreate
  dsimp only [List.getElem?_cons_succ, List.getElem?_cons_zero]
  cases hlook : lookup (treeOf d) cwd name with
  | some i => exact Or.inr (Or.inl ⟨rfl, rfl, hasLine_of_lookup hlook hnl⟩)
  | none =>
    dsimp only
    by_cases hr : (create (treeOf d) cwd name newFile).1 = none
    · rw [if_pos hr, create_fails hr]
      exact Or.inl ⟨by decide, rfl⟩
    · rw [if_neg hr]
      exact Or.inr (Or.inr ⟨rfl, hmade hr⟩)

theorem lists_mkdir : Lists (ascii "mkdir") name (OnTree.listing (treeOf d) cwd)
    (OnTree.mkdir (treeOf d) cwd [ascii "mkdir", name]).1
    (OnTree.listing (OnTree.mkdir (treeOf d) cwd [ascii "mkdir", name]).2 cwd) := by
  refine ⟨fun hcmd => absurd hcmd (by decide), fun _ => ?_, fun hcmd => absurd hcmd (by decide)⟩
  have hmade := @listing_create d cwd h name _ (newDir cwd) (fun _ => rfl) (hname.symm ▸ hnl)
  rw [hname] at hmade
  unfold OnTree.mkdir
  dsimp only [List.getElem?_cons_succ, List.getElem?_cons_zero]
  by_cases hr : (create (treeOf d) cwd name (newDir cwd)).1 = none
  · rw [if_pos hr, create_fails hr]
    exact Or.inl ⟨by decide, rfl⟩
  · rw [if_neg hr]
    exact Or.inr ⟨rfl, hmade hr⟩

theorem lists_rm : Lists (ascii "rm") name (OnTree.listing (treeOf d) cwd)
    (OnTree.rm (treeOf d) cwd [ascii "rm", name]).1
    (OnTree.listing (OnTree.rm (treeOf d) cwd [ascii "rm", name]).2 cwd) := by
  refine ⟨fun hcmd => absurd hcmd (by decide), fun hcmd => absurd hcmd (by decide), fun _ => ?_⟩
  have hgone := @listing_remove d cwd h name (hname.symm ▸ hnl)
  rw [hname] at hgone
  unfold OnTree.rm
  dsimp only [List.getElem?_cons_succ, List.getElem?_cons_zero]
  by_cases hflag : name = ascii "-r"
  · have hmsg : ascii "rm: -r needs a name\n" ≠ [] := by decide
    rw [if_pos hflag]
    exact Or.inl ⟨hmsg, rfl⟩
  · rw [if_neg hflag]
    by_cases hr : (remove (treeOf d) cwd name).1 = none
    · have hmsg : ascii "rm: failed (missing or non-empty dir)\n" ≠ [] := by decide
      rw [if_pos hr, remove_fails hr]
      exact Or.inl ⟨hmsg, rfl⟩
    · rw [if_neg hr]
      exact Or.inr ⟨rfl, hgone hr⟩

theorem dispatch_lists (kmalloc : UInt32 → Bool) {cmd : List UInt8}
    (hcmd : cmd ∈ [ascii "touch", ascii "mkdir", ascii "rm"]) :
    ∃ out t, OnTree.dispatch kmalloc (treeOf d) cwd cmd [cmd, name] = ((cwd, out), t) ∧
      Lists cmd name (OnTree.listing (treeOf d) cwd) out (OnTree.listing t cwd) := by
  rcases List.mem_cons.mp hcmd with rfl | hcmd
  · exact ⟨_, _, rfl, lists_touch h hname hnl⟩
  · rcases List.mem_cons.mp hcmd with rfl | hcmd
    · exact ⟨_, _, rfl, lists_mkdir h hname hnl⟩
    · obtain rfl := List.mem_singleton.mp hcmd
      exact ⟨_, _, rfl, lists_rm h hname hnl⟩

end Listed

theorem dispatch_ls {d : Disk} {cwd : Nat} (h : Good cwd d) (kmalloc : UInt32 → Bool) :
    OnTree.dispatch kmalloc (treeOf d) cwd (ascii "ls") [ascii "ls"] =
      ((cwd, OnTree.listing (treeOf d) cwd), treeOf d) := by
  show ((cwd, OnTree.lsDir (treeOf d) (some cwd)), treeOf d) = _
  rw [OnTree.lsDir, if_neg (not_not.mpr (kindOf_cwd h))]

/-- In every state of the machine: two listings with one command in between.  A command that complains changes
nothing.  `mkdir` and a `touch` of a new name add one line, with what fits of the name, `rm` takes one away, and no
other line changes. -/
theorem ls_before_after (hello : List UInt8) {fuel : Nat} (hfuel : 64 ≤ fuel) {cwd : Nat} {c : Bcache}
    (h : Reached hello fuel (cwd, c)) (kmalloc : UInt32 → Bool) {line cmd name : List UInt8}
    (hline : Typed line [cmd, name]) (hnl : 0x0A ∉ name) (hcmd : cmd ∈ [ascii "touch", ascii "mkdir", ascii "rm"]) :
    ∃ before out after s,
      history Bcache.device cachedPower hello fuel
          [.line kmalloc (ascii "ls"), .line kmalloc line, .line kmalloc (ascii "ls")] (cwd, c) =
        ([.printed before, .printed out, .printed after], some s) ∧ Lists cmd name before out after := by
  have hls : Typed (ascii "ls") [ascii "ls"] := by unfold Typed; decide
  obtain ⟨d, hset, hgood⟩ := h.good hello hfuel
  obtain ⟨c1, d1, hev1, hset1, hgood1, htree1⟩ :=
    line_shows hello hfuel kmalloc hls hset hgood (hls.not_removesParent (Or.inr (by decide)) cwd) (dispatch_ls hgood kmalloc)
  obtain ⟨out, t, hrun, hlists⟩ := dispatch_lists hgood1 (hline.cstr_eq name (by simp)) hnl kmalloc hcmd
  obtain ⟨c2, d2, hev2, hset2, hgood2, rfl⟩ :=
    line_shows hello hfuel kmalloc hline hset1 hgood1 (hline.not_removesParent (Or.inr (Nat.lt_add_one 1)) cwd) hrun
  obtain ⟨c3, d3, hev3, -⟩ :=
    line_shows hello hfuel kmalloc hls hset2 hgood2 (hls.not_removesParent (Or.inr (by decide)) cwd) (dispatch_ls hgood2 kmalloc)
  rw [htree1] at hlists
  refine ⟨_, _, _, (cwd, c3), ?_, hlists⟩
  simp only [history, hev1, hev2, hev3]

-- The first boot of a blank disk.
theorem first_boot (hello : List UInt8) (fuel : Nat) : ∃ seen c d,
    event Bcache.device cachedPower hello fuel (.restart .empty) (sfsRoot, Bcache.empty.boot blankDisk) =
        some (seen, sfsRoot, c) ∧ Settled c d ∧ Good sfsRoot d ∧ treeOf d = (OnTree.boot hello formatted).2 := by
  obtain ⟨e, hrun, hinv, -⟩ := run_format blankDisk
  have htree : formatted = treeOf e := by rw [← treeOf_format blankDisk, hrun]
  have hfollows := eventFollows_restart hello fuel .empty sfsRoot ((run_sfsInit_blank blankDisk_magic).trans hrun)
    ⟨hinv, isDir_root hinv⟩ (sfsRoot, formatted) htree
  have hsame := event_cached hello fuel (.restart .empty) sfsRoot (settled_boot .empty blankDisk)
  obtain ⟨seen, d, hev, hgood⟩ := event_blank hello fuel sfsRoot .empty blankDisk_magic
  rw [hev] at hfollows hsame
  obtain ⟨c, hev', hset⟩ := hsame.of_flat
  refine ⟨seen, c, d, hev', hset, hgood, ?_⟩
  unfold OnTree.event at hfollows
  dsimp only at hfollows
  split at hfollows
  · cases hfollows
  · generalize (OnTree.boot hello formatted).2 = t at hfollows
    cases hfollows
    rfl

theorem reached_first_boot {hello : List UInt8} {fuel : Nat} {seen : Seen} {c : Bcache}
    (hev : event Bcache.device cachedPower hello fuel (.restart .empty) (sfsRoot, Bcache.empty.boot blankDisk) =
      some (seen, sfsRoot, c)) : Reached hello fuel (sfsRoot, c) := by
  refine ⟨.empty, .empty, blankDisk, [], Or.inr blankDisk_magic, ⟨?_, fun _ _ _ => trivial⟩, ?_⟩
  · exact fun _ _ h => Event.noConfusion h
  · rw [history, hev]
    rfl

theorem reached_blank (hello : List UInt8) (fuel : Nat) : ∃ c, Reached hello fuel (sfsRoot, c) := by
  obtain ⟨seen, c, d, hev, -⟩ := first_boot hello fuel
  exact ⟨c, reached_first_boot hev⟩

-- A directory is made after the first boot.
theorem ls_before_after_mkdir :
    ∃ c before after s,
      history Bcache.device cachedPower (ascii "ELF") 64
          [.line (fun _ => true) (ascii "ls"), .line (fun _ => true) (ascii "mkdir a"), .line (fun _ => true) (ascii "ls")]
          (sfsRoot, c) = ([.printed before, .printed [], .printed after], some s) ∧
        OneMore (ascii "a/") before after := by
  have hls : Typed (ascii "ls") [ascii "ls"] := by unfold Typed; decide
  have hmkdir : Typed (ascii "mkdir a") [ascii "mkdir", ascii "a"] := by unfold Typed; decide
  obtain ⟨seen, c, d, hev, hset, hgood, htree⟩ := first_boot (ascii "ELF") 64
  have hc := reached_first_boot hev
  obtain ⟨before, out, after, s, hrun, hlists⟩ :=
    ls_before_after (ascii "ELF") (Nat.le_refl 64) hc (fun _ => true) hmkdir (by decide) (by decide)
  obtain ⟨c1, d1, hev1, hset1, hgood1, htree1⟩ :=
    line_shows (ascii "ELF") (Nat.le_refl 64) (fun _ => true) hls hset hgood (not_removesParent_root _)
      (dispatch_ls hgood _)
  have hmade : (OnTree.mkdir (treeOf d1) sfsRoot [ascii "mkdir", ascii "a"]).1 = [] := by
    rw [htree1, htree]
    decide +kernel
  obtain ⟨c2, d2, hev2, hset2, hgood2, -⟩ :=
    line_shows (ascii "ELF") (Nat.le_refl 64) (fun _ => true) hmkdir hset1 hgood1 (not_removesParent_root _)
      (show _ = ((sfsRoot, (OnTree.mkdir (treeOf d1) sfsRoot [ascii "mkdir", ascii "a"]).1), _) from rfl)
  obtain ⟨c3, d3, hev3, -⟩ :=
    line_shows (ascii "ELF") (Nat.le_refl 64) (fun _ => true) hls hset2 hgood2 (not_removesParent_root _)
      (dispatch_ls hgood2 _)
  rw [hmade] at hev2
  have hrun' : history Bcache.device cachedPower (ascii "ELF") 64
      [.line (fun _ => true) (ascii "ls"), .line (fun _ => true) (ascii "mkdir a"), .line (fun _ => true) (ascii "ls")]
      (sfsRoot, c) = ([.printed (OnTree.listing (treeOf d) sfsRoot), .printed [],
        .printed (OnTree.listing (treeOf d2) sfsRoot)], some (sfsRoot, c3)) := by
    simp only [history, hev1, hev2, hev3]
  obtain ⟨hseen, -⟩ := Prod.mk.inj (hrun.symm.trans hrun')
  obtain rfl : out = [] := Seen.printed.inj (List.cons.inj (List.cons.inj hseen).2).1
  exact ⟨c, before, after, s, hrun, ((hlists.2.1 rfl).resolve_left fun h => h.1 rfl).2⟩

end JacobOS.Shell
