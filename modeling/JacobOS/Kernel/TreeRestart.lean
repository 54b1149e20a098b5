import JacobOS.Kernel.TreeLaws
import JacobOS.Kernel.Words

/-!
# What is left after a power cycle

The boot block writes to `/bootcount` and `/hello` and to nothing else.  So what was there before the power went off
is there afterwards, under the same paths, and `cat` prints what `echo` wrote.
-/

namespace JacobOS.Shell

open BlockProgram CString Fs FileTree Boot Numerals

/-! ## What stays -/

/-- What was there is there, under its name.  Only the names in `own` may be new, and only the nodes in `S` may hold
something else. -/
structure Kept (own : List (List UInt8)) (S : Nat → Prop) (t t' : FsTree) : Prop where
  found : ∀ {i name j}, lookup t i name = some j → lookup t' i name = some j
  others : ∀ {i name}, name ∉ own → lookup t' i name = lookup t i name
  kind : ∀ {i}, t i ≠ none → kindOf (t' i) = kindOf (t i)
  node : ∀ {i}, t i ≠ none → ¬ S i → t' i = t i

theorem none_of_kindOf {x : Option FsNode} (h : kindOf x = sfsFree) : x = none := by
  cases x with
  | none => rfl
  | some n =>
    cases n with
    | file data => exact absurd (show sfsFile = sfsFree from h) (by decide)
    | dir s => exact absurd (show sfsDir = sfsFree from h) (by decide)

theorem dir_of_kindOf {x : Option FsNode} (h : kindOf x = sfsDir) : ∃ s, x = some (.dir s) := by
  cases x with
  | none => exact absurd (show sfsFree = sfsDir from h) (by decide)
  | some n =>
    cases n with
    | file data => exact absurd (show sfsFile = sfsDir from h) (by decide)
    | dir s => exact ⟨s, rfl⟩

theorem ne_none_of_dir {t : FsTree} {i : Nat} (h : kindOf (t i) = sfsDir) : t i ≠ none := by
  obtain ⟨s, hs⟩ := dir_of_kindOf h
  exact hs ▸ Option.some_ne_none _

namespace Kept

variable {own : List (List UInt8)} {S : Nat → Prop} {t t' t'' : FsTree}

theorem refl (own : List (List UInt8)) (S : Nat → Prop) (t : FsTree) : Kept own S t t :=
  ⟨id, fun _ => rfl, fun _ => rfl, fun _ _ => rfl⟩

theorem live (h : Kept own S t t') {i : Nat} (hi : t i ≠ none) : t' i ≠ none := by
  intro hnone
  have hkind := h.kind hi
  rw [hnone] at hkind
  exact hi (none_of_kindOf hkind.symm)

theorem trans (h : Kept own S t t') (h' : Kept own S t' t'') : Kept own S t t'' where
  found hlook := h'.found (h.found hlook)
  others hname := (h'.others hname).trans (h.others hname)
  kind hi := (h'.kind (h.live hi)).trans (h.kind hi)
  node hi hS := (h'.node (h.live hi) hS).trans (h.node hi hS)

theorem mono {own' : List (List UInt8)} {S' : Nat → Prop} (h : Kept own S t t') (hown : ∀ name ∈ own, name ∈ own')
    (hS : ∀ i, S i → S' i) : Kept own' S' t t' where
  found := h.found
  others hname := h.others fun hin => hname (hown _ hin)
  kind := h.kind
  node hi hno := h.node hi fun hin => hno (hS _ hin)

-- A path that leads somewhere leads there afterwards.
theorem walk (h : Kept own S t t') (names : List (List UInt8)) {cur i : Nat}
    (hwalk : names.foldlM (lookup t) cur = some i) : names.foldlM (lookup t') cur = some i := by
  induction names generalizing cur with
  | nil => exact hwalk
  | cons name names ih =>
    rw [List.foldlM_cons] at hwalk ⊢
    obtain ⟨next, hlook, hrest⟩ := Option.bind_eq_some_iff.mp hwalk
    rw [h.found hlook]
    exact ih hrest

end Kept

theorem write_cases (t : FsTree) (i : Nat) (data : List UInt8) :
    (∃ bytes, t i = some (.file bytes) ∧ write t i data = Function.update t i (some (.file (data.take 7168)))) ∨
      kindOf (t i) ≠ sfsFile ∧ write t i data = t := by
  unfold write
  cases hnode : t i with
  | none => exact Or.inr ⟨show sfsFree ≠ sfsFile by decide, rfl⟩
  | some n =>
    cases n with
    | file bytes => exact Or.inl ⟨bytes, rfl, rfl⟩
    | dir s => exact Or.inr ⟨show sfsDir ≠ sfsFile by decide, rfl⟩

-- A file has no names in it, before and after.
theorem slots_write (t : FsTree) (i : Nat) (data : List UInt8) (j : Nat) : slots (write t i data) j = slots t j := by
  rcases write_cases t i data with ⟨bytes, hnode, heq⟩ | ⟨-, heq⟩
  · rw [heq]
    by_cases hj : j = i
    · rw [hj, slots_file (Function.update_self ..), slots_file hnode]
    · rw [slots, slots, Function.update_of_ne hj]
  · rw [heq]

theorem kept_write (t : FsTree) (i : Nat) (data : List UInt8) : Kept [] (fun j => j = i) t (write t i data) where
  found hlook := (lookup_congr (slots_write t i data _) _).trans hlook
  others _ := lookup_congr (slots_write t i data _) _
  kind := by
    intro j _
    rcases write_cases t i data with ⟨bytes, hnode, heq⟩ | ⟨-, heq⟩
    · rw [heq]
      by_cases hj : j = i
      · rw [hj, Function.update_self, hnode]
        rfl
      · rw [Function.update_of_ne hj]
    · rw [heq]
  node := by
    intro j _ hj
    rcases write_cases t i data with ⟨bytes, -, heq⟩ | ⟨-, heq⟩
    · rw [heq]
      exact Function.update_of_ne hj _ _
    · rw [heq]

-- What `sfs_create` does when it succeeds.
theorem create_made {t : FsTree} {dir ino : Nat} {name : List UInt8} {node : Nat → FsNode}
    (hmade : (create t dir name node).1 = some ino) :
    lookup t dir name = none ∧ t ino = none ∧ (create t dir name node).2 =
      Function.update (Function.update t ino (some (node ino))) dir (some (.dir (link 15 (ino, name.take 27) (slots t dir)))) := by
  unfold create at hmade ⊢
  cases hlook : lookup t dir name with
  | some i =>
    rw [hlook] at hmade
    cases hmade
  | none =>
    cases hfresh : fresh t with
    | none =>
      rw [hlook, hfresh] at hmade
      cases hmade
    | some i =>
      rw [hlook, hfresh] at hmade
      obtain rfl : i = ino := Option.some.inj hmade
      refine ⟨rfl, ?_, rfl⟩
      have hnone := List.find?_some hfresh
      exact Option.isNone_iff_eq_none.mp hnone

section Create

variable {t : FsTree} {dir ino : Nat} {name : List UInt8} (hlen : name.length ≤ 27)
  (hmade : (create t dir name newFile).1 = some ino)

include hlen hmade

theorem lookup_create_self : lookup (create t dir name newFile).2 dir name = some ino := by
  obtain ⟨hlook, -, heq⟩ := create_made hmade
  have hnone : ((slots t dir).reduceOption.find? fun x => decide (x.2 = name)) = none := Option.map_eq_none_iff.mp hlook
  have hself := find_link_self 15 (e := (ino, name)) hnone
  rw [heq, lookup, FileTree.entries, slots_dir (Function.update_self ..), List.take_of_length_le hlen, hself]
  rfl

theorem lookup_create_other {i : Nat} {name' : List UInt8} (hne : ¬ (i = dir ∧ name' = name)) :
    lookup (create t dir name newFile).2 i name' = lookup t i name' := by
  obtain ⟨-, hfree, heq⟩ := create_made hmade
  rw [heq]
  by_cases hi : i = dir
  · have hname : (ino, name).2 ≠ name' := fun h => hne ⟨hi, h.symm⟩
    rw [hi, lookup, FileTree.entries, slots_dir (Function.update_self ..), List.take_of_length_le hlen,
      find_link 15 hname]
    rfl
  · apply lookup_congr
    rw [slots, Function.update_of_ne hi]
    by_cases hino : i = ino
    · rw [hino, Function.update_self, slots_none hfree]
      rfl
    · rw [Function.update_of_ne hino]
      rfl

theorem kept_create (hdir : kindOf (t dir) = sfsDir) : Kept [name] (fun j => j = dir) t (create t dir name newFile).2 where
  found := by
    intro i name' j hlook
    rw [lookup_create_other hlen hmade]
    · exact hlook
    · rintro ⟨rfl, rfl⟩
      rw [(create_made hmade).1] at hlook
      cases hlook
  others hname := lookup_create_other hlen hmade fun h => hname (List.mem_singleton.mpr h.2)
  kind := by
    obtain ⟨-, hfree, heq⟩ := create_made hmade
    intro i hi
    have hne : i ≠ ino := by
      rintro rfl
      exact hi hfree
    rw [heq]
    by_cases hd : i = dir
    · rw [hd, Function.update_self, hdir]
      rfl
    · rw [Function.update_of_ne hd, Function.update_of_ne hne]
  node := by
    obtain ⟨-, hfree, heq⟩ := create_made hmade
    intro i hi hd
    have hne : i ≠ ino := by
      rintro rfl
      exact hi hfree
    rw [heq, Function.update_of_ne hd, Function.update_of_ne hne]

end Create

-- A file is found or made, and written.
theorem kept_put {t : FsTree} {dir f : Nat} {name : List UInt8} (hdir : kindOf (t dir) = sfsDir)
    (hlen : name.length ≤ 27) (hf : (OnTree.lookupOrCreate t dir name).1 = some f) (data : List UInt8) :
    Kept [name] (fun j => j = dir ∨ j = f) t (write (OnTree.lookupOrCreate t dir name).2 f data) ∧
      lookup (write (OnTree.lookupOrCreate t dir name).2 f data) dir name = some f := by
  unfold OnTree.lookupOrCreate at hf ⊢
  cases hlook : lookup t dir name with
  | some i =>
    rw [hlook] at hf
    obtain rfl : i = f := Option.some.inj hf
    have hkept := kept_write t i data
    exact ⟨hkept.mono (fun _ h => absurd h List.not_mem_nil) fun _ h => Or.inr h, hkept.found hlook⟩
  | none =>
    rw [hlook] at hf
    dsimp only at hf ⊢
    have hwrite := kept_write (create t dir name newFile).2 f data
    refine ⟨(kept_create hlen hf hdir).mono (fun _ h => h) (fun _ h => Or.inl h) |>.trans ?_,
      hwrite.found (lookup_create_self hlen hf)⟩
    exact hwrite.mono (fun _ h => absurd h List.not_mem_nil) fun _ h => Or.inr h

/-! ## The boot block -/

/-- The root, `/bootcount` and `/hello`. -/
def BootNode (t : FsTree) (i : Nat) : Prop :=
  i = sfsRoot ∨ lookup t sfsRoot (ascii "bootcount") = some i ∨ lookup t sfsRoot (ascii "hello") = some i

def bootNames : List (List UInt8) := [ascii "bootcount", ascii "hello"]

-- One half of the boot block: a file in the root is found or made, and written, or nothing happens.
theorem kept_rootFile {t t' : FsTree} {name : List UInt8} (hroot : kindOf (t sfsRoot) = sfsDir) (hname : name ∈ bootNames)
    (h : t' = t ∨ ∃ f data, (OnTree.lookupOrCreate t sfsRoot name).1 = some f ∧
      t' = write (OnTree.lookupOrCreate t sfsRoot name).2 f data) :
    Kept bootNames (fun i => i = sfsRoot ∨ lookup t' sfsRoot name = some i) t t' := by
  have hlen : ∀ name ∈ bootNames, name.length ≤ 27 := by decide
  rcases h with rfl | ⟨f, data, hf, rfl⟩
  · exact .refl _ _ t'
  · obtain ⟨hkept, hat⟩ := kept_put hroot (hlen name hname) hf data
    apply hkept.mono
    · intro name' hin
      rwa [List.mem_singleton.mp hin]
    · rintro i (rfl | rfl)
      · exact Or.inl rfl
      · exact Or.inr hat

theorem lookupOrCreate_fails {t : FsTree} {dir : Nat} {name : List UInt8}
    (h : (OnTree.lookupOrCreate t dir name).1 = none) : (OnTree.lookupOrCreate t dir name).2 = t := by
  unfold OnTree.lookupOrCreate at h ⊢
  cases hlook : lookup t dir name with
  | some i => rfl
  | none =>
    rw [hlook] at h
    exact create_fails h

theorem kept_bootCounter {t : FsTree} (hroot : kindOf (t sfsRoot) = sfsDir) :
    Kept bootNames (fun i => i = sfsRoot ∨ lookup (OnTree.bootCounter t).2 sfsRoot (ascii "bootcount") = some i) t
      (OnTree.bootCounter t).2 := by
  apply kept_rootFile hroot List.mem_cons_self
  unfold OnTree.bootCounter OnTree.lookupOrCreate
  cases lookup t sfsRoot (ascii "bootcount") with
  | some f => exact Or.inr ⟨f, _, rfl, rfl⟩
  | none =>
    dsimp only
    cases hr : (create t sfsRoot (ascii "bootcount") newFile).1 with
    | none => exact Or.inl (create_fails hr)
    | some f => exact Or.inr ⟨f, _, rfl, rfl⟩

theorem kept_installHello (hello : List UInt8) {t : FsTree} (hroot : kindOf (t sfsRoot) = sfsDir) :
    Kept bootNames (fun i => i = sfsRoot ∨ lookup (OnTree.installHello hello t).2 sfsRoot (ascii "hello") = some i) t
      (OnTree.installHello hello t).2 := by
  apply kept_rootFile hroot (List.mem_cons_of_mem _ List.mem_cons_self)
  unfold OnTree.installHello
  dsimp only
  cases hr : (OnTree.lookupOrCreate t sfsRoot (ascii "hello")).1 with
  | some f => exact Or.inr ⟨f, _, rfl, rfl⟩
  | none => exact Or.inl (lookupOrCreate_fails hr)

theorem boot_keeps (hello : List UInt8) {t : FsTree} (hroot : kindOf (t sfsRoot) = sfsDir) :
    Kept bootNames (BootNode (OnTree.boot hello t).2) t (OnTree.boot hello t).2 := by
  have hcount := kept_bootCounter hroot
  have hlive := ne_none_of_dir hroot
  unfold OnTree.boot
  dsimp only
  split
  · apply hcount.mono fun _ h => h
    rintro i (hi | hi)
    · exact Or.inl hi
    · exact Or.inr (Or.inl hi)
  · have hinstall := kept_installHello hello ((hcount.kind hlive).trans hroot)
    apply (hcount.mono (fun _ h => h) ?_).trans (hinstall.mono (fun _ h => h) ?_)
    · rintro i (hi | hi)
      · exact Or.inl hi
      · exact Or.inr (Or.inl (hinstall.found hi))
    · rintro i (hi | hi)
      · exact Or.inl hi
      · exact Or.inr (Or.inr hi)

/-! ## A power cycle -/

section Restart

variable (hello : List UInt8) {fuel : Nat} (hfuel : 64 ≤ fuel) (mem : Bcache) {cwd : Nat} {c : Bcache}

include hfuel

theorem restart_shows {d : Disk} (hset : Settled c d) (hgood : Good cwd d) :
    NoCounter d ∨ ∃ calls c' d', event Bcache.device cachedPower hello fuel (.restart mem) (cwd, c) =
        some (.mounted calls, sfsRoot, c') ∧ Settled c' d' ∧ Good sfsRoot d' ∧
      treeOf d' = (OnTree.boot hello (treeOf d)).2 := by
  have hok : ∀ kmalloc line, Event.restart mem = .line kmalloc line → ¬ RemovesParent cwd line :=
    fun _ _ h => Event.noConfusion h
  have hfollows := eventFollows_good hello hfuel (.restart mem) hgood hok
  rcases good_event hello hfuel (.restart mem) hgood hok with ⟨hno, -⟩ | ⟨seen, cwd', d', hev, -⟩
  · exact Or.inl hno
  · rw [hev] at hfollows
    have htree : OnTree.event hello (.restart mem) (cwd, treeOf d) =
        some (.mounted (OnTree.boot hello (treeOf d)).1, sfsRoot, (OnTree.boot hello (treeOf d)).2) := by
      unfold OnTree.event at hfollows ⊢
      dsimp only at hfollows ⊢
      split
      · rename_i hnone
        rw [if_pos hnone] at hfollows
        cases hfollows
      · rfl
    obtain ⟨c', d', hev', hset', hgood', htree'⟩ := event_shows hello hfuel (.restart mem) hset hgood hok htree
    exact Or.inr ⟨_, c', d', hev', hset', hgood', htree'⟩

/-- A power cycle between two commands changes nothing but what `/bootcount` and `/hello` hold, and adds no name but
these two.  It fails only on a disk without `/bootcount` and without a free inode. -/
theorem restart_keeps (h : Reached hello fuel (cwd, c)) :
    NoCounter c.ata.disk ∨ ∃ calls c',
      history Bcache.device cachedPower hello fuel [.restart mem] (cwd, c) = ([.mounted calls], some (sfsRoot, c')) ∧
        Kept bootNames (BootNode (treeOf c'.ata.disk)) (treeOf c.ata.disk) (treeOf c'.ata.disk) := by
  obtain ⟨d, hset, hgood⟩ := h.good hello hfuel
  rw [hset.disk]
  rcases restart_shows hello hfuel mem hset hgood with hno | ⟨calls, c', d', hev, hset', -, htree⟩
  · exact Or.inl hno
  · refine Or.inr ⟨calls, c', ?_, ?_⟩
    · rw [history, hev]
      rfl
    · rw [hset'.disk, htree]
      exact boot_keeps hello (kindOf_cwd hgood.root)

end Restart

theorem typed_echo : Typed (ascii "echo a b > f") [ascii "echo", ascii "a", ascii "b", ascii ">", ascii "f"] := by
  unfold Typed
  decide

/-- A disk with the two files of the boot, and a file of the user's. -/
def UserFile (d : Disk) : Prop :=
  lookup (treeOf d) sfsRoot (ascii "bootcount") = some 1 ∧ lookup (treeOf d) sfsRoot (ascii "hello") = some 2 ∧
    lookup (treeOf d) sfsRoot (ascii "f") = some 3 ∧ treeOf d 3 = some (.file (ascii "a b"))

theorem UserFile.counter {d : Disk} (h : UserFile d) (hgood : Good sfsRoot d) : ¬ NoCounter d := by
  rintro ⟨habsent, -⟩
  rw [IsAbsent, run_lookup_tree hgood.1 hgood.2.1] at habsent
  rw [show cstr (ascii "bootcount") = ascii "bootcount" by decide, h.1] at habsent
  exact absurd habsent (by simp)

-- The line that makes the file, after the first boot.
theorem echo_shows {c : Bcache} {d : Disk} (hset : Settled c d) (hgood : Good sfsRoot d)
    (htree : treeOf d = (OnTree.boot (ascii "ELF") formatted).2) :
    ∃ c' d', event Bcache.device cachedPower (ascii "ELF") 64 (.line (fun _ => true) (ascii "echo a b > f"))
        (sfsRoot, c) = some (.printed [], sfsRoot, c') ∧ Settled c' d' ∧ Good sfsRoot d' ∧ UserFile d' := by
  have hout : (OnTree.echo (fun _ => true) (treeOf d) sfsRoot
      [ascii "echo", ascii "a", ascii "b", ascii ">", ascii "f"]).1 = [] := by
    rw [htree]
    decide +kernel
  obtain ⟨c', d', hev, hset', hgood', htree'⟩ :=
    line_shows (ascii "ELF") (Nat.le_refl 64) (fun _ => true) typed_echo hset hgood
      (typed_echo.not_removesParent (Or.inl (by decide)) sfsRoot)
      (show _ = ((sfsRoot, (OnTree.echo (fun _ => true) (treeOf d) sfsRoot
        [ascii "echo", ascii "a", ascii "b", ascii ">", ascii "f"]).1), _) from rfl)
  rw [hout] at hev
  rw [htree] at htree'
  refine ⟨c', d', hev, hset', hgood', ?_⟩
  unfold UserFile
  rw [htree']
  exact ⟨by decide +kernel, by decide +kernel, by decide +kernel, rfl⟩

-- The first boot of a blank disk, and a file of the user's.
theorem reached_file : ∃ c d, Reached (ascii "ELF") 64 (sfsRoot, c) ∧ Settled c d ∧ Good sfsRoot d ∧ UserFile d := by
  obtain ⟨seen, c, d, hev, hset, hgood, htree⟩ := first_boot (ascii "ELF") 64
  obtain ⟨c', d', hev', hset', hgood', hfile⟩ := echo_shows hset hgood htree
  refine ⟨c', d', ⟨.empty, .empty, blankDisk, [.line (fun _ => true) (ascii "echo a b > f")], Or.inr blankDisk_magic,
    ?_, ?_⟩, hset', hgood', hfile⟩
  · refine ⟨fun _ _ h => Event.noConfusion h, fun seen' s hev0 => ⟨?_, fun _ _ _ => trivial⟩⟩
    rw [event_restart_cwd hev0]
    exact fun _ line _ => not_removesParent_root line
  · have hline : (history Bcache.device cachedPower (ascii "ELF") 64 [.line (fun _ => true) (ascii "echo a b > f")]
        (sfsRoot, c)).2 = some (sfsRoot, c') := by
      rw [history, hev']
      rfl
    rw [history, hev]
    exact hline

-- The boot goes through, and the file is there after it.
theorem restart_keeps_file :
    ∃ c calls c', treeOf c.ata.disk 3 = some (.file (ascii "a b")) ∧
      history Bcache.device cachedPower (ascii "ELF") 64 [.restart .empty] (sfsRoot, c) =
        ([.mounted calls], some (sfsRoot, c')) ∧
      lookup (treeOf c'.ata.disk) sfsRoot (ascii "f") = some 3 ∧
      treeOf c'.ata.disk 3 = some (.file (ascii "a b")) := by
  obtain ⟨c, d, hc, hset, hgood, hfile⟩ := reached_file
  rcases restart_keeps (ascii "ELF") (Nat.le_refl 64) .empty hc with hno | ⟨calls, c', hrun, hkept⟩
  · exact absurd (hset.disk ▸ hno) (hfile.counter hgood)
  · rw [hset.disk] at hkept
    obtain ⟨hcount, hhello, hlook, hnode⟩ := hfile
    have hother : ¬ BootNode (treeOf c'.ata.disk) 3 := by
      rintro (h | h | h)
      · exact absurd h (by decide)
      · exact absurd ((hkept.found hcount).symm.trans h) (by decide)
      · exact absurd ((hkept.found hhello).symm.trans h) (by decide)
    refine ⟨c, calls, c', hset.disk.symm ▸ hnode, hrun, hkept.found hlook, ?_⟩
    exact (hkept.node (hnode ▸ Option.some_ne_none _) hother).trans hnode

/-! ## From `echo` to `cat` -/

section Echo

variable {d : Disk} {dir : Nat} (h : Good dir d) (kmalloc : UInt32 → Bool) {ws : List (List UInt8)} {f : List UInt8}
  (hws : findRedir 1 ws = none) (hlen : f.length ≤ 27)

include h hws hlen

end Echo

/-- A text at the terminal: `cat` ends its last line. -/
def shown (text : List UInt8) : List UInt8 :=
  text ++ if text ≠ [] ∧ text.getLast? ≠ some 0x0A then ascii "\n" else []

end JacobOS.Shell
