import JacobOS.Fs.Effects
import JacobOS.Kernel.Shell
import Mathlib.Data.Set.Card

/-!
# What `rm_rec` removes

On a disk that satisfies the file system's invariant `rm_rec` returns, frees the inodes at and below
the one it is called for, and leaves every other inode alone, except that the entry goes from the
parent.  Called for `.` or `..` it empties that directory and then fails.
-/

namespace JacobOS.Shell

open BlockProgram CString Fs RootedTree Relation

/-- `c` is a child of `p` in the tree on disk. -/
def EdgeAt (d : Disk) : Nat → Nat → Prop := Edge (typeAt d) (entriesAt d)

/-- `j` is `t` or below it. -/
def Below (d : Disk) (t j : Nat) : Prop := ReflTransGen (EdgeAt d) t j

theorem below_lt {d : Disk} (h : Inv d) {t j : Nat} (ht : t < 64) (hj : Below d t j) : j < 64 := by
  rcases ReflTransGen.cases_tail hj with rfl | ⟨b, -, hbj⟩
  · exact ht
  · exact (h.names.edge_child hbj).2.1

/-- How many inodes there are at and below `t`. -/
noncomputable def sizeBelow (d : Disk) (t : Nat) : Nat := {j | Below d t j}.ncard

theorem below_finite {d : Disk} (h : Inv d) {t : Nat} (ht : t < 64) : {j | Below d t j}.Finite :=
  (Set.finite_lt_nat 64).subset fun _ hj => below_lt h ht hj

theorem sizeBelow_pos {d : Disk} (h : Inv d) {t : Nat} (ht : t < 64) : 0 < sizeBelow d t :=
  (Set.ncard_pos (below_finite h ht)).mpr ⟨t, ReflTransGen.refl⟩

theorem sizeBelow_le {d : Disk} (h : Inv d) {t : Nat} (ht : t < 64) : sizeBelow d t ≤ 64 := by
  have hsub : {j | Below d t j} ⊆ (Finset.range 64 : Set Nat) := by
    intro j hj
    exact Finset.mem_coe.mpr (Finset.mem_range.mpr (below_lt h ht hj))
  have hle := Set.ncard_le_ncard hsub (Finset.finite_toSet _)
  rwa [Set.ncard_coe_finset, Finset.card_range] at hle

theorem sizeBelow_child {d : Disk} (h : Inv d) {p c : Nat} (hpc : EdgeAt d p c) :
    sizeBelow d c < sizeBelow d p := by
  refine Set.ncard_lt_ncard ⟨?_, ?_⟩ (below_finite h hpc.1)
  · intro j hj
    exact ReflTransGen.head hpc hj
  · intro hall
    exact h.names.tree.not_reach_parent hpc (hall ReflTransGen.refl)

/-! ## The scan for a child -/

theorem dots_iff {de : Dirent} :
    strcmp de.str dot = 0 ∨ strcmp de.str dotdot = 0 ↔ ¬ de.isReal = true := by
  have hstr : cstr de.str = de.str := cstr_cstr _
  rw [strcmp_dot, strcmp_dotdot, hstr, isReal_iff, not_and_or, not_not, not_not]

theorem run_firstChild {d : Disk} (h : Inv d) {ino : Nat} (hino : ino < 64)
    (ht : typeAt d ino = sfsDir) (calls i : Nat) (hcalls : (entriesAt d ino).length < i + calls) :
    (firstChild ino calls i).run flat d =
      ((((entriesAt d ino).drop i).find? Dirent.isReal).map Dirent.str, d) := by
  induction calls generalizing i with
  | zero =>
    rw [List.drop_eq_nil_of_le (by omega)]
    rfl
  | succ calls ih =>
    rw [firstChild, Prog.run_bind, run_sfsReaddir, if_pos ht]
    by_cases hlt : i < (entriesAt d ino).length
    · have hinum := h.names.inumOf_target hino ht (List.getElem_mem hlt)
      rw [List.getElem?_eq_getElem hlt, Option.bind_some, report, hinum, Option.map_some,
        List.drop_eq_getElem_cons hlt, List.find?_cons]
      dsimp only
      generalize (entriesAt d ino)[i] = de
      by_cases hreal : de.isReal = true
      · rw [if_neg (fun hdots => dots_iff.mp hdots hreal), hreal]
        rfl
      · rw [if_pos (dots_iff.mpr hreal), ih (i + 1) (by omega)]
        simp [hreal]
    · rw [List.getElem?_eq_none (by omega), List.drop_eq_nil_of_le (by omega)]
      rfl

-- The scan finds nothing in a directory without children, and a name that leads to a child otherwise.
theorem firstChild_cases {d : Disk} (h : Inv d) {ino : Nat} (hino : ino < 64)
    (ht : typeAt d ino = sfsDir) :
    ((firstChild ino 225 0).run flat d = (none, d) ∧ children (entriesAt d ino) = []) ∨
      ∃ nm de, (firstChild ino 225 0).run flat d = (some nm, d) ∧
        findNamed (slotsAt d ino) nm = some de ∧ de.isReal = true ∧ cstr nm ≠ dot ∧
        cstr nm ≠ dotdot := by
  have hlen := h.names.length_le hino ht
  rw [run_firstChild h hino ht 225 0 (by omega), List.drop_zero]
  cases hfind : (entriesAt d ino).find? Dirent.isReal with
  | none =>
    refine Or.inl ⟨rfl, ?_⟩
    unfold children
    rw [List.filter_eq_nil_iff.mpr fun de hde => List.find?_eq_none.mp hfind de hde, List.map_nil]
  | some de =>
    have hreal : de.isReal = true := List.find?_some hfind
    have hstr : cstr de.str = de.str := cstr_cstr _
    have hmem := List.mem_of_find?_eq_some hfind
    right
    cases hlook : findNamed (slotsAt d ino) de.str with
    | none => exact absurd hstr.symm (findNamed_none.mp hlook de hmem)
    | some de' =>
      have hstr' := (findNamed_mem hlook).2
      obtain ⟨h1, h2⟩ := isReal_iff.mp hreal
      rw [← hstr] at h1 h2
      exact ⟨de.str, de', rfl, hlook, isReal_iff.mpr (by rw [hstr']; exact ⟨h1, h2⟩), h1, h2⟩

/-! ## Removing a subtree -/

/-- The entry of `t` is gone from `parent` and everything at and below `t` is free. -/
structure RmEffect (parent : Nat) (name : List UInt8) (t : Nat) (d e : Disk) : Prop where
  inv : Inv e
  frame : Frame (fun j => j = parent ∨ Below d t j) d e
  freed : ∀ j, Below d t j → inodeAt e j = Inode.zero
  inode : inodeAt e parent = inodeAt d parent
  slots : slotsAt e parent = removeSlot (slotsAt d parent) name

/-- Directory `t` is empty and everything below it is free. -/
structure EmptyEffect (t : Nat) (d e : Disk) : Prop where
  inv : Inv e
  frame : Frame (Below d t) d e
  freed : ∀ j, TransGen (EdgeAt d) t j → inodeAt e j = Inode.zero
  inode : inodeAt e t = inodeAt d t
  childless : children (entriesAt e t) = []

-- The tree that `rm_rec` leaves is the old one without the part below `t`.
theorem RmEffect.edge {d e : Disk} (h : Inv d) {parent : Nat} {name : List UInt8} {de : Dirent}
    (hlook : findNamed (slotsAt d parent) name = some de) (hreal : de.isReal = true)
    (hedge : EdgeAt d parent de.target) (heff : RmEffect parent name de.target d e) (p c : Nat) :
    EdgeAt e p c ↔ EdgeAt d p c ∧ ¬ Below d de.target c := by
  have hfree : ∀ {j}, Below d de.target j → typeAt e j ≠ sfsDir := by
    intro j hj ht
    unfold typeAt at ht
    rw [heff.freed j hj] at ht
    exact absurd ht (by decide)
  have hparent : ¬ Below d de.target parent := h.names.tree.not_reach_parent hedge
  -- the children of the parent lose `t` and nothing else
  have hperm : (children (entriesAt d parent)).Perm (de.target :: children (entriesAt e parent)) := by
    have hp := children_perm (entries_removeSlot hlook)
    rw [children_cons_real hreal, ← heff.slots] at hp
    exact hp
  have hnot : de.target ∉ children (entriesAt e parent) := by
    have hnd := hperm.nodup_iff.mp (h.names.nodup parent hedge.1 hedge.2.1)
    exact (List.nodup_cons.mp hnd).1
  constructor
  · rintro ⟨hp, ht, hc⟩
    have hpt : ¬ Below d de.target p := fun hb => hfree hb ht
    by_cases hpp : p = parent
    · subst hpp
      have hpc : EdgeAt d p c := ⟨hp, hedge.2.1, hperm.mem_iff.mpr (List.mem_cons_of_mem _ hc)⟩
      refine ⟨hpc, fun hb => ?_⟩
      rcases (h.names.tree.reach_child hpc).mp hb with rfl | hb
      · exact hnot hc
      · exact hpt hb
    · have hkeep := not_or.mpr ⟨hpp, hpt⟩
      rw [heff.frame.entriesAt hp hkeep] at hc
      have hpc : EdgeAt d p c := ⟨hp, (heff.frame.typeAt hp hkeep).symm.trans ht, hc⟩
      refine ⟨hpc, fun hb => ?_⟩
      rcases (h.names.tree.reach_child hpc).mp hb with rfl | hb
      · exact hpp (h.names.tree.parent hpc hedge)
      · exact hpt hb
  · rintro ⟨⟨hp, ht, hc⟩, hb⟩
    have hpt : ¬ Below d de.target p := fun hpt => hb (hpt.tail ⟨hp, ht, hc⟩)
    by_cases hpp : p = parent
    · subst hpp
      refine ⟨hp, ?_, ?_⟩
      · unfold typeAt
        rw [heff.inode]
        exact ht
      · rcases List.mem_cons.mp (hperm.mem_iff.mp hc) with rfl | hc
        · exact absurd ReflTransGen.refl hb
        · exact hc
    · have hkeep := not_or.mpr ⟨hpp, hpt⟩
      refine ⟨hp, (heff.frame.typeAt hp hkeep).trans ht, ?_⟩
      rw [heff.frame.entriesAt hp hkeep]
      exact hc

theorem RmEffect.below {d e : Disk} (h : Inv d) {parent : Nat} {name : List UInt8} {de : Dirent}
    (hlook : findNamed (slotsAt d parent) name = some de) (hreal : de.isReal = true)
    (hedge : EdgeAt d parent de.target) (heff : RmEffect parent name de.target d e) {r : Nat}
    (hr : ¬ Below d de.target r) (j : Nat) :
    Below e r j ↔ Below d r j ∧ ¬ Below d de.target j := by
  have hsame : EdgeAt e = fun a b => EdgeAt d a b ∧ ¬ ReflTransGen (EdgeAt d) de.target b :=
    funext fun a => funext fun b => propext (heff.edge h hlook hreal hedge a b)
  unfold Below
  rw [hsame]
  exact reach_pruned hr

-- One pass of the loop, and then the rest of it.
theorem EmptyEffect.after {d d1 e : Disk} (h : Inv d) {t : Nat} {name : List UInt8} {de : Dirent}
    (hlook : findNamed (slotsAt d t) name = some de) (hreal : de.isReal = true)
    (hedge : EdgeAt d t de.target) (h1 : RmEffect t name de.target d d1) (h2 : EmptyEffect t d1 e) :
    EmptyEffect t d e := by
  have ht : ¬ Below d de.target t := h.names.tree.not_reach_parent hedge
  have hbelow := h1.below h hlook hreal hedge ht
  refine ⟨h2.inv, (h1.frame.trans h2.frame).mono ?_, ?_, h2.inode.trans h1.inode, h2.childless⟩
  · rintro j ((rfl | hj) | hj)
    · exact ReflTransGen.refl
    · exact ReflTransGen.head hedge hj
    · exact ((hbelow j).mp hj).1
  · intro j hj
    by_cases hjc : Below d de.target j
    · have hout : ¬ Below d1 t j := fun hb => ((hbelow j).mp hb).2 hjc
      rw [h2.frame.inode j (below_lt h hedge.1 hj.to_reflTransGen) hout]
      exact h1.freed j hjc
    · apply h2.freed
      rcases reflTransGen_iff_eq_or_transGen.mp ((hbelow j).mpr ⟨hj.to_reflTransGen, hjc⟩) with rfl | hb
      · exact absurd hj h.names.tree.acyclic
      · exact hb

theorem sizeBelow_pruned {d d1 : Disk} (h : Inv d) {t : Nat} {name : List UInt8} {de : Dirent}
    (hlook : findNamed (slotsAt d t) name = some de) (hreal : de.isReal = true)
    (hedge : EdgeAt d t de.target) (h1 : RmEffect t name de.target d d1) :
    sizeBelow d1 t < sizeBelow d t := by
  have hbelow := h1.below h hlook hreal hedge (h.names.tree.not_reach_parent hedge)
  refine Set.ncard_lt_ncard ⟨?_, ?_⟩ (below_finite h hedge.1)
  · intro j hj
    exact ((hbelow j).mp hj).1
  · intro hall
    have hin : Below d1 t de.target := hall (ReflTransGen.single hedge)
    exact ((hbelow de.target).mp hin).2 ReflTransGen.refl

/-- `rm_rec` with this much fuel removes the entry, unless the fuel is less than what is below it. -/
def RmSpec (fuel : Nat) (rec : Nat → List UInt8 → SfsM (Option (Option Nat))) : Prop :=
  ∀ {d : Disk}, Inv d → ∀ {parent : Nat} {name : List UInt8} {de : Dirent}, parent < 64 →
    typeAt d parent = sfsDir → findNamed (slotsAt d parent) name = some de → de.isReal = true →
    (fuel < sizeBelow d de.target ∧ ((rec parent name).run flat d).1 = none) ∨
      ∃ e, (rec parent name).run flat d = (some (some 0), e) ∧ RmEffect parent name de.target d e

theorem run_rmLoop {fuel : Nat} {rec : Nat → List UInt8 → SfsM (Option (Option Nat))}
    (hrec : RmSpec fuel rec) (passes : Nat) {d : Disk} (h : Inv d) {t : Nat} (ht : t < 64)
    (htd : typeAt d t = sfsDir) :
    ((passes < sizeBelow d t ∨ fuel + 1 < sizeBelow d t) ∧
        ((rmLoop rec t passes).run flat d).1 = none) ∨
      ∃ e, (rmLoop rec t passes).run flat d = (some (), e) ∧ EmptyEffect t d e := by
  induction passes generalizing d with
  | zero => exact Or.inl ⟨Or.inl (sizeBelow_pos h ht), rfl⟩
  | succ passes ih =>
    rw [rmLoop, Prog.run_bind]
    rcases firstChild_cases h ht htd with ⟨hrun, hnone⟩ | ⟨nm, de, hrun, hlook, hreal, -⟩
    · rw [hrun]
      refine Or.inr ⟨d, rfl, h, Frame.refl _ d, ?_, rfl, hnone⟩
      intro j hj
      obtain ⟨b, ⟨-, -, hb⟩, -⟩ := TransGen.head'_iff.mp hj
      rw [hnone] at hb
      exact absurd hb (by simp)
    · have hedge : EdgeAt d t de.target := ⟨ht, htd, mem_children (findNamed_mem hlook).1 hreal⟩
      have hchild := sizeBelow_child h hedge
      rw [hrun]
      dsimp only
      rw [Prog.run_bind]
      rcases hrec h ht htd hlook hreal with ⟨hlt, hno⟩ | ⟨d1, hrm, h1⟩
      · rw [hno]
        exact Or.inl ⟨Or.inr (by omega), rfl⟩
      · rw [hrm]
        dsimp only
        have htd1 : typeAt d1 t = sfsDir := by
          unfold typeAt
          rw [h1.inode]
          exact htd
        have hless := sizeBelow_pruned h hlook hreal hedge h1
        rcases ih h1.inv htd1 with ⟨hlt, hno⟩ | ⟨e, hloop, h2⟩
        · exact Or.inl ⟨by omega, hno⟩
        · exact Or.inr ⟨e, hloop, h2.after h hlook hreal hedge h1⟩

-- The last step: the emptied directory, or the file, is unlinked.
theorem RmEffect.of_unlink {d d1 e : Disk} (h : Inv d) {parent : Nat} {name : List UInt8} {de : Dirent}
    (hedge : EdgeAt d parent de.target) (hframe : Frame (Below d de.target) d d1) (hinv : Inv e)
    (hfreed : ∀ j, TransGen (EdgeAt d) de.target j → inodeAt d1 j = Inode.zero)
    (heff : UnlinkEffect parent name de.target d1 e) : RmEffect parent name de.target d e := by
  have hparent : ¬ Below d de.target parent := h.names.tree.not_reach_parent hedge
  refine ⟨hinv, (hframe.trans heff.frame).mono ?_, ?_, ?_, ?_⟩
  · rintro j (hj | rfl | rfl)
    · exact Or.inr hj
    · exact Or.inl rfl
    · exact Or.inr ReflTransGen.refl
  · intro j hj
    rcases reflTransGen_iff_eq_or_transGen.mp hj with rfl | hlow
    · exact heff.freed
    · have hjt : j ≠ de.target := by
        rintro rfl
        exact h.names.tree.acyclic hlow
      have hjp : j ≠ parent := by
        rintro rfl
        exact hparent hj
      have hlt := below_lt h (h.names.edge_child hedge).2.1 hj
      rw [heff.frame.inode j hlt (not_or.mpr ⟨hjp, hjt⟩)]
      exact hfreed j hlow
  · rw [heff.inode, hframe.inode parent hedge.1 hparent]
  · rw [heff.slots, hframe.slotsAt hedge.1 hparent]

-- A childless entry is unlinked.
theorem run_unlinkLeaf {d : Disk} (h : Inv d) {parent : Nat} {name : List UInt8} {de : Dirent}
    (hparent : parent < 64) (htd : typeAt d parent = sfsDir)
    (hlook : findNamed (slotsAt d parent) name = some de) (hreal : de.isReal = true)
    (hleaf : typeAt d de.target = sfsDir → children (entriesAt d de.target) = []) :
    ∃ e, (sfsUnlink parent name).run flat d = (some 0, e) ∧ Inv e ∧
      UnlinkEffect parent name de.target d e := by
  rcases run_sfsUnlink h hparent htd name with ⟨href, -⟩ | ⟨de', e, hlook', -, hleaf', hrun, heff⟩
  · obtain ⟨h1, h2⟩ := isReal_iff.mp hreal
    rw [(findNamed_mem hlook).2] at h1 h2
    rcases href with hdots | hnone | ⟨de', hlook', ht, hc⟩
    · exact absurd hdots (not_or.mpr ⟨h1, h2⟩)
    · exact absurd (hlook.symm.trans hnone) (by simp)
    · obtain rfl : de = de' := by simpa using hlook.symm.trans hlook'
      exact absurd (hleaf ht) hc
  · obtain rfl : de = de' := by simpa using hlook.symm.trans hlook'
    exact ⟨e, hrun, h.unlink hparent htd hlook hreal hleaf' heff, heff⟩

theorem run_rmRec (fuel : Nat) : RmSpec fuel (rmRec fuel) := by
  induction fuel with
  | zero =>
    intro d h parent name de hparent htd hlook hreal
    have hedge : EdgeAt d parent de.target := ⟨hparent, htd, mem_children (findNamed_mem hlook).1 hreal⟩
    exact Or.inl ⟨sizeBelow_pos h (h.names.edge_child hedge).2.1, rfl⟩
  | succ fuel ih =>
    intro d h parent name de hparent htd hlook hreal
    have hedge : EdgeAt d parent de.target := ⟨hparent, htd, mem_children (findNamed_mem hlook).1 hreal⟩
    have ht := (h.names.edge_child hedge).2.1
    have hnot : ¬ Below d de.target parent := h.names.tree.not_reach_parent hedge
    have hlookup : (sfsLookup parent name).run flat d = (some de.target, d) := by
      unfold sfsLookup
      rw [run_sfsLookup h hparent htd, hlook, Option.map_some]
    have htype : (sfsType de.target).run flat d = (typeAt d de.target, d) := rfl
    rw [rmRec, Prog.run_bind, hlookup]
    dsimp only
    rw [Prog.run_bind, htype]
    dsimp only
    by_cases hdir : typeAt d de.target = sfsDir
    · rw [if_pos hdir, Prog.run_bind]
      rcases run_rmLoop ih (fuel + 1) h ht hdir with ⟨hlt, hno⟩ | ⟨d1, hloop, h1⟩
      · rw [hno]
        exact Or.inl ⟨by omega, rfl⟩
      · rw [hloop]
        dsimp only
        have hlook1 : findNamed (slotsAt d1 parent) name = some de := by
          rw [h1.frame.slotsAt hparent hnot]
          exact hlook
        obtain ⟨e, hrun, hinv, heff⟩ := run_unlinkLeaf h1.inv hparent
          ((h1.frame.typeAt hparent hnot).trans htd) hlook1 hreal fun _ => h1.childless
        rw [Prog.run_bind, hrun]
        exact Or.inr ⟨e, rfl, RmEffect.of_unlink h hedge h1.frame hinv h1.freed heff⟩
    · rw [if_neg hdir, Prog.run_bind]
      obtain ⟨e, hrun, hinv, heff⟩ :=
        run_unlinkLeaf h hparent htd hlook hreal fun hd => absurd hd hdir
      rw [hrun]
      refine Or.inr ⟨e, rfl, RmEffect.of_unlink h hedge (Frame.refl _ d) hinv ?_ heff⟩
      intro j hj
      obtain ⟨b, hb, -⟩ := TransGen.head'_iff.mp hj
      exact absurd hb.2.1 hdir

theorem dots_name {slots : List Dirent} {name : List UInt8} {de : Dirent}
    (hlook : findNamed slots name = some de) (hdots : ¬ de.isReal = true) :
    cstr name = dot ∨ cstr name = dotdot := by
  rw [← (findNamed_mem hlook).2]
  by_contra hno
  exact hdots (isReal_iff.mpr (not_or.mp hno))

-- Called for `.` or `..`: the directory is emptied before `sfs_unlink` refuses the name.
theorem run_rmRec_dots (fuel : Nat) {d : Disk} (h : Inv d) {parent : Nat} {name : List UInt8}
    {de : Dirent} (hparent : parent < 64) (htd : typeAt d parent = sfsDir)
    (hlook : findNamed (slotsAt d parent) name = some de) (hdots : ¬ de.isReal = true)
    (ht : de.target < 64) (hdir : typeAt d de.target = sfsDir) :
    (fuel < sizeBelow d de.target ∧ ((rmRec fuel parent name).run flat d).1 = none) ∨
      ∃ e, (rmRec fuel parent name).run flat d = (some none, e) ∧ EmptyEffect de.target d e := by
  cases fuel with
  | zero => exact Or.inl ⟨sizeBelow_pos h ht, rfl⟩
  | succ fuel =>
    have hlookup : (sfsLookup parent name).run flat d = (some de.target, d) := by
      unfold sfsLookup
      rw [run_sfsLookup h hparent htd, hlook, Option.map_some]
    have htype : (sfsType de.target).run flat d = (typeAt d de.target, d) := rfl
    have hname : strcmp name dot = 0 ∨ strcmp name dotdot = 0 := by
      rw [strcmp_dot, strcmp_dotdot]
      exact dots_name hlook hdots
    rw [rmRec, Prog.run_bind, hlookup]
    dsimp only
    rw [Prog.run_bind, htype]
    dsimp only
    rw [if_pos hdir, Prog.run_bind]
    rcases run_rmLoop (run_rmRec fuel) (fuel + 1) h ht hdir with ⟨hlt, hno⟩ | ⟨e, hloop, heff⟩
    · rw [hno]
      exact Or.inl ⟨by omega, rfl⟩
    · rw [hloop]
      dsimp only
      rw [Prog.run_bind, sfsUnlink, if_pos hname]
      exact Or.inr ⟨e, rfl, heff⟩

/-! ## Exactly the subtree -/

/-- The subtree at `t` is gone, with its entry in `parent`, and everything else is as it was. -/
structure Removed (d e : Disk) (parent : Nat) (name : List UInt8) (t : Nat) : Prop where
  freed : ∀ j, j < 64 → ((sfsType j).run flat d).1 ≠ sfsFree →
    (((sfsType j).run flat e).1 = sfsFree ↔ Below d t j)
  /-- The data blocks that are freed are those of the subtree. -/
  blocks : ∀ p, UsedBlock e p ↔ UsedBlock d p ∧
    ∀ j b, Below d t j → (inodeAt d j).ptr b ≠ 0 → ((inodeAt d j).ptr b).toNat ≠ p
  entry : ∃ pre post, Lists d parent (pre ++ (t, cstr name) :: post) ∧ (∀ x ∈ pre, x.2 ≠ cstr name) ∧
    Lists e parent (pre ++ post)
  holder : ¬ Below d t parent ∧ ((sfsType parent).run flat e).1 = ((sfsType parent).run flat d).1 ∧
    ((sfsSize parent).run flat e).1 = ((sfsSize parent).run flat d).1
  others : ∀ j, j < 64 → ¬ Below d t j → j ≠ parent → SameInode d e j

/-- What `rm_rec` answers and leaves. -/
structure RmExact (d e : Disk) (parent : Nat) (name : List UInt8) (r : Option Nat) : Prop where
  missing : ((sfsLookup parent name).run flat d).1 = none → r = none ∧ e = d
  found : ∀ t, ((sfsLookup parent name).run flat d).1 = some t → r = some 0 ∧ Removed d e parent name t

theorem RmEffect.removed {d e : Disk} (h : Inv d) {parent : Nat} {name : List UInt8} {de : Dirent}
    (hlook : findNamed (slotsAt d parent) name = some de) (hedge : EdgeAt d parent de.target)
    (heff : RmEffect parent name de.target d e) : Removed d e parent name de.target := by
  have hparent : ¬ Below d de.target parent := h.names.tree.not_reach_parent hedge
  have ht := (h.names.edge_child hedge).2.1
  have htype : typeAt e parent = typeAt d parent := congrArg Inode.type heff.inode
  have hkept : ∀ j, j < 64 → ¬ Below d de.target j → inodeAt e j = inodeAt d j := by
    intro j hj hb
    by_cases hjp : j = parent
    · rw [hjp]
      exact heff.inode
    · exact heff.frame.inode j hj (not_or.mpr ⟨hjp, hb⟩)
  refine ⟨?_, ?_, ?_, ⟨hparent, htype, congrArg Inode.size heff.inode⟩, ?_⟩
  · intro j hj hlive
    constructor
    · intro hfree
      by_contra hb
      exact hlive ((congrArg Inode.type (hkept j hj hb)).symm.trans hfree)
    · intro hb
      exact congrArg Inode.type (heff.freed j hb)
  · intro p
    rw [h.usedBlock_freed heff.inv.sound (fun j _ hj => heff.freed j hj) hkept]
    refine and_congr_right fun _ => ⟨fun hall j b hj => ?_, fun hall j b _ hj => hall j b hj⟩
    exact hall j b (below_lt h ht hj) hj
  · obtain ⟨pre, post, heq, hpre, hrest⟩ := entries_removeSlot_split hlook
    have hbefore := h.lists hedge.1 hedge.2.1
    have hafter := heff.inv.lists hedge.1 (htype.trans hedge.2.1)
    unfold entriesAt at hbefore hafter
    rw [heq, List.map_append, List.map_cons] at hbefore
    rw [heff.slots, hrest, List.map_append] at hafter
    refine ⟨pre.map Dirent.pair, post.map Dirent.pair, ?_, ?_, hafter⟩
    · rw [← (findNamed_mem hlook).2]
      exact hbefore
    · rw [List.forall_mem_map]
      exact hpre
  · intro j hj hb hjp
    exact heff.frame.sameInode hj (not_or.mpr ⟨hjp, hb⟩)

/-- `rm_rec` of a name other than `.` and `..` returns, and it removes the subtree of that name and nothing
else. -/
theorem rmRec_removes_subtree {d₀ d : Disk} (h₀ : (d₀ 0).magic ≠ sfsMagic) (h : Reachable flat d₀ d)
    {parent : Nat} (hparent : IsDir flat d parent) {name : List UInt8} (hname : cstr name ≠ dot ∧ cstr name ≠ dotdot)
    {fuel : Nat} (hfuel : 64 ≤ fuel) :
    ∃ r e, (rmRec fuel parent name).run flat d = (some r, e) ∧ RmExact d e parent name r := by
  have hinv := inv_reachable h₀ h
  have hlook : (sfsLookup parent name).run flat d = ((findNamed (slotsAt d parent) name).map Dirent.target, d) :=
    run_sfsLookup hinv hparent.1 hparent.2 name
  cases hfound : findNamed (slotsAt d parent) name with
  | none =>
    rw [hfound] at hlook
    refine ⟨none, d, ?_, fun _ => ⟨rfl, rfl⟩, fun t ht => ?_⟩
    · obtain ⟨fuel, rfl⟩ := Nat.exists_eq_succ_of_ne_zero (show fuel ≠ 0 by omega)
      rw [rmRec, Prog.run_bind, hlook]
      rfl
    · rw [hlook] at ht
      exact absurd ht (by simp)
  | some de =>
    have hreal : de.isReal = true := isReal_iff.mpr (by rw [(findNamed_mem hfound).2]; exact hname)
    have hedge : EdgeAt d parent de.target := ⟨hparent.1, hparent.2, mem_children (findNamed_mem hfound).1 hreal⟩
    rw [hfound] at hlook
    rcases run_rmRec fuel hinv hparent.1 hparent.2 hfound hreal with ⟨hless, -⟩ | ⟨e, hrun, heff⟩
    · have hle := sizeBelow_le hinv (hinv.names.edge_child hedge).2.1
      omega
    · refine ⟨some 0, e, hrun, fun hno => ?_, fun t ht => ?_⟩
      · rw [hlook] at hno
        exact absurd hno (by simp)
      · rw [hlook] at ht
        obtain rfl := Option.some.inj ht
        exact ⟨rfl, heff.removed hinv hfound hedge⟩

-- A directory `d` in the root of a fresh disk, with a file `f` in it.
theorem blank_with_child :
    ∃ d, Reachable flat blankDisk d ∧ ((sfsLookup sfsRoot [0x64]).run flat d).1 = some 1 ∧ EdgeAt d 1 2 := by
  obtain ⟨d, e, hd, he, -, hnone, hfirst, heff, hfree⟩ :=
    @create_blank [0x64] (by decide) (by decide) sfsDir (Or.inr rfl)
  have hinv := inv_reachable blankDisk_magic hd
  have hinv' := inv_reachable blankDisk_magic he
  have hfound := lookup_created hinv (isDir_root hinv) (Or.inr rfl) (hnone _ (by decide) (by decide)) hfirst heff
  have hnof : findNamed (slotsAt e 1) [0x66] = none := by
    obtain ⟨a, b, hents, ha, hb⟩ := heff.made rfl
    refine findNamed_none.mpr ?_
    intro de hde
    change de ∈ entriesAt e 1 at hde
    rw [hents, List.mem_pair] at hde
    rcases hde with rfl | rfl
    · rw [ha.str]
      decide
    · rw [hb.str]
      decide
  have hfirst' : firstFree e = some 2 := by
    refine firstFree_eq (by decide) (hfree 2 (by decide) (by decide)) ?_
    intro i hi
    obtain rfl | rfl : i = 0 ∨ i = 1 := by omega
    · rw [hinv'.names.root]
      decide
    · rw [heff.typeIno]
      decide
  rcases run_sfsCreate hinv' (by decide) heff.typeIno [0x66] (Or.inl rfl) with
    ⟨hwhy, -⟩ | ⟨ino, g, -, hino, hcreate, heff'⟩
  · rw [hnof, hfirst'] at hwhy
    exact absurd hwhy (by simp)
  · obtain rfl : 2 = ino := by simpa using hfirst'.symm.trans hino
    have hreach := Reaches.step (.create 1 [0x66] sfsFile) he ⟨⟨by decide, heff.typeIno⟩, Or.inl rfl⟩
    have heq : ((Call.create 1 [0x66] sfsFile).prog.run flat e).2 = g := congrArg Prod.snd hcreate
    have hg : Reachable flat blankDisk g := heq ▸ hreach
    have hroot : IsDir flat g sfsRoot := isDir_root (inv_reachable blankDisk_magic hg)
    refine ⟨g, hg, ?_, by decide, heff'.typeDir, ?_⟩
    · rw [sfsLookup, run_sfsLookup (inv_reachable blankDisk_magic hg) hroot.1 hroot.2,
        heff'.frame.slotsAt hroot.1 (by decide)]
      exact hfound
    · obtain ⟨new, hnew, hperm⟩ := heff'.added
      have hreal : new.isReal = true := isReal_iff.mpr (by rw [hnew.str]; decide)
      have hmem := mem_children (hperm.mem_iff.mpr List.mem_cons_self) hreal
      rwa [hnew.target] at hmem

-- The directory goes, and the file in it.
theorem rmRec_removes_subtree_child :
    ∃ d e, ((sfsLookup sfsRoot [0x64]).run flat d).1 = some 1 ∧ EdgeAt d 1 2 ∧
      (rmRec 64 sfsRoot [0x64]).run flat d = (some (some 0), e) ∧ RmExact d e sfsRoot [0x64] (some 0) ∧
      ((sfsType 1).run flat e).1 = sfsFree ∧ ((sfsType 2).run flat e).1 = sfsFree := by
  obtain ⟨d, hd, hlook, hedge⟩ := blank_with_child
  have hinv := inv_reachable blankDisk_magic hd
  obtain ⟨r, e, hrun, hexact⟩ :=
    @rmRec_removes_subtree _ _ blankDisk_magic hd _ (isDir_root hinv) [0x64] (by decide) 64 (by decide)
  obtain ⟨rfl, hremoved⟩ := hexact.found 1 hlook
  have hdir : typeAt d 1 ≠ sfsFree := by
    rw [hedge.2.1]
    decide
  have hfile := (hinv.names.edge_child hedge).2.2
  exact ⟨d, e, hlook, hedge, hrun, hexact, (hremoved.freed 1 (by decide) hdir).mpr .refl,
    (hremoved.freed 2 (by decide) hfile).mpr (.single hedge)⟩

end JacobOS.Shell
