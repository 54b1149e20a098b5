import JacobOS.Fs.Directory
import JacobOS.Lib.RootedTree

/-!
# The name tree

`Namespace typ ents` is the invariant of the directory tree, stated over the type of each inode and
the occupied entries of each directory.  It survives linking a fresh inode into a directory and
unlinking a childless one.
-/

namespace JacobOS.Fs

open RootedTree CString

/-- The inode an entry names. -/
def Dirent.target (de : Dirent) : Nat := de.inum1.toNat - 1

/-- An entry other than `.` and `..`. -/
def Dirent.isReal (de : Dirent) : Bool := de.str != dot && de.str != dotdot

def named (l : List Dirent) (s : List UInt8) : List Dirent := l.filter fun de => de.str == s

/-- The inodes named by the entries of a directory other than `.` and `..`. -/
def children (l : List Dirent) : List Nat := (l.filter Dirent.isReal).map Dirent.target

def Live (typ : Nat → UInt32) (i : Nat) : Prop := i < 64 ∧ typ i ≠ sfsFree

def Edge (typ : Nat → UInt32) (ents : Nat → List Dirent) (p c : Nat) : Prop :=
  p < 64 ∧ typ p = sfsDir ∧ c ∈ children (ents p)

structure Namespace (typ : Nat → UInt32) (ents : Nat → List Dirent) : Prop where
  types : ∀ i, i < 64 → typ i = sfsFree ∨ typ i = sfsFile ∨ typ i = sfsDir
  root : typ 0 = sfsDir
  self : ∀ i, i < 64 → typ i = sfsDir → ∃ de, named (ents i) dot = [de] ∧ de.target = i
  up : ∀ i, i < 64 → typ i = sfsDir → ∃ de, named (ents i) dotdot = [de] ∧ de.target < 64 ∧
    ∀ p, Edge typ ents p i ∨ (p = 0 ∧ i = 0) → de.target = p
  wf : ∀ i, i < 64 → typ i = sfsDir → ∀ de ∈ ents i, 0 ∈ de.name ∧ de.inum1 ≠ 0
  nodup : ∀ i, i < 64 → typ i = sfsDir → (children (ents i)).Nodup
  tree : IsTree (Live typ) (Edge typ ents) 0

theorem children_perm {l r : List Dirent} (h : l.Perm r) : (children l).Perm (children r) :=
  (h.filter _).map _

theorem named_perm {l r : List Dirent} (h : l.Perm r) (s : List UInt8) :
    (named l s).Perm (named r s) := h.filter _

theorem children_cons_real {de : Dirent} (h : de.isReal = true) (l : List Dirent) :
    children (de :: l) = de.target :: children l := by
  unfold children
  rw [List.filter_cons_of_pos h, List.map_cons]

theorem children_cons_dot {de : Dirent} (h : ¬ de.isReal = true) (l : List Dirent) :
    children (de :: l) = children l := by
  unfold children
  rw [List.filter_cons_of_neg h]

theorem isReal_iff {de : Dirent} : de.isReal = true ↔ de.str ≠ dot ∧ de.str ≠ dotdot := by
  simp [Dirent.isReal]

-- A real entry is neither `.` nor `..`.
theorem named_cons_real {de : Dirent} (h : de.isReal = true) (l : List Dirent) {s : List UInt8}
    (hs : s = dot ∨ s = dotdot) : named (de :: l) s = named l s := by
  obtain ⟨h1, h2⟩ := isReal_iff.mp h
  unfold named
  rw [List.filter_cons_of_neg]
  rcases hs with rfl | rfl
  · simpa using h1
  · simpa using h2

theorem dot_ne_dotdot : dot ≠ dotdot := by decide

/-- A directory of just `.` and `..`. -/
theorem children_dots {a b : Dirent} (ha : a.str = dot) (hb : b.str = dotdot) :
    children [a, b] = [] := by
  rw [children_cons_dot (by simp [Dirent.isReal, ha]), children_cons_dot (by simp [Dirent.isReal, hb])]
  rfl

theorem named_dots {a b : Dirent} (ha : a.str = dot) (hb : b.str = dotdot) :
    named [a, b] dot = [a] ∧ named [a, b] dotdot = [b] := by
  unfold named
  constructor <;> simp [ha, hb, dot_ne_dotdot, Ne.symm dot_ne_dotdot]

namespace Namespace

variable {typ typ' : Nat → UInt32} {ents ents' : Nat → List Dirent}

theorem edge_child (h : Namespace typ ents) {p c : Nat} (he : Edge typ ents p c) :
    1 ≤ c ∧ c < 64 ∧ typ c ≠ sfsFree := by
  have hlive := (h.tree.edge_live he).2
  have hne : c ≠ 0 := by
    rintro rfl
    exact h.tree.no_parent p he
  exact ⟨by omega, hlive.1, hlive.2⟩

-- The entries of a directory are `.`, `..` and the real ones.
theorem length_entries (h : Namespace typ ents) {i : Nat} (hi : i < 64) (ht : typ i = sfsDir) :
    (ents i).length = 2 + (children (ents i)).length := by
  obtain ⟨a, ha, -⟩ := h.self i hi ht
  obtain ⟨b, hb, -⟩ := h.up i hi ht
  have hsplit : ∀ l : List Dirent, l.length =
      (named l dot).length + (named l dotdot).length + (children l).length := by
    intro l
    induction l with
    | nil => rfl
    | cons de l ih =>
      by_cases h1 : de.str = dot
      · have hreal : ¬ de.isReal = true := by simp [Dirent.isReal, h1]
        rw [children_cons_dot hreal, named, named, List.filter_cons_of_pos (by simpa using h1),
          List.filter_cons_of_neg (by simp [h1, dot_ne_dotdot]), List.length_cons, List.length_cons]
        show l.length + 1 = (named l dot).length + 1 + (named l dotdot).length + _
        omega
      · by_cases h2 : de.str = dotdot
        · have hreal : ¬ de.isReal = true := by simp [Dirent.isReal, h2]
          rw [children_cons_dot hreal, named, named, List.filter_cons_of_neg (by simpa using h1),
            List.filter_cons_of_pos (by simpa using h2), List.length_cons, List.length_cons]
          show l.length + 1 = (named l dot).length + ((named l dotdot).length + 1) + _
          omega
        · have hreal := isReal_iff.mpr ⟨h1, h2⟩
          rw [children_cons_real hreal, named_cons_real hreal l (Or.inl rfl),
            named_cons_real hreal l (Or.inr rfl), List.length_cons, List.length_cons]
          omega
  have hlen := hsplit (ents i)
  rw [ha, hb] at hlen
  simpa [Nat.add_comm] using hlen

-- At most 63 inodes can be named besides `.` and `..`.
theorem length_le (h : Namespace typ ents) {i : Nat} (hi : i < 64) (ht : typ i = sfsDir) :
    (ents i).length ≤ 65 := by
  have hsub : children (ents i) ⊆ List.range' 1 63 := by
    intro c hc
    have hc' := h.edge_child ⟨hi, ht, hc⟩
    rw [List.mem_range'_1]
    omega
  have hle := ((h.nodup i hi ht).subperm hsub).length_le
  rw [List.length_range'] at hle
  have hlen := h.length_entries hi ht
  omega

end Namespace

/-! ## Linking a fresh inode -/

/-- The free inode `ino` becomes one of type `type`, and directory `dir` gets the entry `new` for it. -/
structure Linked (typ typ' : Nat → UInt32) (ents ents' : Nat → List Dirent) (dir ino : Nat)
    (type : UInt32) (new : Dirent) : Prop where
  dir_lt : dir < 64
  typeDir : typ dir = sfsDir
  ino_lt : ino < 64
  free : typ ino = sfsFree
  kind : type = sfsFile ∨ type = sfsDir
  types : ∀ j, j < 64 → typ' j = if j = ino then type else typ j
  real : new.isReal = true
  target : new.target = ino
  wf : 0 ∈ new.name ∧ new.inum1 ≠ 0
  dirents : (ents' dir).Perm (new :: ents dir)
  other : ∀ j, j < 64 → j ≠ dir → j ≠ ino → ents' j = ents j
  dots : type = sfsDir → ∃ a b, ents' ino = [a, b] ∧ a.str = dot ∧ a.target = ino ∧
    b.str = dotdot ∧ b.target = dir ∧ ∀ de ∈ [a, b], 0 ∈ de.name ∧ de.inum1 ≠ 0

namespace Linked

variable {typ typ' : Nat → UInt32} {ents ents' : Nat → List Dirent} {dir ino : Nat} {type : UInt32}
  {new : Dirent}

theorem ne (l : Linked typ typ' ents ents' dir ino type new) : dir ≠ ino := by
  intro heq
  have hfree := l.free
  rw [← heq, l.typeDir] at hfree
  exact absurd hfree (by decide)

theorem childless (l : Linked typ typ' ents ents' dir ino type new) (ht : type = sfsDir) :
    children (ents' ino) = [] := by
  obtain ⟨a, b, heq, ha, -, hb, -⟩ := l.dots ht
  rw [heq]
  exact children_dots ha hb

theorem edge_iff (l : Linked typ typ' ents ents' dir ino type new) (p c : Nat) :
    Edge typ' ents' p c ↔ Edge typ ents p c ∨ (p = dir ∧ c = ino) := by
  have hmem : ∀ c, c ∈ children (ents' dir) ↔ c = ino ∨ c ∈ children (ents dir) := by
    intro c
    rw [(children_perm l.dirents).mem_iff, children_cons_real l.real, List.mem_cons, l.target]
  unfold Edge
  constructor
  · rintro ⟨hp, htp, hc⟩
    rw [l.types p hp] at htp
    by_cases hpi : p = ino
    · rw [if_pos hpi] at htp
      rw [hpi, l.childless htp] at hc
      exact absurd hc (by simp)
    · rw [if_neg hpi] at htp
      by_cases hpd : p = dir
      · rw [hpd] at hc ⊢
        rcases (hmem c).mp hc with rfl | hc
        · exact Or.inr ⟨rfl, rfl⟩
        · exact Or.inl ⟨l.dir_lt, l.typeDir, hc⟩
      · rw [l.other p hp hpd hpi] at hc
        exact Or.inl ⟨hp, htp, hc⟩
  · rintro (⟨hp, htp, hc⟩ | ⟨rfl, rfl⟩)
    · have hpi : p ≠ ino := by
        rintro rfl
        exact absurd (l.free.symm.trans htp) (by decide)
      refine ⟨hp, by rw [l.types p hp, if_neg hpi, htp], ?_⟩
      by_cases hpd : p = dir
      · rw [hpd] at hc ⊢
        exact (hmem c).mpr (Or.inr hc)
      · rw [l.other p hp hpd hpi]
        exact hc
    · refine ⟨l.dir_lt, ?_, (hmem _).mpr (Or.inl rfl)⟩
      rw [l.types _ l.dir_lt, if_neg l.ne, l.typeDir]

-- A directory afterwards is the new inode, the parent, or an old directory.
theorem dir_cases (l : Linked typ typ' ents ents' dir ino type new) {i : Nat} (hi : i < 64)
    (ht : typ' i = sfsDir) : (i = ino ∧ type = sfsDir) ∨ (i = dir ∧ i ≠ ino) ∨
      (ents' i = ents i ∧ i ≠ ino ∧ typ i = sfsDir) := by
  rw [l.types i hi] at ht
  by_cases hii : i = ino
  · rw [if_pos hii] at ht
    exact Or.inl ⟨hii, ht⟩
  · rw [if_neg hii] at ht
    by_cases hid : i = dir
    · exact Or.inr (Or.inl ⟨hid, hii⟩)
    · exact Or.inr (Or.inr ⟨l.other i hi hid hii, hii, ht⟩)

theorem named_eq (l : Linked typ typ' ents ents' dir ino type new) {s : List UInt8}
    (hs : s = dot ∨ s = dotdot) {x : Dirent} (hx : named (ents dir) s = [x]) :
    named (ents' dir) s = [x] := by
  have hperm := named_perm l.dirents s
  rw [named_cons_real l.real _ hs, hx] at hperm
  exact List.perm_singleton.mp hperm

variable (h : Namespace typ ents)

include h

theorem self (l : Linked typ typ' ents ents' dir ino type new) (i : Nat) (hi : i < 64)
    (ht : typ' i = sfsDir) : ∃ de, named (ents' i) dot = [de] ∧ de.target = i := by
  rcases l.dir_cases hi ht with ⟨rfl, htd⟩ | ⟨rfl, -⟩ | ⟨heq, -, ht'⟩
  · obtain ⟨a, b, heq, ha, hat, hb, -⟩ := l.dots htd
    exact ⟨a, by rw [heq]; exact (named_dots ha hb).1, hat⟩
  · obtain ⟨de, hde, htgt⟩ := h.self i hi l.typeDir
    exact ⟨de, l.named_eq (Or.inl rfl) hde, htgt⟩
  · rw [heq]
    exact h.self i hi ht'

theorem up (l : Linked typ typ' ents ents' dir ino type new) (i : Nat) (hi : i < 64)
    (ht : typ' i = sfsDir) : ∃ de, named (ents' i) dotdot = [de] ∧ de.target < 64 ∧
      ∀ p, Edge typ' ents' p i ∨ (p = 0 ∧ i = 0) → de.target = p := by
  -- a parent of an inode other than the new one is its old parent
  have hparent : i ≠ ino → ∀ {p}, Edge typ' ents' p i ∨ (p = 0 ∧ i = 0) →
      Edge typ ents p i ∨ (p = 0 ∧ i = 0) := by
    intro hii p hp
    refine hp.imp_left fun he => ?_
    rcases (l.edge_iff p i).mp he with hold | ⟨-, hc⟩
    · exact hold
    · exact absurd hc hii
  rcases l.dir_cases hi ht with ⟨rfl, htd⟩ | ⟨rfl, hii⟩ | ⟨heq, hii, ht'⟩
  · obtain ⟨a, b, heq, ha, -, hb, hbt, -⟩ := l.dots htd
    refine ⟨b, by rw [heq]; exact (named_dots ha hb).2, hbt ▸ l.dir_lt, ?_⟩
    rintro p (hp | ⟨-, h0⟩)
    · rcases (l.edge_iff p i).mp hp with hold | ⟨rfl, -⟩
      · exact absurd l.free (h.edge_child hold).2.2
      · exact hbt
    · have hfree := l.free
      rw [h0, h.root] at hfree
      exact absurd hfree (by decide)
  · obtain ⟨de, hde, hlt, htgt⟩ := h.up i hi l.typeDir
    exact ⟨de, l.named_eq (Or.inr rfl) hde, hlt, fun p hp => htgt p (hparent hii hp)⟩
  · obtain ⟨de, hde, hlt, htgt⟩ := h.up i hi ht'
    exact ⟨de, by rw [heq]; exact hde, hlt, fun p hp => htgt p (hparent hii hp)⟩

theorem wf_entries (l : Linked typ typ' ents ents' dir ino type new) (i : Nat) (hi : i < 64)
    (ht : typ' i = sfsDir) : ∀ de ∈ ents' i, 0 ∈ de.name ∧ de.inum1 ≠ 0 := by
  rcases l.dir_cases hi ht with ⟨rfl, htd⟩ | ⟨rfl, -⟩ | ⟨heq, -, ht'⟩
  · obtain ⟨a, b, heq, -, -, -, -, hall⟩ := l.dots htd
    rw [heq]
    exact hall
  · intro de hde
    rcases List.mem_cons.mp (l.dirents.mem_iff.mp hde) with rfl | hde
    · exact l.wf
    · exact h.wf i hi l.typeDir de hde
  · rw [heq]
    exact h.wf i hi ht'

theorem nodup (l : Linked typ typ' ents ents' dir ino type new) (i : Nat) (hi : i < 64)
    (ht : typ' i = sfsDir) : (children (ents' i)).Nodup := by
  rcases l.dir_cases hi ht with ⟨rfl, htd⟩ | ⟨rfl, -⟩ | ⟨heq, -, ht'⟩
  · rw [l.childless htd]
    exact List.nodup_nil
  · rw [(children_perm l.dirents).nodup_iff, children_cons_real l.real, l.target]
    refine List.nodup_cons.mpr ⟨fun hc => ?_, h.nodup i hi l.typeDir⟩
    exact (h.edge_child ⟨hi, l.typeDir, hc⟩).2.2 l.free
  · rw [heq]
    exact h.nodup i hi ht'

theorem tree (l : Linked typ typ' ents ents' dir ino type new) :
    IsTree (Live typ') (Edge typ' ents') 0 := by
  have hlive : Live typ dir := ⟨l.dir_lt, by rw [l.typeDir]; decide⟩
  have hdead : ¬ Live typ ino := fun hl => hl.2 l.free
  refine (h.tree.addLeaf hlive hdead).congr ?_ l.edge_iff
  intro a
  unfold Live
  constructor
  · rintro ⟨ha, hta⟩
    rw [l.types a ha] at hta
    by_cases hai : a = ino
    · exact Or.inr hai
    · rw [if_neg hai] at hta
      exact Or.inl ⟨ha, hta⟩
  · rintro (⟨ha, hta⟩ | rfl)
    · have hai : a ≠ ino := fun he => hta (he ▸ l.free)
      exact ⟨ha, by rw [l.types a ha, if_neg hai]; exact hta⟩
    · refine ⟨l.ino_lt, ?_⟩
      rw [l.types a l.ino_lt, if_pos rfl]
      rcases l.kind with rfl | rfl <;> decide

theorem names (l : Linked typ typ' ents ents' dir ino type new) : Namespace typ' ents' := by
  refine ⟨?_, ?_, l.self h, l.up h, l.wf_entries h, l.nodup h, l.tree h⟩
  · intro i hi
    rw [l.types i hi]
    split
    · exact Or.inr l.kind
    · exact h.types i hi
  · have hroot : ino ≠ 0 := by
      intro h0
      exact absurd (l.free.symm.trans (h0 ▸ h.root)) (by decide)
    rw [l.types 0 (by decide), if_neg (Ne.symm hroot), h.root]

end Linked

/-! ## Unlinking a childless inode -/

/-- The childless inode `ino` is freed, and directory `dir` loses its entry `old`. -/
structure Unlinked (typ typ' : Nat → UInt32) (ents ents' : Nat → List Dirent) (dir ino : Nat)
    (old : Dirent) : Prop where
  dir_lt : dir < 64
  typeDir : typ dir = sfsDir
  real : old.isReal = true
  target : old.target = ino
  dirents : (ents dir).Perm (old :: ents' dir)
  types : ∀ j, j < 64 → typ' j = if j = ino then sfsFree else typ j
  other : ∀ j, j < 64 → j ≠ dir → j ≠ ino → ents' j = ents j
  leaf : ∀ c, ¬ Edge typ ents ino c

namespace Unlinked

variable {typ typ' : Nat → UInt32} {ents ents' : Nat → List Dirent} {dir ino : Nat} {old : Dirent}

theorem mem_children_iff (u : Unlinked typ typ' ents ents' dir ino old) (c : Nat) :
    c ∈ children (ents dir) ↔ c = ino ∨ c ∈ children (ents' dir) := by
  rw [(children_perm u.dirents).mem_iff, children_cons_real u.real, List.mem_cons, u.target]

theorem edge_ino (u : Unlinked typ typ' ents ents' dir ino old) : Edge typ ents dir ino :=
  ⟨u.dir_lt, u.typeDir, (u.mem_children_iff ino).mpr (Or.inl rfl)⟩

-- A directory afterwards was one before, with the same entries unless it is the parent.
theorem dir_cases (u : Unlinked typ typ' ents ents' dir ino old) {i : Nat} (hi : i < 64)
    (ht : typ' i = sfsDir) : typ i = sfsDir ∧ i ≠ ino ∧ (i = dir ∨ (i ≠ dir ∧ ents' i = ents i)) := by
  have hii : i ≠ ino := by
    rintro rfl
    rw [u.types i hi, if_pos rfl] at ht
    exact absurd ht (by decide)
  rw [u.types i hi, if_neg hii] at ht
  refine ⟨ht, hii, ?_⟩
  by_cases hid : i = dir
  · exact Or.inl hid
  · exact Or.inr ⟨hid, u.other i hi hid hii⟩

theorem named_eq (u : Unlinked typ typ' ents ents' dir ino old) {s : List UInt8}
    (hs : s = dot ∨ s = dotdot) {x : Dirent} (hx : named (ents dir) s = [x]) :
    named (ents' dir) s = [x] := by
  have hperm := named_perm u.dirents s
  rw [named_cons_real u.real _ hs, hx] at hperm
  exact List.perm_singleton.mp hperm.symm

variable (h : Namespace typ ents)

include h

theorem edge_iff (u : Unlinked typ typ' ents ents' dir ino old) (p c : Nat) :
    Edge typ' ents' p c ↔ Edge typ ents p c ∧ c ≠ ino := by
  have hnot : ino ∉ children (ents' dir) := by
    have hnd := (children_perm u.dirents).nodup_iff.mp (h.nodup dir u.dir_lt u.typeDir)
    rw [children_cons_real u.real, u.target] at hnd
    exact (List.nodup_cons.mp hnd).1
  constructor
  · rintro ⟨hp, htp, hc⟩
    obtain ⟨htp', hpi, rfl | ⟨hpd, heq⟩⟩ := u.dir_cases hp htp
    · refine ⟨⟨hp, htp', (u.mem_children_iff c).mpr (Or.inr hc)⟩, ?_⟩
      rintro rfl
      exact hnot hc
    · rw [heq] at hc
      refine ⟨⟨hp, htp', hc⟩, ?_⟩
      rintro rfl
      exact hpd (h.tree.parent ⟨hp, htp', hc⟩ u.edge_ino)
  · rintro ⟨⟨hp, htp, hc⟩, hci⟩
    have hpi : p ≠ ino := by
      rintro rfl
      exact u.leaf c ⟨hp, htp, hc⟩
    refine ⟨hp, by rw [u.types p hp, if_neg hpi, htp], ?_⟩
    by_cases hpd : p = dir
    · subst hpd
      exact ((u.mem_children_iff c).mp hc).resolve_left hci
    · rw [u.other p hp hpd hpi]
      exact hc

theorem self (u : Unlinked typ typ' ents ents' dir ino old) (i : Nat) (hi : i < 64)
    (ht : typ' i = sfsDir) : ∃ de, named (ents' i) dot = [de] ∧ de.target = i := by
  obtain ⟨ht', -, rfl | ⟨-, heq⟩⟩ := u.dir_cases hi ht
  · obtain ⟨de, hde, htgt⟩ := h.self i hi ht'
    exact ⟨de, u.named_eq (Or.inl rfl) hde, htgt⟩
  · rw [heq]
    exact h.self i hi ht'

theorem up (u : Unlinked typ typ' ents ents' dir ino old) (i : Nat) (hi : i < 64)
    (ht : typ' i = sfsDir) : ∃ de, named (ents' i) dotdot = [de] ∧ de.target < 64 ∧
      ∀ p, Edge typ' ents' p i ∨ (p = 0 ∧ i = 0) → de.target = p := by
  obtain ⟨ht', -, hi'⟩ := u.dir_cases hi ht
  obtain ⟨de, hde, hlt, htgt⟩ := h.up i hi ht'
  refine ⟨de, ?_, hlt, fun p hp => htgt p (hp.imp_left fun he => ((u.edge_iff h p i).mp he).1)⟩
  rcases hi' with rfl | ⟨-, heq⟩
  · exact u.named_eq (Or.inr rfl) hde
  · rw [heq]
    exact hde

theorem wf_entries (u : Unlinked typ typ' ents ents' dir ino old) (i : Nat) (hi : i < 64)
    (ht : typ' i = sfsDir) : ∀ de ∈ ents' i, 0 ∈ de.name ∧ de.inum1 ≠ 0 := by
  obtain ⟨ht', -, rfl | ⟨-, heq⟩⟩ := u.dir_cases hi ht
  · intro de hde
    exact h.wf i hi ht' de (u.dirents.mem_iff.mpr (List.mem_cons_of_mem old hde))
  · rw [heq]
    exact h.wf i hi ht'

theorem nodup (u : Unlinked typ typ' ents ents' dir ino old) (i : Nat) (hi : i < 64)
    (ht : typ' i = sfsDir) : (children (ents' i)).Nodup := by
  obtain ⟨ht', -, rfl | ⟨-, heq⟩⟩ := u.dir_cases hi ht
  · have hnd := (children_perm u.dirents).nodup_iff.mp (h.nodup i hi ht')
    rw [children_cons_real u.real] at hnd
    exact (List.nodup_cons.mp hnd).2
  · rw [heq]
    exact h.nodup i hi ht'

theorem ino_ne_zero (u : Unlinked typ typ' ents ents' dir ino old) : ino ≠ 0 := by
  rintro rfl
  exact h.tree.no_parent dir u.edge_ino

theorem tree (u : Unlinked typ typ' ents ents' dir ino old) :
    IsTree (Live typ') (Edge typ' ents') 0 := by
  refine (h.tree.removeLeaf u.leaf (u.ino_ne_zero h)).congr ?_ (u.edge_iff h)
  intro a
  unfold Live
  constructor
  · rintro ⟨ha, hta⟩
    rw [u.types a ha] at hta
    by_cases hai : a = ino
    · rw [if_pos hai] at hta
      exact absurd rfl hta
    · rw [if_neg hai] at hta
      exact ⟨⟨ha, hta⟩, hai⟩
  · rintro ⟨⟨ha, hta⟩, hai⟩
    exact ⟨ha, by rw [u.types a ha, if_neg hai]; exact hta⟩

theorem names (u : Unlinked typ typ' ents ents' dir ino old) : Namespace typ' ents' := by
  refine ⟨?_, ?_, u.self h, u.up h, u.wf_entries h, u.nodup h, u.tree h⟩
  · intro i hi
    rw [u.types i hi]
    split
    · exact Or.inl rfl
    · exact h.types i hi
  · rw [u.types 0 (by decide), if_neg (Ne.symm (u.ino_ne_zero h)), h.root]

end Unlinked

end JacobOS.Fs
