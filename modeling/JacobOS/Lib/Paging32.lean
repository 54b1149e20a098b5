import Mathlib.Data.Nat.Bitwise
import Mathlib.Logic.Function.Basic

/-!
# 32-bit paging

The walk of the page directory and the page tables, large pages included, and a translation buffer that
remembers large pages until `cr3` is loaded.  `load` is a read of a word of physical memory.
-/

namespace Paging32

structure Control where
  cr0 : UInt32
  cr3 : UInt32
  cr4 : UInt32

/-- A memory access: from ring 3 or not, a write or a read. -/
structure Access where
  user : Bool
  write : Bool

/-- The number of the 4 MB page of an address. -/
def pageOf (va : UInt32) : UInt32 := va >>> 22

/-- The number of the 4 KB page within it. -/
def smallPageOf (va : UInt32) : UInt32 := (va >>> 12) &&& 0x3FF

/-- The address of the page table, or of the directory, in an entry or in `cr3`. -/
def tableOf (e : UInt32) : UInt32 := e &&& 0xFFFFF000

namespace Control

variable (c : Control)

def paging : Bool := c.cr0 &&& 0x80000000 != 0
def writeProtect : Bool := c.cr0 &&& 0x10000 != 0
def pageSizeExt : Bool := c.cr4 &&& 0x10 != 0

/-- Where the directory entry for `va` is. -/
def pdeAddr (va : UInt32) : UInt32 := tableOf c.cr3 + pageOf va * 4

end Control

def present (e : UInt32) : Bool := e &&& 0x1 != 0
def writable (e : UInt32) : Bool := e &&& 0x2 != 0
def userPage (e : UInt32) : Bool := e &&& 0x4 != 0
def largePage (e : UInt32) : Bool := e &&& 0x80 != 0

/-- An entry of either level lets the access through.  Ring 0 may write to read-only pages unless `cr0.WP`
is set. -/
def permits (c : Control) (e : UInt32) (a : Access) : Bool :=
  present e && (!a.user || userPage e) && (!a.write || writable e || (!a.user && !c.writeProtect))

/-- The address of a large page, in its entry. -/
def frameOf (pde : UInt32) : UInt32 := pde &&& 0xFFC00000

def largeAddr (pde va : UInt32) : UInt32 := frameOf pde ||| (va &&& 0x3FFFFF)

/-- The walk: the physical address, or nothing for a page fault. -/
def walk (load : UInt32 → UInt32) (c : Control) (a : Access) (va : UInt32) : Option UInt32 :=
  if c.paging = false then some va else
    let pde := load (c.pdeAddr va)
    if permits c pde a = false then none
    else if largePage pde && c.pageSizeExt then some (largeAddr pde va)
    else
      let pte := load (tableOf pde + smallPageOf va * 4)
      if permits c pte a then some (tableOf pte ||| (va &&& 0xFFF)) else none

theorem toNat_pageOf (va : UInt32) : (pageOf va).toNat = va.toNat / 2 ^ 22 := by
  rw [pageOf, UInt32.toNat_shiftRight]
  exact Nat.shiftRight_eq_div_pow _ _

-- An entry with the number of the page itself in its upper bits maps the page to itself.
theorem largeAddr_self {pde va : UInt32} (h : frameOf pde = pageOf va <<< 22) : largeAddr pde va = va := by
  have hlt := va.toNat_lt
  have hlow : (va &&& 0x3FFFFF).toNat = va.toNat % 2 ^ 22 := by
    rw [UInt32.toNat_and]
    exact Nat.and_two_pow_sub_one_eq_mod va.toNat 22
  have hhigh : (pageOf va <<< 22).toNat = (va.toNat / 2 ^ 22) <<< 22 := by
    rw [UInt32.toNat_shiftLeft, toNat_pageOf]
    show (va.toNat / 2 ^ 22) <<< 22 % 2 ^ 32 = _
    rw [Nat.shiftLeft_eq, Nat.mod_eq_of_lt (by omega)]
  apply UInt32.toNat_inj.mp
  rw [largeAddr, h, UInt32.toNat_or, hlow, hhigh,
    ← Nat.shiftLeft_add_eq_or_of_lt (Nat.mod_lt _ (by decide)), Nat.shiftLeft_eq]
  omega

theorem tableOf_aligned {a : UInt32} (h : a.toNat % 4096 = 0) : tableOf a = a := by
  have hlt := a.toNat_lt
  have hsplit : a.toNat = (a.toNat / 4096) <<< 12 := by
    rw [Nat.shiftLeft_eq]
    omega
  have hkeep : a.toNat / 4096 &&& (2 ^ 20 - 1) = a.toNat / 4096 := by
    rw [Nat.and_two_pow_sub_one_eq_mod]
    omega
  apply UInt32.toNat_inj.mp
  calc (tableOf a).toNat
      = (a.toNat / 4096) <<< 12 &&& (2 ^ 20 - 1) <<< 12 := by
        rw [tableOf, UInt32.toNat_and, ← hsplit]
        rfl
    _ = (a.toNat / 4096) <<< 12 := by rw [← Nat.shiftLeft_and_distrib, hkeep]
    _ = a.toNat := hsplit.symm

-- A directory entry of a large page decides alone.
theorem walk_large {load : UInt32 → UInt32} {c : Control} (hpg : c.paging = true) (hpse : c.pageSizeExt = true)
    (a : Access) {va : UInt32} (hlarge : largePage (load (c.pdeAddr va)) = true) :
    walk load c a va =
      if permits c (load (c.pdeAddr va)) a then some (largeAddr (load (c.pdeAddr va)) va) else none := by
  rw [walk, if_neg (by simp [hpg])]
  dsimp only
  by_cases hp : permits c (load (c.pdeAddr va)) a = true
  · rw [if_neg (by simp [hp]), if_pos hp, hlarge, hpse]
    rfl
  · rw [if_pos (by simpa using hp), if_neg hp]

theorem walk_absent {load : UInt32 → UInt32} {c : Control} (hpg : c.paging = true) (a : Access) {va : UInt32}
    (habs : present (load (c.pdeAddr va)) = false) : walk load c a va = none := by
  rw [walk, if_neg (by simp [hpg])]
  dsimp only
  rw [if_pos (by simp [permits, habs])]

/-! ## The translation buffer -/

/-- The directory entries of large pages that have been used, by the number of the page. -/
abbrev Tlb : Type := UInt32 → Option UInt32

def Tlb.empty : Tlb := fun _ => none

/-- An access through the buffer.  An entry that does not let it through is dropped and the access faults. -/
def access (load : UInt32 → UInt32) (c : Control) (t : Tlb) (a : Access) (va : UInt32) : Option UInt32 × Tlb :=
  if c.paging = false then (some va, t) else
    match t (pageOf va) with
    | some pde =>
        if permits c pde a then (some (largeAddr pde va), t) else (none, Function.update t (pageOf va) none)
    | none =>
        let pde := load (c.pdeAddr va)
        if permits c pde a && (largePage pde && c.pageSizeExt) then
          (some (largeAddr pde va), Function.update t (pageOf va) (some pde))
        else (walk load c a va, t)

/-- The buffer holds large pages of the directory as it is in memory. -/
def Coherent (load : UInt32 → UInt32) (c : Control) (t : Tlb) : Prop :=
  ∀ va pde, t (pageOf va) = some pde → load (c.pdeAddr va) = pde ∧ (largePage pde && c.pageSizeExt) = true

variable {load : UInt32 → UInt32} {c : Control} {t : Tlb}

theorem coherent_empty (load : UInt32 → UInt32) (c : Control) : Coherent load c Tlb.empty :=
  fun _ _ h => absurd h (by simp [Tlb.empty])

-- The entry for an address is the entry for its page.
theorem pdeAddr_congr {va vb : UInt32} (h : pageOf va = pageOf vb) : c.pdeAddr va = c.pdeAddr vb := by
  rw [Control.pdeAddr, h, Control.pdeAddr]

/-- With a coherent buffer an access gets what the walk gives, and the buffer stays coherent. -/
theorem access_coherent (h : Coherent load c t) (a : Access) (va : UInt32) :
    (access load c t a va).1 = walk load c a va ∧ Coherent load c (access load c t a va).2 := by
  have hdrop : Coherent load c (Function.update t (pageOf va) none) := by
    intro vb pde hvb
    by_cases hpage : pageOf vb = pageOf va
    · rw [hpage, Function.update_self] at hvb
      cases hvb
    · rw [Function.update_of_ne hpage] at hvb
      exact h vb pde hvb
  unfold access
  by_cases hpg : c.paging = false
  · rw [if_pos hpg, walk, if_pos hpg]
    exact ⟨rfl, h⟩
  rw [if_neg hpg]
  cases ht : t (pageOf va) with
  | some pde =>
    obtain ⟨hpde, hlarge⟩ := h va pde ht
    dsimp only
    by_cases hp : permits c pde a = true
    · rw [if_pos hp, walk, if_neg hpg]
      dsimp only
      rw [hpde, if_neg (by simp [hp]), if_pos hlarge]
      exact ⟨rfl, h⟩
    · rw [if_neg hp, walk, if_neg hpg]
      dsimp only
      rw [hpde, if_pos (by simpa using hp)]
      exact ⟨rfl, hdrop⟩
  | none =>
    dsimp only
    by_cases hp : (permits c (load (c.pdeAddr va)) a &&
        (largePage (load (c.pdeAddr va)) && c.pageSizeExt)) = true
    · obtain ⟨hperm, hlarge⟩ := Bool.and_eq_true_iff.mp hp
      rw [if_pos hp, walk, if_neg hpg]
      dsimp only
      rw [if_neg (by simp [hperm]), if_pos hlarge]
      refine ⟨rfl, fun vb pde hvb => ?_⟩
      by_cases hpage : pageOf vb = pageOf va
      · rw [hpage, Function.update_self] at hvb
        obtain rfl := Option.some.inj hvb
        exact ⟨congrArg load (pdeAddr_congr hpage), hlarge⟩
      · rw [Function.update_of_ne hpage] at hvb
        exact h vb pde hvb
    · rw [if_neg hp]
      exact ⟨rfl, h⟩

-- A change of memory elsewhere is no matter to the buffer.
theorem Coherent.congr {load' : UInt32 → UInt32} (h : Coherent load c t)
    (hload : ∀ va, load' (c.pdeAddr va) = load (c.pdeAddr va)) : Coherent load' c t := by
  intro va pde ht
  rw [hload]
  exact h va pde ht

end Paging32
