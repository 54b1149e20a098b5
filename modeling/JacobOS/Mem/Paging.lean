import JacobOS.Cpu.Stack
import JacobOS.Lib.Paging32
import JacobOS.Mem.Pmm

/-!
# Paging: `mem/paging.c`

One page directory of 4 MB pages in the kernel's memory, at `dir`.  `paging_init` maps the assumed RAM to
itself for ring 0; `paging_set_user` opens a page to ring 3.
-/

namespace JacobOS.Paging

open AddressRange Mem Paging32 Pmm

def pdePresent : UInt32 := 0x1
def pdeRw : UInt32 := 0x2
def pdeUser : UInt32 := 0x4
def pde4mb : UInt32 := 0x80

structure Mmu where
  mem : Mem
  ctl : Control
  tlb : Tlb

/-- `mov %eax, %cr3`, which also empties the translation buffer. -/
def Mmu.loadCr3 (s : Mmu) (v : UInt32) : Mmu := { s with ctl := { s.ctl with cr3 := v }, tlb := Tlb.empty }

/-- `&page_directory[i]`. -/
def entryAddr (dir : UInt32) (i : Nat) : UInt32 := dir + UInt32.ofNat (4 * i)

/-- What `paging_init` stores in `page_directory[i]`. -/
def initEntry (i : Nat) : UInt32 :=
  -- the number of 4MB pages to identity-map
  if i < physMemSize >>> 22 then (UInt32.ofNat i <<< 22) ||| pdePresent ||| pdeRw ||| pde4mb
  else pdeRw

/-- The loop of `paging_init` up to entry `n`. -/
def fillDirectory (dir : UInt32) (m : Mem) : Nat → Mem
  | 0 => m
  | n + 1 => (fillDirectory dir m n).setWord (entryAddr dir n) (initEntry n)

def pagingInit (dir : UInt32) (s : Mmu) : Mmu :=
  let s := { s with mem := fillDirectory dir s.mem 1024 }
  let s := s.loadCr3 dir
  -- enable 4MB pages (CR4.PSE)
  let s := { s with ctl := { s.ctl with cr4 := s.ctl.cr4 ||| 0x10 } }
  -- enable paging (CR0.PG)
  { s with ctl := { s.ctl with cr0 := s.ctl.cr0 ||| 0x80000000 } }

def pagingSetUser (dir vaddr : UInt32) (s : Mmu) : Mmu :=
  let e := entryAddr dir (vaddr >>> 22).toNat
  let s := { s with mem := s.mem.setWord e (s.mem.word e ||| pdeUser) }
  -- flush the TLB so the new permission takes effect
  s.loadCr3 s.ctl.cr3

/-! ## Runs -/

inductive Event where
  /-- `paging_set_user(vaddr)`. -/
  | setUser (vaddr : UInt32)
  /-- An instruction reads the byte at `va`, or writes `c` to it. -/
  | access (a : Access) (va : UInt32) (c : UInt8)

/-- A write goes where the address is mapped to; one that faults leaves the memory as it is. -/
def Event.apply (dir : UInt32) : Event → Mmu → Mmu
  | .setUser vaddr, s => pagingSetUser dir vaddr s
  | .access a va c, s =>
      let r := Paging32.access s.mem.word s.ctl s.tlb a va
      let mem := match r.1 with
        | some pa => if a.write then Function.update s.mem pa c else s.mem
        | none => s.mem
      { s with mem := mem, tlb := r.2 }

def run (dir : UInt32) (es : List Event) (s : Mmu) : Mmu := es.foldl (fun s e => e.apply dir s) s

/-- The arguments of the calls of `paging_set_user`. -/
def userAddrs (es : List Event) : List UInt32 := es.filterMap fun
  | .setUser vaddr => some vaddr
  | .access .. => none

/-- `page_directory` is aligned and in RAM. -/
structure Placed (dir : UInt32) : Prop where
  aligned : dir.toNat % 4096 = 0
  inRam : dir.toNat + 4096 ≤ physMemSize

/-- The kernel does not open the page of the directory to ring 3 and does not write to the directory itself.
Nothing is asked of ring 3. -/
def Event.Allowed (dir : UInt32) : Event → Prop
  | .setUser vaddr => pageOf vaddr ≠ pageOf dir
  | .access a va _ => a.user = false → a.write = true → va ∉ span dir 4096

/-! ## The directory in memory -/

section Directory

variable {dir : UInt32} (hdir : Placed dir)

include hdir

theorem Placed.toNat_entryAddr {i : Nat} (hi : i < 1024) : (entryAddr dir i).toNat = dir.toNat + 4 * i := by
  have hram := hdir.inRam
  unfold physMemSize at hram
  exact toNat_add_ofNat (by omega)

theorem Placed.mem_entry_iff {i : Nat} (hi : i < 1024) {x : UInt32} :
    x ∈ span (entryAddr dir i) 4 ↔ dir.toNat + 4 * i ≤ x.toNat ∧ x.toNat < dir.toNat + 4 * i + 4 := by
  have hram := hdir.inRam
  unfold physMemSize at hram
  have haddr : entryAddr dir i = UInt32.ofNat (dir.toNat + 4 * i) := by
    rw [← hdir.toNat_entryAddr hi, UInt32.ofNat_toNat]
  rw [haddr]
  exact mem_span_ofNat (by omega)

theorem Placed.mem_dir_iff {x : UInt32} :
    x ∈ span dir 4096 ↔ dir.toNat ≤ x.toNat ∧ x.toNat < dir.toNat + 4096 := by
  have hram := hdir.inRam
  unfold physMemSize at hram
  have hspan := mem_span_ofNat (a := dir.toNat) (n := 4096) (by omega) (x := x)
  rwa [UInt32.ofNat_toNat] at hspan

theorem Placed.word_setWord {i j : Nat} (hi : i < 1024) (hj : j < 1024) (m : Mem) (w : UInt32) :
    (m.setWord (entryAddr dir i) w).word (entryAddr dir j) =
      if j = i then w else m.word (entryAddr dir j) := by
  by_cases hji : j = i
  · rw [hji, if_pos rfl]
    exact Mem.word_setWord ..
  · rw [if_neg hji]
    apply word_setWord_other
    intro x hx hx'
    have h1 := (hdir.mem_entry_iff hj).mp hx
    have h2 := (hdir.mem_entry_iff hi).mp hx'
    omega

-- A byte elsewhere is no part of an entry.
theorem Placed.word_update {x : UInt32} (hx : x ∉ span dir 4096) (m : Mem) (c : UInt8) {i : Nat} (hi : i < 1024) :
    Mem.word (Function.update m x c) (entryAddr dir i) = m.word (entryAddr dir i) := by
  have hkeep : ∀ y ∈ span (entryAddr dir i) 4, Function.update m x c y = m y := by
    intro y hy
    apply Function.update_of_ne
    rintro rfl
    have h1 := (hdir.mem_entry_iff hi).mp hy
    exact hx (hdir.mem_dir_iff.mpr (by omega))
  have hword := word_congr hkeep (k := 0) (by decide)
  rwa [show entryAddr dir i + UInt32.ofNat 0 = entryAddr dir i from UInt32.add_zero _] at hword

theorem Placed.word_fillDirectory (m : Mem) {n : Nat} (hn : n ≤ 1024) {i : Nat} (hi : i < n) :
    (fillDirectory dir m n).word (entryAddr dir i) = initEntry i := by
  induction n with
  | zero => omega
  | succ n ih =>
    rw [fillDirectory, hdir.word_setWord (by omega) (by omega)]
    by_cases hin : i = n
    · rw [if_pos hin, hin]
    · rw [if_neg hin]
      exact ih (by omega) (by omega)

-- The processor finds the entry of a page where the kernel puts it.
theorem Placed.pdeAddr_eq {c : Control} (hc : c.cr3 = dir) (va : UInt32) :
    c.pdeAddr va = entryAddr dir (pageOf va).toNat ∧ (pageOf va).toNat < 1024 := by
  have hlt := va.toNat_lt
  have hpage := toNat_pageOf va
  refine ⟨?_, by omega⟩
  have htable : tableOf c.cr3 = dir := by
    rw [hc]
    exact tableOf_aligned hdir.aligned
  rw [Control.pdeAddr, htable, entryAddr, Nat.mul_comm, UInt32.ofNat_mul, UInt32.ofNat_toNat]
  rfl

end Directory

/-! ## The entries -/

/-- Entry `i`, after the calls of `paging_set_user` with the addresses `us`. -/
def entryAfter (us : List UInt32) (i : Nat) : UInt32 :=
  if ∃ v ∈ us, (pageOf v).toNat = i then initEntry i ||| pdeUser else initEntry i

theorem initEntry_ram (u : Bool) {i : Nat} (hi : i < 8) (c : Control) (a : Access) :
    largePage (if u then initEntry i ||| pdeUser else initEntry i) = true ∧
      frameOf (if u then initEntry i ||| pdeUser else initEntry i) = UInt32.ofNat i <<< 22 ∧
      permits c (if u then initEntry i ||| pdeUser else initEntry i) a = (!a.user || u) := by
  have hbits : ∀ u : Bool, ∀ i, i < 8 →
      largePage (if u then initEntry i ||| pdeUser else initEntry i) = true ∧
      frameOf (if u then initEntry i ||| pdeUser else initEntry i) = UInt32.ofNat i <<< 22 ∧
      present (if u then initEntry i ||| pdeUser else initEntry i) = true ∧
      writable (if u then initEntry i ||| pdeUser else initEntry i) = true ∧
      userPage (if u then initEntry i ||| pdeUser else initEntry i) = u := by decide
  obtain ⟨hlarge, hframe, hpres, hrw, huser⟩ := hbits u i hi
  refine ⟨hlarge, hframe, ?_⟩
  rw [permits, hpres, hrw, huser]
  simp

theorem initEntry_absent (u : Bool) {i : Nat} (hi : ¬ i < 8) :
    present (if u then initEntry i ||| pdeUser else initEntry i) = false := by
  have hentry : initEntry i = pdeRw := if_neg hi
  rw [hentry]
  cases u with
  | false => decide
  | true => decide

/-! ## The invariant -/

/-- Paging is on with the directory at `dir`, which maps RAM to itself and has opened the pages of `us`. -/
structure Maps (dir : UInt32) (us : List UInt32) (s : Mmu) : Prop where
  cr3 : s.ctl.cr3 = dir
  paging : s.ctl.paging = true
  pse : s.ctl.pageSizeExt = true
  entry : ∀ i, i < 1024 → s.mem.word (entryAddr dir i) = entryAfter us i
  coherent : Coherent s.mem.word s.ctl s.tlb

section Runs

variable {dir : UInt32} (hdir : Placed dir)

include hdir

theorem maps_pagingInit (s : Mmu) : Maps dir [] (pagingInit dir s) := by
  have hpg : ∀ w : UInt32, (w ||| 0x80000000) &&& 0x80000000 ≠ 0 := by
    intro w
    rw [show (0x80000000 : UInt32) = WordBits.mask 31 by decide]
    exact (WordBits.or_mask_and_mask w (by decide) (by decide)).mpr (Or.inl rfl)
  have hpse : ∀ w : UInt32, (w ||| 0x10) &&& 0x10 ≠ 0 := by
    intro w
    rw [show (0x10 : UInt32) = WordBits.mask 4 by decide]
    exact (WordBits.or_mask_and_mask w (by decide) (by decide)).mpr (Or.inl rfl)
  have hentry : ∀ i, i < 1024 → (fillDirectory dir s.mem 1024).word (entryAddr dir i) = entryAfter [] i := by
    intro i hi
    rw [hdir.word_fillDirectory s.mem (Nat.le_refl 1024) hi, entryAfter, if_neg (by simp)]
  unfold pagingInit Mmu.loadCr3
  exact ⟨rfl, bne_iff_ne.mpr (hpg _), bne_iff_ne.mpr (hpse _), hentry, coherent_empty _ _⟩

/-- Where an access goes. -/
theorem Maps.walk_eq {us : List UInt32} {s : Mmu} (h : Maps dir us s) (a : Access) (va : UInt32) :
    walk s.mem.word s.ctl a va =
      if va.toNat < physMemSize ∧ (a.user = true → ∃ v ∈ us, pageOf v = pageOf va) then some va else none := by
  obtain ⟨haddr, hlt⟩ := hdir.pdeAddr_eq h.cr3 va
  have hpage := toNat_pageOf va
  have hload : s.mem.word (s.ctl.pdeAddr va) =
      if decide (∃ v ∈ us, pageOf v = pageOf va) then initEntry (pageOf va).toNat ||| pdeUser
      else initEntry (pageOf va).toNat := by
    rw [haddr, h.entry _ hlt, entryAfter]
    simp only [UInt32.toNat_inj, decide_eq_true_eq]
  by_cases hram : va.toNat < physMemSize
  · have hi : (pageOf va).toNat < 8 := by
      unfold physMemSize at hram
      omega
    obtain ⟨hlarge, hframe, hperm⟩ :=
      initEntry_ram (decide (∃ v ∈ us, pageOf v = pageOf va)) hi s.ctl a
    rw [← hload] at hlarge hframe hperm
    rw [UInt32.ofNat_toNat] at hframe
    rw [walk_large h.paging h.pse a hlarge, largeAddr_self hframe, hperm]
    cases a.user with
    | false => simp [hram]
    | true => simp [hram]
  · have habs := initEntry_absent (decide (∃ v ∈ us, pageOf v = pageOf va)) (i := (pageOf va).toNat) (by
      unfold physMemSize at hram
      omega)
    rw [← hload] at habs
    rw [walk_absent h.paging a habs, if_neg (fun hc => hram hc.1)]

-- The directory lies within one page.
theorem Placed.pageOf_eq {x : UInt32} (hx : x ∈ span dir 4096) : pageOf x = pageOf dir := by
  have hal := hdir.aligned
  have hr := hdir.mem_dir_iff.mp hx
  apply UInt32.toNat_inj.mp
  rw [toNat_pageOf, toNat_pageOf]
  omega

theorem Maps.setUser {us : List UInt32} {s : Mmu} (h : Maps dir us s) (vaddr : UInt32) :
    Maps dir (us ++ [vaddr]) (pagingSetUser dir vaddr s) where
  cr3 := h.cr3
  paging := h.paging
  pse := h.pse
  entry := by
    intro i hi
    have hlt := vaddr.toNat_lt
    have hpage := toNat_pageOf vaddr
    show (s.mem.setWord (entryAddr dir (pageOf vaddr).toNat)
      (s.mem.word (entryAddr dir (pageOf vaddr).toNat) ||| pdeUser)).word (entryAddr dir i) = _
    rw [hdir.word_setWord (by omega) hi, h.entry _ (by omega), h.entry i hi]
    by_cases hin : i = (pageOf vaddr).toNat
    · have hnew : ∃ v ∈ us ++ [vaddr], (pageOf v).toNat = i :=
        ⟨vaddr, List.mem_append_right us (List.mem_singleton_self vaddr), hin.symm⟩
      rw [if_pos hin, entryAfter, entryAfter, ← hin, if_pos hnew]
      split
      · rw [UInt32.or_assoc, UInt32.or_self]
      · rfl
    · rw [if_neg hin, entryAfter, entryAfter]
      have hiff : (∃ v ∈ us ++ [vaddr], (pageOf v).toNat = i) ↔ ∃ v ∈ us, (pageOf v).toNat = i := by
        simp [Ne.symm hin, or_and_right, exists_or]
      simp only [hiff]
  coherent := coherent_empty _ _

-- A write that goes through is not one to the directory.
theorem Maps.write_outside {us : List UInt32} {s : Mmu} (h : Maps dir us s) (hus : ∀ v ∈ us, pageOf v ≠ pageOf dir)
    {a : Access} {va pa : UInt32} {c : UInt8} (hok : (Event.access a va c).Allowed dir) (hw : a.write = true)
    (hpa : walk s.mem.word s.ctl a va = some pa) : pa = va ∧ va ∉ span dir 4096 := by
  rw [h.walk_eq hdir] at hpa
  split at hpa
  · rename_i hcond
    refine ⟨(Option.some.inj hpa).symm, ?_⟩
    cases hu : a.user with
    | false => exact hok hu hw
    | true =>
      intro hin
      obtain ⟨v, hv, hpage⟩ := hcond.2 hu
      exact hus v hv (hpage.trans (hdir.pageOf_eq hin))
  · cases hpa

theorem Maps.access {us : List UInt32} {s : Mmu} (h : Maps dir us s) (hus : ∀ v ∈ us, pageOf v ≠ pageOf dir)
    {a : Access} {va : UInt32} {c : UInt8} (hok : (Event.access a va c).Allowed dir) :
    Maps dir us ((Event.access a va c).apply dir s) := by
  obtain ⟨hres, hcoh⟩ := access_coherent h.coherent a va
  -- what the access leaves in the directory
  have hkeep : ∀ i, i < 1024 →
      ((Event.access a va c).apply dir s).mem.word (entryAddr dir i) = s.mem.word (entryAddr dir i) := by
    intro i hi
    unfold Event.apply
    dsimp only
    rw [hres]
    cases hpa : walk s.mem.word s.ctl a va with
    | none => rfl
    | some pa =>
      dsimp only
      split
      · rename_i hw
        obtain ⟨rfl, hout⟩ := h.write_outside hdir hus hok hw hpa
        exact hdir.word_update hout s.mem c hi
      · rfl
  refine ⟨h.cr3, h.paging, h.pse, fun i hi => (hkeep i hi).trans (h.entry i hi), ?_⟩
  apply hcoh.congr
  intro vb
  obtain ⟨haddr, hlt⟩ := hdir.pdeAddr_eq h.cr3 vb
  rw [haddr]
  exact hkeep _ hlt

theorem maps_run (s : Mmu) {es : List Event} (hes : ∀ e ∈ es, e.Allowed dir) :
    Maps dir (userAddrs es) (run dir es (pagingInit dir s)) ∧ ∀ v ∈ userAddrs es, pageOf v ≠ pageOf dir := by
  induction es using List.reverseRecOn with
  | nil => exact ⟨maps_pagingInit hdir s, fun v hv => absurd hv List.not_mem_nil⟩
  | append_singleton es e ih =>
    obtain ⟨hmaps, hus⟩ := ih fun e he => hes e (List.mem_append_left _ he)
    have he := hes e (List.mem_append_right _ (List.mem_singleton_self e))
    rw [run, List.foldl_append, userAddrs, List.filterMap_append]
    cases e with
    | setUser vaddr =>
      refine ⟨hmaps.setUser hdir vaddr, ?_⟩
      intro v hv
      rcases List.mem_append.mp hv with hv | hv
      · exact hus v hv
      · rw [List.mem_singleton.mp hv]
        exact he
    | access a va c =>
      rw [show List.filterMap _ [Event.access a va c] = [] from rfl, List.append_nil]
      exact ⟨hmaps.access hdir hus he, hus⟩

/-- From `paging_init` on, whatever ring 3 does and whichever other pages the kernel opens, ring 0 sees the
RAM at its own addresses and ring 3 sees of it exactly the opened pages.  Every other access faults. -/
theorem access_reached (s : Mmu) {es : List Event} (hes : ∀ e ∈ es, e.Allowed dir) (a : Access) (va : UInt32) :
    (Paging32.access (run dir es (pagingInit dir s)).mem.word (run dir es (pagingInit dir s)).ctl
        (run dir es (pagingInit dir s)).tlb a va).1 =
      if va.toNat < physMemSize ∧ (a.user = true → ∃ v ∈ userAddrs es, pageOf v = pageOf va) then some va
      else none := by
  obtain ⟨hmaps, -⟩ := maps_run hdir s hes
  rw [(access_coherent hmaps.coherent a va).1]
  exact hmaps.walk_eq hdir a va

end Runs

/-- Any registers and memory, and a buffer with nothing in it. -/
def poweredOn : Mmu := ⟨fun _ => 0, ⟨0x11, 0, 0⟩, Tlb.empty⟩

-- A directory at 1 MB and one opened page, to which ring 3 has written.
theorem access_reached_opened :
    (Paging32.access
        (run 0x100000 [.setUser 0x800000, .access ⟨true, true⟩ 0x800010 5] (pagingInit 0x100000 poweredOn)).mem.word
        (run 0x100000 [.setUser 0x800000, .access ⟨true, true⟩ 0x800010 5] (pagingInit 0x100000 poweredOn)).ctl
        (run 0x100000 [.setUser 0x800000, .access ⟨true, true⟩ 0x800010 5] (pagingInit 0x100000 poweredOn)).tlb
        ⟨true, true⟩ 0xBFFFFF).1 = some 0xBFFFFF := by
  have hdir : Placed 0x100000 := ⟨by decide, by decide⟩
  refine (access_reached hdir poweredOn ?_ ⟨true, true⟩ 0xBFFFFF).trans (by decide)
  intro e he
  rcases List.mem_cons.mp he with rfl | he
  · show pageOf 0x800000 ≠ pageOf 0x100000
    decide
  · rw [List.mem_singleton.mp he]
    exact fun hu => absurd hu (by decide)

end JacobOS.Paging
