import Mathlib.Data.Fin.Tuple.Basic
import Mathlib.Data.List.Induction
import JacobOS.Lib.WordBits

/-!
# The physical frame allocator of `mem/pmm.c`

One bit for each 4 KiB frame of the assumed 32 MiB, set while the frame is in use.  Reservation of the
low 12 MiB is nothing but the first marking of these bits, which `pmm_free_frame` clears like any
other.
-/

namespace JacobOS.Pmm

open WordBits

def frameSize : Nat := 4096
def physMemSize : Nat := 0x2000000
def pmmReservedEnd : Nat := 0xC00000

/-- `NUM_FRAMES`. -/
def numFrames : Nat := physMemSize / frameSize

/-- `NUM_FRAMES / 32`. -/
def numWords : Nat := numFrames / 32

/-- The frames below `PMM_RESERVED_END`. -/
def reserved : Nat := pmmReservedEnd / frameSize

theorem reserved_eq : reserved = 3072 := rfl

theorem reserved_le : reserved ≤ numFrames := by decide

theorem word_lt (frame : Fin numFrames) : frame.val / 32 < numWords := by
  have h : frame.val < 8192 := frame.isLt
  show frame.val / 32 < 256
  omega

abbrev Bitmap := Vector UInt32 numWords

/-- The index of the word with the bit of `frame`. -/
def wordOf (frame : Fin numFrames) : Fin numWords := ⟨frame.val / 32, word_lt frame⟩

def setFrame (frame : Fin numFrames) (bitmap : Bitmap) : Bitmap :=
  bitmap.set (wordOf frame) (bitmap.get (wordOf frame) ||| mask (frame.val % 32))

def clearFrame (frame : Fin numFrames) (bitmap : Bitmap) : Bitmap :=
  bitmap.set (wordOf frame) (bitmap.get (wordOf frame) &&& ~~~mask (frame.val % 32))

def testFrame (bitmap : Bitmap) (frame : Fin numFrames) : Bool :=
  bitmap.get (wordOf frame) &&& mask (frame.val % 32) != 0

structure State where
  bitmap : Bitmap
  /-- `used_frames`. -/
  usedFrames : UInt32

def pmmInit : State :=
  Fin.foldl reserved
    (fun p i => ⟨setFrame (Fin.castLE reserved_le i) p.bitmap, p.usedFrames + 1⟩)
    ⟨Vector.replicate numWords 0, 0⟩

/-- The first index whose test fails. -/
def firstClear {n : Nat} (test : Fin n → Bool) : Option (Fin n) := Fin.find? fun i => !test i

/-- The body of the loop at the frame it stops at, and the return after it. -/
def takeFrame (p : State) : Option (Fin numFrames) → UInt32 × State
  | some i => (UInt32.ofNat (i.val * frameSize), ⟨setFrame i p.bitmap, p.usedFrames + 1⟩)
  | none => (0, p)

/-- `pmm_alloc_frame`: the address of the first frame whose bit is clear, 0 when there is none. -/
def pmmAllocFrame (p : State) : UInt32 × State := takeFrame p (firstClear (testFrame p.bitmap))

def pmmFreeFrame (addr : UInt32) (p : State) : State :=
  if h : addr.toNat / frameSize < numFrames then
    let frame : Fin numFrames := ⟨addr.toNat / frameSize, h⟩
    if testFrame p.bitmap frame then ⟨clearFrame frame p.bitmap, p.usedFrames - 1⟩ else p
  else p

/-! ## Bits of the bitmap -/

theorem wordOf_inj {f g : Fin numFrames} (hword : wordOf g = wordOf f)
    (hbit : g.val % 32 = f.val % 32) : g = f := by
  have hq : g.val / 32 = f.val / 32 := congrArg Fin.val hword
  apply Fin.ext
  omega

theorem testFrame_iff (bitmap : Bitmap) (f : Fin numFrames) :
    testFrame bitmap f = true ↔ bitmap.get (wordOf f) &&& mask (f.val % 32) ≠ 0 := by
  simp [testFrame]

theorem get_set (bitmap : Bitmap) (i j : Fin numWords) (w : UInt32) :
    (bitmap.set i w).get j = if i = j then w else bitmap.get j := by
  change (bitmap.set i w)[j] = if i = j then w else bitmap[j]
  simp only [Fin.getElem_fin, Vector.getElem_set, Fin.ext_iff]

theorem testFrame_setFrame (bitmap : Bitmap) (f g : Fin numFrames) :
    testFrame (setFrame f bitmap) g = true ↔ g = f ∨ testFrame bitmap g = true := by
  rw [testFrame_iff, testFrame_iff, setFrame, get_set]
  by_cases hw : wordOf f = wordOf g
  · rw [if_pos hw, or_mask_and_mask _ (Nat.mod_lt _ (by decide)) (Nat.mod_lt _ (by decide)), hw]
    refine or_congr ⟨wordOf_inj hw.symm, ?_⟩ Iff.rfl
    rintro rfl
    rfl
  · rw [if_neg hw]
    refine ⟨Or.inr, ?_⟩
    rintro (rfl | h)
    · exact absurd rfl hw
    · exact h

theorem testFrame_clearFrame (bitmap : Bitmap) (f g : Fin numFrames) :
    testFrame (clearFrame f bitmap) g = true ↔ g ≠ f ∧ testFrame bitmap g = true := by
  rw [testFrame_iff, testFrame_iff, clearFrame, get_set]
  by_cases hw : wordOf f = wordOf g
  · rw [if_pos hw, clear_mask_and_mask _ (Nat.mod_lt _ (by decide)) (Nat.mod_lt _ (by decide)), hw]
    refine and_congr (not_congr ⟨wordOf_inj hw.symm, ?_⟩) Iff.rfl
    rintro rfl
    rfl
  · rw [if_neg hw]
    refine ⟨fun h => ⟨?_, h⟩, fun h => h.2⟩
    rintro rfl
    exact hw rfl

theorem testFrame_zero (f : Fin numFrames) : testFrame (Vector.replicate numWords 0) f = false := by
  have hword : (Vector.replicate numWords (0 : UInt32)).get (wordOf f) = 0 :=
    Vector.getElem_replicate (word_lt f)
  simp [testFrame, hword]

/-! ## The operations on bits -/

-- The loop of `pmm_init` after `n` passes.
theorem testFrame_foldl (n : Nat) (hn : n ≤ numFrames) (p : State) (f : Fin numFrames) :
    testFrame (Fin.foldl n
        (fun p i => (⟨setFrame (Fin.castLE hn i) p.bitmap, p.usedFrames + 1⟩ : State)) p).bitmap f =
      true ↔ f.val < n ∨ testFrame p.bitmap f = true := by
  induction n with
  | zero => simp
  | succ n ih =>
    have hlast : f = Fin.castLE hn (Fin.last n) ↔ f.val = n := Fin.ext_iff
    rw [Fin.foldl_succ_last, testFrame_setFrame, hlast]
    have hrec := ih (by omega)
    refine (or_congr Iff.rfl hrec).trans ?_
    rw [← or_assoc]
    exact or_congr (by omega) Iff.rfl

theorem testFrame_pmmInit (f : Fin numFrames) :
    testFrame pmmInit.bitmap f = true ↔ f.val < reserved := by
  unfold pmmInit
  rw [testFrame_foldl, testFrame_zero]
  simp

theorem firstClear_eq_some_iff {n : Nat} {test : Fin n → Bool} {i : Fin n} :
    firstClear test = some i ↔ test i = false ∧ ∀ j < i, test j = true := by
  unfold firstClear
  rw [Fin.find?_eq_some_iff]
  simp

theorem firstClear_eq_none_iff {n : Nat} {test : Fin n → Bool} :
    firstClear test = none ↔ ∀ i, test i = true := by
  unfold firstClear
  rw [Fin.find?_eq_none_iff]
  simp

/-- What a call of `pmm_alloc_frame` that returned `a` did. -/
inductive AllocEffect (p p' : State) (a : UInt32) : Prop
  | found (i : Fin numFrames) (least : ∀ j < i, testFrame p.bitmap j = true)
      (clear : testFrame p.bitmap i = false) (addr : a = UInt32.ofNat (i.val * frameSize))
      (bits : p'.bitmap = setFrame i p.bitmap) (used : p'.usedFrames = p.usedFrames + 1)
  | full (all : ∀ i, testFrame p.bitmap i = true) (addr : a = 0) (same : p' = p)

theorem pmmAllocFrame_effect (p : State) : AllocEffect p (pmmAllocFrame p).2 (pmmAllocFrame p).1 := by
  unfold pmmAllocFrame
  cases hfind : firstClear (testFrame p.bitmap) with
  | some i =>
    obtain ⟨hclear, hleast⟩ := firstClear_eq_some_iff.mp hfind
    exact .found i hleast hclear rfl rfl rfl
  | none => exact .full (firstClear_eq_none_iff.mp hfind) rfl rfl

theorem testFrame_pmmFreeFrame (addr : UInt32) (p : State) (f : Fin numFrames) :
    testFrame (pmmFreeFrame addr p).bitmap f = true ↔
      f.val ≠ addr.toNat / frameSize ∧ testFrame p.bitmap f = true := by
  unfold pmmFreeFrame
  by_cases h : addr.toNat / frameSize < numFrames
  · rw [dif_pos h]
    dsimp only
    have hf : f ≠ ⟨addr.toNat / frameSize, h⟩ ↔ f.val ≠ addr.toNat / frameSize :=
      not_congr Fin.ext_iff
    by_cases hset : testFrame p.bitmap ⟨addr.toNat / frameSize, h⟩ = true
    · rw [if_pos hset, testFrame_clearFrame, hf]
    · rw [if_neg hset, ← hf]
      refine ⟨fun ht => ⟨?_, ht⟩, fun ht => ht.2⟩
      rintro rfl
      exact hset ht
  · rw [dif_neg h]
    have hlt := f.isLt
    exact ⟨fun ht => ⟨by omega, ht⟩, fun ht => ht.2⟩

/-- The address of a frame; the multiplication does not wrap. -/
theorem toNat_address (i : Fin numFrames) :
    (UInt32.ofNat (i.val * frameSize)).toNat = i.val * frameSize := by
  have hi : i.val < 8192 := i.isLt
  rw [UInt32.toNat_ofNat']
  show i.val * 4096 % 2 ^ 32 = i.val * 4096
  omega

/-! ## Runs -/

inductive Call
  | allocFrame
  | freeFrame (addr : UInt32)

def step (p : State) : Call → State
  | .allocFrame => (pmmAllocFrame p).2
  | .freeFrame addr => pmmFreeFrame addr p

/-- The allocator after `pmm_init` and the calls of `cs`. -/
def after (cs : List Call) : State := cs.foldl step pmmInit

theorem after_nil : after [] = pmmInit := by
  rw [after, List.foldl_nil]

theorem after_concat (cs : List Call) (c : Call) : after (cs ++ [c]) = step (after cs) c := by
  simp [after]

/-- What `pmm.h` says of a call of `pmm_alloc_frame` made in `p`: it hands out no frame below
`PMM_RESERVED_END`, and 0 is the answer when all frames are in use. -/
def HandsOutUnreserved (p : State) : Prop :=
  ((pmmAllocFrame p).1 ≠ 0 → pmmReservedEnd ≤ (pmmAllocFrame p).1.toNat) ∧
    ((pmmAllocFrame p).1 = 0 → ∀ i, testFrame p.bitmap i = true)

def ReservedMarked (p : State) : Prop := ∀ f : Fin numFrames, f.val < reserved → testFrame p.bitmap f = true

-- Frame 0 is reserved, and its address is what stands for "none".
theorem handsOutUnreserved_iff (p : State) : HandsOutUnreserved p ↔ ReservedMarked p := by
  have hsize : frameSize = 4096 := rfl
  have hend : pmmReservedEnd = 3072 * 4096 := rfl
  unfold HandsOutUnreserved ReservedMarked
  rw [reserved_eq]
  cases pmmAllocFrame_effect p with
  | full all addr same => exact ⟨fun _ f _ => all f, fun _ => ⟨fun h => absurd addr h, fun _ => all⟩⟩
  | found i least clear addr =>
    have hval : (pmmAllocFrame p).1.toNat = i.val * 4096 := by
      rw [addr, toNat_address, hsize]
    have hzero : (pmmAllocFrame p).1 = 0 ↔ i.val = 0 := by
      rw [← UInt32.toNat_inj, hval]
      show i.val * 4096 = 0 ↔ _
      omega
    rw [Ne, hzero, hval]
    constructor
    · rintro ⟨hlow, hnone⟩ f hf
      by_cases hi : i.val = 0
      · exact hnone hi f
      · exact least f (Fin.lt_def.mpr (by have := hlow hi; omega))
    · intro hmarked
      have hi : ¬ i.val < 3072 := by
        intro hlt
        rw [hmarked i hlt] at clear
        exact absurd clear (by simp)
      exact ⟨fun _ => by omega, fun h => absurd h (by omega)⟩

/-- An address whose frame is reserved. -/
def IsReserved (addr : UInt32) : Prop := addr.toNat < pmmReservedEnd

theorem isReserved_iff (addr : UInt32) : IsReserved addr ↔ addr.toNat / frameSize < reserved := by
  show addr.toNat < 0xC00000 ↔ addr.toNat / 4096 < 3072
  omega

theorem reservedMarked_step {p : State} (h : ReservedMarked p) {c : Call}
    (hc : ∀ addr, c = .freeFrame addr → ¬ IsReserved addr) : ReservedMarked (step p c) := by
  intro f hf
  cases c with
  | allocFrame =>
    rw [step]
    cases pmmAllocFrame_effect p with
    | full _ _ same =>
      rw [same]
      exact h f hf
    | found i _ _ _ bits =>
      rw [bits, testFrame_setFrame]
      exact Or.inr (h f hf)
  | freeFrame addr =>
    have hres := mt (isReserved_iff addr).mpr (hc addr rfl)
    exact (testFrame_pmmFreeFrame addr p f).mpr ⟨by omega, h f hf⟩

theorem reservedMarked_after {cs : List Call} (h : ∀ addr, .freeFrame addr ∈ cs → ¬ IsReserved addr) :
    ReservedMarked (after cs) := by
  induction cs using List.reverseRecOn with
  | nil =>
    rw [after_nil]
    exact fun f hf => (testFrame_pmmInit f).mpr hf
  | append_singleton cs c ih =>
    rw [after_concat]
    have hprev := ih fun addr hin => h addr (List.mem_append_left _ hin)
    apply reservedMarked_step hprev
    rintro addr rfl
    exact h addr (by simp)

-- Once a reserved frame is free it stays so until the next allocation.
theorem not_reservedMarked_after {pre mid : List Call} {addr : UInt32} (haddr : IsReserved addr)
    (hmid : .allocFrame ∉ mid) : ¬ ReservedMarked (after (pre ++ .freeFrame addr :: mid)) := by
  have hframe := (isReserved_iff addr).mp haddr
  have hlt : addr.toNat / frameSize < numFrames := Nat.lt_of_lt_of_le hframe reserved_le
  intro hmarked
  have htest := hmarked ⟨_, hlt⟩ hframe
  suffices hclear : testFrame (after (pre ++ .freeFrame addr :: mid)).bitmap ⟨_, hlt⟩ = false by
    rw [hclear] at htest
    exact absurd htest (by simp)
  clear htest hmarked
  induction mid using List.reverseRecOn with
  | nil =>
    rw [after_concat, Bool.eq_false_iff]
    exact fun ht => ((testFrame_pmmFreeFrame addr _ _).mp ht).1 rfl
  | append_singleton mid c ih =>
    have hprev := ih fun hin => hmid (List.mem_append_left _ hin)
    rw [← List.cons_append, ← List.append_assoc, after_concat]
    cases c with
    | allocFrame => exact absurd (by simp) hmid
    | freeFrame addr' =>
      rw [Bool.eq_false_iff]
      intro ht
      have hback := ((testFrame_pmmFreeFrame addr' _ _).mp ht).2
      rw [hprev] at hback
      exact absurd hback (by simp)

/-- Every `pmm_alloc_frame` of the run does what `pmm.h` says. -/
def KeepsReserved (cs : List Call) : Prop :=
  ∀ pre post, cs = pre ++ .allocFrame :: post → HandsOutUnreserved (after pre)

/-- A `pmm_alloc_frame` after a `pmm_free_frame` of a reserved address. -/
def AllocAfterReservedFree (cs : List Call) : Prop :=
  ∃ pre addr mid post, cs = pre ++ .freeFrame addr :: (mid ++ .allocFrame :: post) ∧ IsReserved addr

-- The last reserved free before the allocation may be followed by others; the first allocation
-- after it is the one that goes wrong.
theorem exists_first_alloc (mid post : List Call) :
    ∃ mid' post', mid ++ .allocFrame :: post = mid' ++ .allocFrame :: post' ∧ .allocFrame ∉ mid' := by
  induction mid with
  | nil => exact ⟨[], post, rfl, by simp⟩
  | cons c mid ih =>
    cases c with
    | allocFrame => exact ⟨[], mid ++ .allocFrame :: post, rfl, by simp⟩
    | freeFrame addr =>
      obtain ⟨mid', post', heq, hnot⟩ := ih
      exact ⟨.freeFrame addr :: mid', post', by rw [List.cons_append, heq, List.cons_append], by simpa⟩

/-- The frame allocator keeps the low 12 MiB to itself in exactly those runs in which no frame is
allocated after an address below `PMM_RESERVED_END` was freed. -/
theorem keepsReserved_iff (cs : List Call) : KeepsReserved cs ↔ ¬ AllocAfterReservedFree cs := by
  constructor
  · rintro hkeeps ⟨pre, addr, mid, post, rfl, haddr⟩
    obtain ⟨mid', post', heq, hnot⟩ := exists_first_alloc mid post
    have hok := hkeeps (pre ++ .freeFrame addr :: mid') post' (by rw [heq, List.append_assoc]; rfl)
    exact not_reservedMarked_after haddr hnot ((handsOutUnreserved_iff _).mp hok)
  · rintro hnone pre post rfl
    apply (handsOutUnreserved_iff _).mpr
    apply reservedMarked_after
    intro addr hin haddr
    obtain ⟨front, mid, rfl⟩ := List.append_of_mem hin
    exact hnone ⟨front, addr, mid, post, by rw [List.append_assoc]; rfl, haddr⟩

theorem free_reserved_then_alloc :
    ¬ KeepsReserved [.freeFrame 0x1000, .allocFrame] := by
  intro hkeeps
  have hok := hkeeps [.freeFrame 0x1000] [] rfl
  have hnot : ¬ ReservedMarked (after ([] ++ .freeFrame 0x1000 :: [])) :=
    not_reservedMarked_after (by show 0x1000 < 0xC00000; decide) (by simp)
  exact hnot ((handsOutUnreserved_iff _).mp hok)

end JacobOS.Pmm
