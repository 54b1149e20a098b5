import Mathlib.Data.Fintype.Card
import JacobOS.Mem.Pmm

/-!
# The frames in use and their count

`used_frames` is kept beside the bitmap, not computed from it.  That the two agree is what keeps the counter from
underflowing, whatever addresses `pmm_free_frame` is given.
-/

namespace JacobOS.Pmm

open WordBits

/-- The frames whose bit is set. -/
def setBits (bitmap : Bitmap) : Finset (Fin numFrames) :=
  Finset.univ.filter fun f => (bitmap.get (wordOf f)).toNat.testBit (f.val % 32) = true

theorem mem_setBits {bitmap : Bitmap} {f : Fin numFrames} : f ∈ setBits bitmap ↔ testFrame bitmap f = true := by
  rw [testFrame_iff, and_mask_ne_zero_iff _ (Nat.mod_lt _ (by decide))]
  simp [setBits]

theorem not_mem_setBits {bitmap : Bitmap} {f : Fin numFrames} :
    f ∉ setBits bitmap ↔ testFrame bitmap f = false := by
  rw [mem_setBits, Bool.not_eq_true]

theorem setBits_setFrame (f : Fin numFrames) (bitmap : Bitmap) :
    setBits (setFrame f bitmap) = insert f (setBits bitmap) := by
  ext g
  rw [mem_setBits, testFrame_setFrame, Finset.mem_insert, mem_setBits]

theorem setBits_clearFrame (f : Fin numFrames) (bitmap : Bitmap) :
    setBits (clearFrame f bitmap) = (setBits bitmap).erase f := by
  ext g
  rw [mem_setBits, testFrame_clearFrame, Finset.mem_erase, mem_setBits]

theorem card_setBits_le (bitmap : Bitmap) : (setBits bitmap).card ≤ 8192 := by
  have h := Finset.card_le_univ (setBits bitmap)
  rwa [Fintype.card_fin] at h

/-! ## The counter -/

def Counted (p : State) : Prop := p.usedFrames.toNat = (setBits p.bitmap).card

theorem Counted.setFrame {p : State} (h : Counted p) {f : Fin numFrames} (hf : f ∉ setBits p.bitmap) :
    Counted ⟨setFrame f p.bitmap, p.usedFrames + 1⟩ := by
  have hle := card_setBits_le p.bitmap
  unfold Counted at h ⊢
  rw [setBits_setFrame, Finset.card_insert_of_notMem hf, UInt32.toNat_add, h]
  show ((setBits p.bitmap).card + 1) % 2 ^ 32 = _
  omega

theorem Counted.clearFrame {p : State} (h : Counted p) {f : Fin numFrames} (hf : f ∈ setBits p.bitmap) :
    Counted ⟨clearFrame f p.bitmap, p.usedFrames - 1⟩ := by
  have hpos : 0 < (setBits p.bitmap).card := Finset.card_pos.mpr ⟨f, hf⟩
  unfold Counted at h ⊢
  have hone : (1 : UInt32) ≤ p.usedFrames := by
    rw [UInt32.le_iff_toNat_le, h]
    exact hpos
  rw [setBits_clearFrame, Finset.card_erase_of_mem hf, UInt32.toNat_sub_of_le _ _ hone, h]
  rfl

-- The loop of `pmm_init` after `n` passes: the bit of the next frame is still clear.
theorem counted_foldl (n : Nat) (hn : n ≤ numFrames) :
    Counted (Fin.foldl n
      (fun p i => (⟨Pmm.setFrame (Fin.castLE hn i) p.bitmap, p.usedFrames + 1⟩ : State))
      ⟨Vector.replicate numWords 0, 0⟩) := by
  induction n with
  | zero =>
    rw [Fin.foldl_zero]
    show 0 = (setBits (Vector.replicate numWords 0)).card
    symm
    rw [Finset.card_eq_zero, Finset.eq_empty_iff_forall_notMem]
    exact fun f => not_mem_setBits.mpr (testFrame_zero f)
  | succ n ih =>
    rw [Fin.foldl_succ_last]
    apply Counted.setFrame (ih (by omega))
    rw [mem_setBits]
    intro htest
    rcases (testFrame_foldl n (by omega) _ _).mp htest with hlt | hzero
    · exact absurd hlt (Nat.lt_irrefl n)
    · rw [testFrame_zero] at hzero
      exact absurd hzero (by simp)

theorem counted_pmmInit : Counted pmmInit := by
  unfold pmmInit
  exact counted_foldl reserved reserved_le

theorem Counted.step {p : State} (h : Counted p) (c : Call) : Counted (step p c) := by
  cases c with
  | allocFrame =>
    rw [Pmm.step, pmmAllocFrame]
    cases hfind : firstClear (testFrame p.bitmap) with
    | none => exact h
    | some i => exact h.setFrame (not_mem_setBits.mpr (firstClear_eq_some_iff.mp hfind).1)
  | freeFrame addr =>
    rw [Pmm.step, pmmFreeFrame]
    split
    · dsimp only
      split
      next htest => exact h.clearFrame (mem_setBits.mpr htest)
      next => exact h
    · exact h

theorem counted_after (cs : List Call) : Counted (after cs) := by
  induction cs using List.reverseRecOn with
  | nil =>
    rw [after_nil]
    exact counted_pmmInit
  | append_singleton cs c ih =>
    rw [after_concat]
    exact ih.step c

/-! ## Frames handed out -/

/-- The call of `pmm_alloc_frame` made in `p` hands out frame `i`.  The address alone would not tell frame 0 from
no frame. -/
def HandsOut (p : State) (i : Fin numFrames) : Prop :=
  (pmmAllocFrame p).1.toNat = frameSize * i.val ∧ (pmmAllocFrame p).2.usedFrames = p.usedFrames + 1

theorem handsOut_iff {p : State} {i : Fin numFrames} :
    HandsOut p i ↔ firstClear (testFrame p.bitmap) = some i := by
  unfold HandsOut pmmAllocFrame
  cases hfind : firstClear (testFrame p.bitmap) with
  | none =>
    refine ⟨fun h => ?_, fun h => absurd h (by simp)⟩
    have hsucc : p.usedFrames.toNat = (p.usedFrames.toNat + 1) % 2 ^ 32 := congrArg UInt32.toNat h.2
    have hlt := p.usedFrames.toNat_lt
    omega
  | some k =>
    have haddr : (takeFrame p (some k)).1.toNat = frameSize * k.val := by
      rw [Nat.mul_comm]
      exact toNat_address k
    have hinj : frameSize * k.val = frameSize * i.val ↔ k = i := by
      rw [Nat.mul_right_inj (by decide), Fin.ext_iff]
    rw [haddr, hinj, Option.some_inj]
    exact ⟨fun h => h.1, fun h => ⟨h, rfl⟩⟩

theorem handsOut_setBits {p : State} {i : Fin numFrames} (h : HandsOut p i) :
    setBits (pmmAllocFrame p).2.bitmap = insert i (setBits p.bitmap) := by
  unfold pmmAllocFrame
  rw [handsOut_iff.mp h]
  exact setBits_setFrame i p.bitmap

theorem pmmAllocFrame_of_not_handsOut {p : State} (h : ∀ i, ¬ HandsOut p i) : pmmAllocFrame p = (0, p) := by
  unfold pmmAllocFrame
  cases hfind : firstClear (testFrame p.bitmap) with
  | none => rfl
  | some i => exact absurd (handsOut_iff.mpr hfind) (h i)

theorem mem_setBits_pmmFreeFrame (addr : UInt32) (p : State) (f : Fin numFrames) :
    f ∈ setBits (pmmFreeFrame addr p).bitmap ↔ f.val ≠ addr.toNat / frameSize ∧ f ∈ setBits p.bitmap := by
  rw [mem_setBits, testFrame_pmmFreeFrame, mem_setBits]

theorem mem_setBits_step {p : State} {f : Fin numFrames} (h : f ∈ setBits p.bitmap) {c : Call}
    (hc : ∀ addr, c = .freeFrame addr → f.val ≠ addr.toNat / frameSize) : f ∈ setBits (step p c).bitmap := by
  cases c with
  | allocFrame =>
    rw [step]
    by_cases hout : ∃ i, HandsOut p i
    · obtain ⟨i, hi⟩ := hout
      rw [handsOut_setBits hi]
      exact Finset.mem_insert_of_mem h
    · rw [pmmAllocFrame_of_not_handsOut (not_exists.mp hout)]
      exact h
  | freeFrame addr => exact (mem_setBits_pmmFreeFrame addr p f).mpr ⟨hc addr rfl, h⟩

-- A set bit stays set while no address of its frame is freed.
theorem mem_setBits_calls {p : State} {f : Fin numFrames} (h : f ∈ setBits p.bitmap) {cs : List Call}
    (hcs : ∀ addr, .freeFrame addr ∈ cs → f.val ≠ addr.toNat / frameSize) :
    f ∈ setBits (cs.foldl step p).bitmap := by
  induction cs generalizing p with
  | nil => exact h
  | cons c cs ih =>
    apply ih
    · apply mem_setBits_step h
      rintro addr rfl
      exact hcs addr (by simp)
    · exact fun addr hin => hcs addr (List.mem_cons_of_mem _ hin)

/-- Between two calls that hand out one frame there is a `pmm_free_frame` of an address in it. -/
theorem freed_between {pre mid : List Call} {i : Fin numFrames} (hfirst : HandsOut (after pre) i)
    (hagain : HandsOut (after (pre ++ .allocFrame :: mid)) i) :
    ∃ addr, .freeFrame addr ∈ mid ∧ addr.toNat / frameSize = i.val := by
  by_contra hnone
  have hset : i ∈ setBits (after (pre ++ .allocFrame :: mid)).bitmap := by
    rw [after, List.foldl_append, List.foldl_cons]
    apply mem_setBits_calls
    · rw [← after, step, handsOut_setBits hfirst]
      exact Finset.mem_insert_self _ _
    · intro addr hin heq
      exact hnone ⟨addr, hin, heq.symm⟩
  exact not_mem_setBits.mpr (firstClear_eq_some_iff.mp (handsOut_iff.mp hagain)).1 hset

/-- After `pmm_init` and any calls: `used_frames` is the number of set bits, which no free brings below 0; a call
that hands out a frame hands out that of the least clear bit and sets this bit only, and any other call fails; a
free changes no bit but that of its address; and a frame is handed out again only after it was freed. -/
theorem frames_after (cs : List Call) :
    (after cs).usedFrames.toNat = (setBits (after cs).bitmap).card ∧
      (∀ addr, (pmmFreeFrame addr (after cs)).usedFrames ≤ (after cs).usedFrames) ∧
      (∀ i, HandsOut (after cs) i → i ∉ setBits (after cs).bitmap ∧
        (∀ j < i, j ∈ setBits (after cs).bitmap) ∧
        setBits (pmmAllocFrame (after cs)).2.bitmap = insert i (setBits (after cs).bitmap)) ∧
      ((∀ i, ¬ HandsOut (after cs) i) → pmmAllocFrame (after cs) = (0, after cs)) ∧
      (∀ addr f, f.val ≠ addr.toNat / frameSize →
        (f ∈ setBits (pmmFreeFrame addr (after cs)).bitmap ↔ f ∈ setBits (after cs).bitmap)) ∧
      ∀ pre mid post i, cs = pre ++ .allocFrame :: (mid ++ .allocFrame :: post) → HandsOut (after pre) i →
        HandsOut (after (pre ++ .allocFrame :: mid)) i →
        ∃ addr, .freeFrame addr ∈ mid ∧ addr.toNat / frameSize = i.val := by
  have hcount := counted_after cs
  refine ⟨hcount, fun addr => ?_, fun i hi => ?_, pmmAllocFrame_of_not_handsOut, fun addr f hf => ?_,
    fun pre mid _ i _ => freed_between⟩
  · have hfree : Counted (pmmFreeFrame addr (after cs)) := hcount.step (.freeFrame addr)
    rw [UInt32.le_iff_toNat_le, hfree, hcount]
    apply Finset.card_le_card
    exact fun f hf => ((mem_setBits_pmmFreeFrame addr _ f).mp hf).2
  · obtain ⟨hclear, hleast⟩ := firstClear_eq_some_iff.mp (handsOut_iff.mp hi)
    exact ⟨not_mem_setBits.mpr hclear, fun j hj => mem_setBits.mpr (hleast j hj), handsOut_setBits hi⟩
  · rw [mem_setBits_pmmFreeFrame]
    exact ⟨fun h => h.2, fun h => ⟨hf, h⟩⟩

end JacobOS.Pmm
