import JacobOS.Mem.HeapUndo

/-!
# Where the payloads of the heap begin

`ALIGN8` rounds the sizes, but a header has 12 bytes, so a block whose size is a multiple of 8 takes the next one
out of step.
-/

namespace JacobOS.Kheap

open FirstFit

variable {m : Mem} {s : State}

/-! ## One call -/

-- Only blocks with a size that is a multiple of 8 move what comes after them by 4 modulo 8.
theorem total_mod_eight {bs : List Blk} (h : ∀ b ∈ bs, 4 ∣ b.size) :
    total 12 bs % 8 = 4 * (bs.countP fun b => decide (b.size % 8 = 0)) % 8 := by
  induction bs with
  | nil => rfl
  | cons b bs ih =>
    have hb := h b List.mem_cons_self
    have hrest := ih fun c hc => h c (List.mem_cons_of_mem b hc)
    rw [total, List.countP_cons]
    by_cases h8 : b.size % 8 = 0
    · rw [if_pos (decide_eq_true h8)]
      omega
    · rw [if_neg (by rw [decide_eq_false h8]; exact Bool.false_ne_true)]
      omega

theorem headers_append (a : Nat) (bs cs : List Blk) :
    headers a (bs ++ cs) = headers a bs ++ headers (a + total 12 bs) cs := by
  induction bs generalizing a with
  | nil => rfl
  | cons b bs ih =>
    rw [List.cons_append, headers, headers, ih, List.cons_append, total,
      show a + 12 + b.size + total 12 bs = a + (12 + b.size + total 12 bs) by omega]

-- The sizes are read off the headers.
theorem Seg.countP_headers {a : Nat} {bs : List Blk} (h : Seg m a bs) (hend : a + total 12 bs ≤ heapEnd) :
    (headers a bs).countP (fun x => decide ((m.word x).toNat % 8 = 0)) =
      bs.countP fun b => decide (b.size % 8 = 0) := by
  have hE : heapEnd = 0x800000 := rfl
  induction bs generalizing a with
  | nil => rfl
  | cons b bs ih =>
    rw [total] at hend
    have hsize : (m.word (UInt32.ofNat a)).toNat = b.size := by
      rw [h.1.size, toNat_ofNat (by omega)]
    rw [headers, List.countP_cons, List.countP_cons, ih h.2 (by omega), hsize]

/-- A pointer is a multiple of 8 exactly if an odd number of the headers before its own have a size that is. -/
theorem Inv.kmalloc_aligned_iff {bs : List Blk} (h : Inv s bs) {n p : UInt32} {h' : Heap}
    (hrun : kmalloc n s.heap = some (p, h')) (hp : p ≠ 0) :
    ∃ hs hs', Walk s.heap.mem s.heap.head (hs ++ (p - 12) :: hs') ∧
      (8 ∣ p.toNat ↔ (hs.countP fun x => decide ((s.heap.mem.word x).toNat % 8 = 0)) % 2 = 1) := by
  have hE : heapEnd = 0x800000 := rfl
  have hS : heapStart = 0x400000 := rfl
  rcases kmalloc_spec h.rep h.head n with hnone | ⟨pre, b, post, m', rfl, -, -, hsome, -⟩
  · rw [hnone] at hrun
    exact absurd (congrArg Prod.fst (Option.some.inj hrun)).symm hp
  · rw [hsome] at hrun
    obtain rfl : UInt32.ofNat (heapStart + total 12 pre + 12) = p := congrArg Prod.fst (Option.some.inj hrun)
    have hend := h.header_at.1
    have hwalk := h.blocks.walk
    rw [headers_append, headers] at hwalk
    refine ⟨headers heapStart pre, headers (heapStart + total 12 pre + 12 + b.size) post, ?_, ?_⟩
    · rw [← ofNat_add12, UInt32.add_sub_cancel]
      exact hwalk
    · have hcount := (seg_append.mp h.rep.seg).1.countP_headers (by omega)
      have hmod := @total_mod_eight pre fun c hc => h.rep.aligned c (List.mem_append_left _ hc)
      rw [hcount, toNat_ofNat (by omega)]
      omega

/-! ## Runs -/

/-- A run from `kheap_init` on, with the requests made to `kmalloc` and the pointers it returned, the latest
first. -/
inductive Logged (m : Mem) : State → List (UInt32 × UInt32) → Prop where
  | init : Logged m ⟨kheapInit m, []⟩ []
  | kmalloc {s : State} {log : List (UInt32 × UInt32)} (h : Logged m s log) (n : UInt32) {p : UInt32} {h' : Heap}
      (hrun : kmalloc n s.heap = some (p, h')) :
      Logged m ⟨h', if p = 0 then s.live else (p, (h'.mem.word (p - 12)).toNat) :: s.live⟩ ((n, p) :: log)
  | kfreeNull {s : State} {log : List (UInt32 × UInt32)} (h : Logged m s log) {h' : Heap}
      (hrun : kfree 0 s.heap = some h') : Logged m ⟨h', s.live⟩ log
  | kfree {s : State} {log : List (UInt32 × UInt32)} (h : Logged m s log) {e : UInt32 × Nat} (he : e ∈ s.live)
      {h' : Heap} (hrun : kfree e.1 s.heap = some h') : Logged m ⟨h', s.live.erase e⟩ log
  | store {s : State} {log : List (UInt32 × UInt32)} (h : Logged m s log) {e : UInt32 × Nat} (he : e ∈ s.live)
      {k : Nat} (hk : k < e.2) (v : UInt8) :
      Logged m ⟨{ s.heap with mem := Function.update s.heap.mem (e.1 + UInt32.ofNat k) v }, s.live⟩ log

variable {log : List (UInt32 × UInt32)}

theorem Logged.reached (h : Logged m s log) : Reached m s := by
  induction h with
  | init => exact .init
  | kmalloc _ n hrun ih => exact ih.step (.kmalloc n hrun)
  | kfreeNull _ hrun ih => exact ih.step (.kfreeNull hrun)
  | kfree _ he hrun ih => exact ih.step (.kfree he hrun)
  | store _ he hk v ih => exact ih.step (.store he hk v)

/-- A request that even the empty heap does not serve. -/
def Unserved (n : UInt32) : Prop := n = 0 ∨ heapSize - 12 < (align8 n).toNat

-- With nothing live, a request gets the payload of the first block or nothing.
theorem kmalloc_of_live_nil (h : Reached m s) (hlive : s.live = []) {n p : UInt32} {h' : Heap}
    (hrun : kmalloc n s.heap = some (p, h')) : p = 0 ∧ Unserved n ∨ p = 0x40000C ∧ ¬ Unserved n := by
  have hinv := h.inv_of_live_nil hlive
  by_cases hn : n = 0
  · rw [kmalloc, if_pos hn] at hrun
    exact Or.inl ⟨(congrArg Prod.fst (Option.some.inj hrun)).symm, Or.inl hn⟩
  rcases kmalloc_firstBlock hinv.rep hinv.head hn with
    ⟨hnone, hfail⟩ | ⟨pre, b, post, m', hbs, -, hr, -, hfound, -⟩
  · rw [hfail] at hrun
    have hlarge := hnone _ List.mem_cons_self
    left
    refine ⟨(congrArg Prod.fst (Option.some.inj hrun)).symm, Or.inr ?_⟩
    exact Nat.lt_of_not_le fun hle => hlarge ⟨rfl, hle⟩
  · cases pre with
    | cons c pre => exact absurd hbs (by simp)
    | nil =>
      obtain ⟨rfl, -⟩ : b = ⟨heapSize - 12, true⟩ ∧ post = [] := by simpa using hbs.symm
      rw [hfound] at hrun
      right
      refine ⟨(congrArg Prod.fst (Option.some.inj hrun)).symm, not_or.mpr ⟨hn, Nat.not_lt.mpr hr⟩⟩

-- As long as no request is served nothing is live, and nothing is what `kmalloc` returns.
theorem Logged.of_unserved (h : Logged m s log) (hall : ∀ e ∈ log, Unserved e.1) :
    s.live = [] ∧ ∀ e ∈ log, e.2 = 0 := by
  induction h with
  | init => exact ⟨rfl, fun e he => absurd he List.not_mem_nil⟩
  | kmalloc hlog n hrun ih =>
    obtain ⟨hlive, hnull⟩ := ih fun e he => hall e (List.mem_cons_of_mem _ he)
    rcases kmalloc_of_live_nil hlog.reached hlive hrun with ⟨hp, -⟩ | ⟨-, hserved⟩
    · rw [if_pos hp]
      exact ⟨hlive, List.forall_mem_cons.mpr ⟨hp, hnull⟩⟩
    · exact absurd (hall _ List.mem_cons_self) hserved
  | kfreeNull _ _ ih => exact ih hall
  | kfree _ he _ ih =>
    rw [(ih hall).1] at he
    exact absurd he List.not_mem_nil
  | store _ he _ _ ih =>
    rw [(ih hall).1] at he
    exact absurd he List.not_mem_nil

-- The first request that is served is served with an address that is 4 modulo 8.
theorem Logged.unserved_of_aligned (h : Logged m s log) (hall : ∀ e ∈ log, e.2 ≠ 0 → 8 ∣ e.2.toNat) :
    ∀ e ∈ log, Unserved e.1 := by
  induction h with
  | init => exact fun e he => absurd he List.not_mem_nil
  | kmalloc hlog n hrun ih =>
    obtain ⟨hlast, hbefore⟩ := List.forall_mem_cons.mp hall
    have hunserved := ih hbefore
    obtain ⟨hlive, -⟩ := hlog.of_unserved hunserved
    rcases kmalloc_of_live_nil hlog.reached hlive hrun with ⟨-, hn⟩ | ⟨rfl, -⟩
    · exact List.forall_mem_cons.mpr ⟨hn, hunserved⟩
    · have hodd : ¬ 8 ∣ (0x40000C : UInt32).toNat := by decide
      exact absurd (hlast (show (0x40000C : UInt32) ≠ 0 by decide)) hodd
  | kfreeNull _ _ ih => exact ih hall
  | kfree _ _ _ ih => exact ih hall
  | store _ _ _ _ ih => exact ih hall

/-- The pointers that a run of `kmalloc` and `kfree` returns are multiples of 8 exactly if there are none but null;
and whether the next one is depends on the blocks before it. -/
theorem payloads_aligned_iff (h : Logged m s log) :
    ((∀ e ∈ log, e.2 ≠ 0 → 8 ∣ e.2.toNat) ↔ ∀ e ∈ log, Unserved e.1) ∧
      ∀ n p h', kmalloc n s.heap = some (p, h') → p ≠ 0 →
        ∃ hs hs', Walk s.heap.mem s.heap.head (hs ++ (p - 12) :: hs') ∧
          (8 ∣ p.toNat ↔ (hs.countP fun x => decide ((s.heap.mem.word x).toNat % 8 = 0)) % 2 = 1) := by
  refine ⟨⟨h.unserved_of_aligned, fun hall e he hne => ?_⟩, fun n p h' hrun hp => ?_⟩
  · exact absurd ((h.of_unserved hall).2 e he) hne
  · obtain ⟨bs, hinv⟩ := inv_reached h.reached
    exact hinv.kmalloc_aligned_iff hrun hp

-- A request of 100 bytes on a fresh heap.
theorem kmalloc_hundred : ∃ h, kmalloc 100 (kheapInit fun _ => 0) = some (0x40000C, h) := by
  obtain ⟨p, h, hrun, -⟩ := (inv_init fun _ => 0).kmalloc_returns 100
  rcases kmalloc_of_live_nil .init rfl hrun with ⟨-, hn⟩ | ⟨rfl, -⟩
  · exact absurd hn (by unfold Unserved; decide)
  · exact ⟨h, hrun⟩

theorem payloads_aligned_iff_first : ∃ s, Logged (fun _ => 0) s [(100, 0x40000C)] ∧ ¬ Unserved 100 := by
  obtain ⟨h, hrun⟩ := kmalloc_hundred
  have hlog := Logged.init.kmalloc 100 hrun
  refine ⟨_, hlog, fun hn => ?_⟩
  have hall := (payloads_aligned_iff hlog).1.mpr (List.forall_mem_singleton.mpr hn)
  exact absurd (hall _ List.mem_cons_self (by decide)) (by decide)

theorem first_payload_misaligned :
    ¬ ∀ s log, Logged (fun _ => 0) s log → ∀ e ∈ log, e.2 ≠ 0 → 8 ∣ e.2.toNat := by
  intro hall
  obtain ⟨h, hrun⟩ := kmalloc_hundred
  have haligned := hall _ _ (Logged.init.kmalloc 100 hrun) (100, 0x40000C) List.mem_cons_self (by decide)
  exact absurd haligned (by decide)

end JacobOS.Kheap
