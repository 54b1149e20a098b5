import JacobOS.Kernel.GreenTurns
import JacobOS.Numerals

/-!
# The command `gt`

Up to four fibers share a counter and the screen.  Each of them adds one, prints a dot and calls `gt_yield`, five
times.
-/

namespace JacobOS.Green

open CString Numerals TurnQueue

/-- `gt_body` writes to no block of the heap. -/
def gtBody : Code := ⟨fun _ _ h => h, fun _ _ _ => .refl⟩

/-- `gt_counter`, and the dots. -/
structure Shared where
  counter : Int32
  dots : List UInt8

/-- A turn of `gt_body` with `left` calls of `gt_yield` left: one more pass of its loop, or its end. -/
def Shared.turn (left : Nat) (s : Shared) : Shared :=
  if left = 0 then s else ⟨s.counter + 1, s.dots ++ ascii "."⟩

/-- The loop of `gt_run` with what the fibers share. -/
def demoLoop (esp : UInt32) : Nat → Run → Shared → Option (Run × Shared)
  | 0, _, _ => none
  | n + 1, w, s => do
      let (next, g) ← pickNext w.fibers
      if next = 0 then return ({ w with fibers := g }, s)
      demoLoop esp n (w.turn gtBody esp next g) (s.turn (w.left next))

def cmdGt (trampoline body esp : UInt32) (fuel : Nat) (h : Kheap.State) (g : Fibers) :
    Option (List UInt8 × Kheap.State × Fibers) := do
  let (rs, h, g) ← spawnAll trampoline (List.replicate 4 body) h (gtInit g)
  let (w, s) ← demoLoop esp fuel ⟨h, g, fun _ => 5, []⟩ ⟨0, []⟩
  let (h, g) ← freeAll w.heap w.fibers
  return (ascii "running " ++ itoa (Int32.ofNat (rs.count 0)) ++ ascii " green threads: " ++ s.dots ++
    ascii "\ngt done, counter = " ++ itoa s.counter ++ ascii "\n", h, g)

/-- The calls of `gt_yield` that are left to the fibers in the queue. -/
def yields (q : List (UInt32 × Nat)) : Nat := (q.map Prod.snd).sum

/-- `k` passes of the loop in `gt_body`. -/
def Shared.after (k : Nat) (s : Shared) : Shared := ⟨s.counter + Int32.ofNat k, s.dots ++ List.replicate k 0x2E⟩

theorem Shared.after_zero (s : Shared) : s.after 0 = s := by
  unfold after
  rw [List.replicate_zero, List.append_nil]
  show (⟨s.counter + 0, s.dots⟩ : Shared) = s
  rw [Int32.add_zero]

theorem Shared.after_turn (s : Shared) (n k : Nat) : (s.turn (n + 1)).after k = s.after (k + 1) := by
  unfold after turn
  rw [if_neg (Nat.succ_ne_zero n), Nat.add_comm k 1, Int32.ofNat_add, List.replicate_add, List.append_assoc, Int32.add_assoc]
  rfl

section Loop

variable {w : Run} {ts : List UInt32} {q : List (UInt32 × Nat)}

-- The queue tells how many calls each fiber has left.
theorem Paused.left_eq {t : UInt32} {n : Nat} (h : Paused ts w.left w.fibers q) (hmem : (t, n) ∈ q) : w.left t = n := by
  obtain ⟨l, -, -, rfl⟩ := h.queue
  obtain ⟨u, -, heq⟩ := List.mem_map.mp hmem
  obtain ⟨rfl, rfl⟩ := Prod.mk.inj heq
  rfl

theorem yields_requeue_succ (t : UInt32) (n : Nat) (q : List (UInt32 × Nat)) :
    yields ((t, n + 1) :: q) = yields (requeue t q (n + 1)) + 1 := by
  show yields ((t, n + 1) :: q) = yields (q ++ [(t, n)]) + 1
  unfold yields
  rw [List.map_append, List.sum_append, List.map_cons, List.sum_cons, List.map_singleton, List.sum_singleton]
  omega

/-- The loop ends when every fiber has called `gt_yield` as often as it will, and each of the calls has left its mark
on what they share. -/
theorem demoLoop_spec (esp : UInt32) (h : Paused ts w.left w.fibers q) {n : Nat} (hn : work q < n) (s : Shared) :
    ∃ w', demoLoop esp n w s = some (w', s.after (yields q)) ∧ Paused ts w'.left w'.fibers [] ∧ w'.heap = w.heap ∧
      w'.fibers.stackBase = w.fibers.stackBase := by
  induction n generalizing w q s with
  | zero => exact absurd hn (Nat.not_lt_zero _)
  | succ n ih =>
    cases q with
    | nil =>
      obtain ⟨l, horder, -, hq⟩ := h.queue
      have hnone : l.find? w.fibers.isReady = none := by
        rw [← List.head?_filter, List.map_eq_nil_iff.mp hq.symm]
        rfl
      refine ⟨w, ?_, h, rfl, rfl⟩
      have hsame : s.after (yields []) = s := s.after_zero
      simp [demoLoop, pickNext_eq horder, hnone, hsame]
    | cons p q =>
      obtain ⟨t, k⟩ := p
      obtain ⟨g, hpick, ht0, hbase, -, hpaused⟩ := h.turn gtBody esp
      have hleft := h.left_eq List.mem_cons_self
      have hmoved := w.turn_fibers gtBody esp t g
      have hwork : work (requeue t q k) < n := by
        rw [work_cons] at hn
        cases k with
        | zero =>
          show work q < n
          omega
        | succ k =>
          show work (q ++ [(t, k)]) < n
          rw [work_rotate]
          omega
      have hshared : (s.turn k).after (yields (requeue t q k)) = s.after (yields ((t, k) :: q)) := by
        cases k with
        | zero =>
          show s.after (yields q) = s.after (0 + yields q)
          rw [Nat.zero_add]
        | succ k => rw [yields_requeue_succ, s.after_turn]
      obtain ⟨w', hrun, hend, hheap, hbase'⟩ := ih hpaused hwork (s.turn k)
      refine ⟨w', ?_, hend, ?_, ?_⟩
      · rw [demoLoop, hpick, Option.bind_eq_bind, Option.bind_some]
        dsimp only
        rw [if_neg ht0, hleft, hrun, hshared]
      · rw [hheap, Run.turn_heap]
        rfl
      · rw [hbase', hmoved.stackBase, hbase]

end Loop

section Command

variable {m : Mem} {h : Kheap.State}

theorem spawnAll_length {trampoline : UInt32} {fns : List UInt32} {h h' : Kheap.State} {g g' : Fibers} {rs : List Int}
    (hrun : spawnAll trampoline fns h g = some (rs, h', g')) : rs.length = fns.length := by
  induction fns generalizing h g rs h' g' with
  | nil =>
    obtain ⟨rfl, -⟩ := Prod.mk.inj (Option.some.inj hrun)
    rfl
  | cons fn fns ih =>
    simp only [spawnAll, Option.bind_eq_bind, Option.bind_eq_some_iff, Prod.exists] at hrun
    obtain ⟨r, h1, g1, -, rs', h2, g2, hrest, hret⟩ := hrun
    obtain ⟨rfl, -⟩ := Prod.mk.inj (Option.some.inj hret)
    rw [List.length_cons, ih hrest, List.length_cons]

-- Every fiber has all of its calls left.
theorem yields_start {ts : List UInt32} {n : Nat} {g : Fibers} {q : List (UInt32 × Nat)}
    (h : Paused ts (fun _ => n) g q) (hnames : (q.map Prod.fst).Perm ts) :
    yields q = n * ts.length ∧ work q = (n + 1) * ts.length := by
  have hlen : q.length = ts.length := by
    rw [← hnames.length_eq, List.length_map]
  have hall : ∀ p ∈ q, p.2 = n := by
    obtain ⟨l, -, -, rfl⟩ := h.queue
    intro p hp
    obtain ⟨t, -, rfl⟩ := List.mem_map.mp hp
    rfl
  rw [← hlen]
  clear hlen hnames h
  induction q with
  | nil => exact ⟨rfl, rfl⟩
  | cons p q ih =>
    obtain ⟨t, k⟩ := p
    obtain rfl : k = n := hall _ List.mem_cons_self
    obtain ⟨hy, hw⟩ := ih fun p hp => hall p (List.mem_cons_of_mem _ hp)
    rw [work_cons, hw, List.length_cons, Nat.mul_succ, Nat.mul_succ, ← hy]
    exact ⟨Nat.add_comm .., Nat.add_comm ..⟩

/-- Whatever the heap looks like, `gt` runs as many fibers as there is room for, up to four; when it is done the
counter is five times their number, with a dot for each step, and the blocks of the heap are what they were. -/
theorem gt_counts (hh : Kheap.Reached m h) (g : Fibers) (trampoline body esp : UInt32) {fuel : Nat}
    (hfuel : 24 < fuel) :
    ∃ n h' g', n ≤ 4 ∧ cmdGt trampoline body esp fuel h g =
        some (ascii "running " ++ numeral 10 n ++ ascii " green threads: " ++ List.replicate (5 * n) 0x2E ++
          ascii "\ngt done, counter = " ++ numeral 10 (5 * n) ++ ascii "\n", h', g') ∧
      Kheap.Reached m h' ∧ Kheap.SameBlocks h.heap h'.heap ∧ RingOf g' [] := by
  have hinit : Held m h h (gtInit g) [] := .init hh rfl
  obtain ⟨rs, h1, g1, ts, hspawn, hlen, hheld, hready⟩ :=
    spawnAll_spec trampoline (List.replicate 4 body) hinit fun p hp => absurd hp List.not_mem_nil
  have hfour : rs.count 0 ≤ 4 := by
    have hle := List.count_le_length (a := 0) (l := rs)
    rwa [spawnAll_length hspawn, List.length_replicate] at hle
  rw [List.length_nil, Nat.zero_add] at hlen
  obtain ⟨q, hpaused, -, hnames, -⟩ := hheld.paused hready fun _ => 5
  obtain ⟨hyields, hwork⟩ := yields_start hpaused hnames
  obtain ⟨w, hloop, ⟨⟨l, horder, hperm, -⟩, -, -⟩, hheap, hbase⟩ :=
    demoLoop_spec (w := ⟨h1, g1, fun _ => 5, []⟩) esp hpaused (n := fuel) (by omega) ⟨0, []⟩
  have hring := horder.ringOf hperm
  have hheld' : Held m h w.heap w.fibers ts := hheap ▸ hheld.stores .refl hring hbase
  obtain ⟨h2, g2, hfree, hh2, hempty, hmem⟩ := freeAll_spec hheld'.reached hring hheld'.owned
  refine ⟨rs.count 0, h2, g2, hfour, ?_, hh2, Kheap.sameBlocks_of_live hh hh2 (hheld'.live_perm hh hh2 hmem), ?_⟩
  · have hnum : ∀ k, k ≤ 20 → itoa (Int32.ofNat k) = numeral 10 k := fun k hk => itoa_ofNat (by omega)
    have hcounter : (0 : Int32) + Int32.ofNat (5 * rs.count 0) = Int32.ofNat (5 * rs.count 0) := Int32.zero_add _
    rw [hlen] at hyields
    unfold cmdGt
    rw [hspawn, Option.bind_eq_bind, Option.bind_some]
    dsimp only
    rw [hloop, hyields, Option.bind_eq_bind, Option.bind_some]
    dsimp only [Shared.after]
    rw [hfree, Option.bind_eq_bind, Option.bind_some, hcounter, hnum _ (by omega), hnum _ (by omega)]
    rfl
  · exact hempty

-- A fresh heap has room for all four.
theorem gt_counts_four : ∃ h g,
    cmdGt 0x3000 0x4000 0x5000 25 ⟨Kheap.kheapInit fun _ => 0, []⟩ ⟨fun _ => ⟨0, .dead, 0, 0⟩, 0, 0, 0⟩ =
        some (ascii "running " ++ numeral 10 4 ++ ascii " green threads: " ++ List.replicate (5 * 4) 0x2E ++
          ascii "\ngt done, counter = " ++ numeral 10 (5 * 4) ++ ascii "\n", h, g) ∧
      Kheap.SameBlocks (Kheap.kheapInit fun _ => 0) h.heap := by
  obtain ⟨n, h, g, hn, hrun, -, hsame, -⟩ := gt_counts (Kheap.Reached.init (m := fun _ => 0))
    ⟨fun _ => ⟨0, .dead, 0, 0⟩, 0, 0, 0⟩ 0x3000 0x4000 0x5000 (Nat.lt_add_one 24)
  obtain ⟨h1, g1, hspawn⟩ := spawnAll_kheapInit (m := fun _ => 0) 0x3000 (List.replicate 4 0x4000) (by decide)
    (gtInit ⟨fun _ => ⟨0, .dead, 0, 0⟩, 0, 0, 0⟩)
  -- the number is the ninth character of the text
  have hfour : n = 4 := by
    have hrun' := hrun
    unfold cmdGt at hrun'
    rw [hspawn, Option.bind_eq_bind, Option.bind_some] at hrun'
    obtain ⟨r, -, hrest⟩ := Option.bind_eq_some_iff.mp hrun'
    obtain ⟨r', -, hlast⟩ := Option.bind_eq_some_iff.mp hrest
    have hchar := congrArg (fun r => (r.1 : List UInt8)[8]?) (Option.some.inj hlast)
    obtain rfl | rfl | rfl | rfl | hlt : n = 0 ∨ n = 1 ∨ n = 2 ∨ n = 3 ∨ n = 4 := by omega
    · exact absurd (show some (0x34 : UInt8) = some 0x30 from hchar) (by decide)
    · exact absurd (show some (0x34 : UInt8) = some 0x31 from hchar) (by decide)
    · exact absurd (show some (0x34 : UInt8) = some 0x32 from hchar) (by decide)
    · exact absurd (show some (0x34 : UInt8) = some 0x33 from hchar) (by decide)
    · exact hlt
  subst hfour
  exact ⟨h, g, hrun, hsame⟩

end Command

end JacobOS.Green
