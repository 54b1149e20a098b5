import JacobOS.Lib.InterruptController

/-!
# The interrupt controllers: `pic_remap` and `irq_handler` of `cpu/isr.c`

`irq_handler` tells the controllers that the interrupt is over before it calls the handler, and to both of them if it
came from the second.  It does not ask whether there was an interrupt at all: a controller whose request has gone away
gives the vector of its last line, and `irq_handler` ends an interrupt that is not in service.

A run interleaves requests of the devices with the bytes that the kernel sends.  From the acknowledgement of an
interrupt to the last of these bytes the processor takes no other.
-/

namespace JacobOS.Pic

open InterruptController

/-- The bytes that `pic_remap` sends, each with its port. -/
def picRemap : List (UInt16 × UInt8) :=
  [(0x20, 0x11), (0xA0, 0x11), -- start init
    (0x21, 0x20), (0xA1, 0x28), -- vector offsets
    (0x21, 0x04), (0xA1, 0x02), -- the slave is at IRQ2
    (0x21, 0x01), (0xA1, 0x01), -- 8086 mode
    (0x21, 0x00), (0xA1, 0x00)] -- unmask all

/-- The bytes that `irq_handler` sends before it calls the handler. -/
def irqWrites (intNo : UInt8) : List (UInt16 × UInt8) :=
  if intNo ≥ 40 then [(0xA0, 0x20), (0x20, 0x20)] else [(0x20, 0x20)]

/-- The controllers, and the bytes that the kernel has still to send. -/
structure Sys where
  pics : Pair
  todo : List (UInt16 × UInt8)

inductive Step : Sys → Sys → Prop where
  /-- A device, or the wire between the controllers, raises or lowers its line. -/
  | line {s : Sys} (l : Fin 16) (on : Bool) : Step s { s with pics := s.pics.setRequest l on }
  | out {s : Sys} {port : UInt16} {v : UInt8} {rest : List (UInt16 × UInt8)} (h : s.todo = (port, v) :: rest) :
      Step s ⟨s.pics.out port v, rest⟩
  /-- The processor takes an interrupt. -/
  | interrupt {s : Sys} (h : s.todo = []) : Step s ⟨s.pics.acknowledge.2, irqWrites s.pics.acknowledge.1⟩

/-- The states of the runs that start with `pic_remap` on controllers in any state. -/
inductive Reached (p₀ : Pair) : Sys → Prop where
  | init : Reached p₀ ⟨p₀.cascade, picRemap⟩
  | step {s t : Sys} (h : Reached p₀ s) (hstep : Step s t) : Reached p₀ t

/-! ## What the lines do not touch -/

theorem setRequest_regs (p : Pair) (l : Fin 16) (on : Bool) :
    (p.setRequest l on).master.regs = p.master.regs ∧ (p.setRequest l on).slave.regs = p.slave.regs := by
  unfold Pair.setRequest
  obtain ⟨hm, hs⟩ := cascade_regs (if l.val < 8 then { p with master := p.master.setRequest (Fin.ofNat 8 l.val) on }
    else { p with slave := p.slave.setRequest (Fin.ofNat 8 l.val) on })
  rw [hm, hs]
  split
  · exact ⟨rfl, rfl⟩
  · exact ⟨rfl, rfl⟩

/-- The registers after a byte. -/
def outRegs (port : UInt16) (v : UInt8) (r : Regs × Regs) : Regs × Regs :=
  if port = 0x20 then (r.1.command v, r.2)
  else if port = 0x21 then (r.1.data v, r.2)
  else if port = 0xA0 then (r.1, r.2.command v)
  else if port = 0xA1 then (r.1, r.2.data v)
  else r

def pairRegs (p : Pair) : Regs × Regs := (p.master.regs, p.slave.regs)

theorem pairRegs_out (p : Pair) (port : UInt16) (v : UInt8) :
    pairRegs (p.out port v) = outRegs port v (pairRegs p) := by
  have hcascade : ∀ q : Pair, pairRegs q.cascade = pairRegs q := by
    intro q
    obtain ⟨hm, hs⟩ := cascade_regs q
    rw [pairRegs, hm, hs]
    rfl
  unfold Pair.out outRegs
  rw [hcascade]
  split
  · rfl
  split
  · rfl
  split
  · rfl
  split
  · rfl
  · rfl

/-- Both controllers are initialised: the first gives vectors from 32 on and the second from 40 on, nothing is
masked, and the end of an interrupt has to be told. -/
structure Ready (r : Regs) (base : UInt8) : Prop where
  base : r.base = base
  mask : Clear r.mask
  next : r.next = 0
  told : r.autoEnd = false

-- The ten bytes, whatever was in the registers.
theorem ready_picRemap (r : Regs × Regs) :
    Ready (picRemap.foldl (fun r w => outRegs w.1 w.2 r) r).1 0x20 ∧
      Ready (picRemap.foldl (fun r w => outRegs w.1 w.2 r) r).2 0x28 ∧
      Clear (picRemap.foldl (fun r w => outRegs w.1 w.2 r) r).1.inService ∧
      Clear (picRemap.foldl (fun r w => outRegs w.1 w.2 r) r).2.inService := by
  have hopen : Clear (testBit 0x00) := fun i => Nat.zero_testBit i
  have hend : picRemap.foldl (fun r w => outRegs w.1 w.2 r) r =
      (⟨0x20, testBit 0x00, fun _ => false, 0, true, false⟩, ⟨0x28, testBit 0x00, fun _ => false, 0, true, false⟩) := rfl
  rw [hend]
  exact ⟨⟨rfl, hopen, rfl, rfl⟩, ⟨rfl, hopen, rfl, rfl⟩, fun _ => rfl, fun _ => rfl⟩

/-! ## The invariant -/

/-- What is in service while the kernel has `todo` to send. -/
inductive Phase : Regs × Regs → List (UInt16 × UInt8) → Prop where
  | idle {r : Regs × Regs} (hm : Clear r.1.inService) (hs : Clear r.2.inService) : Phase r []
  | master {r : Regs × Regs} (hm : AtMostOne r.1.inService) (hs : Clear r.2.inService) : Phase r [(0x20, 0x20)]
  | both {r : Regs × Regs} (hm : AtMostOne r.1.inService) (hs : AtMostOne r.2.inService) :
      Phase r [(0xA0, 0x20), (0x20, 0x20)]

structure Serving (r : Regs × Regs) (todo : List (UInt16 × UInt8)) : Prop where
  master : Ready r.1 0x20
  slave : Ready r.2 0x28
  phase : Phase r todo

theorem Ready.endFirst {r : Regs} {base : UInt8} (h : Ready r base) : Ready r.endFirst base := by
  unfold Regs.endFirst
  cases first r.inService with
  | none => exact h
  | some i => exact ⟨h.base, h.mask, h.next, h.told⟩

theorem serving_out {r : Regs × Regs} {port : UInt16} {v : UInt8} {rest : List (UInt16 × UInt8)}
    (h : Serving r ((port, v) :: rest)) : Serving (outRegs port v r) rest := by
  obtain ⟨hm, hs, hphase⟩ := h
  cases hphase with
  | master hone hclear =>
    have hout : outRegs 0x20 0x20 r = (r.1.endFirst, r.2) := rfl
    rw [hout]
    exact ⟨hm.endFirst, hs, .idle (endFirst_clear hone) hclear⟩
  | both hone hone' =>
    have hout : outRegs 0xA0 0x20 r = (r.1, r.2.endFirst) := rfl
    rw [hout]
    exact ⟨hm, hs.endFirst, .master hone (endFirst_clear hone')⟩

-- Which of the two is told follows from the vector.
theorem irqWrites_master {i : Fin 8} : irqWrites (0x20 + UInt8.ofNat i.val) = [(0x20, 0x20)] := by
  revert i
  decide

theorem irqWrites_slave {i : Fin 8} : irqWrites (0x28 + UInt8.ofNat i.val) = [(0xA0, 0x20), (0x20, 0x20)] := by
  revert i
  decide

-- The registers of a chip that is acknowledged.
theorem acknowledge_regs {c : Chip} {base : UInt8} (hready : Ready c.regs base) (hclear : Clear c.regs.inService) :
    Ready c.acknowledge.2.regs base ∧ AtMostOne c.acknowledge.2.regs.inService := by
  unfold Chip.acknowledge
  cases c.asks with
  | none => exact ⟨hready, hclear.atMostOne⟩
  | some i =>
    dsimp only
    rw [if_neg (by simp [hready.told])]
    exact ⟨⟨hready.base, hready.mask, hready.next, hready.told⟩, .set hclear i⟩

theorem pairRegs_cascade (p : Pair) : pairRegs p.cascade = pairRegs p := by
  obtain ⟨hm, hs⟩ := cascade_regs p
  rw [pairRegs, hm, hs]
  rfl

theorem serving_interrupt {p : Pair} (h : Serving (pairRegs p) []) :
    Serving (pairRegs p.acknowledge.2) (irqWrites p.acknowledge.1) := by
  obtain ⟨hm, hs, hphase⟩ := h
  cases hphase with
  | idle hclear hclear' =>
    obtain ⟨hm', hone⟩ := acknowledge_regs hm hclear
    obtain ⟨hs', hone'⟩ := acknowledge_regs hs hclear'
    have hbase : p.master.regs.base = 0x20 := hm.base
    have hbase' : p.slave.regs.base = 0x28 := hs.base
    unfold Pair.acknowledge
    cases p.master.asks with
    | none =>
      dsimp only
      rw [pairRegs_cascade, hbase, show irqWrites (0x20 + 7) = [(0x20, 0x20)] by decide]
      exact ⟨hm, hs, .master hclear.atMostOne hclear'⟩
    | some i =>
      dsimp only
      by_cases hi : i = 2
      · rw [if_pos hi]
        dsimp only
        rw [pairRegs_cascade, hbase', irqWrites_slave]
        exact ⟨hm', hs', .both hone hone'⟩
      · rw [if_neg hi]
        dsimp only
        rw [pairRegs_cascade, hbase, irqWrites_master]
        exact ⟨hm', hs, .master hone hclear'⟩

/-- The kernel is still in `pic_remap`, or serves interrupts. -/
def Inv (p₀ : Pair) (s : Sys) : Prop :=
  (∃ done, done ++ s.todo = picRemap ∧ s.todo ≠ [] ∧
    pairRegs s.pics = done.foldl (fun r w => outRegs w.1 w.2 r) (pairRegs p₀)) ∨ Serving (pairRegs s.pics) s.todo

theorem inv_step {p₀ : Pair} {s t : Sys} (h : Inv p₀ s) (hstep : Step s t) : Inv p₀ t := by
  cases hstep with
  | line l on =>
    obtain ⟨hm, hs⟩ := setRequest_regs s.pics l on
    have hregs : pairRegs (s.pics.setRequest l on) = pairRegs s.pics := by rw [pairRegs, hm, hs]; rfl
    unfold Inv
    rw [hregs]
    exact h
  | @out port v rest htodo =>
    unfold Inv
    rw [pairRegs_out]
    rcases h with ⟨done, hdone, -, hregs⟩ | hserving
    · rw [htodo] at hdone
      have hmore : (done ++ [(port, v)]).foldl (fun r w => outRegs w.1 w.2 r) (pairRegs p₀) =
          outRegs port v (pairRegs s.pics) := by rw [List.foldl_append, ← hregs]; rfl
      cases rest with
      | nil =>
        obtain ⟨hm, hs, hclear, hclear'⟩ := ready_picRemap (pairRegs p₀)
        rw [← hdone, hmore] at hm hs hclear hclear'
        exact Or.inr ⟨hm, hs, .idle hclear hclear'⟩
      | cons w rest =>
        refine Or.inl ⟨done ++ [(port, v)], ?_, by simp, hmore.symm⟩
        rw [← hdone, List.append_assoc]
        rfl
    · rw [htodo] at hserving
      exact Or.inr (serving_out hserving)
  | interrupt htodo =>
    rcases h with ⟨done, -, hne, -⟩ | hserving
    · exact absurd htodo hne
    · rw [htodo] at hserving
      exact Or.inr (serving_interrupt hserving)

theorem inv_reached {p₀ : Pair} {s : Sys} (h : Reached p₀ s) : Inv p₀ s := by
  induction h with
  | init => exact Or.inl ⟨[], rfl, List.cons_ne_nil _ _, pairRegs_cascade p₀⟩
  | step _ hstep ih => exact inv_step ih hstep

theorem cascaded_reached {p₀ : Pair} {s : Sys} (h : Reached p₀ s) : Cascaded s.pics := by
  cases h with
  | init => exact cascaded_cascade p₀
  | step _ hstep =>
    cases hstep with
    | line l on => exact cascaded_cascade _
    | out htodo => exact cascaded_cascade _
    | interrupt htodo =>
      show Cascaded (Pair.acknowledge _).2
      unfold Pair.acknowledge
      split
      · dsimp only
        split
        · exact cascaded_cascade _
        · exact cascaded_cascade _
      · exact cascaded_cascade _

/-! ## Interrupts -/

theorem vector_slave : ∀ i : Fin 8, (0x28 : UInt8) + UInt8.ofNat i.val = 32 + UInt8.ofNat (slaveLine i).val := by
  decide

/-- What the processor gets: vector `32 + l` for a line with a request, which is taken back, or for the last line of
one of the controllers, with all requests as they were. -/
inductive Taken (p : Pair) : UInt8 → Pair → Prop where
  | request {p' : Pair} (l : Fin 16) (hl : l ≠ 2) (hreq : requested p l = true) (hback : requested p' l = false) :
      Taken p (32 + UInt8.ofNat l.val) p'
  | spurious {p' : Pair} (l : Fin 16) (hlast : l = 7 ∨ l = 15) (hsame : ∀ k, k ≠ 2 → requested p' k = requested p k) :
      Taken p (32 + UInt8.ofNat l.val) p'

theorem taken_acknowledge {p : Pair} (hm : p.master.regs.base = 0x20) (hs : p.slave.regs.base = 0x28) :
    Taken p p.acknowledge.1 p.acknowledge.2 := by
  unfold Pair.acknowledge
  cases hasks : p.master.asks with
  | none =>
    dsimp only
    rw [hm]
    exact .spurious 7 (Or.inl rfl) fun k hk => requested_cascade p hk
  | some i =>
    dsimp only
    obtain ⟨hline, hback⟩ := acknowledge_some hasks
    by_cases hi : i = 2
    · rw [if_pos hi]
      dsimp only
      rw [hs]
      cases hslave : p.slave.asks with
      | none =>
        -- the request of the slave is gone
        rw [acknowledge_none hslave]
        refine .spurious 15 (Or.inr rfl) fun k hk => ?_
        rw [requested_cascade _ hk]
        by_cases hlt : k.val < 8
        · have hne : Fin.ofNat 8 k.val ≠ i := by
            rw [hi]
            intro heq
            have hval : k.val % 8 = 2 := congrArg Fin.val heq
            exact hk (Fin.ext (by show k.val = 2; omega))
          rw [requested, if_pos hlt, requested, if_pos hlt]
          unfold Chip.acknowledge
          rw [hasks]
          exact Function.update_of_ne hne ..
        · rw [requested, if_neg hlt, requested, if_neg hlt]
      | some j =>
        obtain ⟨hline', hback'⟩ := acknowledge_some hslave
        rw [hline', vector_slave]
        refine .request (slaveLine j) (slaveLine_ne j) ?_ ?_
        · rw [requested_slave]
          exact asks_some hslave
        · rw [requested_cascade _ (slaveLine_ne j), requested_slave]
          exact hback'
    · rw [if_neg hi]
      dsimp only
      rw [hm, hline]
      refine .request (masterLine i) (masterLine_ne hi) ?_ ?_
      · rw [requested_master]
        exact asks_some hasks
      · rw [requested_cascade _ (masterLine_ne hi), requested_master]
        exact hback

/-- Whenever the processor may take an interrupt, nothing is in service, so no request is held back, and what it gets
is a vector from 32 to 47: that of a request, or a spurious one.  Neither kind leaves anything in service behind. -/
theorem no_request_held_back {p₀ : Pair} {s : Sys} (h : Reached p₀ s) (hidle : s.todo = []) :
    Clear s.pics.master.regs.inService ∧ Clear s.pics.slave.regs.inService ∧
      (∀ l, l ≠ 2 → requested s.pics l = true → s.pics.master.asks.isSome = true) ∧
      Taken s.pics s.pics.acknowledge.1 s.pics.acknowledge.2 := by
  rcases inv_reached h with ⟨done, -, hne, -⟩ | ⟨hm, hs, hphase⟩
  · exact absurd hidle hne
  rw [hidle] at hphase
  cases hphase with
  | idle hclear hclear' =>
    have hasks : ∀ {c : Chip} {base : UInt8} {i : Fin 8}, Ready c.regs base → Clear c.regs.inService →
        c.requests i = true → c.asks.isSome = true := by
      intro c base i hready hc hreq
      rw [asks_of_clear hc, Option.isSome_iff_ne_none]
      intro hnone
      have hi := first_none.mp hnone i
      rw [hreq, hready.mask i] at hi
      cases hi
    refine ⟨hclear, hclear', ?_, taken_acknowledge hm.base hs.base⟩
    intro l hl hreq
    by_cases hlt : l.val < 8
    · rw [requested, if_pos hlt] at hreq
      exact hasks hm hclear hreq
    · rw [requested, if_neg hlt] at hreq
      exact hasks hm hclear (cascaded_reached h (hasks hs hclear' hreq))

/-- Controllers that nobody has programmed. -/
def unprogrammed : Pair :=
  ⟨⟨⟨0, fun _ => true, fun _ => true, 0, false, true⟩, fun _ => true⟩,
    ⟨⟨0, fun _ => true, fun _ => true, 0, false, true⟩, fun _ => true⟩⟩

/-- The run that sends all that is to be sent. -/
theorem reached_sent {p₀ p : Pair} {todo : List (UInt16 × UInt8)} (h : Reached p₀ ⟨p, todo⟩) :
    Reached p₀ ⟨todo.foldl (fun p w => p.out w.1 w.2) p, []⟩ := by
  induction todo generalizing p with
  | nil => exact h
  | cons w rest ih => exact ih (.step h (.out rfl))

/-- After `pic_remap` the keyboard and the disk, on the second controller, ask for an interrupt. -/
def pending : Pair :=
  ((picRemap.foldl (fun p w => p.out w.1 w.2) unprogrammed.cascade).setRequest ⟨1, by decide⟩ true).setRequest
    ⟨14, by decide⟩ true

theorem reached_pending : Reached unprogrammed ⟨pending, []⟩ := by
  have hinit : Reached unprogrammed _ := .init
  exact ((reached_sent hinit).step (.line 1 true)).step (.line 14 true)

-- The keyboard comes first, and when its interrupt has been ended the processor is asked for the disk.
theorem no_request_held_back_pending : ∃ q, Reached unprogrammed ⟨pending, []⟩ ∧
    pending.master.asks.isSome = true ∧ Taken pending 33 pending.acknowledge.2 ∧
    q = (irqWrites 33).foldl (fun p w => p.out w.1 w.2) pending.acknowledge.2 ∧ Reached unprogrammed ⟨q, []⟩ ∧
    Clear q.master.regs.inService ∧ Clear q.slave.regs.inService ∧ requested q 1 = false ∧
    q.master.asks.isSome = true ∧ Taken q 46 q.acknowledge.2 := by
  have hkeyboard : pending.acknowledge.1 = 33 := by decide +kernel
  obtain ⟨-, -, hasked, htaken⟩ := no_request_held_back reached_pending rfl
  have hask := hasked 1 (by decide) (by decide +kernel)
  have hq := reached_sent (reached_pending.step (.interrupt rfl))
  rw [hkeyboard] at htaken
  dsimp only at hq
  rw [hkeyboard] at hq
  obtain ⟨hm, hs, hasked', htaken'⟩ := no_request_held_back hq rfl
  have hdisk : ((irqWrites 33).foldl (fun p w => p.out w.1 w.2) pending.acknowledge.2).acknowledge.1 = 46 := by
    decide +kernel
  have hask' := hasked' 14 (by decide) (by decide +kernel)
  rw [hdisk] at htaken'
  exact ⟨_, reached_pending, hask, htaken, rfl, hq, hm, hs, by decide +kernel, hask', htaken'⟩

end JacobOS.Pic
