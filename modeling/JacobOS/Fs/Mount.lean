import JacobOS.Fs.FailedReads

/-!
# Mounting through a disk that fails

`sfs_init` reads block 0 through the cache and formats the disk if the magic is missing.  A failed
read leaves in the buffer what the first slot held, so the decision is made on leftover bytes.  What
`format` then does stays in the cache until a sync, which writes eleven blocks.
-/

namespace JacobOS.Fs

open BlockProgram

instance : Inhabited Block := ⟨Block.zero⟩

namespace Bcache

/-- The cache holds the blocks `l`, one in each slot from the first on, all dirty, and nothing else. -/
structure Staged (a : Ata) (l : List (Nat × Block)) (c : Bcache) : Prop where
  nodup : (l.map Prod.fst).Nodup
  hand : c.hand.val = l.length
  taken : ∀ (i : Fin 32) e, l[i.val]? = some e → c.slots i = ⟨e.1, true, true, e.2⟩
  rest : ∀ i : Fin 32, l[i.val]? = none → (c.slots i).valid = false
  ata : c.ata = a

namespace Staged

variable {a : Ata} {l : List (Nat × Block)} {c : Bcache}

theorem find_old (h : c.Staged a l) {blk : Nat} {b : Block} (hmem : (blk, b) ∈ l) :
    ∃ i : Fin 32, c.find blk = some i ∧ l[i.val]? = some (blk, b) := by
  obtain ⟨k, hk, hget⟩ := List.mem_iff_getElem.mp hmem
  have hsome : l[k]? = some (blk, b) := by rw [List.getElem?_eq_getElem hk, hget]
  have hk32 : k < 32 := by
    have hlt := c.hand.isLt
    rw [h.hand] at hlt
    omega
  cases hf : c.find blk with
  | none =>
    have hslot := h.taken ⟨k, hk32⟩ _ hsome
    exact absurd (by rw [hslot]) (find_none hf ⟨k, hk32⟩ (by rw [hslot]))
  | some i =>
    obtain ⟨hv, hb⟩ := find_some hf
    refine ⟨i, rfl, ?_⟩
    cases hi : l[i.val]? with
    | none => exact absurd hv (by simp [h.rest i hi])
    | some e =>
      rw [h.taken i e hi] at hb
      have hin := List.mem_of_getElem? hi
      have heq : e = (blk, b) := List.inj_on_of_nodup_map h.nodup hin hmem hb
      rw [heq]

theorem find_new (h : c.Staged a l) {blk : Nat} (hnew : blk ∉ l.map Prod.fst) : c.find blk = none := by
  cases hf : c.find blk with
  | none => rfl
  | some i =>
    obtain ⟨hv, hb⟩ := find_some hf
    cases hi : l[i.val]? with
    | none => exact absurd hv (by simp [h.rest i hi])
    | some e =>
      rw [h.taken i e hi] at hb
      exact absurd (List.mem_map.mpr ⟨e, List.mem_of_getElem? hi, hb⟩) hnew

theorem read (h : c.Staged a l) {blk : Nat} {b : Block} (hmem : (blk, b) ∈ l) :
    (c.read blk).1 = b ∧ (c.read blk).2.Staged a l := by
  obtain ⟨i, hf, hi⟩ := h.find_old hmem
  rw [read_hit hf]
  exact ⟨by rw [h.taken i _ hi], h.nodup, h.hand, h.taken, h.rest, h.ata⟩

theorem write_old (h : c.Staged a l) {blk : Nat} {b : Block} (hmem : (blk, b) ∈ l) (buf : Block) :
    (c.write blk buf).Staged a (put blk buf l) := by
  obtain ⟨i, hf, hi⟩ := h.find_old hmem
  have hkeys := map_fst_put_old buf (List.mem_map.mpr ⟨_, hmem, rfl⟩)
  have hlen : (put blk buf l).length = l.length := by
    rw [← List.length_map (f := Prod.fst), hkeys, List.length_map]
  have hget := getElem?_put_old h.nodup buf hi
  rw [write_hit hf]
  refine ⟨nodup_put buf h.nodup, by rw [hlen]; exact h.hand, ?_, ?_, h.ata⟩
  · intro j e hj
    rw [hget] at hj
    unfold setSlot
    dsimp only
    by_cases hji : j = i
    · rw [if_pos (congrArg Fin.val hji)] at hj
      rw [hji, Function.update_self, h.taken i _ hi, ← Option.some.inj hj]
    · rw [if_neg (fun he => hji (Fin.ext he))] at hj
      rw [Function.update_of_ne hji, h.taken j e hj]
  · intro j hj
    rw [hget] at hj
    unfold setSlot
    dsimp only
    by_cases hji : j = i
    · rw [if_pos (congrArg Fin.val hji)] at hj
      exact absurd hj (by simp)
    · rw [if_neg (fun he => hji (Fin.ext he))] at hj
      rw [Function.update_of_ne hji]
      exact h.rest j hj

theorem write_new (h : c.Staged a l) {blk : Nat} (hnew : blk ∉ l.map Prod.fst)
    (hroom : l.length + 1 < 32) (buf : Block) : (c.write blk buf).Staged a (put blk buf l) := by
  have hf := h.find_new hnew
  have hidle : l[c.hand.val]? = none := by
    rw [h.hand]
    exact List.getElem?_eq_none (Nat.le_refl _)
  have hpending : (c.slots c.hand).pending = [] := by
    unfold Slot.pending
    rw [h.rest c.hand hidle]
    rfl
  rw [write_miss hf, hpending, Ata.writeAll_nil]
  refine ⟨nodup_put buf h.nodup, ?_, ?_, ?_, h.ata⟩
  · rw [put_new buf hnew, List.length_append, List.length_singleton, Fin.val_add, h.hand]
    exact Nat.mod_eq_of_lt hroom
  · intro j e hj
    rw [put_new buf hnew] at hj
    dsimp only
    by_cases hjh : j = c.hand
    · rw [hjh, h.hand, List.getElem?_concat_length] at hj
      rw [hjh, Function.update_self, ← Option.some.inj hj]
    · have hlt : j.val < l.length := by
        have hlt := (List.getElem?_eq_some_iff.mp hj).1
        have hne : j.val ≠ l.length := fun he => hjh (Fin.ext (he.trans h.hand.symm))
        rw [List.length_append, List.length_singleton] at hlt
        omega
      rw [List.getElem?_append_left hlt] at hj
      rw [Function.update_of_ne hjh, h.taken j e hj]
  · intro j hj
    rw [put_new buf hnew, List.getElem?_eq_none_iff, List.length_append, List.length_singleton] at hj
    dsimp only
    have hjh : j ≠ c.hand := by
      rintro rfl
      rw [h.hand] at hj
      omega
    rw [Function.update_of_ne hjh]
    exact h.rest j (List.getElem?_eq_none (by omega))

-- A sync writes the staged blocks in order.
theorem pending_eq (h : c.Staged a l) :
    ((List.finRange 32).flatMap fun i => (c.slots i).pending) = l := by
  have hslot : ∀ i : Fin 32, (c.slots i).pending = l[i.val]?.toList := by
    intro i
    unfold Slot.pending
    cases hi : l[i.val]? with
    | none =>
      rw [h.rest i hi]
      rfl
    | some e =>
      rw [h.taken i e hi]
      rfl
  have hlen : l.length ≤ 32 := by
    have hlt := c.hand.isLt
    rw [h.hand] at hlt
    omega
  -- the first `n` entries of a list that has no more are the list
  have htake : ∀ n (l : List (Nat × Block)), l.length ≤ n →
      ((List.range n).flatMap fun k => l[k]?.toList) = l := by
    intro n
    induction n with
    | zero =>
      intro l hl
      rw [List.length_eq_zero_iff.mp (Nat.le_zero.mp hl)]
      rfl
    | succ n ih =>
      intro l hl
      rw [List.range_succ_eq_map, List.flatMap_cons, List.flatMap_map]
      cases l with
      | nil => exact ih [] (Nat.zero_le n)
      | cons e l => exact congrArg (e :: ·) (ih l (by simpa using hl))
  rw [← htake 32 l hlen, ← List.map_coe_finRange_eq_range, List.flatMap_map]
  simp only [hslot]

end Staged

/-- The staged blocks leave a slot free. -/
def Fits (s : Option (List (Nat × Block))) : Prop := ∃ l, s = some l ∧ l.length < 32

-- As long as a program reads only what it has written, it runs in the cache and not on the disk.
theorem simulates_staged (a : Ata) :
    SimulatesWhile device known Fits fun c s => ∃ l, s = some l ∧ c.Staged a l := by
  have hne : ∀ {s}, Fits s → s ≠ none := by
    rintro s ⟨l, rfl, -⟩
    exact Option.some_ne_none l
  refine ⟨?_, ?_, ?_, ?_, ?_, ?_⟩
  · rintro c s i ⟨l, rfl, h⟩ hok
    obtain ⟨l', b, he, hmem, hread⟩ := known_read (hne hok)
    obtain rfl := Option.some.inj he
    obtain ⟨hans, hstay⟩ := h.read hmem
    rw [hread]
    exact ⟨hans, l, rfl, hstay⟩
  · rintro c s i b ⟨l, rfl, h⟩ ⟨l', he, hlt⟩
    refine ⟨put i b l, rfl, ?_⟩
    by_cases hi : i ∈ l.map Prod.fst
    · obtain ⟨⟨i, v⟩, hmem, rfl⟩ := List.mem_map.mp hi
      exact h.write_old hmem b
    · obtain rfl : put i b l = l' := Option.some.inj he
      rw [put_new b hi, List.length_append, List.length_singleton] at hlt
      exact h.write_new hi hlt b
  · rintro c s - hok
    exact absurd rfl (hne hok)
  · intro s i hok
    obtain ⟨l, b, rfl, -, hread⟩ := known_read (hne hok)
    rwa [hread] at hok
  · rintro s i b ⟨l, he, hlt⟩
    obtain ⟨l', rfl, rfl⟩ := Option.map_eq_some_iff.mp he
    refine ⟨l', rfl, ?_⟩
    by_cases hi : i ∈ l'.map Prod.fst
    · rw [← List.length_map (f := Prod.fst), map_fst_put_old b hi, List.length_map] at hlt
      exact hlt
    · rw [put_new b hi, List.length_append] at hlt
      omega
  · intro s hok
    exact absurd rfl (hne hok)

/-! ## Syncs -/

/-- No slot is due a write-back. -/
def Idle (c : Bcache) : Prop := ∀ i, (c.slots i).pending = []

theorem sync_idle (c : Bcache) : c.sync.Idle := by
  intro i
  rw [sync_eq]
  unfold Slot.pending
  rw [if_neg]
  simpa using cleaned_not_dirty (c.slots i)

theorem Idle.syncs {c : Bcache} (h : c.Idle) (n : Nat) : (sync^[n] c).ata.disk = c.ata.disk := by
  induction n generalizing c with
  | zero => rfl
  | succ n ih =>
    have hnone : ((List.finRange 32).flatMap fun i => (c.slots i).pending) = [] := by
      rw [List.flatMap_eq_nil_iff]
      exact fun i _ => h i
    rw [Function.iterate_succ_apply, ih c.sync_idle, sync_eq, hnone]
    rfl

-- After the first sync the others have nothing to write.
theorem syncs_keep_iff (c : Bcache) (d : Nat → Block) :
    (∀ n, (sync^[n] c).ata.disk = d) ↔ c.ata.disk = d ∧ c.sync.ata.disk = d := by
  constructor
  · exact fun h => ⟨h 0, h 1⟩
  · rintro ⟨h0, h1⟩ n
    cases n with
    | zero => exact h0
    | succ n => rw [Function.iterate_succ_apply, c.sync_idle.syncs, h1]

theorem Staged.sync_disk {a : Ata} {l : List (Nat × Block)} {c : Bcache} (h : c.Staged a l) :
    c.sync.ata.disk = (a.writeAll l).disk := by
  rw [sync_eq, h.pending_eq, h.ata]

end Bcache

theorem Ata.writeAll_disk_eq_iff (a : Ata) {ws : List (Nat × Block)} (hnd : (ws.map Prod.fst).Nodup) :
    (a.writeAll ws).disk = a.disk ↔
      ∀ k b v, ws[k]? = some (b, v) → a.writeOk (a.nwrites + k) = true → v = a.disk b := by
  constructor
  · intro h k b v hk hok
    have hb := congrFun h b
    rwa [a.writeAll_disk hnd hk, if_pos hok] at hb
  · intro h
    funext b
    by_cases hb : b ∈ ws.map Prod.fst
    · obtain ⟨⟨b, v⟩, hmem, rfl⟩ := List.mem_map.mp hb
      obtain ⟨k, hk, hget⟩ := List.mem_iff_getElem.mp hmem
      have hsome : ws[k]? = some (b, v) := by rw [List.getElem?_eq_getElem hk, hget]
      rw [a.writeAll_disk hnd hsome]
      split
      · rename_i hok
        exact h k b v hsome hok
      · rfl
    · exact a.writeAll_other hb

/-! ## What `format` leaves in the cache -/

/-- The blocks that `format` writes, in the order in which it first does. -/
def formatBlocks : List Nat := [0, 1, 2, 3, 4, 5, 6, 7, 8, 9, 16]

-- The first thing `format` does is to overwrite block 0.
theorem run_format_congr {σ : Type} {D : Device Nat Block σ} {s t : σ}
    (h : D.write 0 superblock s = D.write 0 superblock t) : format.run D s = format.run D t := by
  have hwrite : ∀ s, (writeBlock 0 superblock).run D s = ((), D.write 0 superblock s) := fun _ => rfl
  obtain ⟨rest, hsplit⟩ : ∃ rest : SfsM Unit, format = (writeBlock 0 superblock >>= fun _ => rest) :=
    ⟨_, rfl⟩
  rw [hsplit, Prog.run_bind, hwrite, h]
  exact (Prog.run_bind (writeBlock 0 superblock) (fun _ => rest) t).symm

-- `format` reads only what it has written before.
theorem format_known :
    ∃ l, (format.run known (some [])).2 = some l ∧ l.map Prod.fst = formatBlocks := by
  have hkeys : (format.run known (some [])).2.map (List.map Prod.fst) = some formatBlocks := by
    decide +kernel
  obtain ⟨l, hl, hmap⟩ := Option.map_eq_some_iff.mp hkeys
  exact ⟨l, hl, hmap⟩

namespace Bcache

/-- The cache right after the first read of `sfs_init`. -/
theorem init_read (c : Bcache) :
    (c.init.read 0).1 =
        (if c.ata.readOk c.ata.nreads = true then c.ata.disk 0 else (c.slots 0).data) ∧
      (c.init.read 0).2.slots 0 = ⟨0, true, false, (c.init.read 0).1⟩ ∧
      (∀ i, i ≠ 0 → ((c.init.read 0).2.slots i).valid = false) ∧ (c.init.read 0).2.hand = 1 ∧
      (c.init.read 0).2.ata = { c.ata with nreads := c.ata.nreads + 1 } := by
  have hf : c.init.find 0 = none := by
    unfold find
    rw [List.find?_eq_none]
    intro i _
    simp [init]
  rw [read_miss hf]
  have hself : Function.update c.init.slots 0 ⟨0, true, false, c.init.fetched 0⟩ 0 = _ :=
    Function.update_self ..
  refine ⟨rfl, hself, fun i hi => ?_, rfl, rfl⟩
  show (Function.update c.init.slots 0 _ i).valid = false
  rw [Function.update_of_ne hi]
  rfl

-- Block 0 alone is in the first slot, clean; marked dirty it would be the staged cache.
theorem staged_first {a : Ata} {stale : Block} {e : Bcache} (hslot : e.slots 0 = ⟨0, true, false, stale⟩)
    (hrest : ∀ i, i ≠ 0 → (e.slots i).valid = false) (hhand : e.hand = 1) (hata : e.ata = a) :
    (e.setSlot 0 ⟨0, true, true, stale⟩).Staged a [(0, stale)] ∧
      e.write 0 superblock = (e.setSlot 0 ⟨0, true, true, stale⟩).write 0 superblock := by
  have honly : ∀ (i : Fin 32) x, [(0, stale)][i.val]? = some x → i = 0 ∧ x = (0, stale) := by
    intro i x hi
    obtain ⟨hlt, hx⟩ := List.getElem?_eq_some_iff.mp hi
    have h0 : i = 0 := Fin.ext (by rw [List.length_singleton] at hlt; show i.val = 0; omega)
    subst h0
    exact ⟨rfl, hx.symm⟩
  have hself : (e.setSlot 0 ⟨0, true, true, stale⟩).slots 0 = ⟨0, true, true, stale⟩ :=
    Function.update_self (0 : Fin 32) _ e.slots
  have hstaged : (e.setSlot 0 ⟨0, true, true, stale⟩).Staged a [(0, stale)] := by
    refine ⟨by simp, by rw [setSlot, hhand]; rfl, ?_, ?_, hata⟩
    · intro i x hi
      obtain ⟨rfl, rfl⟩ := honly i x hi
      exact hself
    · intro i hi
      have hne : i ≠ 0 := by
        rintro rfl
        exact absurd hi (by simp)
      show (Function.update e.slots 0 _ i).valid = false
      rw [Function.update_of_ne hne]
      exact hrest i hne
  refine ⟨hstaged, ?_⟩
  obtain ⟨i, hf, hi⟩ := hstaged.find_old (List.mem_singleton_self _)
  obtain ⟨rfl, -⟩ := honly i _ hi
  have hfe : e.find 0 = some 0 := by
    cases hfe : e.find 0 with
    | none => exact absurd (by rw [hslot]) (find_none hfe 0 (by rw [hslot]))
    | some j =>
      by_contra hne
      have hj : j ≠ 0 := fun he => hne (congrArg some he)
      exact absurd (find_some hfe).1 (by simp [hrest j hj])
  rw [write_hit hfe, write_hit hf, hself, hslot]
  unfold setSlot
  rw [Function.update_idem]

-- After the failed read `format` runs in the cache.
theorem format_staged (c : Bcache) : ∃ l, (format.run known (some [])).2 = some l ∧
    (format.run device (c.init.read 0).2).2.Staged { c.ata with nreads := c.ata.nreads + 1 } l := by
  obtain ⟨-, hslot, hrest, hhand, hata⟩ := c.init_read
  generalize (c.init.read 0).1 = stale at hslot
  generalize (c.init.read 0).2 = e at hslot hrest hhand hata ⊢
  obtain ⟨hstaged, hfirst⟩ := staged_first hslot hrest hhand hata
  have hdev : device.write 0 superblock e =
      device.write 0 superblock (e.setSlot 0 ⟨0, true, true, stale⟩) := hfirst
  have hknown : format.run (known : Device Nat Block _) (some [(0, stale)]) =
      format.run known (some []) := run_format_congr rfl
  obtain ⟨l, hl, hkeys⟩ := format_known
  have hfits : Fits (format.run known (some [(0, stale)])).2 := by
    refine ⟨l, by rw [hknown, hl], ?_⟩
    rw [← List.length_map (f := Prod.fst), hkeys]
    decide
  obtain ⟨l', hl', hend⟩ := ((simulates_staged _).run format ⟨_, rfl, hstaged⟩ hfits).2
  rw [hknown, hl] at hl'
  obtain rfl := Option.some.inj hl'
  rw [run_format_congr hdev]
  exact ⟨l, hl, hend⟩

/-- The first read succeeds, or the slot that it takes happens to hold a block with the magic. -/
def Recognised (c : Bcache) : Prop :=
  c.ata.readOk c.ata.nreads = true ∨ (c.slots c.init.hand).data.magic = sfsMagic

theorem magic_iff_recognised {c : Bcache} (hmagic : (c.ata.disk 0).magic = sfsMagic) :
    (c.init.read 0).1.magic = sfsMagic ↔ c.Recognised := by
  rw [c.init_read.1]
  unfold Recognised
  split
  · rename_i hok
    exact iff_of_true hmagic (Or.inl hok)
  · rename_i hok
    rw [or_iff_right hok]
    rfl

theorem run_sfsInit (c : Bcache) : (sfsInit.run device c).2 =
    if (c.read 0).1.magic ≠ sfsMagic then (format.run device (c.read 0).2).2 else (c.read 0).2 := by
  rw [sfsInit, Prog.run_bind]
  show ((if (c.read 0).1.magic ≠ sfsMagic then format else pure ()).run device (c.read 0).2).2 = _
  split
  · rfl
  · rfl

theorem init_read_idle (c : Bcache) : (c.init.read 0).2.Idle := by
  obtain ⟨-, hslot, hrest, -, -⟩ := c.init_read
  intro i
  unfold Slot.pending
  by_cases hi : i = 0
  · rw [hi, hslot]
    rfl
  · rw [hrest i hi]
    rfl

/-- On a disk with the magic, `sfs_init` skips `format` exactly if the first read succeeds or leaves a
block with the magic.  Otherwise the disk stays as it was only if each of the eleven writes of the next
sync fails or writes what is there. -/
theorem mount_spares (c : Bcache) (hmagic : (c.ata.disk 0).magic = sfsMagic) :
    ((sfsInit.run device c.init).2 = (c.init.read 0).2 ↔ c.Recognised) ∧
    ((∀ n, (sync^[n] (sfsInit.run device c.init).2).ata.disk = c.ata.disk) ↔
      c.Recognised ∨ ∀ k b, formatBlocks[k]? = some b →
        c.ata.writeOk (c.ata.nwrites + k) = true → (format.run flat c.ata.disk).2 b = c.ata.disk b) := by
  obtain ⟨-, hslot, -, -, hata⟩ := c.init_read
  rw [run_sfsInit, ite_not]
  by_cases hrec : c.Recognised
  · rw [if_pos ((magic_iff_recognised hmagic).mpr hrec)]
    refine ⟨iff_of_true rfl hrec, iff_of_true (fun n => ?_) (Or.inl hrec)⟩
    rw [c.init_read_idle.syncs, hata]
  · rw [if_neg fun hm => hrec ((magic_iff_recognised hmagic).mp hm), or_iff_right hrec]
    obtain ⟨l, hl, hstaged⟩ := c.format_staged
    obtain ⟨l', hl', hkeys⟩ := format_known
    obtain rfl : l = l' := Option.some.inj (hl.symm.trans hl')
    have hget : ∀ k : Nat, formatBlocks[k]? = l[k]?.map Prod.fst := by
      intro k
      rw [← hkeys, List.getElem?_map]
    refine ⟨iff_of_false (fun hsame => ?_) hrec, ?_⟩
    · -- `format` leaves the first slot dirty
      obtain ⟨e, he, -⟩ := Option.map_eq_some_iff.mp (hget 0).symm
      have hdirty := congrArg Slot.dirty (hstaged.taken 0 e he)
      rw [hsame, hslot] at hdirty
      exact Bool.noConfusion hdirty
    · rw [syncs_keep_iff, hstaged.sync_disk, hstaged.ata, and_iff_right rfl]
      -- what is staged is what `format` writes on the flat disk
      have hflat : ∀ e ∈ l, (format.run flat c.ata.disk).2 e.1 = e.2 := by
        have hknows : Knows c.ata.disk (some []) := by
          rintro l0 h0
          obtain rfl := Option.some.inj h0
          exact ⟨List.nodup_nil, fun e he => absurd he (by simp)⟩
        have hrun := simulates_known.run format hknows (by rw [hl]; exact Option.some_ne_none l)
        exact (hrun.2 l hl).2
      rw [Ata.writeAll_disk_eq_iff _ hstaged.nodup]
      constructor
      · intro h k b hk hok
        obtain ⟨⟨b, v⟩, he, rfl⟩ := Option.map_eq_some_iff.mp ((hget k).symm.trans hk)
        rw [hflat _ (List.mem_of_getElem? he)]
        exact h k b v he hok
      · intro h k b v hk hok
        have hv : (format.run flat c.ata.disk).2 b = v := hflat _ (List.mem_of_getElem? hk)
        exact hv.symm.trans (h k b (by rw [hget, hk]; rfl) hok)

-- One failed read of block 0: the first sync writes an empty file system over the old one.
theorem mount_formats :
    ((zeroed (badRead 0)).ata.disk 0).magic = sfsMagic ∧
    ¬ ∀ n, (sync^[n] (sfsInit.run device (zeroed (badRead 0)).init).2).ata.disk =
      (zeroed (badRead 0)).ata.disk := by
  refine ⟨superblock_magic, fun h => ?_⟩
  have hsync := congrFun (h 1) 16
  have hbyte := congrArg (fun b : Block => b.byte 0) hsync
  exact absurd hbyte (by decide +kernel)

-- The read of block 0 succeeds and a later one would fail.
theorem mount_spares_later : (zeroed (badRead 1)).Recognised ∧
    ∀ n, (sync^[n] (sfsInit.run device (zeroed (badRead 1)).init).2).ata.disk =
      (zeroed (badRead 1)).ata.disk := by
  have hrec : (zeroed (badRead 1)).Recognised := Or.inl rfl
  exact ⟨hrec, (mount_spares (zeroed (badRead 1)) superblock_magic).2.mpr (Or.inl hrec)⟩

end Bcache

end JacobOS.Fs
