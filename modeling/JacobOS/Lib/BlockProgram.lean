import Mathlib.Logic.Function.Basic

/-!
# Programs over a block device

A program is a tree of block reads, block writes and syncs.  It is run on a *device*, and two
devices that answer alike under a relation on their states run every program alike.
-/

namespace BlockProgram

variable {ι β α γ σ τ : Type}

/-- A finite interaction with a device whose blocks are named by `ι` and hold values of `β`. -/
inductive Prog (ι β α : Type) : Type where
  | ret (a : α)
  | read (i : ι) (next : β → Prog ι β α)
  | write (i : ι) (b : β) (next : Prog ι β α)
  | sync (next : Prog ι β α)

namespace Prog

def bind : Prog ι β α → (α → Prog ι β γ) → Prog ι β γ
  | .ret a, f => f a
  | .read i next, f => .read i fun b => (next b).bind f
  | .write i b next, f => .write i b (next.bind f)
  | .sync next, f => .sync (next.bind f)

instance : Monad (Prog ι β) where
  pure := .ret
  bind := .bind

end Prog

/-- A device: how a state answers a read, and how it moves under each operation. -/
structure Device (ι β σ : Type) where
  read : ι → σ → β × σ
  write : ι → β → σ → σ
  sync : σ → σ

/-- The flat device: its state is the content of every block, and `sync` has nothing to do. -/
def flat [DecidableEq ι] : Device ι β (ι → β) where
  read i d := (d i, d)
  write i b d := Function.update d i b
  sync d := d

namespace Prog

def run (D : Device ι β σ) : Prog ι β α → σ → α × σ
  | .ret a, s => (a, s)
  | .read i next, s => (next (D.read i s).1).run D (D.read i s).2
  | .write i b next, s => next.run D (D.write i b s)
  | .sync next, s => next.run D (D.sync s)

variable {D : Device ι β σ}

@[simp] theorem run_pure (a : α) (s : σ) : (pure a : Prog ι β α).run D s = (a, s) := rfl

@[simp] theorem run_bind (p : Prog ι β α) (f : α → Prog ι β γ) (s : σ) :
    (p >>= f).run D s = (f (p.run D s).1).run D (p.run D s).2 := by
  show (p.bind f).run D s = _
  induction p generalizing s with
  | ret a => rfl
  | read i next ih => exact ih _ _
  | write i b next ih => exact ih _
  | sync next ih => exact ih _

end Prog

@[simp] theorem flat_sync [DecidableEq ι] (d : ι → β) : flat.sync d = d := rfl

/-- `R` relates states of two devices that answer every read alike and keeps doing so under every
operation. -/
structure Simulates (D : Device ι β σ) (E : Device ι β τ) (R : σ → τ → Prop) : Prop where
  read : ∀ {s t} (i : ι), R s t →
    (D.read i s).1 = (E.read i t).1 ∧ R (D.read i s).2 (E.read i t).2
  write : ∀ {s t} (i : ι) (b : β), R s t → R (D.write i b s) (E.write i b t)
  sync : ∀ {s t}, R s t → R (D.sync s) (E.sync t)

/-- Related states run every program to the same answer and to related states. -/
theorem Simulates.run {D : Device ι β σ} {E : Device ι β τ} {R : σ → τ → Prop}
    (sim : Simulates D E R) (p : Prog ι β α) {s : σ} {t : τ} (h : R s t) :
    (p.run D s).1 = (p.run E t).1 ∧ R (p.run D s).2 (p.run E t).2 := by
  induction p generalizing s t with
  | ret a => exact ⟨rfl, h⟩
  | read i next ih =>
    obtain ⟨hans, hrel⟩ := sim.read i h
    simp only [Prog.run, hans]
    exact ih _ hrel
  | write i b next ih => exact ih (sim.write i b h)
  | sync next ih => exact ih (sim.sync h)

/-! ## Programs that end in a sync -/

section Settles

variable [DecidableEq ι] {D : Device ι β σ} {R : σ → (ι → β) → Prop} {disk : σ → ι → β}

/-- When the program ends, the medium behind the device holds what the flat device holds. -/
def Settles (D : Device ι β σ) (R : σ → (ι → β) → Prop) (disk : σ → ι → β) (p : Prog ι β α) : Prop :=
  ∀ s d, R s d → disk (p.run D s).2 = (p.run flat d).2

namespace Settles

theorem sync (h : ∀ s d, R s d → disk (D.sync s) = d) (a : α) :
    Settles D R disk (.sync (.ret a) : Prog ι β α) := h

-- What comes before the last part does not matter.
theorem bind (sim : Simulates D flat R) (p : Prog ι β α) {f : α → Prog ι β γ}
    (hf : ∀ a, Settles D R disk (f a)) : Settles D R disk (p >>= f) := by
  intro s d h
  obtain ⟨hans, hrel⟩ := sim.run p h
  rw [Prog.run_bind, Prog.run_bind, hans]
  exact hf _ _ _ hrel

theorem map {p : Prog ι β α} (hp : Settles D R disk p) (f : α → γ) :
    Settles D R disk (p >>= fun a => pure (f a)) := by
  intro s d h
  rw [Prog.run_bind, Prog.run_bind]
  exact hp s d h

end Settles

end Settles

/-! ## Programs that read only what they have written -/

/-- `R` relates states of two devices that answer alike as long as the second one is in an `ok` state,
which it can leave but not enter. -/
structure SimulatesWhile (D : Device ι β σ) (E : Device ι β τ) (ok : τ → Prop) (R : σ → τ → Prop) :
    Prop where
  read : ∀ {s t} (i : ι), R s t → ok (E.read i t).2 →
    (D.read i s).1 = (E.read i t).1 ∧ R (D.read i s).2 (E.read i t).2
  write : ∀ {s t} (i : ι) (b : β), R s t → ok (E.write i b t) → R (D.write i b s) (E.write i b t)
  sync : ∀ {s t}, R s t → ok (E.sync t) → R (D.sync s) (E.sync t)
  of_read : ∀ {t} (i : ι), ok (E.read i t).2 → ok t
  of_write : ∀ {t} (i : ι) (b : β), ok (E.write i b t) → ok t
  of_sync : ∀ {t}, ok (E.sync t) → ok t

namespace SimulatesWhile

variable {D : Device ι β σ} {E : Device ι β τ} {ok : τ → Prop} {R : σ → τ → Prop}

theorem of_run (sim : SimulatesWhile D E ok R) (p : Prog ι β α) {t : τ} (hok : ok (p.run E t).2) :
    ok t := by
  induction p generalizing t with
  | ret a => exact hok
  | read i next ih => exact sim.of_read i (ih _ hok)
  | write i b next ih => exact sim.of_write i b (ih hok)
  | sync next ih => exact sim.of_sync (ih hok)

theorem run (sim : SimulatesWhile D E ok R) (p : Prog ι β α) {s : σ} {t : τ} (h : R s t)
    (hok : ok (p.run E t).2) : (p.run D s).1 = (p.run E t).1 ∧ R (p.run D s).2 (p.run E t).2 := by
  induction p generalizing s t with
  | ret a => exact ⟨rfl, h⟩
  | read i next ih =>
    obtain ⟨hans, hrel⟩ := sim.read i h (sim.of_run _ hok)
    simp only [Prog.run, hans]
    exact ih _ hrel hok
  | write i b next ih => exact ih (sim.write i b h (sim.of_run _ hok)) hok
  | sync next ih => exact ih (sim.sync h (sim.of_run _ hok)) hok

end SimulatesWhile

section Known

variable [DecidableEq ι]

/-- Block `i` gets content `b`, in its place or at the end. -/
def put (i : ι) (b : β) : List (ι × β) → List (ι × β)
  | [] => [(i, b)]
  | e :: l => if e.1 = i then (i, b) :: l else e :: put i b l

theorem put_new {i : ι} {l : List (ι × β)} (b : β) (h : i ∉ l.map Prod.fst) :
    put i b l = l ++ [(i, b)] := by
  induction l with
  | nil => rfl
  | cons e l ih =>
    rw [List.map_cons, List.mem_cons, not_or] at h
    rw [put, if_neg (Ne.symm h.1), ih h.2, List.cons_append]

theorem map_fst_put_old {i : ι} {l : List (ι × β)} (b : β) (h : i ∈ l.map Prod.fst) :
    (put i b l).map Prod.fst = l.map Prod.fst := by
  induction l with
  | nil => exact absurd h (by simp)
  | cons e l ih =>
    rw [put]
    by_cases he : e.1 = i
    · rw [if_pos he, List.map_cons, List.map_cons, he]
    · rw [List.map_cons, List.mem_cons] at h
      rw [if_neg he, List.map_cons, ih (h.resolve_left (Ne.symm he)), List.map_cons]

theorem nodup_put {i : ι} {l : List (ι × β)} (b : β) (hnd : (l.map Prod.fst).Nodup) :
    ((put i b l).map Prod.fst).Nodup := by
  by_cases hi : i ∈ l.map Prod.fst
  · rw [map_fst_put_old b hi]
    exact hnd
  · rw [put_new b hi, List.map_append]
    refine List.nodup_append.mpr ⟨hnd, by simp, ?_⟩
    intro a ha c hc hac
    rw [List.map_singleton, List.mem_singleton] at hc
    rw [hac, hc] at ha
    exact hi ha

theorem mem_put {i : ι} {b : β} {l : List (ι × β)} (hnd : (l.map Prod.fst).Nodup) {e : ι × β}
    (he : e ∈ put i b l) : e = (i, b) ∨ (e ∈ l ∧ e.1 ≠ i) := by
  induction l with
  | nil => exact Or.inl (List.mem_singleton.mp he)
  | cons x l ih =>
    obtain ⟨hx, hnd'⟩ := List.nodup_cons.mp hnd
    rw [put] at he
    by_cases hxi : x.1 = i
    · rw [if_pos hxi] at he
      rcases List.mem_cons.mp he with rfl | he
      · exact Or.inl rfl
      · refine Or.inr ⟨List.mem_cons_of_mem x he, fun hei => hx ?_⟩
        rw [hxi, ← hei]
        exact List.mem_map_of_mem he
    · rw [if_neg hxi] at he
      rcases List.mem_cons.mp he with rfl | he
      · exact Or.inr ⟨List.mem_cons_self, hxi⟩
      · exact (ih hnd' he).imp_right fun h => ⟨List.mem_cons_of_mem x h.1, h.2⟩

theorem getElem?_put_old {i : ι} {l : List (ι × β)} (hnd : (l.map Prod.fst).Nodup) {k : Nat} {v : β}
    (b : β) (hk : l[k]? = some (i, v)) (j : Nat) :
    (put i b l)[j]? = if j = k then some (i, b) else l[j]? := by
  induction l generalizing k j with
  | nil => exact absurd hk (by simp)
  | cons e l ih =>
    obtain ⟨he, hnd'⟩ := List.nodup_cons.mp hnd
    cases k with
    | zero =>
      obtain rfl : e = (i, v) := by simpa using hk
      rw [put, if_pos rfl]
      cases j with
      | zero => rfl
      | succ j => rfl
    | succ k =>
      have hmem : (i, v) ∈ l := List.mem_of_getElem? (by simpa using hk)
      have hne : e.1 ≠ i := by
        rintro rfl
        exact he (List.mem_map.mpr ⟨_, hmem, rfl⟩)
      rw [put, if_neg hne]
      cases j with
      | zero => rfl
      | succ j =>
        rw [List.getElem?_cons_succ, ih hnd' (by simpa using hk), List.getElem?_cons_succ]
        simp

/-- The flat disk `d` holds what is known. -/
def Knows (d : ι → β) (s : Option (List (ι × β))) : Prop :=
  ∀ l, s = some l → (l.map Prod.fst).Nodup ∧ ∀ e ∈ l, d e.1 = e.2

variable [Inhabited β]

/-- The device that knows only the blocks written so far, in the order in which they were first written.
Any other read, and a sync, is a failure. -/
def known : Device ι β (Option (List (ι × β))) where
  read i s := match s.bind fun l => l.find? fun e => e.1 = i with
    | some e => (e.2, s)
    | none => (default, none)
  write i b s := s.map (put i b)
  sync _ := none

theorem known_read {i : ι} {s : Option (List (ι × β))} (h : (known.read i s).2 ≠ none) :
    ∃ l b, s = some l ∧ (i, b) ∈ l ∧ known.read i s = (b, s) := by
  cases s with
  | none => exact absurd rfl h
  | some l =>
    unfold known at h ⊢
    dsimp only [Option.bind_some] at h ⊢
    cases hf : l.find? fun e => e.1 = i with
    | none =>
      rw [hf] at h
      exact absurd rfl h
    | some e =>
      have hi : e.1 = i := by simpa using List.find?_some hf
      refine ⟨l, e.2, rfl, ?_, rfl⟩
      rw [← hi]
      exact List.mem_of_find?_eq_some hf

-- What a program that reads only what it has written does is the same on every flat disk.
theorem simulates_known : SimulatesWhile (flat : Device ι β (ι → β)) known (· ≠ none) Knows := by
  refine ⟨?_, ?_, ?_, ?_, ?_, ?_⟩
  · intro d s i h hok
    obtain ⟨l, b, rfl, hmem, hread⟩ := known_read hok
    rw [hread]
    exact ⟨(h l rfl).2 _ hmem, h⟩
  · intro d s i b h _ l hl
    obtain ⟨l', rfl, rfl⟩ := Option.map_eq_some_iff.mp hl
    obtain ⟨hnd, hall⟩ := h l' rfl
    refine ⟨nodup_put b hnd, fun e he => ?_⟩
    rcases mem_put hnd he with rfl | ⟨he, hne⟩
    · exact Function.update_self ..
    · exact (Function.update_of_ne hne ..).trans (hall e he)
  · intro d s _ hok
    exact absurd rfl hok
  · intro s i hok
    obtain ⟨l, b, rfl, -⟩ := known_read hok
    exact Option.some_ne_none l
  · intro s i b hok hnone
    exact hok (by rw [hnone]; rfl)
  · intro s hok
    exact absurd rfl hok

end Known

/-! ## Pre- and postconditions -/

/-- From a state with `P` the program ends with an answer and a state that satisfy `Q`. -/
def Triple (D : Device ι β σ) (P : σ → Prop) (p : Prog ι β α) (Q : α → σ → Prop) : Prop :=
  ∀ s, P s → Q (p.run D s).1 (p.run D s).2

namespace Triple

variable {D : Device ι β σ} {P : σ → Prop} {Q Q' : α → σ → Prop} {R : γ → σ → Prop}

theorem ret {a : α} (h : ∀ s, P s → Q a s) : Triple D P (pure a) Q := h

theorem bind {p : Prog ι β α} {f : α → Prog ι β γ} (hp : Triple D P p Q)
    (hf : ∀ a, Triple D (Q a) (f a) R) : Triple D P (p >>= f) R := by
  intro s hs
  rw [Prog.run_bind]
  exact hf _ _ (hp s hs)

theorem weaken {p : Prog ι β α} (hp : Triple D P p Q') (h : ∀ a s, Q' a s → Q a s) :
    Triple D P p Q := fun s hs => h _ _ (hp s hs)

-- What the precondition says without naming the state is a fact.
theorem pull {c : Prop} {p : Prog ι β α} (h : c → Triple D P p Q) :
    Triple D (fun s => P s ∧ c) p Q := fun s hs => h hs.2 s hs.1

theorem cond {c : Prop} [Decidable c] {p q : Prog ι β α} (hp : c → Triple D P p Q)
    (hq : ¬ c → Triple D P q Q) : Triple D P (if c then p else q) Q := by
  split
  · exact hp ‹c›
  · exact hq ‹¬ c›

theorem ite {c : Prop} [Decidable c] {p q : Prog ι β α} (hp : Triple D P p Q)
    (hq : Triple D P q Q) : Triple D P (if c then p else q) Q := cond (fun _ => hp) fun _ => hq

end Triple

/-- The program leaves every state as it is. -/
def ReadOnly (D : Device ι β σ) (p : Prog ι β α) : Prop := ∀ s, (p.run D s).2 = s

namespace ReadOnly

variable {D : Device ι β σ} {p q : Prog ι β α}

theorem ret (a : α) : ReadOnly D (pure a : Prog ι β α) := fun _ => rfl

theorem bind {f : α → Prog ι β γ} (hp : ReadOnly D p) (hf : ∀ a, ReadOnly D (f a)) :
    ReadOnly D (p >>= f) := by
  intro s
  rw [Prog.run_bind, hf, hp]

theorem ite {c : Prop} [Decidable c] (hp : ReadOnly D p) (hq : ReadOnly D q) :
    ReadOnly D (if c then p else q) := by
  split
  · exact hp
  · exact hq

theorem triple {P : σ → Prop} (hp : ReadOnly D p) : Triple D P p fun _ => P := by
  intro s hs
  rw [hp]
  exact hs

end ReadOnly

end BlockProgram
