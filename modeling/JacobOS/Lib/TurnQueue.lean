import JacobOS.Lib.FirstMatch
import Mathlib.Data.List.Nodup

/-!
# Turns taken from a queue

A queue of parties, each with the number of times it will come back.  The party in front takes a turn and
goes to the end, or leaves if it does not come back.  A log of the turns says who took each and who had not
left yet; the results are about what can be read off a log.
-/

namespace TurnQueue

variable {α β : Type}

/-- The turns that are left. -/
def work : List (α × Nat) → Nat
  | [] => 0
  | (_, n) :: q => n + 1 + work q

/-- `log` are the turns until `q` is empty.  The turn `b` is that of `name b`, and the parties that have
not left are those for which `alive b` holds. -/
inductive Turns (name : β → α) (alive : β → α → Prop) : List (α × Nat) → List β → Prop where
  | nil : Turns name alive [] []
  | last {b : β} {q : List (α × Nat)} {log : List β}
      (halive : ∀ u, alive b u ↔ u ∈ name b :: q.map Prod.fst) (h : Turns name alive q log) :
      Turns name alive ((name b, 0) :: q) (b :: log)
  | again {b : β} {n : Nat} {q : List (α × Nat)} {log : List β}
      (halive : ∀ u, alive b u ↔ u ∈ name b :: q.map Prod.fst)
      (h : Turns name alive (q ++ [(name b, n)]) log) : Turns name alive ((name b, n + 1) :: q) (b :: log)

theorem work_cons (t : α) (n : Nat) (q : List (α × Nat)) : work ((t, n) :: q) = n + 1 + work q := rfl

theorem work_rotate (t : α) (n : Nat) (q : List (α × Nat)) : work (q ++ [(t, n)]) = n + 1 + work q := by
  induction q with
  | nil => rfl
  | cons p q ih =>
    rw [List.cons_append, work_cons, work_cons, ih]
    omega

-- Going to the end of the queue keeps the names.
theorem names_rotate (t : α) (n : Nat) (q : List (α × Nat)) :
    ((q ++ [(t, n)]).map Prod.fst).Perm (t :: q.map Prod.fst) := by
  rw [List.map_append]
  exact List.perm_append_singleton t _

namespace Turns

variable {name : β → α} {alive : β → α → Prop} {q r : List (α × Nat)} {log rest : List β} {b b' : β}

theorem name_mem (h : Turns name alive q log) (hb : b ∈ log) : name b ∈ q.map Prod.fst := by
  induction h with
  | nil => exact absurd hb (by simp)
  | last _ _ ih =>
    rcases List.mem_cons.mp hb with rfl | hb
    · exact List.mem_cons_self
    · exact List.mem_cons_of_mem _ (ih hb)
  | again _ _ ih =>
    rcases List.mem_cons.mp hb with rfl | hb
    · exact List.mem_cons_self
    · exact (names_rotate ..).mem_iff.mp (ih hb)

-- The party in front has the next turn.
theorem head_name (h : Turns name alive q log) : log.head?.map name = q.head?.map Prod.fst := by
  cases h with
  | nil => rfl
  | last _ _ => rfl
  | again _ _ => rfl

/-- A party has one turn and one more for each time it comes back. -/
theorem count_name [DecidableEq α] (h : Turns name alive q log) (hq : (q.map Prod.fst).Nodup) {t : α} {n : Nat}
    (ht : (t, n) ∈ q) : (log.map name).count t = n + 1 := by
  induction h generalizing n with
  | nil => exact absurd ht (by simp)
  | @last b q log _ h ih =>
    obtain ⟨hb, hq⟩ := List.nodup_cons.mp hq
    rw [List.map_cons, List.count_cons]
    rcases List.mem_cons.mp ht with heq | ht
    · obtain ⟨rfl, rfl⟩ := Prod.mk.inj heq
      have hnone : (log.map name).count (name b) = 0 := by
        rw [List.count_eq_zero]
        intro hin
        obtain ⟨b', hb', heq⟩ := List.mem_map.mp hin
        exact hb (heq ▸ h.name_mem hb')
      rw [hnone]
      simp
    · have hne : name b ≠ t := by
        rintro rfl
        exact hb (List.mem_map.mpr ⟨_, ht, rfl⟩)
      rw [ih hq ht, if_neg (by simpa using hne)]
  | @again b k q log _ h ih =>
    have hq' := (names_rotate (name b) k q).nodup_iff.mpr hq
    rw [List.map_cons, List.count_cons]
    rcases List.mem_cons.mp ht with heq | ht
    · obtain ⟨rfl, rfl⟩ := Prod.mk.inj heq
      rw [ih hq' (List.mem_append_right _ List.mem_cons_self)]
      simp
    · have hne : name b ≠ t := by
        rintro rfl
        exact (List.nodup_cons.mp hq).1 (List.mem_map.mpr ⟨_, ht, rfl⟩)
      rw [ih hq' (List.mem_append_left _ ht), if_neg (by simpa using hne)]

/-- Every turn is the first of those from some queue on. -/
theorem split {before : List β} (h : Turns name alive q (before ++ b :: rest)) (hq : (q.map Prod.fst).Nodup) :
    ∃ q', Turns name alive q' (b :: rest) ∧ (q'.map Prod.fst).Nodup := by
  induction before generalizing q with
  | nil => exact ⟨q, h, hq⟩
  | cons c before ih =>
    cases h with
    | last _ h => exact ih h (List.nodup_cons.mp hq).2
    | again _ h => exact ih h ((names_rotate ..).nodup_iff.mpr hq)

-- Those in front take their turns in order before any other party does.
theorem front (h : Turns name alive (q ++ r) log) :
    ∃ first rest q', log = first ++ rest ∧ first.map name = q.map Prod.fst ∧ Turns name alive (r ++ q') rest := by
  induction q generalizing r log with
  | nil => exact ⟨[], log, [], rfl, rfl, by rwa [List.append_nil]⟩
  | cons p q ih =>
    cases h with
    | @last b _ log _ h =>
      obtain ⟨first, rest, q', rfl, hfirst, hrest⟩ := ih h
      exact ⟨b :: first, rest, q', rfl, by rw [List.map_cons, hfirst]; rfl, hrest⟩
    | @again b n _ log _ h =>
      have hend : Turns name alive (q ++ (r ++ [(name b, n)])) log := by
        rw [← List.append_assoc]
        exact h
      obtain ⟨first, rest, q', rfl, hfirst, hrest⟩ := ih hend
      rw [List.append_assoc] at hrest
      exact ⟨b :: first, rest, _, rfl, by rw [List.map_cons, hfirst]; rfl, hrest⟩

/-- A party that has left takes no turn. -/
theorem not_alive {before : List β} (h : Turns name alive q (before ++ b :: rest))
    (hq : (q.map Prod.fst).Nodup) {u : α} (hu : ¬ alive b u) (hb' : b' ∈ b :: rest) : name b' ≠ u := by
  obtain ⟨q', h', -⟩ := h.split hq
  rintro rfl
  have hmem := h'.name_mem hb'
  cases h' with
  | last halive _ => exact hu ((halive _).mpr hmem)
  | again halive _ => exact hu ((halive _).mpr hmem)

end Turns

/-- Between two turns of a party that follow each other, every other one that had not left at the first of
them has one turn. -/
theorem Turns.between [DecidableEq α] {name : β → α} {alive : β → α → Prop} {q : List (α × Nat)} {b b' : β}
    {before mid after : List β} (h : Turns name alive q (before ++ b :: (mid ++ b' :: after)))
    (hq : (q.map Prod.fst).Nodup) (hb' : name b' = name b) (hmid : name b ∉ mid.map name) {u : α}
    (hu : alive b u) (hne : u ≠ name b) : (mid.map name).count u = 1 := by
  obtain ⟨q', h', hq'⟩ := h.split hq
  cases h' with
  | last _ h' =>
    have hmem : name b' ∈ _ := h'.name_mem (by simp)
    rw [hb'] at hmem
    exact absurd hmem (List.nodup_cons.mp hq').1
  | @again _ n q' _ halive h' =>
    obtain ⟨hnot, hnodup⟩ := List.nodup_cons.mp hq'
    obtain ⟨first, rest, q'', heq, hfirst, hrest⟩ := h'.front
    -- after the others it is the party's turn again
    obtain ⟨c, hc, hcb⟩ := Option.map_eq_some_iff.mp hrest.head_name
    obtain ⟨rest, rfl⟩ := List.head?_eq_some_iff.mp hc
    have hnames := congrArg (List.map name) heq
    rw [List.map_append, List.map_append, List.map_cons, List.map_cons, hb', hcb] at hnames
    have hsplit := FirstMatch.first_unique (P := fun x => x = name b) hnames rfl rfl
      (fun x hx he => hmid (he ▸ hx)) (fun x hx he => hnot (by rw [← hfirst]; exact he ▸ hx))
    rw [hsplit.1, hfirst]
    have hin : u ∈ q'.map Prod.fst := by
      rcases List.mem_cons.mp ((halive u).mp hu) with heq | hin
      · exact absurd heq hne
      · exact hin
    exact List.count_eq_one_of_mem hnodup hin

end TurnQueue
