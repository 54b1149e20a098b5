import Mathlib.Data.List.Chain
import Mathlib.Data.List.Nodup
import Mathlib.Data.List.Perm.Basic

/-!
# Rings of links and the loops that walk them

A circular list is given by its successor function.  `Cycle next a l` says that the walk from `a`
meets `l`, each element once, and comes back to `a`.
-/

namespace Ring

variable {α β : Type}

/-- `while (c(x)) x = f(x);` for at most `n` tests. -/
def whileLoop (c : α → Bool) (f : α → α) : Nat → α → Option α
  | 0, _ => none
  | n + 1, x => if c x then whileLoop c f n (f x) else some x

/-- `do x = f(x); while (c(x));` -/
def doWhile (c : α → Bool) (f : α → α) (n : Nat) (x : α) : Option α := whileLoop c f n (f x)

/-- `next` leads from each element of the list to the one after it. -/
abbrev Path (next : α → α) (l : List α) : Prop := l.IsChain fun x y => next x = y

structure Cycle (next : α → α) (a : α) (l : List α) : Prop where
  path : Path next (a :: (l ++ [a]))
  nodup : (a :: l).Nodup

variable {next next' : α → α} {a b : α} {l : List α}

-- The last element's successor does not matter.
theorem Path.congr (h : Path next (l ++ [b])) (hnext : ∀ x ∈ l, next' x = next x) :
    Path next' (l ++ [b]) := by
  induction l with
  | nil => exact List.isChain_singleton b
  | cons x l ih =>
    have hx := hnext x List.mem_cons_self
    have hl := fun y hy => hnext y (List.mem_cons_of_mem x hy)
    cases l with
    | nil =>
      rw [List.singleton_append] at h ⊢
      obtain ⟨hb, -⟩ := List.isChain_cons_cons.mp h
      exact List.isChain_pair.mpr (hx.trans hb)
    | cons y l =>
      obtain ⟨hy, hrest⟩ := List.isChain_cons_cons.mp h
      exact List.isChain_cons_cons.mpr ⟨hx.trans hy, ih hrest hl⟩

namespace Cycle

theorem self (h : next a = a) : Cycle next a [] :=
  ⟨List.isChain_pair.mpr h, List.nodup_singleton a⟩

-- The same ring, entered at another element.
theorem enter {pre post : List α} (h : Cycle next a (pre ++ b :: post)) : Cycle next b (post ++ a :: pre) := by
  have hrot : ((b :: post) ++ (a :: pre)).Perm ((a :: pre) ++ (b :: post)) := List.perm_append_comm
  have hpath : Path next ((a :: pre) ++ b :: (post ++ [a])) := by simpa using h.path
  obtain ⟨hpre, hpost⟩ := List.isChain_split.mp hpath
  refine ⟨?_, hrot.nodup_iff.mpr h.nodup⟩
  have hsplit : Path next ((b :: post) ++ a :: (pre ++ [b])) := List.isChain_split.mpr ⟨hpost, hpre⟩
  simpa using hsplit

-- The same ring from the next element on.
theorem advance (h : Cycle next a l) : ∃ m, l ++ [a] = next a :: m ∧ Cycle next (next a) m := by
  cases l with
  | nil =>
    have hself : next a = a := (List.isChain_cons_cons.mp h.path).1
    exact ⟨[], by rw [hself]; rfl, by rw [hself]; exact h⟩
  | cons b l =>
    have hnext : next a = b := (List.isChain_cons_cons.mp h.path).1
    rw [hnext]
    exact ⟨l ++ [a], rfl, @enter _ _ _ _ [] l h⟩

theorem rotate (h : Cycle next a l) (hb : b ∈ a :: l) :
    ∃ l', Cycle next b l' ∧ (b :: l').Perm (a :: l) := by
  rcases List.mem_cons.mp hb with rfl | hb
  · exact ⟨l, h, List.Perm.refl _⟩
  · obtain ⟨pre, post, rfl⟩ := List.append_of_mem hb
    have hrot : ((b :: post) ++ (a :: pre)).Perm ((a :: pre) ++ (b :: post)) := List.perm_append_comm
    exact ⟨post ++ a :: pre, h.enter, hrot⟩

-- `b` is linked in right after `a`.
theorem insert (h : Cycle next a l) (hb : b ∉ a :: l) (ha' : next' a = b) (hb' : next' b = next a)
    (hl : ∀ x ∈ l, next' x = next x) : Cycle next' a (b :: l) := by
  have hnodup : (a :: b :: l).Nodup :=
    (List.Perm.swap a b l).nodup_iff.mp (List.nodup_cons.mpr ⟨hb, h.nodup⟩)
  have htail : Path next' (l ++ [a]) := Path.congr h.path.tail hl
  refine ⟨List.isChain_cons_cons.mpr ⟨ha', ?_⟩, hnodup⟩
  cases l with
  | nil => exact List.isChain_pair.mpr (hb'.trans (List.isChain_cons_cons.mp h.path).1)
  | cons c l => exact List.isChain_cons_cons.mpr ⟨hb'.trans (List.isChain_cons_cons.mp h.path).1, htail⟩

-- Only the links matter.
theorem congr (h : Cycle next a l) (hnext : ∀ x ∈ a :: l, next' x = next x) : Cycle next' a l :=
  ⟨Path.congr (l := a :: l) h.path hnext, h.nodup⟩

end Cycle

/-! ## Loops along a path -/

-- The search ends at the first element that fails the test.
theorem whileLoop_path (c : α → Bool) {n : Nat} (h : Path next (a :: l)) (hn : l.length < n)
    (hex : ∃ x ∈ a :: l, c x = false) :
    whileLoop c next n a = (a :: l).find? fun x => !c x := by
  induction l generalizing a n with
  | nil =>
    obtain ⟨x, hx, hcx⟩ := hex
    obtain rfl := List.mem_singleton.mp hx
    obtain ⟨n, rfl⟩ := Nat.exists_eq_succ_of_ne_zero (Nat.ne_of_gt hn)
    simp [whileLoop, hcx]
  | cons b l ih =>
    obtain ⟨n, rfl⟩ := Nat.exists_eq_succ_of_ne_zero (Nat.ne_of_gt (Nat.zero_lt_of_lt hn))
    obtain ⟨hab, hrest⟩ := List.isChain_cons_cons.mp h
    rw [whileLoop, List.find?_cons]
    cases hca : c a with
    | false => rfl
    | true =>
      obtain ⟨x, hx, hcx⟩ := hex
      have hxl : x ∈ b :: l := by
        rcases List.mem_cons.mp hx with rfl | hxl
        · rw [hca] at hcx
          exact absurd hcx Bool.noConfusion
        · exact hxl
      rw [if_pos rfl, hab, ih hrest (Nat.lt_of_succ_lt_succ hn) ⟨x, hxl, hcx⟩]
      rfl

-- Once around, with an accumulator.
theorem doWhile_path [DecidableEq α] (g : β → α → β) {n : Nat} (z : β) (h : Path next (b :: (l ++ [a]))) (hn : l.length < n)
    (ha : a ∉ l) :
    doWhile (fun s => s.2 != a) (fun s => (g s.1 s.2, next s.2)) n (z, b) =
      some ((b :: l).foldl g z, a) := by
  induction l generalizing b z n with
  | nil =>
    obtain ⟨n, rfl⟩ := Nat.exists_eq_succ_of_ne_zero (Nat.ne_of_gt hn)
    have hba : next b = a := (List.isChain_cons_cons.mp h).1
    simp [doWhile, whileLoop, hba]
  | cons c l ih =>
    obtain ⟨n, rfl⟩ := Nat.exists_eq_succ_of_ne_zero (Nat.ne_of_gt (Nat.zero_lt_of_lt hn))
    obtain ⟨hbc, hrest⟩ := List.isChain_cons_cons.mp h
    rw [List.mem_cons, not_or] at ha
    have hgo : (c != a) = true := bne_iff_ne.mpr (Ne.symm ha.1)
    rw [doWhile, whileLoop]
    dsimp only
    rw [hbc, hgo, if_pos rfl]
    exact ih (g z b) hrest (Nat.lt_of_succ_lt_succ hn) ha.2

namespace Cycle

theorem doWhile_eq [DecidableEq α] (h : Cycle next a l) (g : β → α → β) {n : Nat} (z : β) (hn : l.length < n) :
    doWhile (fun s => s.2 != a) (fun s => (g s.1 s.2, next s.2)) n (z, a) =
      some ((a :: l).foldl g z, a) :=
  doWhile_path g z h.path hn (List.nodup_cons.mp h.nodup).1

-- From the successor of `a` on, the walk comes back to `a` at the latest.
theorem whileLoop_eq (h : Cycle next a l) (c : α → Bool) {n : Nat} (hn : l.length < n)
    (hc : c a = false) : whileLoop c next n (next a) = (l ++ [a]).find? fun x => !c x := by
  cases hl : l ++ [a] with
  | nil => exact absurd hl (by simp)
  | cons b m =>
    have hlen : m.length = l.length := by
      have hlen := congrArg List.length hl
      simpa using hlen.symm
    have hpath := h.path
    rw [hl] at hpath
    obtain ⟨hab, hrest⟩ := List.isChain_cons_cons.mp hpath
    rw [hab]
    exact whileLoop_path c hrest (by omega) ⟨a, by rw [← hl]; simp, hc⟩

end Cycle

end Ring
