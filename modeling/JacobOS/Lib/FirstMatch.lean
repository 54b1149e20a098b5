import Mathlib.Data.List.Perm.Basic

/-!
# The first element of a list that satisfies a test
-/

namespace FirstMatch

variable {α β : Type}

/-- The list with its first element that satisfies `p` replaced by `f` of it. -/
def modifyFirst (p : α → Bool) (f : α → α) : List α → List α
  | [] => []
  | x :: xs => if p x then f x :: xs else x :: modifyFirst p f xs

variable {p : α → Bool} {f : α → α}

theorem modifyFirst_append_of_none {l : List α} (h : ∀ x ∈ l, p x = false) (r : List α) :
    modifyFirst p f (l ++ r) = l ++ modifyFirst p f r := by
  induction l with
  | nil => rfl
  | cons x l ih =>
    rw [List.cons_append, modifyFirst, h x List.mem_cons_self,
      ih fun y hy => h y (List.mem_cons_of_mem x hy)]
    rfl

theorem modifyFirst_append_of_some {l : List α} {x : α} (hx : x ∈ l) (h : p x = true) (r : List α) :
    modifyFirst p f (l ++ r) = modifyFirst p f l ++ r := by
  induction l with
  | nil => exact absurd hx (by simp)
  | cons y l ih =>
    rw [List.cons_append, modifyFirst, modifyFirst]
    by_cases hy : p y = true
    · rw [if_pos hy, if_pos hy, List.cons_append]
    · have hxl : x ∈ l := by
        rcases List.mem_cons.mp hx with rfl | hxl
        · exact absurd h hy
        · exact hxl
      rw [if_neg hy, if_neg hy, ih hxl, List.cons_append]

@[simp] theorem length_modifyFirst (l : List α) : (modifyFirst p f l).length = l.length := by
  induction l with
  | nil => rfl
  | cons x l ih =>
    rw [modifyFirst]
    split
    · rfl
    · rw [List.length_cons, List.length_cons, ih]

-- A map that keeps the test and the change.
theorem map_modifyFirst {g : α → β} {q : β → Bool} {f' : β → β} (hp : ∀ x, q (g x) = p x)
    (hf : ∀ x, p x = true → g (f x) = f' (g x)) (l : List α) :
    (modifyFirst p f l).map g = modifyFirst q f' (l.map g) := by
  induction l with
  | nil => rfl
  | cons x l ih =>
    rw [List.map_cons, modifyFirst, modifyFirst, hp x]
    by_cases hx : p x = true
    · rw [if_pos hx, if_pos hx, List.map_cons, hf x hx]
    · rw [if_neg hx, if_neg hx, List.map_cons, ih]

-- The first match splits the list.
theorem find?_split {l : List α} {x : α} (h : l.find? p = some x) :
    ∃ pre post, l = pre ++ x :: post ∧ p x = true ∧ ∀ y ∈ pre, p y = false := by
  obtain ⟨hpx, pre, post, heq, hpre⟩ := List.find?_eq_some_iff_append.mp h
  exact ⟨pre, post, heq, hpx, fun y hy => by simpa using hpre y hy⟩

theorem modifyFirst_split {pre post : List α} {x : α} (hx : p x = true)
    (hpre : ∀ y ∈ pre, p y = false) :
    modifyFirst p f (pre ++ x :: post) = pre ++ f x :: post := by
  rw [modifyFirst_append_of_none hpre, modifyFirst, if_pos hx]

-- A list splits at its first match in one way.
theorem first_unique {P : α → Prop} {pre post pre' post' : List α} {b c : α}
    (heq : pre ++ b :: post = pre' ++ c :: post') (hb : P b) (hc : P c) (hpre : ∀ d ∈ pre, ¬ P d)
    (hpre' : ∀ d ∈ pre', ¬ P d) : pre = pre' ∧ b = c ∧ post = post' := by
  have hno : ∀ {x y : α} {xs ys zs ws : List α}, P x → (∀ d ∈ xs ++ y :: zs, ¬ P d) →
      x :: ws ≠ y :: ys := by
    rintro x y xs ys zs ws hx hnone hxy
    obtain ⟨rfl, -⟩ := List.cons.inj hxy
    exact hnone x (by simp) hx
  rcases List.append_eq_append_iff.mp heq with ⟨mid, rfl, hmid⟩ | ⟨mid, rfl, hmid⟩
  · cases mid with
    | nil => simpa using hmid
    | cons d mid => exact absurd hmid (hno hb hpre')
  · cases mid with
    | nil => simpa using hmid.symm
    | cons d mid => exact absurd hmid (hno hc hpre)

end FirstMatch
