import JacobOS.Lib.FirstMatch
import Mathlib.Data.List.ReduceOption
import Mathlib.Logic.Function.Basic
import Mathlib.Logic.Relation

/-!
# Trees of files and directories

A file system as its users see it: the nodes that exist, the bytes of a file and the names in a directory.  A
directory is a row of slots.  A name that is removed leaves its slot empty, and a new name goes to the first slot
that is.
-/

namespace FileTree

open FirstMatch Relation

/-- What a node holds: bytes, or names of nodes. -/
inductive Node (ι ν β : Type) where
  | file (data : List β)
  | dir (slots : List (Option (ι × ν)))

/-- The nodes that exist. -/
abbrev Tree (ι ν β : Type) : Type := ι → Option (Node ι ν β)

variable {ι ν β : Type}

def slots (t : Tree ι ν β) (i : ι) : List (Option (ι × ν)) :=
  match t i with
  | some (.dir s) => s
  | _ => []

/-- The names in a directory, from the first slot to the last. -/
def entries (t : Tree ι ν β) (i : ι) : List (ι × ν) := (slots t i).reduceOption

theorem slots_dir {t : Tree ι ν β} {i : ι} {s : List (Option (ι × ν))} (h : t i = some (.dir s)) : slots t i = s := by
  rw [slots, h]

theorem slots_file {t : Tree ι ν β} {i : ι} {data : List β} (h : t i = some (.file data)) : slots t i = [] := by
  rw [slots, h]

theorem slots_none {t : Tree ι ν β} {i : ι} (h : t i = none) : slots t i = [] := by
  rw [slots, h]

/-- The slots with an entry in the first one that is empty, or in a new row of `more + 1`. -/
def link (more : Nat) (e : ι × ν) (s : List (Option (ι × ν))) : List (Option (ι × ν)) :=
  if s.any Option.isNone then modifyFirst Option.isNone (fun _ => some e) s
  else s ++ some e :: List.replicate more none

/-- The new entry among the others. -/
theorem link_split (more : Nat) (e : ι × ν) (s : List (Option (ι × ν))) :
    ∃ pre post, s.reduceOption = pre ++ post ∧ (link more e s).reduceOption = pre ++ e :: post := by
  unfold link
  cases hfind : s.find? Option.isNone with
  | some x =>
    obtain ⟨pre, post, rfl, hx, hpre⟩ := find?_split hfind
    obtain rfl : x = none := Option.isNone_iff_eq_none.mp hx
    refine ⟨pre.reduceOption, post.reduceOption, ?_, ?_⟩
    · rw [List.reduceOption_append, List.reduceOption_cons_of_none]
    · rw [if_pos (by simp), modifyFirst_split hx hpre, List.reduceOption_append, List.reduceOption_cons_of_some]
  | none =>
    have hfull : ¬ s.any Option.isNone = true := by
      rw [List.any_eq_true]
      rintro ⟨x, hx, hnone⟩
      exact List.find?_eq_none.mp hfind x hx hnone
    refine ⟨s.reduceOption, [], (List.append_nil _).symm, ?_⟩
    rw [if_neg hfull, List.reduceOption_append, List.reduceOption_cons_of_some, List.reduceOption_replicate_none]

section Names

variable [DecidableEq ν]

/-- The node of the first entry with the name. -/
def lookup (t : Tree ι ν β) (i : ι) (name : ν) : Option ι :=
  ((entries t i).find? fun e => decide (e.2 = name)).map Prod.fst

/-- The slots without the first entry with the name. -/
def unlink (name : ν) (s : List (Option (ι × ν))) : List (Option (ι × ν)) :=
  modifyFirst (fun x => x.any fun e => decide (e.2 = name)) (fun _ => none) s

/-- The first entry with the name among the others. -/
theorem unlink_split {name : ν} {s : List (Option (ι × ν))} {e : ι × ν}
    (h : (s.reduceOption.find? fun x => decide (x.2 = name)) = some e) :
    ∃ pre post, s.reduceOption = pre ++ e :: post ∧ (unlink name s).reduceOption = pre ++ post := by
  induction s with
  | nil => cases h
  | cons x s ih =>
    unfold unlink at ih ⊢
    cases x with
    | none =>
      obtain ⟨pre, post, heq, hrest⟩ := ih h
      refine ⟨pre, post, by rw [List.reduceOption_cons_of_none, heq], ?_⟩
      rw [modifyFirst, if_neg (by simp), List.reduceOption_cons_of_none, hrest]
    | some y =>
      rw [List.reduceOption_cons_of_some, List.find?_cons] at h
      rw [modifyFirst]
      by_cases hy : y.2 = name
      · rw [decide_eq_true hy] at h
        obtain rfl : y = e := Option.some.inj h
        refine ⟨[], s.reduceOption, List.reduceOption_cons_of_some .., ?_⟩
        rw [if_pos (by simp [hy]), List.reduceOption_cons_of_none]
        rfl
      · rw [decide_eq_false hy] at h
        obtain ⟨pre, post, heq, hrest⟩ := ih h
        refine ⟨y :: pre, post, by rw [List.reduceOption_cons_of_some, heq]; rfl, ?_⟩
        rw [if_neg (by simp [hy]), List.reduceOption_cons_of_some, hrest]
        rfl

theorem lookup_congr {t t' : Tree ι ν β} {i : ι} (h : slots t' i = slots t i) (name : ν) :
    lookup t' i name = lookup t i name := by
  rw [lookup, lookup, entries, entries, h]

-- A new entry hides no other name.
theorem find_link (more : Nat) {e : ι × ν} {name : ν} (h : e.2 ≠ name) (s : List (Option (ι × ν))) :
    ((link more e s).reduceOption.find? fun x => decide (x.2 = name)) =
      s.reduceOption.find? fun x => decide (x.2 = name) := by
  obtain ⟨pre, post, hbefore, hafter⟩ := link_split more e s
  rw [hbefore, hafter, List.find?_append, List.find?_append, List.find?_cons, decide_eq_false h]

-- It is found, unless its name is taken.
theorem find_link_self (more : Nat) {e : ι × ν} {s : List (Option (ι × ν))}
    (h : (s.reduceOption.find? fun x => decide (x.2 = e.2)) = none) :
    ((link more e s).reduceOption.find? fun x => decide (x.2 = e.2)) = some e := by
  obtain ⟨pre, post, hbefore, hafter⟩ := link_split more e s
  rw [hbefore, List.find?_append, Option.or_eq_none_iff] at h
  rw [hafter, List.find?_append, h.1, List.find?_cons, decide_eq_true rfl]
  rfl

end Names

/-! ## What is below a node -/

section Below

-- `real` leaves out the names that lead to a directory itself and up.
variable (real : ν → Bool)

def Child (t : Tree ι ν β) (p c : ι) : Prop := ∃ name, (c, name) ∈ entries t p ∧ real name = true

def Below (t : Tree ι ν β) (i j : ι) : Prop := ReflTransGen (Child real t) i j

/-- A directory keeps only what leads to itself and up. -/
def clear (s : List (Option (ι × ν))) : List (Option (ι × ν)) :=
  s.map fun x => x.filter fun e => !real e.2

-- A name that goes anyway.
theorem clear_unlink [DecidableEq ν] {name : ν} (hname : real name = true) (s : List (Option (ι × ν))) :
    clear real (unlink name s) = clear real s := by
  unfold clear unlink
  induction s with
  | nil => rfl
  | cons x s ih =>
    rw [modifyFirst]
    split
    · rename_i hx
      obtain ⟨e, rfl, he⟩ := Option.any_eq_true _ _ |>.mp hx
      rw [List.map_cons, List.map_cons, Option.filter_some, of_decide_eq_true he, hname]
      rfl
    · rw [List.map_cons, List.map_cons, ih]

open Classical in
/-- Nodes that go. -/
noncomputable def prune (gone : ι → Prop) (t : Tree ι ν β) : Tree ι ν β :=
  fun j => if gone j then none else t j

end Below

end FileTree
