import Mathlib.Logic.Relation

/-!
# Rooted trees as parent-child relations

Nodes are the elements that satisfy `live`; `edge a b` says that `b` is a child of `a`.  Trees are
grown and pruned one leaf at a time.
-/

namespace RootedTree

open Relation

variable {α : Type} {live : α → Prop} {edge : α → α → Prop} {root : α}

structure IsTree (live : α → Prop) (edge : α → α → Prop) (root : α) : Prop where
  root_live : live root
  edge_live : ∀ {a b}, edge a b → live a ∧ live b
  no_parent : ∀ a, ¬ edge a root
  parent : ∀ {a a' b}, edge a b → edge a' b → a = a'
  reach : ∀ {b}, live b → ReflTransGen edge root b

-- A path that ends elsewhere never enters a node without children.
theorem reach_avoiding {r x z : α} (h : ReflTransGen edge r x) (hz : ∀ y, ¬ edge z y) (hx : x ≠ z) :
    ReflTransGen (fun a b => edge a b ∧ b ≠ z) r x := by
  induction h with
  | refl => exact .refl
  | tail _ hbc ih =>
    rename_i b c _
    have hbz : b ≠ z := by
      rintro rfl
      exact hz _ hbc
    exact (ih hbz).tail ⟨hbc, hx⟩

-- A path that ends outside the part below `z` stays outside.
theorem reach_outside {r x z : α} (h : ReflTransGen edge r x) (hx : ¬ ReflTransGen edge z x) :
    ReflTransGen (fun a b => edge a b ∧ ¬ ReflTransGen edge z b) r x := by
  induction h with
  | refl => exact .refl
  | tail _ hbc ih => exact (ih fun hzb => hx (hzb.tail hbc)).tail ⟨hbc, hx⟩

-- What is left below `r` when everything below `z` is cut off.
theorem reach_pruned {r x z : α} (hr : ¬ ReflTransGen edge z r) :
    ReflTransGen (fun a b => edge a b ∧ ¬ ReflTransGen edge z b) r x ↔
      ReflTransGen edge r x ∧ ¬ ReflTransGen edge z x := by
  constructor
  · intro h
    induction h with
    | refl => exact ⟨.refl, hr⟩
    | tail _ hbc ih => exact ⟨ih.1.tail hbc.1, hbc.2⟩
  · rintro ⟨h, hx⟩
    exact reach_outside h hx

namespace IsTree

theorem congr {live' : α → Prop} {edge' : α → α → Prop} (h : IsTree live edge root)
    (hlive : ∀ a, live' a ↔ live a) (hedge : ∀ a b, edge' a b ↔ edge a b) :
    IsTree live' edge' root := by
  have hl : live' = live := funext fun a => propext (hlive a)
  have he : edge' = edge := funext fun a => funext fun b => propext (hedge a b)
  rw [hl, he]
  exact h

theorem exists_parent (h : IsTree live edge root) {b : α} (hb : live b) (hne : b ≠ root) :
    ∃ a, edge a b := by
  rcases ReflTransGen.cases_tail (h.reach hb) with heq | ⟨a, _, hab⟩
  · exact absurd heq hne
  · exact ⟨a, hab⟩

theorem addLeaf (h : IsTree live edge root) {p z : α} (hp : live p) (hz : ¬ live z) :
    IsTree (fun a => live a ∨ a = z) (fun a b => edge a b ∨ (a = p ∧ b = z)) root := by
  have hfresh : ∀ a, ¬ edge a z := fun a ha => hz (h.edge_live ha).2
  refine ⟨Or.inl h.root_live, ?_, ?_, ?_, ?_⟩
  · rintro a b (hab | ⟨rfl, rfl⟩)
    · exact ⟨Or.inl (h.edge_live hab).1, Or.inl (h.edge_live hab).2⟩
    · exact ⟨Or.inl hp, Or.inr rfl⟩
  · rintro a (ha | ⟨rfl, hr⟩)
    · exact h.no_parent a ha
    · exact hz (hr ▸ h.root_live)
  · rintro a a' b (hab | ⟨rfl, rfl⟩) (hab' | ⟨rfl, hb⟩)
    · exact h.parent hab hab'
    · exact absurd (hb ▸ hab) (hfresh a)
    · exact absurd hab' (hfresh a')
    · rfl
  · have hold : ∀ {b}, live b →
        ReflTransGen (fun a b => edge a b ∨ (a = p ∧ b = z)) root b :=
      fun hb => ReflTransGen.mono (fun _ _ hab => Or.inl hab) _ _ (h.reach hb)
    rintro b (hb | rfl)
    · exact hold hb
    · exact (hold hp).tail (Or.inr ⟨rfl, rfl⟩)

theorem removeLeaf (h : IsTree live edge root) {z : α} (hz : ∀ y, ¬ edge z y) (hroot : z ≠ root) :
    IsTree (fun a => live a ∧ a ≠ z) (fun a b => edge a b ∧ b ≠ z) root := by
  refine ⟨⟨h.root_live, Ne.symm hroot⟩, ?_, ?_, ?_, ?_⟩
  · rintro a b ⟨hab, hbz⟩
    refine ⟨⟨(h.edge_live hab).1, ?_⟩, (h.edge_live hab).2, hbz⟩
    rintro rfl
    exact hz b hab
  · rintro a ⟨ha, -⟩
    exact h.no_parent a ha
  · rintro a a' b ⟨hab, -⟩ ⟨hab', -⟩
    exact h.parent hab hab'
  · rintro b ⟨hb, hbz⟩
    exact reach_avoiding (h.reach hb) hz hbz

-- No node is its own proper descendant.
theorem acyclic (h : IsTree live edge root) {a : α} : ¬ TransGen edge a a := by
  intro hcyc
  have hlive : live a := by
    obtain ⟨b, -, hba⟩ := TransGen.tail'_iff.mp hcyc
    exact (h.edge_live hba).2
  have hreach := h.reach hlive
  -- walking back from `a` to the root carries the cycle along
  induction hreach with
  | refl =>
    obtain ⟨b, -, hba⟩ := TransGen.tail'_iff.mp hcyc
    exact h.no_parent b hba
  | tail _ hbc ih =>
    rename_i b c _
    obtain ⟨x, hcx, hxc⟩ := TransGen.tail'_iff.mp hcyc
    obtain rfl := h.parent hxc hbc
    exact ih (TransGen.head' hbc hcx) (h.edge_live hbc).1

theorem not_reach_parent (h : IsTree live edge root) {a b : α} (hab : edge a b) :
    ¬ ReflTransGen edge b a := fun hba => h.acyclic (TransGen.head' hab hba)

-- A node is below `z` through its parent, unless it is `z`.
theorem reach_child (h : IsTree live edge root) {p c z : α} (hpc : edge p c) :
    ReflTransGen edge z c ↔ c = z ∨ ReflTransGen edge z p := by
  constructor
  · intro hzc
    rcases ReflTransGen.cases_tail hzc with heq | ⟨b, hzb, hbc⟩
    · exact Or.inl heq
    · exact Or.inr (h.parent hbc hpc ▸ hzb)
  · rintro (rfl | hzp)
    · exact .refl
    · exact hzp.tail hpc

end IsTree

end RootedTree
