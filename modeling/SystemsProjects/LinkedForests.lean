import Mathlib.Data.List.Nodup

/-!
# Forests with parent pointers and lists of children

A forest is given twice: by a pointer from each node to its parent and by a list of
children for each node. The two are linked if they say the same. Attaching a node without
a parent, detaching a node, and moving one from a list to another keep them linked, and
keep every node below the root as long as a new parent is below it.
-/
namespace SystemsProjects.LinkedForests
open Function

variable {α : Type*}

structure Forest (α : Type*) where
  parent : α → Option α
  children : α → List α

/-- The pointers and the lists describe the same edges, each of them once. -/
structure Forest.Linked (f : Forest α) : Prop where
  mem_iff : ∀ q c, c ∈ f.children q ↔ f.parent c = some q
  nodup : ∀ q, (f.children q).Nodup

inductive Forest.Rooted (f : Forest α) (root : α) : α → Prop
  | root : Forest.Rooted f root root
  | step {a b : α} : f.parent a = some b → Forest.Rooted f root b → Forest.Rooted f root a

variable [DecidableEq α]

namespace Forest

def attach (f : Forest α) (q c : α) : Forest α :=
  ⟨update f.parent c (some q), update f.children q (f.children q++[c])⟩

def detach (f : Forest α) (q c : α) : Forest α :=
  ⟨update f.parent c none, update f.children q ((f.children q).erase c)⟩

variable {f : Forest α} {root q r c a b : α}

theorem parent_attach : (f.attach q c).parent c = some q := update_self _ _ _

theorem parent_attach_of_ne (h : a ≠ c) : (f.attach q c).parent a = f.parent a :=
  update_of_ne h _ _

theorem parent_detach : (f.detach q c).parent c = none := update_self _ _ _

theorem parent_detach_of_ne (h : a ≠ c) : (f.detach q c).parent a = f.parent a :=
  update_of_ne h _ _

theorem Linked.attach (h : f.Linked) (hc : f.parent c = none) : (f.attach q c).Linked := by
  have hnone : ∀ r, c ∉ f.children r := fun r hmem => by
    rw [(h.mem_iff r c).mp hmem] at hc
    cases hc
  constructor
  · intro r a
    by_cases hac : a = c
    · subst hac
      rw [parent_attach, Option.some.injEq]
      by_cases hrq : r = q
      · subst hrq
        simp [Forest.attach]
      · simp [Forest.attach, update_of_ne hrq, hnone r, Ne.symm hrq]
    · rw [parent_attach_of_ne hac, ← h.mem_iff r a]
      by_cases hrq : r = q
      · subst hrq
        simp [Forest.attach, hac]
      · simp [Forest.attach, update_of_ne hrq]
  · intro r
    by_cases hrq : r = q
    · subst hrq
      simp only [Forest.attach, update_self]
      exact List.nodup_append.mpr ⟨h.nodup r, List.nodup_singleton c, fun a ha b hb heq => by
        rw [List.mem_singleton] at hb
        exact hnone r (hb ▸ heq ▸ ha)⟩
    · simp only [Forest.attach, update_of_ne hrq]
      exact h.nodup r

theorem Linked.detach (h : f.Linked) (hc : f.parent c = some q) : (f.detach q c).Linked := by
  constructor
  · intro r a
    by_cases hac : a = c
    · subst hac
      rw [parent_detach]
      refine iff_of_false (fun hmem => ?_) nofun
      by_cases hrq : r = q
      · subst hrq
        simp only [Forest.detach, update_self] at hmem
        exact (h.nodup r).not_mem_erase hmem
      · simp only [Forest.detach, update_of_ne hrq] at hmem
        exact hrq (Option.some.inj (((h.mem_iff r a).mp hmem).symm.trans hc))
    · rw [parent_detach_of_ne hac, ← h.mem_iff r a]
      by_cases hrq : r = q
      · subst hrq
        simp only [Forest.detach, update_self, List.mem_erase_of_ne hac]
      · simp only [Forest.detach, update_of_ne hrq]
  · intro r
    by_cases hrq : r = q
    · subst hrq
      simp only [Forest.detach, update_self]
      exact (h.nodup r).erase c
    · simp only [Forest.detach, update_of_ne hrq]
      exact h.nodup r

/-- A node without a parent is on no path from another node to the root. -/
theorem Rooted.attach (h : f.Rooted root a) (hc : f.parent c = none) :
    (f.attach q c).Rooted root a := by
  induction h with
  | root => exact .root
  | @step a b hab _ ih =>
    have hne : a ≠ c := by
      rintro rfl
      rw [hc] at hab
      cases hab
    exact .step ((parent_attach_of_ne hne).trans hab) ih

/-- A node without children is on no path from another node to the root. -/
theorem Rooted.detach (h : f.Rooted root a) (hleaf : ∀ b, f.parent b ≠ some c) (hne : a ≠ c) :
    (f.detach q c).Rooted root a := by
  induction h with
  | root => exact .root
  | @step a b hab _ ih =>
    have hbc : b ≠ c := by
      rintro rfl
      exact hleaf a hab
    exact .step ((parent_detach_of_ne hne).trans hab) (ih hbc)

theorem Rooted.move (h : f.Rooted root a) (hr : f.parent r = some root) (hrc : r ≠ c) :
    ((f.detach q c).attach r c).Rooted root a := by
  have hnew : ((f.detach q c).attach r c).Rooted root r :=
    .step ((parent_attach_of_ne hrc).trans ((parent_detach_of_ne hrc).trans hr)) .root
  induction h with
  | root => exact .root
  | @step a b hab _ ih =>
    by_cases hac : a = c
    · subst hac
      exact .step parent_attach hnew
    · exact .step ((parent_attach_of_ne hac).trans ((parent_detach_of_ne hac).trans hab)) ih

end Forest

end SystemsProjects.LinkedForests
