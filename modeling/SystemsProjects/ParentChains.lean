import Mathlib.Data.List.Pairwise

/-!
# Chains of parents

Nodes are numbers, and a node may have a parent with a smaller number. The chain of
a node lists the node, its parent and so on; the last one is the root. A walk with
as many steps as the number of the node reaches the root, so that chains can be
computed. Chains are ordered, a chain contains the chain of each of its nodes as a
suffix, and a chain depends only on the parents of its own nodes.
-/
namespace SystemsProjects.ParentChains

open List

variable {up up' : ℕ → Option ℕ} {o x y : ℕ}

/-- At most the given number of steps from a node to its parent. -/
def walk (up : ℕ → Option ℕ) : ℕ → ℕ → List ℕ
  | 0, o => [o]
  | n+1, o =>
    match up o with
    | none => [o]
    | some o' => o :: walk up n o'

def chain (up : ℕ → Option ℕ) (o : ℕ) : List ℕ := walk up o o

def root (up : ℕ → Option ℕ) (o : ℕ) : ℕ := (chain up o).getLastD o

def Decreasing (up : ℕ → Option ℕ) : Prop := ∀ o o', up o = some o' → o' < o

theorem walk_of_none (h : up o = none) (n : ℕ) : walk up n o = [o] := by
  cases n with
  | zero => rfl
  | succ n => simp [walk, h]

theorem walk_eq_of_le (hd : Decreasing up) {n m : ℕ} (hn : o ≤ n) (hm : o ≤ m) :
    walk up n o = walk up m o := by
  induction n generalizing o m with
  | zero =>
    have hup : up o = none := by
      cases hup : up o with
      | none => rfl
      | some o' => exact absurd (hd _ _ hup) (by omega)
    rw [walk_of_none hup, walk_of_none hup]
  | succ n ih =>
    cases hup : up o with
    | none => rw [walk_of_none hup, walk_of_none hup]
    | some o' =>
      have hlt := hd _ _ hup
      obtain ⟨m, rfl⟩ : ∃ k, m = k+1 := ⟨m-1, by omega⟩
      simp only [walk, hup]
      rw [ih (by omega) (show o' ≤ m by omega)]

theorem chain_of_none (h : up o = none) : chain up o = [o] := walk_of_none h o

theorem chain_of_some (hd : Decreasing up) (h : up o = some x) : chain up o = o :: chain up x := by
  have hlt := hd _ _ h
  obtain ⟨n, rfl⟩ : ∃ k, o = k+1 := ⟨o-1, by omega⟩
  simp only [chain, walk, h]
  rw [walk_eq_of_le hd (show x ≤ n by omega) (Nat.le_refl x)]

theorem parent_induction (hd : Decreasing up) {P : ℕ → Prop}
    (h : ∀ o, (∀ o', up o = some o' → P o') → P o) (o : ℕ) : P o := by
  induction o using Nat.strongRecOn with
  | ind o ih => exact h o fun o' ho => ih o' (hd _ _ ho)

theorem mem_chain_self (up : ℕ → Option ℕ) (o : ℕ) : o ∈ chain up o := by
  cases o with
  | zero => simp [chain, walk]
  | succ n =>
    simp only [chain, walk]
    split <;> simp

section

variable (hd : Decreasing up)
include hd

theorem mem_chain : x ∈ chain up o ↔ x = o ∨ ∃ o', up o = some o' ∧ x ∈ chain up o' := by
  cases h : up o with
  | none => simp [chain_of_none h]
  | some o' => simp [chain_of_some hd h]

theorem forall_mem_chain {P : ℕ → Prop} (hP : ∀ y z, P y → up y = some z → P z) (ho : P o) :
    ∀ y ∈ chain up o, P y := by
  induction o using parent_induction hd with
  | h o ih =>
    intro y hy
    rcases (mem_chain hd).mp hy with rfl | ⟨o', hup, hy⟩
    · exact ho
    · exact ih o' hup (hP _ _ ho hup) y hy

theorem le_of_mem_chain (h : x ∈ chain up o) : x ≤ o :=
  forall_mem_chain hd (P := (· ≤ o))
    (fun _ _ hy hz => Nat.le_trans (Nat.le_of_lt (hd _ _ hz)) hy) (Nat.le_refl o) x h

theorem chain_suffix (h : x ∈ chain up o) : chain up x <:+ chain up o := by
  induction o using parent_induction hd with
  | h o ih =>
    rcases (mem_chain hd).mp h with rfl | ⟨o', hup, hx⟩
    · exact suffix_rfl
    · rw [chain_of_some hd hup]
      exact (ih o' hup hx).trans (suffix_cons o _)

theorem mem_chain_trans (h : x ∈ chain up o) (h' : y ∈ chain up x) :
    y ∈ chain up o := (chain_suffix hd h).subset h'

theorem chain_pairwise (o : ℕ) : (chain up o).Pairwise (· > ·) := by
  induction o using parent_induction hd with
  | h o ih =>
    cases hup : up o with
    | none => simp [chain_of_none hup]
    | some o' =>
      rw [chain_of_some hd hup, pairwise_cons]
      exact ⟨fun y hy => Nat.lt_of_le_of_lt (le_of_mem_chain hd hy) (hd _ _ hup), ih o' hup⟩

theorem chain_nodup (o : ℕ) : (chain up o).Nodup :=
  (chain_pairwise hd o).imp fun h => Nat.ne_of_gt h

/-- A node of a chain other than its first is the parent of a node of the chain. -/
theorem exists_child (h : x ∈ chain up o) (hne : x ≠ o) : ∃ y ∈ chain up o, up y = some x := by
  induction o using parent_induction hd with
  | h o ih =>
    rcases (mem_chain hd).mp h with rfl | ⟨o', hup, hx⟩
    · exact absurd rfl hne
    · by_cases heq : x = o'
      · exact ⟨o, mem_chain_self up o, heq ▸ hup⟩
      · obtain ⟨y, hy, hyx⟩ := ih o' hup hx heq
        refine ⟨y, ?_, hyx⟩
        rw [chain_of_some hd hup]
        exact mem_cons_of_mem o hy

end

theorem walk_congr {n : ℕ} (h : ∀ y ∈ walk up n o, up' y = up y) : walk up' n o = walk up n o := by
  induction n generalizing o with
  | zero => rfl
  | succ n ih =>
    have ho : up' o = up o := h o (by simp only [walk]; split <;> simp)
    cases hup : up o with
    | none => rw [walk_of_none hup, walk_of_none (ho.trans hup)]
    | some o' =>
      simp only [walk, ho, hup] at h ⊢
      rw [ih fun y hy => h y (mem_cons_of_mem o hy)]

theorem chain_congr (h : ∀ y ∈ chain up o, up' y = up y) : chain up' o = chain up o :=
  walk_congr h

theorem root_of_none (h : up o = none) : root up o = o := by simp [root, chain_of_none h]

theorem root_of_some (hd : Decreasing up) (h : up o = some x) : root up o = root up x := by
  unfold root
  rw [chain_of_some hd h, getLastD_cons]
  cases hc : chain up x with
  | nil => exact absurd (mem_chain_self up x) (by simp [hc])
  | cons y l => rw [getLastD_cons, getLastD_cons]

theorem root_of_mem (hd : Decreasing up) (h : x ∈ chain up o) : root up x = root up o := by
  refine forall_mem_chain hd (P := fun y => root up y = root up o) (fun y z hy hz => ?_) rfl x h
  rw [← root_of_some hd hz, hy]

theorem root_mem_chain (hd : Decreasing up) (o : ℕ) : root up o ∈ chain up o := by
  induction o using parent_induction hd with
  | h o ih =>
    cases hup : up o with
    | none => rw [root_of_none hup]; exact mem_chain_self up o
    | some o' =>
      rw [root_of_some hd hup, chain_of_some hd hup]
      exact mem_cons_of_mem o (ih o' hup)

theorem up_root (hd : Decreasing up) (o : ℕ) : up (root up o) = none := by
  induction o using parent_induction hd with
  | h o ih =>
    cases hup : up o with
    | none => rw [root_of_none hup]; exact hup
    | some o' => rw [root_of_some hd hup]; exact ih o' hup

theorem root_congr (h : ∀ y ∈ chain up o, up' y = up y) : root up' o = root up o := by
  rw [root, root, chain_congr h]

end SystemsProjects.ParentChains
