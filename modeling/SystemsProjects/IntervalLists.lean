import Mathlib.Algebra.GroupWithZero.Nat
import Mathlib.Order.Interval.Finset.Nat

/-!
# Ordered lists of disjoint intervals

The elements of a list stand for half-open intervals of numbers, given by two
functions. A list is ordered if every interval ends before the next ones start.
Inserting an interval before the first one that starts at or after its end keeps the
order, if it meets none of the others.
-/
namespace SystemsProjects.IntervalLists

open List

variable {α : Type} (lo hi : α → ℕ)

def Ordered (l : List α) : Prop := l.Pairwise fun a b => hi a ≤ lo b

def Apart (a b : α) : Prop := hi a ≤ lo b ∨ hi b ≤ lo a

/-- Before the first interval that starts at or after its end, else at the tail. -/
def insertInterval : List α → α → List α
  | [], a => [a]
  | b :: bs, a => if hi a ≤ lo b then a :: b :: bs else b :: insertInterval bs a

variable {lo hi}

theorem insertInterval_perm (l : List α) (a : α) : (insertInterval lo hi l a).Perm (a :: l) := by
  induction l with
  | nil => exact List.Perm.refl _
  | cons b l ih =>
    unfold insertInterval
    split
    · exact List.Perm.refl _
    · exact (ih.cons b).trans (List.Perm.swap a b l)

variable {l : List α} {a b : α}

theorem mem_insertInterval : b ∈ insertInterval lo hi l a ↔ b = a ∨ b ∈ l := by
  rw [(insertInterval_perm l a).mem_iff, mem_cons]

theorem insertInterval_eq_append (h : ∀ b ∈ l, lo b < hi a) :
    insertInterval lo hi l a = l ++ [a] := by
  induction l with
  | nil => rfl
  | cons b l ih =>
    have hb := h b (by simp)
    rw [insertInterval, if_neg (by omega), ih fun c hc => h c (by simp [hc]), cons_append]

theorem Ordered.insertInterval (h : Ordered lo hi l) (hp : ∀ b ∈ l, lo b < hi b)
    (hd : ∀ b ∈ l, Apart lo hi a b) :
    Ordered lo hi (insertInterval lo hi l a) := by
  induction l with
  | nil => exact pairwise_singleton _ _
  | cons b l ih =>
    obtain ⟨hb, hl⟩ := pairwise_cons.mp h
    unfold IntervalLists.insertInterval
    split
    · next hab =>
      refine pairwise_cons.mpr ⟨fun c hc => ?_, h⟩
      rcases mem_cons.mp hc with rfl | hc
      · exact hab
      · have h1 := hp b (by simp)
        have h2 := hb c hc
        omega
    · next hab =>
      refine pairwise_cons.mpr ⟨fun c hc => ?_, ?_⟩
      · rcases mem_insertInterval.mp hc with rfl | hc
        · exact (hd b (by simp)).resolve_left hab
        · exact hb c hc
      · exact ih hl (fun c hc => hp c (by simp [hc])) fun c hc => hd c (by simp [hc])

theorem Ordered.eq_or_apart (h : Ordered lo hi l) (ha : a ∈ l) (hb : b ∈ l) :
    a = b ∨ Apart lo hi a b := by
  induction l with
  | nil => simp at ha
  | cons c l ih =>
    obtain ⟨hc, hl⟩ := pairwise_cons.mp h
    rcases mem_cons.mp ha with rfl | ha'
    · rcases mem_cons.mp hb with rfl | hb'
      · exact .inl rfl
      · exact .inr (.inl (hc b hb'))
    · rcases mem_cons.mp hb with rfl | hb'
      · exact .inr (.inr (hc a ha'))
      · exact ih hl ha' hb'

theorem Ordered.eq_of_mem (h : Ordered lo hi l) (ha : a ∈ l) (hb : b ∈ l) {v : ℕ}
    (hav : lo a ≤ v ∧ v < hi a) (hbv : lo b ≤ v ∧ v < hi b) : a = b := by
  rcases h.eq_or_apart ha hb with heq | hab | hba
  · exact heq
  · omega
  · omega

theorem Ordered.find_eq (h : Ordered lo hi l) (ha : a ∈ l) {v : ℕ} (hav : lo a ≤ v ∧ v < hi a) :
    l.find? (fun b => lo b ≤ v ∧ v < hi b) = some a := by
  cases hf : l.find? (fun b => decide (lo b ≤ v ∧ v < hi b)) with
  | none =>
    have hn := find?_eq_none.mp hf a ha
    exact absurd (decide_eq_true hav) hn
  | some b =>
    have hbv : lo b ≤ v ∧ v < hi b := by simpa using find?_some hf
    rw [h.eq_of_mem ha (mem_of_find?_eq_some hf) hav hbv]

theorem Ordered.map (h : Ordered lo hi l) {f : α → α}
    (hf : ∀ a ∈ l, lo a ≤ lo (f a) ∧ hi (f a) ≤ hi a) : Ordered lo hi (l.map f) := by
  refine pairwise_map.mpr ?_
  refine List.Pairwise.imp_of_mem (fun {a b} ha hb hab => ?_) h
  have h1 := hf a ha
  have h2 := hf b hb
  omega

/-- As many numbers as the lengths add up to lie in the intervals of a disjoint list. -/
theorem exists_finset_length (h : l.Pairwise (Apart lo hi)) :
    ∃ u : Finset ℕ, u.card = (l.map fun a => hi a-lo a).sum ∧
      ∀ n ∈ u, ∃ a ∈ l, lo a ≤ n ∧ n < hi a := by
  induction l with
  | nil => exact ⟨∅, by simp, by simp⟩
  | cons a l ih =>
    obtain ⟨hal, hl⟩ := pairwise_cons.mp h
    obtain ⟨u, hcard, hmem⟩ := ih hl
    have hdisj : Disjoint (Finset.Ico (lo a) (hi a)) u := by
      rw [Finset.disjoint_left]
      intro n hn hu
      obtain ⟨b, hb, hlo, hhi⟩ := hmem n hu
      obtain ⟨h1, h2⟩ := Finset.mem_Ico.mp hn
      rcases hal b hb with hab | hab <;> omega
    refine ⟨Finset.Ico (lo a) (hi a) ∪ u, ?_, fun n hn => ?_⟩
    · rw [Finset.card_union_of_disjoint hdisj, Nat.card_Ico, hcard, map_cons, sum_cons]
    · rcases Finset.mem_union.mp hn with hn | hn
      · exact ⟨a, mem_cons_self, Finset.mem_Ico.mp hn⟩
      · obtain ⟨b, hb, hbn⟩ := hmem n hn
        exact ⟨b, mem_cons_of_mem _ hb, hbn⟩

/-- The lengths of disjoint intervals below a bound add up to at most the bound. -/
theorem sum_length_le {w : ℕ} (h : l.Pairwise (Apart lo hi)) (hw : ∀ a ∈ l, hi a ≤ w) :
    (l.map fun a => hi a-lo a).sum ≤ w := by
  obtain ⟨u, hcard, hmem⟩ := exists_finset_length h
  have hsub : u ⊆ Finset.range w := by
    intro n hn
    obtain ⟨a, ha, -, hlt⟩ := hmem n hn
    exact Finset.mem_range.mpr (hlt.trans_le (hw a ha))
  rw [← hcard, ← Finset.card_range w]
  exact Finset.card_le_card hsub

end SystemsProjects.IntervalLists
