import Mathlib.Data.List.Nodup

/-!
# Stacks that are kept in their own elements

A stack has room for `k` elements in a row of words, and the word after them is a link. When the
row is full, the next element takes the whole row over into words of its own and becomes the
link. When the row is empty, the linked element is taken and its words come back. The last row
has a link that is no element.
-/
namespace SystemsProjects.LinkedStacks

open Function List

variable {β : Type} [DecidableEq β]

/-- The number of elements in the row, the row, and the words that the elements have. -/
structure Rows (β : Type) where
  count : ℕ
  row : ℕ → β
  held : β → ℕ → β

/-- The first `n` words of one row and the others of another one. -/
def copy (n : ℕ) (src dst : ℕ → β) (i : ℕ) : β := if i < n then src i else dst i

def Rows.push (k : ℕ) (s : Rows β) (b : β) : Rows β :=
  if s.count = k then ⟨0, update s.row k b, update s.held b (copy (k+1) s.row (s.held b))⟩
  else ⟨s.count+1, update s.row s.count b, s.held⟩

def Rows.pop (k : ℕ) (last : β) (s : Rows β) : Option (β×Rows β) :=
  if s.count = 0 then
    if s.row k = last then none
    else some (s.row k, ⟨k, copy (k+1) (s.held (s.row k)) s.row, s.held⟩)
  else some (s.row (s.count-1), ⟨s.count-1, s.row, s.held⟩)

/-- The first words of a row, the one that was put there last at the front. -/
def stacked (n : ℕ) (row : ℕ → β) : List β := ((range n).map row).reverse

/-- The elements behind a link. -/
inductive Chain (k : ℕ) (last : β) (held : β → ℕ → β) : β → List β → Prop
  | nil : Chain k last held last []
  | cons {b : β} {l : List β} : b ≠ last → Chain k last held (held b k) l →
      Chain k last held b (b::(stacked k (held b)++l))

/-- The rows are those of a stack with these elements, all different. -/
structure Stack (k : ℕ) (last : β) (s : Rows β) (l : List β) : Prop where
  count_le : s.count ≤ k
  nodup : l.Nodup
  chain : ∃ below, Chain k last s.held (s.row k) below ∧ l = stacked s.count s.row++below

variable {k n : ℕ} {last b : β} {s : Rows β} {l : List β}

section

omit [DecidableEq β]

theorem stacked_succ (row : ℕ → β) : stacked (n+1) row = row n::stacked n row := by
  simp [stacked, range_succ]

theorem stacked_congr {row row' : ℕ → β} (h : ∀ i < n, row' i = row i) :
    stacked n row' = stacked n row := by
  unfold stacked
  rw [map_congr_left fun i hi => h i (mem_range.mp hi)]

theorem stacked_copy {m : ℕ} (h : n ≤ m) (src dst : ℕ → β) :
    stacked n (copy m src dst) = stacked n src :=
  stacked_congr fun _ hi => if_pos (Nat.lt_of_lt_of_le hi h)

@[simp] theorem copy_zero (src dst : ℕ → β) : copy 0 src dst = dst := rfl

theorem copy_succ (src dst : ℕ → β) : update (copy n src dst) n (src n) = copy (n+1) src dst := by
  funext i
  by_cases hi : i = n
  · simp [copy, hi]
  · rw [update_of_ne hi]
    simp only [copy]
    congr 1
    exact propext (by omega)

end

/-- The words of an element that is not behind the link do not matter. -/
theorem Chain.update {held : β → ℕ → β} {x : β} (h : Chain k last held x l) (hb : b ∉ l)
    (words : ℕ → β) : Chain k last (update held b words) x l := by
  induction h with
  | nil => exact .nil
  | @cons c l hne _ ih =>
    rw [mem_cons, not_or] at hb
    have hheld : Function.update held b words c = held c := update_of_ne (Ne.symm hb.1) _ _
    have htail := ih fun hmem => hb.2 (mem_append_right _ hmem)
    rw [← hheld] at htail ⊢
    exact .cons hne htail

theorem Stack.push (h : Stack k last s l) (hb : b ∉ l) (hne : b ≠ last) :
    Stack k last (s.push k b) (b::l) := by
  obtain ⟨below, hchain, rfl⟩ := h.chain
  have hnodup := nodup_cons.mpr ⟨hb, h.nodup⟩
  have hbelow : b ∉ below := fun hmem => hb (mem_append_right _ hmem)
  unfold Rows.push
  split
  · rename_i hfull
    have hlink : Chain k last (update s.held b (copy (k+1) s.row (s.held b)))
        (copy (k+1) s.row (s.held b) k) below := by
      rw [copy, if_pos (Nat.lt_succ_self k)]
      exact hchain.update hbelow _
    have hchain' : Chain k last (update s.held b (copy (k+1) s.row (s.held b))) b _ :=
      .cons hne (by rwa [update_self])
    rw [update_self, stacked_copy (Nat.le_succ k)] at hchain'
    refine ⟨Nat.zero_le _, hnodup, b::(stacked k s.row++below), ?_, ?_⟩
    · dsimp only
      rwa [update_self k b s.row]
    · rw [hfull]
      rfl
  · rename_i hfull
    have hlt : s.count < k := Nat.lt_of_le_of_ne h.count_le hfull
    refine ⟨hlt, hnodup, below, ?_, ?_⟩
    · dsimp only
      rw [update_of_ne (Nat.ne_of_gt hlt)]
      exact hchain
    · dsimp only
      rw [stacked_succ, update_self, stacked_congr fun i hi => update_of_ne (Nat.ne_of_lt hi) _ _]
      rfl

theorem Stack.pop_nil (h : Stack k last s []) : s.pop k last = none := by
  obtain ⟨below, hchain, hl⟩ := h.chain
  obtain ⟨hrow, rfl⟩ := append_eq_nil_iff.mp hl.symm
  have hcount : s.count = 0 := by simpa [stacked] using hrow
  generalize hx : s.row k = x at hchain
  cases hchain
  rw [Rows.pop, if_pos hcount, if_pos hx]

theorem Stack.pop_cons (h : Stack k last s (b::l)) :
    ∃ t, s.pop k last = some (b, t) ∧ Stack k last t l ∧ t.held = s.held := by
  obtain ⟨below, hchain, hl⟩ := h.chain
  have hnodup := (nodup_cons.mp h.nodup).2
  unfold Rows.pop
  cases hcount : s.count with
  | zero =>
    rw [hcount] at hl
    generalize hx : s.row k = x at hchain
    cases hchain with
    | nil => exact nomatch hl
    | @cons _ below hne hrest =>
      obtain ⟨rfl, rfl⟩ := cons.inj hl
      refine ⟨⟨k, copy (k+1) (s.held b) s.row, s.held⟩, by rw [if_pos rfl, if_neg hne],
        ⟨Nat.le_refl k, hnodup, below, ?_, ?_⟩, rfl⟩
      · dsimp only
        rw [copy, if_pos (Nat.lt_succ_self k)]
        exact hrest
      · rw [stacked_copy (Nat.le_succ k)]
  | succ n =>
    rw [hcount, stacked_succ] at hl
    obtain ⟨rfl, rfl⟩ := cons.inj hl
    exact ⟨_, if_neg (Nat.succ_ne_zero n), ⟨by have := h.count_le; dsimp only; omega, hnodup, below,
      hchain, rfl⟩, rfl⟩

end SystemsProjects.LinkedStacks
