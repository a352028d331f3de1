import Mathlib.Logic.Equiv.Basic

/-!
# The sort of the transactions

`sortinput` copies the time stamps of the records to an array of its own, which has 300 places, in
the order of the list; the number of transactions is not compared with that. `bubble_sort` orders the array of time stamps, and with it the records of the transactions. The
elements of the list and their objects stay where they are: when two neighbours of the array are
out of order, the fields of the two records are exchanged through a record of their own, and then
the two time stamps. In the inner loop the element `p` goes along with `i`, so that its object is
the one at position `i` of the list.
-/
namespace SystemsProjects.TransactionSort
open Function

variable {α : Type}

/-- `struct unit`, with the pointers to its texts. -/
structure Record (α : Type) where
  sign : α
  date : α
  amount : α
  descrition : α
  deriving DecidableEq, Repr

/-- The array, and the records by their addresses. -/
structure Sorting (α : Type) where
  a : ℕ → ℤ
  unit : ℕ → Record α

/-- The assignments to the two records, whose fields are first copied to `temp`. -/
def exchange (unit : ℕ → Record α) (p q : ℕ) : ℕ → Record α :=
  let temp : Record α :=
    ⟨(unit p).sign, (unit p).date, (unit p).amount, (unit p).descrition⟩
  let unit := update unit p
    ⟨(unit q).sign, (unit q).date, (unit q).amount, (unit q).descrition⟩
  update unit q ⟨temp.sign, temp.date, temp.amount, temp.descrition⟩

/-- The body of the inner loop; `obj` gives the objects of the elements in the order of the list. -/
def compare (obj : ℕ → ℕ) (i : ℕ) (s : Sorting α) : Sorting α :=
  if s.a (i+1) < s.a i then
    { a := update (update s.a i (s.a (i+1))) (i+1) (s.a i)
      unit := exchange s.unit (obj i) (obj (i+1)) }
  else s

/-- The rounds of the inner loop for `i` below a bound. -/
def inner (obj : ℕ → ℕ) : ℕ → Sorting α → Sorting α
  | 0, s => s
  | i+1, s => compare obj i (inner obj i s)

/-- The rounds of the outer loop for `j` below a bound. -/
def outer (obj : ℕ → ℕ) (n : ℕ) : ℕ → Sorting α → Sorting α
  | 0, s => s
  | j+1, s => inner obj (n-1-j) (outer obj n j s)

def bubbleSort (obj : ℕ → ℕ) (n : ℕ) (s : Sorting α) : Sorting α := outer obj n (n-1) s

/-- The length of the arrays `a` and `b` of `sortinput`. -/
def arrayLength : ℕ := 300

/-- The loop of `sortinput` from index `i` on for so many more elements, which stores the date and
its number; `none` is a store behind the arrays. -/
def fillKeys (atoi : α → ℤ) (obj : ℕ → ℕ) (unit : ℕ → Record α) : ℕ → ℕ → (ℕ → ℤ) → Option (ℕ → ℤ)
  | _, 0, b => some b
  | i, num+1, b =>
    if i < arrayLength then
      fillKeys atoi obj unit (i+1) num (update b i (atoi (unit (obj i)).date))
    else none

/-- `sortinput` for a list of `n` elements; `b` is what its array holds at first. -/
def sortinput (atoi : α → ℤ) (b : ℕ → ℤ) (obj : ℕ → ℕ) (n : ℕ) (unit : ℕ → Record α) :
    Option (Sorting α) :=
  (fillKeys atoi obj unit 0 n b).map fun b => bubbleSort obj n ⟨b, unit⟩

variable {obj : ℕ → ℕ} {n i j : ℕ} {s t : Sorting α}

/-! ### The order of the array and of the list -/

/-- The array and the list have been permuted in the same way. -/
def Aligned (obj : ℕ → ℕ) (n : ℕ) (s t : Sorting α) : Prop :=
  ∃ σ : Equiv.Perm ℕ, (∀ i, n ≤ i → σ i = i) ∧
    ∀ i, t.a i = s.a (σ i) ∧ t.unit (obj i) = s.unit (obj (σ i))

theorem update_swap {β : Type*} (f : ℕ → β) (p q k : ℕ) :
    update (update f p (f q)) q (f p) k = f (Equiv.swap p q k) := by
  rw [Equiv.swap_apply_def, update_apply, update_apply]
  split_ifs with h1 h2 <;> simp_all

theorem compare_a (obj : ℕ → ℕ) (i : ℕ) (s : Sorting α) (k : ℕ) : (compare obj i s).a k =
    if s.a (i+1) < s.a i then s.a (Equiv.swap i (i+1) k) else s.a k := by
  unfold compare
  split_ifs
  · exact update_swap s.a i (i+1) k
  · rfl

theorem Aligned.compare (hobj : Injective obj) (hi : i+1 < n) (h : Aligned obj n s t) :
    Aligned obj n s (compare obj i t) := by
  unfold TransactionSort.compare
  split_ifs
  · obtain ⟨σ, hfix, hσ⟩ := h
    refine ⟨(Equiv.swap i (i+1)).trans σ, fun k hk => ?_, fun k => ⟨?_, ?_⟩⟩
    · rw [Equiv.trans_apply, Equiv.swap_apply_of_ne_of_ne (by omega) (by omega), hfix k hk]
    · exact (update_swap t.a i (i+1) k).trans (hσ _).1
    · refine (update_swap t.unit (obj i) (obj (i+1)) (obj k)).trans ?_
      rw [hobj.swap_apply]
      exact (hσ _).2
  · exact h

theorem Aligned.inner (hobj : Injective obj) (hi : i < n) (h : Aligned obj n s t) :
    Aligned obj n s (inner obj i t) := by
  induction i with
  | zero => exact h
  | succ i ih => exact (ih (by omega)).compare hobj hi

theorem aligned_outer (hobj : Injective obj) (s : Sorting α) (hj : j < n) :
    Aligned obj n s (outer obj n j s) := by
  induction j with
  | zero => exact ⟨Equiv.refl ℕ, fun _ _ => rfl, fun _ => ⟨rfl, rfl⟩⟩
  | succ j ih => exact (ih (by omega)).inner hobj (by omega)

/-! ### Sorting -/

/-- The last `j` of the first `n` places have what belongs there. -/
def Settled (n j : ℕ) (s : Sorting α) : Prop :=
  ∀ k < n, n ≤ k+j → ∀ l ≤ k, s.a l ≤ s.a k

/-- The place that the inner loop has reached has the greatest of the time stamps up to there. -/
theorem inner_settled (h : Settled n j s) (hi : i+j < n) :
    Settled n j (inner obj i s) ∧ ∀ l ≤ i, (inner obj i s).a l ≤ (inner obj i s).a i := by
  induction i with
  | zero => exact ⟨h, fun l hl => (Nat.le_zero.mp hl) ▸ Int.le_refl _⟩
  | succ i ih =>
    obtain ⟨hs, hmax⟩ := ih (by omega)
    simp only [inner, Settled, compare_a]
    generalize inner obj i s = t at hs hmax
    split_ifs with hlt
    · refine ⟨fun k hk hjk l hl => ?_, fun l hl => ?_⟩
      · rw [Equiv.swap_apply_of_ne_of_ne (a := i) (x := k) (by omega) (by omega)]
        apply hs k hk hjk
        rw [Equiv.swap_apply_def]
        split_ifs <;> omega
      · rw [Equiv.swap_apply_right, Equiv.swap_apply_def]
        split_ifs
        · exact Int.le_of_lt hlt
        · exact Int.le_refl _
        · exact hmax l (by omega)
    · refine ⟨hs, fun l hl => ?_⟩
      rcases Nat.le_succ_iff.mp hl with hl | rfl
      · exact Int.le_trans (hmax l hl) (Int.not_lt.mp hlt)
      · exact Int.le_refl _

theorem settled_outer (obj : ℕ → ℕ) (s : Sorting α) (hj : j < n) :
    Settled n j (outer obj n j s) := by
  induction j with
  | zero => exact fun k hk hn => absurd hk (by omega)
  | succ j ih =>
    obtain ⟨hs, hmax⟩ := @inner_settled α obj n (n-1-j) j _ (ih (by omega)) (by omega)
    intro k hk hn
    by_cases hlast : k = n-1-j
    · subst hlast
      exact hmax
    · exact hs k hk (by omega)

theorem bubbleSort_sorts (n : ℕ) (s : Sorting α) (hobj : Injective obj) :
    Aligned obj n s (bubbleSort obj n s) ∧
      ∀ l k, l ≤ k → k < n → (bubbleSort obj n s).a l ≤ (bubbleSort obj n s).a k := by
  cases n with
  | zero =>
    exact ⟨⟨Equiv.refl ℕ, fun _ _ => rfl, fun _ => ⟨rfl, rfl⟩⟩,
      fun _ _ _ hk => absurd hk (by omega)⟩
  | succ n =>
    refine ⟨aligned_outer hobj s (by omega), fun l k hl hk => ?_⟩
    rcases Nat.eq_zero_or_pos k with rfl | hpos
    · obtain rfl := Nat.le_zero.mp hl
      exact Int.le_refl _
    · exact settled_outer obj s (j := n) (by omega) k hk (by omega) l hl

/-! ### The keys -/

variable {atoi : α → ℤ} {unit : ℕ → Record α} {b : ℕ → ℤ}

/-- The records are the old ones in another order, each with its key at its place of the array, and
the keys are in order. -/
structure Sorted (atoi : α → ℤ) (obj : ℕ → ℕ) (n : ℕ) (unit : ℕ → Record α) (t : Sorting α) :
    Prop where
  permuted : ∃ σ : Equiv.Perm ℕ, (∀ i, n ≤ i → σ i = i) ∧ ∀ i, t.unit (obj i) = unit (obj (σ i))
  keys : ∀ i < n, t.a i = atoi (t.unit (obj i)).date
  ordered : ∀ l k, l ≤ k → k < n → t.a l ≤ t.a k

theorem fillKeys_inside (atoi : α → ℤ) (obj : ℕ → ℕ) (unit : ℕ → Record α) (b : ℕ → ℤ)
    (h : i+n ≤ arrayLength) : ∃ c, fillKeys atoi obj unit i n b = some c ∧
    ∀ k, c k = if i ≤ k ∧ k < i+n then atoi (unit (obj k)).date else b k := by
  induction n generalizing i b with
  | zero => exact ⟨b, rfl, fun k => (if_neg (by omega)).symm⟩
  | succ n ih =>
    rw [fillKeys, if_pos (by omega)]
    obtain ⟨c, hc, hkeys⟩ := ih (i := i+1) (update b i (atoi (unit (obj i)).date)) (by omega)
    refine ⟨c, hc, fun k => ?_⟩
    rw [hkeys]
    by_cases hk : k = i
    · subst hk
      rw [if_neg (by omega), if_pos (by omega), update_self]
    · rw [update_of_ne hk]
      exact if_congr (by omega) rfl rfl

theorem fillKeys_outside (h : arrayLength < i+n) (hi : i ≤ arrayLength) :
    fillKeys atoi obj unit i n b = none := by
  induction n generalizing i b with
  | zero => omega
  | succ n ih =>
    rw [fillKeys]
    split_ifs
    · exact ih (by omega) (by omega)
    · rfl

theorem Aligned.sorted (h : Aligned obj n s t) (hs : ∀ i < n, s.a i = atoi (s.unit (obj i)).date)
    (hordered : ∀ l k, l ≤ k → k < n → t.a l ≤ t.a k) : Sorted atoi obj n s.unit t := by
  obtain ⟨σ, hfix, hσ⟩ := h
  refine ⟨⟨σ, hfix, fun i => (hσ i).2⟩, fun i hi => ?_, hordered⟩
  have hlt : σ i < n := by
    by_contra hge
    have hsame := σ.injective (hfix (σ i) (Nat.not_lt.mp hge))
    omega
  rw [(hσ i).1, (hσ i).2, hs _ hlt]

/-- The transactions are sorted exactly if there are not more of them than places. -/
theorem sortinput_sorts (hobj : Injective obj) (atoi : α → ℤ) (b : ℕ → ℤ) (n : ℕ)
    (unit : ℕ → Record α) :
    (∃ t, sortinput atoi b obj n unit = some t ∧ Sorted atoi obj n unit t) ↔ n ≤ 300 := by
  constructor
  · rintro ⟨t, ht, -⟩
    by_contra hlong
    rw [sortinput, fillKeys_outside (by unfold arrayLength; omega) (Nat.zero_le _)] at ht
    cases ht
  · intro hn
    obtain ⟨c, hc, hkeys⟩ := fillKeys_inside atoi obj unit b (i := 0) (n := n)
      (by unfold arrayLength; omega)
    obtain ⟨halign, hordered⟩ := bubbleSort_sorts n ⟨c, unit⟩ hobj
    refine ⟨bubbleSort obj n ⟨c, unit⟩, by rw [sortinput, hc]; rfl,
      halign.sorted (fun i hi => ?_) hordered⟩
    exact (hkeys i).trans (if_pos (by omega))

/-- Three transactions, the first of which is the latest. -/
theorem sortinput_three : ∃ t : Sorting ℤ,
    sortinput id (fun _ => 0) id 3 (fun i => ⟨0, 7-i, 0, 0⟩) = some t ∧ t.a 0 ≤ t.a 2 ∧
      t.a 2 = (t.unit 2).date := by
  obtain ⟨t, ht, hsorted⟩ := (sortinput_sorts injective_id (id : ℤ → ℤ) (fun _ => 0) 3
    fun i => ⟨0, 7-i, 0, 0⟩).mpr (by decide)
  exact ⟨t, ht, hsorted.ordered 0 2 (by decide) (by decide), hsorted.keys 2 (by decide)⟩

/-- The time stamp of the 301st transaction is stored behind the array. -/
theorem sortinput_overflows :
    sortinput (id : ℤ → ℤ) (fun _ => 0) id 301 (fun i => ⟨0, i, 0, 0⟩) = none := by
  rw [sortinput, fillKeys_outside (by decide) (by decide)]
  rfl

end SystemsProjects.TransactionSort
