import Mathlib.Data.List.Nodup
import SystemsProjects.RingLists

/-!
# Lists whose links are fields of their elements

All lists of a program share one memory of links. A list is a ring around a head of its own, and
an element is linked before another link or unlinked without naming the list. A family of rings
describes the contents of all lists at once: no link is on two of them, so that a change of one
list leaves the others as they are.
-/
namespace SystemsProjects.IntrusiveLists

open Function RingLists List

variable {α ι : Type*}

/-- The memory of all links, with `none` for a null pointer. -/
structure Links (α : Type*) where
  next : α → Option α
  prev : α → Option α

/-- The lists with the given heads have the given contents. -/
structure Rings (m : Links α) (head : ι → α) (xs : ι → List α) : Prop where
  joined : ∀ i, Joined m.next m.prev (head i) (xs i) (head i)
  nodup : ∀ i, (xs i).Nodup
  apart : ∀ i j a, a ∈ xs i → a ∈ xs j → i = j
  heads : ∀ i j, head i ∉ xs j
  head_inj : Function.Injective head

namespace Links

variable [DecidableEq α]

def insertBefore (m : Links α) (old new : α) : Option (Links α) :=
  match m.prev old with
  | none => none
  | some p => some
    { next := update (update m.next new (some old)) p (some new)
      prev := update (update m.prev new (some p)) old (some new) }

def insertTail (m : Links α) (head new : α) : Option (Links α) := m.insertBefore head new

def insertHead (m : Links α) (head new : α) : Option (Links α) :=
  match m.next head with
  | none => none
  | some q => m.insertBefore q new

/-- Unlinks an element from the list that it is on. -/
def remove (m : Links α) (a : α) : Option (Links α) :=
  match m.prev a, m.next a with
  | some p, some q => some
    { next := update (update m.next p (some q)) a none
      prev := update (update m.prev q (some p)) a none }
  | _, _ => none

/-- Goes on from a link until the head or a link with a property is met, and gives up after a
number of links or at a null pointer. -/
def searchFrom (m : Links α) (p : α → Bool) (head : α) : ℕ → α → Option (Option α)
  | 0, _ => none
  | n+1, a =>
    if a = head then some none
    else if p a then some (some a)
    else match m.next a with
      | none => none
      | some b => m.searchFrom p head n b

def search (m : Links α) (p : α → Bool) (n : ℕ) (head : α) : Option (Option α) :=
  match m.next head with
  | none => none
  | some a => m.searchFrom p head n a

def isEmpty (m : Links α) (head : α) : Bool := decide (m.next head = some head)

end Links

/-! ### Families of rings -/

section Rings

variable {m : Links α} {head : ι → α} {xs : ι → List α} {i j : ι} {a z v w : α} {l r : List α}

theorem Rings.ne (h : Rings m head xs) (hij : j ≠ i) (hw : w ∈ head j::xs j)
    (hv : v ∈ head i::xs i) : w ≠ v := by
  rintro rfl
  rw [mem_cons] at hw hv
  rcases hw with rfl | hw
  · rcases hv with hv | hv
    · exact hij (h.head_inj hv)
    · exact h.heads j i hv
  · rcases hv with rfl | hv
    · exact h.heads i j hw
    · exact hij (h.apart j i w hw hv)

theorem Rings.next_head (h : Rings m head xs) (i : ι) :
    m.next (head i) = some ((xs i).headD (head i)) :=
  (Joined.edge (l := []) (h.joined i)).1

theorem Rings.cons_nodup (h : Rings m head xs) (i : ι) : (head i::xs i).Nodup :=
  nodup_cons.mpr ⟨h.heads i i, h.nodup i⟩

theorem ends_mem (x : α) {ys : List α} (hsub : ∀ w ∈ l++r, w ∈ ys) :
    l.getLastD x ∈ x::ys ∧ r.headD x ∈ x::ys := by
  have hl := @getLastD_mem _ x l
  have hr := @headD_mem _ x r
  rw [mem_cons] at hl hr
  simp only [mem_cons]
  exact ⟨hl.imp_right fun hmem => hsub _ (mem_append_left r hmem),
    hr.imp_right fun hmem => hsub _ (mem_append_right l hmem)⟩

variable [DecidableEq ι]

/-- One ring becomes another: the links of the others stay, and what is new on it was on none. -/
theorem Rings.change (h : Rings m head xs) {m' : Links α} {ys : List α}
    (hself : Joined m'.next m'.prev (head i) ys (head i))
    (hnext : ∀ j, j ≠ i → ∀ w ∈ head j::xs j, m'.next w = m.next w)
    (hprev : ∀ j, j ≠ i → ∀ w ∈ head j::xs j, m'.prev w = m.prev w) (hnd : ys.Nodup)
    (hys : ∀ w ∈ ys, w ∈ xs i ∨ ∀ j, w ∉ head j::xs j) : Rings m' head (update xs i ys) := by
  refine ⟨?_, ?_, ?_, ?_, h.head_inj⟩
  · intro j
    by_cases hj : j = i
    · subst hj
      rwa [update_self]
    · rw [update_of_ne hj]
      exact (h.joined j).congr (hnext j hj) (hprev j hj)
  · intro j
    by_cases hj : j = i
    · subst hj
      rwa [update_self]
    · rw [update_of_ne hj]
      exact h.nodup j
  · have hmem : ∀ k b, b ∈ update xs i ys k → k = i ∧ (∀ j, b ∉ xs j) ∨ b ∈ xs k := by
      intro k b hb
      by_cases hk : k = i
      · subst hk
        rw [update_self] at hb
        refine (hys b hb).symm.imp_left fun hnew => ⟨rfl, fun j hj => ?_⟩
        exact hnew j (mem_cons_of_mem _ hj)
      · rw [update_of_ne hk] at hb
        exact .inr hb
    intro j k b hbj hbk
    rcases hmem j b hbj with ⟨hj, hb⟩ | hbj'
    · rcases hmem k b hbk with ⟨hk, -⟩ | hbk'
      · rw [hj, hk]
      · exact absurd hbk' (hb k)
    · rcases hmem k b hbk with ⟨-, hb⟩ | hbk'
      · exact absurd hbj' (hb j)
      · exact h.apart j k b hbj' hbk'
  · intro k j hmem
    by_cases hj : j = i
    · subst hj
      rw [update_self] at hmem
      rcases hys _ hmem with hold | hnew
      · exact h.heads k j hold
      · exact hnew k mem_cons_self
    · rw [update_of_ne hj] at hmem
      exact h.heads k j hmem

variable [DecidableEq α]

theorem Rings.insert (h : Rings m head xs) (hsplit : xs i = l++r) (hz : ∀ j, z ∉ xs j)
    (hhead : ∀ j, z ≠ head j) : ∃ m', m.insertBefore (r.headD (head i)) z = some m' ∧
      Rings m' head (update xs i (l++z::r)) := by
  have hjoined := h.joined i
  have hnodup := h.cons_nodup i
  have hheads := h.heads i i
  obtain ⟨hp, hq⟩ := ends_mem (head i) fun w hw => show w ∈ xs i from hsplit ▸ hw
  rw [hsplit] at hjoined hnodup hheads
  have hnew : ∀ j, z ∉ head j::xs j := fun j => by simp [hhead j, hz j]
  have hzj : ∀ j, ∀ w ∈ head j::xs j, w ≠ z := by
    rintro j w hw rfl
    exact hnew j hw
  unfold Links.insertBefore
  rw [(Joined.edge hjoined).2]
  refine ⟨_, rfl, h.change ?_ (fun j hj w hw => ?_) (fun j hj w hw => ?_) ?_ fun w hw => ?_⟩
  · exact hjoined.insert hnodup hheads (hsplit ▸ by simp [hhead i, hz i]) rfl rfl
  · dsimp only
    rw [update_of_ne (h.ne hj hw hp), update_of_ne (hzj j w hw)]
  · dsimp only
    rw [update_of_ne (h.ne hj hw hq), update_of_ne (hzj j w hw)]
  · rw [nodup_middle, nodup_cons, ← hsplit]
    exact ⟨hz i, h.nodup i⟩
  · rw [mem_append, mem_cons] at hw
    rw [hsplit, mem_append]
    rcases hw with hw | rfl | hw
    · exact .inl (.inl hw)
    · exact .inr hnew
    · exact .inl (.inr hw)

theorem Rings.insertTail (h : Rings m head xs) (i : ι) (hz : ∀ j, z ∉ xs j)
    (hhead : ∀ j, z ≠ head j) : ∃ m', m.insertTail (head i) z = some m' ∧
      Rings m' head (update xs i (xs i++[z])) :=
  h.insert (r := []) (append_nil _).symm hz hhead

theorem Rings.insertHead (h : Rings m head xs) (i : ι) (hz : ∀ j, z ∉ xs j)
    (hhead : ∀ j, z ≠ head j) : ∃ m', m.insertHead (head i) z = some m' ∧
      Rings m' head (update xs i (z::xs i)) := by
  unfold Links.insertHead
  rw [h.next_head i]
  exact h.insert (l := []) rfl hz hhead

theorem Rings.remove (h : Rings m head xs) (ha : a ∈ xs i) : ∃ m', m.remove a = some m' ∧
    Rings m' head (update xs i ((xs i).erase a)) := by
  obtain ⟨l, r, hsplit⟩ := append_of_mem ha
  have hjoined := h.joined i
  have hnodup := h.cons_nodup i
  have hheads := h.heads i i
  rw [hsplit] at hjoined hnodup hheads
  have hal : a ∉ l++r := by
    have := nodup_middle.mp (nodup_cons.mp hnodup).2
    exact (nodup_cons.mp this).1
  have herase : (xs i).erase a = l++r := by
    rw [hsplit, erase_append_right _ fun hmem => hal (mem_append_left r hmem), erase_cons_head]
  have hsub : ∀ w, w ∈ l++r → w ∈ xs i := by
    intro w hw
    rw [← herase] at hw
    exact mem_of_mem_erase hw
  obtain ⟨hp, hq⟩ := ends_mem (head i) hsub
  have hprev : m.prev a = some (l.getLastD (head i)) := (Joined.edge hjoined).2
  have hnext : m.next a = some (r.headD (head i)) := by
    have hjoined' : Joined m.next m.prev (head i) ((l++[a])++r) (head i) := by simpa using hjoined
    simpa using (Joined.edge hjoined').1
  unfold Links.remove
  rw [hprev, hnext, herase]
  have hne : ∀ w ∈ head i::(l++r), w ≠ a := by
    rintro w hw rfl
    rw [mem_cons] at hw
    rcases hw with rfl | hw
    · exact h.heads i i ha
    · exact hal hw
  have hai : a ∈ head i::xs i := mem_cons_of_mem _ ha
  refine ⟨_, rfl, h.change ?_ (fun j hj w hw => ?_) (fun j hj w hw => ?_) ?_ fun w hw => ?_⟩
  · apply (hjoined.remove hnodup hheads rfl rfl).congr
    · intro w hw
      dsimp only
      rw [update_of_ne (hne w hw)]
    · intro w hw
      dsimp only
      rw [update_of_ne (hne w hw)]
  · dsimp only
    rw [update_of_ne (h.ne hj hw hai), update_of_ne (h.ne hj hw hp)]
  · dsimp only
    rw [update_of_ne (h.ne hj hw hai), update_of_ne (h.ne hj hw hq)]
  · rw [← herase]
    exact (h.nodup i).erase a
  · exact .inl (hsub w hw)

omit [DecidableEq ι]

theorem searchFrom_eq {p : α → Bool} {x y : α} {n : ℕ} (h : Joined m.next m.prev x l y)
    (hy : y ∉ l) (hn : l.length < n) : m.searchFrom p y n (l.headD y) = some (l.find? p) := by
  induction l generalizing x n with
  | nil =>
    cases n with
    | zero => exact absurd hn (Nat.not_lt_zero _)
    | succ n => exact if_pos rfl
  | cons z l ih =>
    cases n with
    | zero => exact absurd hn (Nat.not_lt_zero _)
    | succ n =>
      rw [mem_cons, not_or] at hy
      rw [headD_cons, Links.searchFrom, if_neg (Ne.symm hy.1)]
      cases hp : p z with
      | true => simp [hp]
      | false =>
        have hnext : m.next z = some (l.headD y) := (Joined.edge (l := []) h.2).1
        rw [hnext, find?_cons, hp]
        simp only [Bool.false_eq_true, if_false]
        exact ih h.2 hy.2 (Nat.lt_of_succ_lt_succ hn)

/-- A search meets the first link with the property, if it may go far enough. -/
theorem Rings.search_eq (h : Rings m head xs) (i : ι) {p : α → Bool} {n : ℕ}
    (hn : (xs i).length < n) : m.search p n (head i) = some ((xs i).find? p) := by
  unfold Links.search
  rw [h.next_head i]
  exact searchFrom_eq (h.joined i) (h.heads i i) hn

theorem Rings.isEmpty_iff (h : Rings m head xs) (i : ι) :
    m.isEmpty (head i) = true ↔ xs i = [] := by
  unfold Links.isEmpty
  rw [decide_eq_true_iff, h.next_head i, Option.some.injEq]
  cases hxs : xs i with
  | nil => simp
  | cons z l =>
    have hz := h.heads i i
    rw [hxs, mem_cons, not_or] at hz
    simp [Ne.symm hz.1]

end Rings

end SystemsProjects.IntrusiveLists
