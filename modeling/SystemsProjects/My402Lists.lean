import Mathlib.Algebra.Group.Nat.Defs
import Mathlib.Algebra.Group.Int.Defs
import SystemsProjects.GuardedRuns
import SystemsProjects.RingLists

/-!
# The list of `my402list.c`

A `My402List` is a count and an anchor, which is itself a list element and lies in the same
memory as the elements that `malloc` returns. All addresses are numbers, the anchor is at the
address `a`, and a call that allocates is given the address that `malloc` chose for it.
`none` as a result of a function stands for an access to an element that is not allocated, or
for a loop that needs more rounds than it is given; NULL is `none` inside of a result.

The abstract list is the sequence of its elements, each with its address and its object. The
calls keep the memory in agreement with it. `num_members` is an `int`, which comes round
after 2^31-1 elements.
-/
namespace SystemsProjects.My402Lists

open Function GuardedRuns RingLists List Option

variable {α : Type}

/-- The type `My402ListElem`. -/
structure Elem (α : Type) where
  obj : α
  next : ℕ
  prev : ℕ

structure ListState (α : Type) where
  elems : ℕ → Option (Elem α)
  numMembers : ℤ

namespace ListState

def obj (s : ListState α) (p : ℕ) : Option α := (s.elems p).map Elem.obj

def next (s : ListState α) (p : ℕ) : Option ℕ := (s.elems p).map Elem.next

def prev (s : ListState α) (p : ℕ) : Option ℕ := (s.elems p).map Elem.prev

def put (s : ListState α) (p : ℕ) (e : Option (Elem α)) : ListState α :=
  { s with elems := update s.elems p e }

def setNext (s : ListState α) (p v : ℕ) : Option (ListState α) :=
  (s.elems p).map fun e => s.put p (some { e with next := v })

def setPrev (s : ListState α) (p v : ℕ) : Option (ListState α) :=
  (s.elems p).map fun e => s.put p (some { e with prev := v })

/-- The count after an increment or a decrement of the `int`. Past `INT_MAX` it is undefined in C
and taken modulo `2^32` here. -/
def count (s : ListState α) (n : ℤ) : ListState α :=
  { s with numMembers := Int.bmod (s.numMembers+n) (2^32) }

end ListState

def my402ListInit (a : ℕ) (s : ListState α) : Option (ListState α) := do
  let s1 ← s.setNext a a
  let s2 ← s1.setPrev a a
  return { s2 with numMembers := 0 }

/-- The new element `x` is put between `p` and `q`. The functions that insert differ in the
order of the two last writes, which are to different fields. -/
def insertBetween (s : ListState α) (obj : α) (x p q : ℕ) : Option (ListState α) := do
  let s1 ← (s.put x (some ⟨obj, q, p⟩)).setNext p x
  let s2 ← s1.setPrev q x
  return s2.count 1

def my402ListAppend (a : ℕ) (s : ListState α) (obj : α) (x : ℕ) : Option (ListState α) := do
  insertBetween s obj x (← s.prev a) a

def my402ListPrepend (a : ℕ) (s : ListState α) (obj : α) (x : ℕ) : Option (ListState α) := do
  insertBetween s obj x a (← s.next a)

def my402ListInsertAfter (s : ListState α) (obj : α) (elem x : ℕ) : Option (ListState α) := do
  insertBetween s obj x elem (← s.next elem)

def my402ListInsertBefore (s : ListState α) (obj : α) (elem x : ℕ) : Option (ListState α) := do
  insertBetween s obj x (← s.prev elem) elem

def my402ListLength (s : ListState α) : ℤ := s.numMembers

def my402ListEmpty (s : ListState α) : Bool := decide (s.numMembers = 0)

/-- The anchor's neighbour in one direction, or NULL in an empty list. -/
def endOf (a : ℕ) (s : ListState α) (link : ℕ → Option ℕ) : Option (Option ℕ) :=
  if my402ListEmpty s then some none else (link a).map some

def my402ListFirst (a : ℕ) (s : ListState α) : Option (Option ℕ) := endOf a s s.next

def my402ListLast (a : ℕ) (s : ListState α) : Option (Option ℕ) := endOf a s s.prev

/-- The neighbour of an element in one direction, or NULL at the anchor. -/
def follow (a : ℕ) (link : ℕ → Option ℕ) (e : ℕ) : Option (Option ℕ) :=
  (link e).map fun n => if n = a then none else some n

def my402ListNext (a : ℕ) (s : ListState α) (e : ℕ) : Option (Option ℕ) := follow a s.next e

def my402ListPrev (a : ℕ) (s : ListState α) (e : ℕ) : Option (Option ℕ) := follow a s.prev e

def my402ListUnlink (s : ListState α) (middle : ℕ) : Option (ListState α) := do
  let s1 ← s.setPrev (← s.next middle) (← s.prev middle)
  let s2 ← s1.setNext (← s1.prev middle) (← s1.next middle)
  return (s2.put middle none).count (-1)

/-- The loop of `My402ListUnlinkAll`. -/
def unlinkRounds (a : ℕ) : ℕ → ListState α → Option (ListState α)
  | 0, _ => none
  | rounds+1, s => do
    let p ← s.next a
    if p ≠ a ∨ (← s.prev a) ≠ a then
      let s1 ← s.setPrev (← s.next p) a
      let s2 ← s1.setNext a (← s1.next p)
      unlinkRounds a rounds (s2.put p none)
    else
      return s

def my402ListUnlinkAll (a rounds : ℕ) (s : ListState α) : Option (ListState α) :=
  (unlinkRounds a rounds s).map fun t => { t with numMembers := 0 }

/-- The elements from one on, in one direction and up to NULL, with their objects. -/
def visits (s : ListState α) (step : ℕ → Option (Option ℕ)) :
    ℕ → Option ℕ → Option (List (ℕ×α))
  | _, none => some []
  | 0, some _ => none
  | rounds+1, some e => do
    let obj ← s.obj e
    return (e, obj)::(← visits s step rounds (← step e))

/-- The traversal by `My402ListFirst` and `My402ListNext`. -/
def forward (a rounds : ℕ) (s : ListState α) : Option (List (ℕ×α)) := do
  visits s (my402ListNext a s) rounds (← my402ListFirst a s)

/-- The traversal by `My402ListLast` and `My402ListPrev`. -/
def backward (a rounds : ℕ) (s : ListState α) : Option (List (ℕ×α)) := do
  visits s (my402ListPrev a s) rounds (← my402ListLast a s)

/-- The loop of `My402ListFind`. It starts at the anchor, and its condition does not depend on
the element that it has reached. -/
def findRounds [DecidableEq α] (a : ℕ) (s : ListState α) (obj : α) :
    ℕ → ℕ → Option (Option ℕ)
  | 0, _ => none
  | rounds+1, p => do
    if (← s.next a) = a then return none
    else if (← s.obj p) = obj then return some p
    else findRounds a s obj rounds (← s.next p)

def my402ListFind [DecidableEq α] (a rounds : ℕ) (s : ListState α) (obj : α) :
    Option (Option ℕ) := findRounds a s obj rounds a

/-! ### Sequences of elements -/

section Sequences

variable {x elem : ℕ} {e : ℕ×α} {q : List (ℕ×α)}

def insertBefore (elem : ℕ) (e : ℕ×α) : List (ℕ×α) → List (ℕ×α)
  | [] => []
  | d::q => if d.1 = elem then e::d::q else d::insertBefore elem e q

def insertAfter (elem : ℕ) (e : ℕ×α) : List (ℕ×α) → List (ℕ×α)
  | [] => []
  | d::q => if d.1 = elem then d::e::q else d::insertAfter elem e q

def unlink (elem : ℕ) : List (ℕ×α) → List (ℕ×α)
  | [] => []
  | d::q => if d.1 = elem then q else d::unlink elem q

theorem exists_split (h : elem ∈ q.map Prod.fst) : ∃ l obj r, q = l++(elem, obj)::r ∧
    (∀ e, insertBefore elem e q = l++e::(elem, obj)::r) ∧
    (∀ e, insertAfter elem e q = l++(elem, obj)::e::r) ∧ unlink elem q = l++r := by
  induction q with
  | nil => cases h
  | cons d q ih =>
    by_cases hd : d.1 = elem
    · refine ⟨[], d.2, q, ?_⟩
      subst hd
      simp [insertBefore, insertAfter, unlink]
    · rw [map_cons, mem_cons] at h
      obtain ⟨l, obj, r, hq, hb, ha, hu⟩ := ih (h.resolve_left (Ne.symm hd))
      refine ⟨d::l, obj, r, ?_⟩
      simp [insertBefore, insertAfter, unlink, hd, hq, ← hb, ← ha, ← hu]

end Sequences

/-! ### Writes to memory -/

section Writes

variable {s t : ListState α} {a p v x : ℕ} {obj : α}

theorem isSome_prev : (s.prev p).isSome = (s.next p).isSome := by
  unfold ListState.prev ListState.next
  rw [isSome_map, isSome_map]

structure Reads (t : ListState α) (next prev : ℕ → Option ℕ) (obj : ℕ → Option α) (n : ℤ) :
    Prop where
  next_eq : t.next = next
  prev_eq : t.prev = prev
  obj_eq : t.obj = obj
  count_eq : t.numMembers = n

theorem reads_put (s : ListState α) (x : ℕ) (e : Option (Elem α)) : Reads (s.put x e)
    (update s.next x (e.map Elem.next)) (update s.prev x (e.map Elem.prev))
    (update s.obj x (e.map Elem.obj)) s.numMembers := by
  constructor
  all_goals try rfl
  all_goals
    funext w
    by_cases hw : w = x
    · subst hw
      simp [ListState.next, ListState.prev, ListState.obj, ListState.put]
    · simp [ListState.next, ListState.prev, ListState.obj, ListState.put,
        update_of_ne hw]

theorem exists_elem (h : (s.next p).isSome = true) : ∃ e, s.elems p = some e ∧
    update s.next p (some e.next) = s.next ∧ update s.prev p (some e.prev) = s.prev ∧
    update s.obj p (some e.obj) = s.obj := by
  cases hp : s.elems p with
  | none => simp [ListState.next, hp] at h
  | some e =>
    exact ⟨e, rfl, by simp [ListState.next, hp], by simp [ListState.prev, hp],
      by simp [ListState.obj, hp]⟩

theorem exists_setNext (h : (s.next p).isSome = true) : ∃ t, s.setNext p v = some t ∧
    Reads t (update s.next p (some v)) s.prev s.obj s.numMembers := by
  obtain ⟨e, hp, -, hprev, hobj⟩ := exists_elem h
  have hput := reads_put s p (some { e with next := v })
  exact ⟨_, by rw [ListState.setNext, hp]; rfl, hput.next_eq, hput.prev_eq.trans hprev,
    hput.obj_eq.trans hobj, rfl⟩

theorem exists_setPrev (h : (s.next p).isSome = true) : ∃ t, s.setPrev p v = some t ∧
    Reads t s.next (update s.prev p (some v)) s.obj s.numMembers := by
  obtain ⟨e, hp, hnext, -, hobj⟩ := exists_elem h
  have hput := reads_put s p (some { e with prev := v })
  exact ⟨_, by rw [ListState.setPrev, hp]; rfl, hput.next_eq.trans hnext, hput.prev_eq,
    hput.obj_eq.trans hobj, rfl⟩

end Writes

/-! ### The memory of a list -/

/-- The memory holds the elements of `q` in a ring through the anchor. -/
structure Ring (a : ℕ) (s : ListState α) (q : List (ℕ×α)) : Prop where
  joined : Joined s.next s.prev a (q.map Prod.fst) a
  nodup : (a::q.map Prod.fst).Nodup
  objs : ∀ e ∈ q, s.obj e.1 = some e.2

structure Represents (a : ℕ) (s : ListState α) (q : List (ℕ×α)) : Prop where
  ring : Ring a s q
  count : s.numMembers = Int.bmod q.length (2^32)

variable {n p : ℕ}

section Calls

variable {s t : ListState α} {a elem x : ℕ} {obj : α} {l r q : List (ℕ×α)}

theorem Ring.isSome (h : Ring a s q) : ∀ w ∈ a::q.map Prod.fst, (s.next w).isSome = true :=
  h.joined.next_isSome

theorem Ring.not_mem (h : Ring a s q) (hx : s.elems x = none) : x ∉ a::q.map Prod.fst := by
  intro hmem
  have := h.isSome x hmem
  simp [ListState.next, hx] at this

theorem Ring.edge (h : Ring a s (l++r)) :
    s.next ((l.map Prod.fst).getLastD a) = some ((r.map Prod.fst).headD a) ∧
    s.prev ((r.map Prod.fst).headD a) = some ((l.map Prod.fst).getLastD a) := by
  apply Joined.edge
  rw [← map_append]
  exact h.joined

theorem last_mem : (l.map Prod.fst).getLastD a ∈ a::(l++r).map Prod.fst := by
  have := @getLastD_mem _ a (l.map Prod.fst)
  rw [mem_cons] at this
  rw [map_append, mem_cons, mem_append]
  exact this.imp_right Or.inl

theorem head_mem : (r.map Prod.fst).headD a ∈ a::(l++r).map Prod.fst := by
  have := @headD_mem _ a (r.map Prod.fst)
  rw [mem_cons] at this
  rw [map_append, mem_cons, mem_append]
  exact this.imp_right Or.inr

theorem my402ListInit_spec (h : (s.next a).isSome = true) :
    ∃ t, my402ListInit a s = some t ∧ Represents a t [] := by
  obtain ⟨s1, h1, hr1⟩ := exists_setNext (v := a) h
  obtain ⟨s2, h2, hr2⟩ := exists_setPrev (v := a) (s := s1) (p := a) (by simp [hr1.next_eq])
  refine ⟨_, by rw [my402ListInit, h1, bind_eq_bind, bind_some, h2]; rfl, ?_⟩
  refine ⟨⟨⟨?_, ?_⟩, by simp, nofun⟩, by simp⟩
  · change s2.next a = _
    rw [hr2.next_eq, hr1.next_eq, update_self]
  · change s2.prev a = _
    rw [hr2.prev_eq, update_self]

/-! ### Insertion -/

theorem perm_middle_cons {β : Type} (a x : β) (l r : List β) :
    List.Perm (a::(l++x::r)) (x::a::(l++r)) :=
  (perm_middle.cons a).trans (List.Perm.swap _ _ _)

/-- The memory in which the new element `x` has been put on the edge between two halves. -/
theorem Ring.insert {c : ℤ} (h : Ring a s (l++r)) (hx : s.elems x = none)
    (hp : (l.map Prod.fst).getLastD a = p) (hn : (r.map Prod.fst).headD a = n)
    (ht : Reads t (update (update s.next x (some n)) p (some x))
      (update (update s.prev x (some p)) n (some x))
      (update s.obj x (some obj)) c) : Ring a t (l++(x, obj)::r) := by
  have hjoined := h.joined
  have hnodup := h.nodup
  have hnot := h.not_mem hx
  rw [map_append] at hjoined hnodup hnot
  constructor
  · rw [ht.next_eq, ht.prev_eq, map_append, map_cons]
    apply hjoined.insert hnodup (nodup_cons.mp hnodup).1 _ hp hn
    simpa using hnot
  · rw [map_append, map_cons]
    exact (perm_middle_cons ..).nodup_iff.mpr (nodup_cons.mpr ⟨hnot, hnodup⟩)
  · intro e he
    rw [ht.obj_eq]
    rw [mem_append, mem_cons, or_left_comm, ← mem_append] at he
    rcases he with rfl | he
    · simp
    · rw [update_of_ne]
      · exact h.objs e he
      · rintro heq
        apply hnot
        rw [← heq, ← map_append]
        exact mem_cons_of_mem _ (mem_map_of_mem he)

theorem insertBetween_spec (h : Represents a s (l++r)) (hx : s.elems x = none)
    (hp : (l.map Prod.fst).getLastD a = p) (hn : (r.map Prod.fst).headD a = n) :
    ∃ t, insertBetween s obj x p n = some t ∧ Represents a t (l++(x, obj)::r) := by
  have hpmem := hp ▸ @last_mem _ a l r
  have hnmem := hn ▸ @head_mem _ a l r
  have hpx : p ≠ x := fun heq => h.ring.not_mem hx (heq ▸ hpmem)
  have hnx : n ≠ x := fun heq => h.ring.not_mem hx (heq ▸ hnmem)
  have hr := reads_put s x (some ⟨obj, n, p⟩)
  obtain ⟨s1, h1, hr1⟩ := exists_setNext (v := x) (s := s.put x (some ⟨obj, n, p⟩)) (p := p) (by
    rw [hr.next_eq, update_of_ne hpx]
    exact h.ring.isSome p hpmem)
  obtain ⟨s2, h2, hr2⟩ := exists_setPrev (v := x) (s := s1) (p := n) (by
    rw [hr1.next_eq, hr.next_eq]
    by_cases hnp : n = p
    · rw [hnp, update_self]
      rfl
    · rw [update_of_ne hnp, update_of_ne hnx]
      exact h.ring.isSome n hnmem)
  refine ⟨_, by rw [insertBetween, h1, bind_eq_bind, bind_some, h2]; rfl, ?_⟩
  rw [hr.next_eq] at hr1
  rw [hr1.next_eq, hr1.prev_eq, hr1.obj_eq, hr.prev_eq, hr.obj_eq] at hr2
  constructor
  · exact h.ring.insert (t := s2.count 1) (c := (s2.count 1).numMembers) hx hp hn
      ⟨hr2.next_eq, hr2.prev_eq, hr2.obj_eq, rfl⟩
  · change Int.bmod (s2.numMembers+1) _ = _
    rw [hr2.count_eq, hr1.count_eq, hr.count_eq, h.count, Int.bmod_add_bmod]
    congr 1
    simp only [length_append, length_cons]
    omega

/-! ### Removal -/

/-- The memory in which the element `x` has been taken off the ring and freed. -/
theorem Ring.remove {c : ℤ} (h : Ring a s (l++(x, obj)::r)) (hp : (l.map Prod.fst).getLastD a = p)
    (hn : (r.map Prod.fst).headD a = n) (ht : Reads t (update (update s.next p (some n)) x none)
      (update (update s.prev n (some p)) x none)
      (update s.obj x none) c) : Ring a t (l++r) := by
  have hjoined := h.joined
  have hnodup := h.nodup
  rw [map_append, map_cons] at hjoined hnodup
  have hnot := nodup_cons.mp ((perm_middle_cons ..).nodup_iff.mp hnodup)
  rw [← map_append] at hnot
  constructor
  · rw [ht.next_eq, ht.prev_eq]
    have hremoved := hjoined.remove hnodup (nodup_cons.mp hnodup).1 hp hn
    rw [← map_append] at hremoved
    exact hremoved.congr (fun w hw => update_of_ne (ne_of_mem_of_not_mem hw hnot.1) _ _)
      fun w hw => update_of_ne (ne_of_mem_of_not_mem hw hnot.1) _ _
  · exact hnot.2
  · intro e he
    have hmem : e.1 ∈ a::(l++r).map Prod.fst := mem_cons_of_mem _ (mem_map_of_mem he)
    rw [ht.obj_eq, update_of_ne (ne_of_mem_of_not_mem hmem hnot.1)]
    apply h.objs e
    rw [mem_append] at he ⊢
    exact he.imp_right (mem_cons_of_mem _)

theorem Ring.neighbours (h : Ring a s (l++(x, obj)::r)) :
    s.next x = some ((r.map Prod.fst).headD a) ∧ s.prev x = some ((l.map Prod.fst).getLastD a) := by
  constructor
  · rw [append_cons] at h
    have := h.edge.1
    rwa [map_append, map_singleton, getLastD_concat] at this
  · exact h.edge.2

/-- The writes of `My402ListUnlink` and of a round of `My402ListUnlinkAll`. -/
theorem exists_unlinked (h : Ring a s (l++(x, obj)::r)) (hp : (l.map Prod.fst).getLastD a = p)
    (hn : (r.map Prod.fst).headD a = n) :
    n ≠ x ∧ ∃ s1 s2, s.setPrev n p = some s1 ∧ s1.setNext p n = some s2 ∧
      s1.next = s.next ∧ s1.prev = update s.prev n (some p) ∧
      s2.numMembers = s.numMembers ∧ Ring a (s2.put x none) (l++r) := by
  have hmem : ∀ w ∈ a::(l++r).map Prod.fst, (s.next w).isSome = true := by
    intro w hw
    apply h.isSome w
    simp only [map_append, map_cons, mem_cons, mem_append] at hw ⊢
    tauto
  have hnx : n ≠ x := by
    have hnmem : n ∈ a::r.map Prod.fst := hn ▸ headD_mem
    have hnodup := h.nodup
    rw [map_append, map_cons] at hnodup
    rintro rfl
    simp only [nodup_cons, mem_append, mem_cons, not_or, nodup_append] at hnodup
    rw [mem_cons] at hnmem
    rcases hnmem with heq | hnmem
    · exact hnodup.1.2.1 heq.symm
    · exact hnodup.2.2.1.1 hnmem
  obtain ⟨s1, h1, hr1⟩ := exists_setPrev (v := p) (hmem n (hn ▸ head_mem))
  obtain ⟨s2, h2, hr2⟩ := exists_setNext (v := n) (s := s1) (p := p) (by
    rw [hr1.next_eq]
    exact hmem p (hp ▸ last_mem))
  refine ⟨hnx, s1, s2, h1, h2, hr1.next_eq, hr1.prev_eq, hr2.count_eq.trans hr1.count_eq, ?_⟩
  have hr := reads_put s2 x none
  rw [hr2.next_eq, hr2.prev_eq, hr2.obj_eq, hr1.next_eq, hr1.prev_eq, hr1.obj_eq] at hr
  exact h.remove hp hn hr

theorem my402ListUnlink_spec (h : Represents a s (l++(x, obj)::r)) :
    ∃ t, my402ListUnlink s x = some t ∧ Represents a t (l++r) := by
  obtain ⟨hnext, hprev⟩ := h.ring.neighbours
  obtain ⟨hnx, s1, s2, h1, h2, hnext1, hprev1, hcount, hring⟩ := exists_unlinked h.ring rfl rfl
  refine ⟨(s2.put x none).count (-1), ?_, ⟨hring.joined, hring.nodup, hring.objs⟩, ?_⟩
  · rw [my402ListUnlink, hnext, hprev]
    simp only [bind_eq_bind, bind_some]
    rw [h1, bind_some, hprev1, update_of_ne (Ne.symm hnx), hprev, hnext1, hnext]
    simp only [bind_some]
    rw [h2]
    rfl
  · change Int.bmod (s2.numMembers+ -1) _ = _
    rw [hcount, h.count, Int.bmod_add_bmod]
    congr 1
    simp only [length_append, length_cons]
    omega

theorem unlinkRounds_spec {rounds : ℕ} (h : Ring a s q) (hrounds : q.length < rounds) :
    ∃ t, unlinkRounds a rounds s = some t ∧ Ring a t [] := by
  induction q generalizing s rounds with
  | nil =>
    obtain ⟨rounds, rfl⟩ := Nat.exists_eq_succ_of_ne_zero (Nat.ne_zero_of_lt hrounds)
    refine ⟨s, ?_, h⟩
    simp [unlinkRounds, h.joined.1, h.joined.2]
  | cons e q ih =>
    obtain ⟨rounds, rfl⟩ := Nat.exists_eq_succ_of_ne_zero (Nat.ne_zero_of_lt hrounds)
    obtain ⟨x, obj⟩ := e
    obtain ⟨_, s1, s2, h1, h2, hnext1, -, -, hring⟩ := 
      exists_unlinked (l := []) (p := a) h rfl rfl
    obtain ⟨t, ht, htring⟩ := ih hring (Nat.lt_of_succ_lt_succ hrounds)
    have hfirst : s.next a = some x := h.joined.1.1
    have hsecond := (h.neighbours (l := [])).1
    have hxa : x ≠ a := by
      rintro rfl
      simpa using h.nodup
    have hlast : ∃ w, s.prev a = some w :=
      isSome_iff_exists.mp (isSome_prev.trans (h.isSome a mem_cons_self))
    obtain ⟨w, hw⟩ := hlast
    refine ⟨t, ?_, htring⟩
    rw [unlinkRounds, hfirst]
    simp only [bind_eq_bind, bind_some, hw, hsecond]
    rw [if_pos (Or.inl hxa)]
    rw [h1, bind_some, hnext1, hsecond, bind_some, h2, bind_some]
    exact ht

theorem my402ListUnlinkAll_spec {rounds : ℕ} (h : Ring a s q) (hrounds : q.length < rounds) :
    ∃ t, my402ListUnlinkAll a rounds s = some t ∧ Represents a t [] := by
  obtain ⟨t, ht, hring⟩ := unlinkRounds_spec h hrounds
  refine ⟨{ t with numMembers := 0 }, ?_, ⟨hring.joined, hring.nodup, hring.objs⟩, by simp⟩
  rw [my402ListUnlinkAll, ht]
  rfl

end Calls

/-! ### Traversal -/

section Traversal

variable {s : ListState α} {a x n : ℕ} {q : List (ℕ×α)} {link back : ℕ → Option ℕ}

theorem follow_spec (h : Joined link back x (q.map Prod.fst) a) (ha : a ∉ q.map Prod.fst) :
    follow a link x = some (q.head?.map Prod.fst) := by
  unfold follow
  cases q with
  | nil =>
    rw [h.1]
    simp
  | cons e q =>
    rw [h.1.1]
    simp only [map_cons, mem_cons, not_or] at ha
    simp [Ne.symm ha.1]

theorem visits_spec (h : Joined link back x (q.map Prod.fst) a) (ha : a ∉ q.map Prod.fst)
    (hobjs : ∀ e ∈ q, s.obj e.1 = some e.2) (hrounds : q.length ≤ n) :
    visits s (follow a link) n (q.head?.map Prod.fst) = some q := by
  induction q generalizing x n with
  | nil => cases n <;> rfl
  | cons e q ih =>
    obtain ⟨n, rfl⟩ := Nat.exists_eq_add_of_le' hrounds
    rw [map_cons, mem_cons, not_or] at ha
    have hnext := follow_spec h.2 ha.2
    have hrest := ih h.2 ha.2 (fun e he => hobjs e (mem_cons_of_mem _ he))
      (n := n+q.length) (Nat.le_add_left _ _)
    rw [length_cons, ← Nat.add_assoc, head?_cons, map_some, visits,
      hobjs e mem_cons_self]
    simp only [bind_eq_bind, bind_some, hnext, hrest]
    rfl

/-- The traversal in one direction of a list whose count is zero only if it is empty. -/
theorem traversal_spec (h : Joined link back a (q.map Prod.fst) a) (ha : a ∉ q.map Prod.fst)
    (hobjs : ∀ e ∈ q, s.obj e.1 = some e.2) (hrounds : q.length ≤ n)
    (hempty : my402ListEmpty s = true ↔ q = []) :
    ((endOf a s link).bind fun e => visits s (follow a link) n e) = some q := by
  cases q with
  | nil =>
    rw [endOf, if_pos (hempty.mpr rfl), bind_some]
    exact visits_spec h ha hobjs hrounds
  | cons e q =>
    rw [endOf, if_neg (by rw [hempty]; nofun), h.1.1, map_some, bind_some]
    exact visits_spec h ha hobjs hrounds

end Traversal

/-! ### Search -/

section Search

variable [DecidableEq α] {s : ListState α} {a b x rounds : ℕ} {o obj : α} {q : List (ℕ×α)}

theorem findRounds_spec (hb : s.next a = some b) (hne : b ≠ a)
    (h : Joined s.next s.prev x (q.map Prod.fst) a) (hobjs : ∀ e ∈ (x, o)::q, s.obj e.1 = some e.2)
    (hmem : ∃ e ∈ (x, o)::q, e.2 = obj) (hrounds : q.length < rounds) :
    findRounds a s obj rounds x = some ((((x, o)::q).find? fun e => e.2 = obj).map Prod.fst) := by
  obtain ⟨rounds, rfl⟩ := Nat.exists_eq_succ_of_ne_zero (Nat.ne_zero_of_lt hrounds)
  have hx : s.obj x = some o := hobjs _ mem_cons_self
  induction q generalizing x o rounds with
  | nil =>
    obtain ⟨e, he, rfl⟩ := hmem
    obtain rfl := mem_singleton.mp he
    simp [findRounds, hb, hne, hx]
  | cons e q ih =>
    by_cases ho : o = obj
    · simp [findRounds, hb, hne, hx, ho]
    · obtain ⟨rounds, rfl⟩ := Nat.exists_eq_succ_of_ne_zero (n := rounds) (by
        rintro rfl
        simp at hrounds)
      have hrest := ih h.2 (fun d hd => hobjs d (mem_cons_of_mem _ hd)) (by simpa [ho] using hmem)
        rounds (by simpa using hrounds) (hobjs e (by simp))
      rw [findRounds]
      simp only [hb, hx, h.1.1, bind_eq_bind, bind_some, if_neg hne, if_neg ho, hrest]
      simp [ho]

/-- An object that neither the anchor nor an element holds is searched for ever. -/
theorem findRounds_absent {r : List (ℕ×α)} (h : Ring a s q) (hne : q ≠ [])
    (ha : s.obj a ≠ some obj) (habsent : ∀ e ∈ q, e.2 ≠ obj) (hr : r ⊆ q)
    (hx : s.obj x ≠ some obj) (hjoined : Joined s.next s.prev x (r.map Prod.fst) a) :
    findRounds a s obj rounds x = none := by
  induction rounds generalizing x r with
  | zero => rfl
  | succ rounds ih =>
    have hstart : s.next a ≠ some a := by
      obtain ⟨e, q, rfl⟩ := exists_cons_of_ne_nil hne
      rw [h.joined.1.1]
      exact fun heq => (nodup_cons.mp h.nodup).1 (by simp [some.inj heq])
    -- the rounds go on behind `x`, or again from the anchor
    have hrest : ∃ y, s.next x = some y ∧ findRounds a s obj rounds y = none := by
      cases r with
      | nil => exact ⟨a, hjoined.1, ih (Subset.refl _) ha h.joined⟩
      | cons e r =>
        obtain ⟨he, hr⟩ := cons_subset.mp hr
        refine ⟨e.1, hjoined.1.1, ih hr ?_ hjoined.2⟩
        rw [h.objs e he]
        exact fun heq => habsent e he (some.inj heq)
    obtain ⟨y, hy, hnone⟩ := hrest
    rw [findRounds]
    simp only [bind_eq_bind, bind_eq_none_iff]
    intro b hb
    rw [if_neg fun heq : b = a => hstart (heq ▸ hb), bind_eq_none_iff]
    intro o ho
    rw [if_neg fun heq : o = obj => hx (heq ▸ ho), hy, bind_some]
    exact hnone

/-- The search of an empty list, and of one that holds the object when its anchor does not; any
other search ends at the anchor, or not at all. -/
theorem my402ListFind_first (h : Ring a s q) (hrounds : q.length < rounds) :
    (my402ListFind a rounds s obj = some ((q.find? fun e => e.2 = obj).map Prod.fst) ∧
      my402ListFind a rounds s obj ≠ some (some a)) ↔
    q = [] ∨ (∃ e ∈ q, e.2 = obj) ∧ s.obj a ≠ some obj := by
  have ha := (nodup_cons.mp h.nodup).1
  have hfound : some ((q.find? fun e => e.2 = obj).map Prod.fst) ≠ some (some a) := by
    simp only [ne_eq, some.injEq, map_eq_some_iff, not_exists, not_and]
    rintro e he rfl
    exact ha (mem_map_of_mem (mem_of_find?_eq_some he))
  obtain ⟨n, rfl⟩ := Nat.exists_eq_succ_of_ne_zero (Nat.ne_zero_of_lt hrounds)
  cases q with
  | nil =>
    have heq : my402ListFind a (n+1) s obj = some none := by
      simp [my402ListFind, findRounds, h.joined.1]
    exact iff_of_true ⟨heq, by simp [heq]⟩ (.inl rfl)
  | cons e q =>
    have hnext : e.1 ≠ a := fun heq => ha (by simp [heq])
    by_cases hanchor : s.obj a = some obj
    · have heq : my402ListFind a (n+1) s obj = some (some a) := by
        simp [my402ListFind, findRounds, h.joined.1.1, hnext, hanchor]
      exact iff_of_false (fun hc => hc.2 heq) (by simp [hanchor])
    by_cases hmem : ∃ d ∈ e::q, d.2 = obj
    · obtain ⟨A, hA, -⟩ := map_eq_some_iff.mp h.joined.1.1
      have ho : s.obj a = some A.obj := by rw [ListState.obj, hA, map_some]
      have hne : A.obj ≠ obj := fun heq => hanchor (heq ▸ ho)
      have hspec := findRounds_spec (o := A.obj) h.joined.1.1 hnext h.joined
        (forall_mem_cons.mpr ⟨ho, h.objs⟩) (hmem.imp fun e he => ⟨mem_cons_of_mem _ he.1, he.2⟩)
        hrounds
      rw [find?_cons_of_neg (by simpa using hne)] at hspec
      exact iff_of_true ⟨hspec, fun hc => hfound (hspec.symm.trans hc)⟩ (.inr ⟨hmem, hanchor⟩)
    · push Not at hmem
      have heq : my402ListFind a (n+1) s obj = none :=
        findRounds_absent h (cons_ne_nil e q) hanchor hmem (Subset.refl _) hanchor h.joined
      refine iff_of_false (fun hc => by simp [heq] at hc) ?_
      rintro (hnil | ⟨⟨d, hd, hobj⟩, -⟩)
      · cases hnil
      · exact hmem d hd hobj

/-- A list with the elements 1 and 2, which hold the objects 5 and 7. -/
def twoElements : ListState ℕ :=
  ⟨fun p => if p = 0 then some ⟨0, 1, 2⟩ else if p = 1 then some ⟨5, 2, 0⟩
    else if p = 2 then some ⟨7, 0, 1⟩ else none, 2⟩

theorem ring_twoElements : Ring 0 twoElements [(1, 5), (2, 7)] := by
  refine ⟨⟨⟨rfl, rfl⟩, ⟨rfl, rfl⟩, rfl, rfl⟩, by decide, ?_⟩
  simp [twoElements, ListState.obj]

theorem my402ListFind_second : my402ListFind 0 3 twoElements 7 = some (some 2) :=
  ((my402ListFind_first ring_twoElements (by decide)).mpr (.inr (by decide))).1

/-- The anchor is found, and an object that is not in the list is searched for ever. -/
theorem my402ListFind_absent : my402ListFind 0 3 twoElements 0 = some (some 0) ∧
    ∀ rounds, my402ListFind 0 rounds twoElements 8 = none :=
  ⟨by decide, fun _ => findRounds_absent ring_twoElements (by decide) (by decide) (by decide)
    (Subset.refl _) (by decide) ring_twoElements.joined⟩

end Search

/-- A state is seen through the functions of the list as the sequence `q`. -/
structure Agrees (a : ℕ) (s : ListState α) (q : List (ℕ×α)) : Prop where
  forward_eq : ∀ rounds, q.length ≤ rounds → forward a rounds s = some q
  backward_eq : ∀ rounds, q.length ≤ rounds →
    (backward a rounds s).map reverse = some q
  length_eq : my402ListLength s = q.length
  empty_iff : my402ListEmpty s = true ↔ q = []

variable {q : List (ℕ×α)} {s : ListState α} {a : ℕ}

theorem Represents.agrees (h : Represents a s q) (hq : q.length < 2^31) : Agrees a s q := by
  have hcount : s.numMembers = q.length := by
    rw [h.count]
    apply Int.bmod_eq_of_le_mul_two <;> omega
  have hempty : my402ListEmpty s = true ↔ q = [] := by
    rw [my402ListEmpty, decide_eq_true_iff, hcount, ← length_eq_zero_iff]
    omega
  have ha := (nodup_cons.mp h.ring.nodup).1
  constructor
  · intro rounds hrounds
    exact traversal_spec h.ring.joined ha h.ring.objs hrounds hempty
  · intro rounds hrounds
    have hjoined := h.ring.joined.reverse
    rw [← map_reverse] at hjoined
    have hback := traversal_spec (s := s) (n := rounds) hjoined (by simpa using ha)
      (fun e he => h.ring.objs e (mem_reverse.mp he)) (by simpa using hrounds)
      (hempty.trans reverse_eq_nil_iff.symm)
    change backward a rounds s = _ at hback
    rw [hback, map_some, reverse_reverse]
  · exact hcount
  · exact hempty

/-! ### Runs of calls -/

inductive ListCall (α : Type) where
  | init
  | append (obj : α) (x : ℕ)
  | prepend (obj : α) (x : ℕ)
  | insertBefore (obj : α) (elem x : ℕ)
  | insertAfter (obj : α) (elem x : ℕ)
  | unlink (elem : ℕ)
  | unlinkAll (rounds : ℕ)

def perform (a : ℕ) (s : ListState α) : ListCall α → Option (ListState α)
  | .init => my402ListInit a s
  | .append obj x => my402ListAppend a s obj x
  | .prepend obj x => my402ListPrepend a s obj x
  | .insertBefore obj elem x => my402ListInsertBefore s obj elem x
  | .insertAfter obj elem x => my402ListInsertAfter s obj elem x
  | .unlink elem => my402ListUnlink s elem
  | .unlinkAll rounds => my402ListUnlinkAll a rounds s

/-- The effect of a call on the abstract sequence. -/
def ListCall.effect (q : List (ℕ×α)) : ListCall α → List (ℕ×α)
  | .init => []
  | .append obj x => q++[(x, obj)]
  | .prepend obj x => (x, obj)::q
  | .insertBefore obj elem x => My402Lists.insertBefore elem (x, obj) q
  | .insertAfter obj elem x => My402Lists.insertAfter elem (x, obj) q
  | .unlink elem => My402Lists.unlink elem q
  | .unlinkAll _ => []

/-- An allocation returns an address that is not in use, an element that is given is in the
list, and a loop is given enough rounds. -/
def Allowed (p : ListState α×List (ℕ×α)) : ListCall α → Prop
  | .init => True
  | .append _ x | .prepend _ x => p.1.elems x = none
  | .insertBefore _ elem x | .insertAfter _ elem x =>
    p.1.elems x = none ∧ elem ∈ p.2.map Prod.fst
  | .unlink elem => elem ∈ p.2.map Prod.fst
  | .unlinkAll rounds => p.2.length < rounds

/-- A call on the memory of a list and on the sequence that stands for it. -/
def ListStep (a : ℕ) (p : ListState α×List (ℕ×α)) (c : ListCall α)
    (p' : ListState α×List (ℕ×α)) : Prop :=
  perform a p.1 c = some p'.1 ∧ p'.2 = c.effect p.2

theorem perform_spec {c : ListCall α} (h : Represents a s q) (hc : Allowed (s, q) c) :
    ∃ t, perform a s c = some t ∧ Represents a t (c.effect q) := by
  cases c with
  | init => exact my402ListInit_spec (h.ring.isSome a mem_cons_self)
  | append obj x =>
    rw [← append_nil q] at h
    change ∃ t, (s.prev a).bind _ = some t ∧ _
    have hedge := h.ring.edge.2
    rw [map_nil, headD_nil] at hedge
    rw [hedge]
    exact insertBetween_spec h hc rfl rfl
  | prepend obj x =>
    change ∃ t, (s.next a).bind _ = some t ∧ _
    have hedge := (Ring.edge (l := []) h.ring).1
    rw [map_nil, getLastD_nil] at hedge
    rw [hedge]
    exact insertBetween_spec (l := []) h hc rfl rfl
  | insertBefore obj elem x =>
    obtain ⟨l, o, r, rfl, hbefore, -, -⟩ := exists_split hc.2
    change ∃ t, (s.prev elem).bind _ = some t ∧ Represents a t (insertBefore _ _ _)
    rw [h.ring.neighbours.2, hbefore]
    exact insertBetween_spec h hc.1 rfl rfl
  | insertAfter obj elem x =>
    obtain ⟨l, o, r, rfl, -, hafter, -⟩ := exists_split hc.2
    change ∃ t, (s.next elem).bind _ = some t ∧ Represents a t (insertAfter _ _ _)
    rw [h.ring.neighbours.1, hafter, append_cons]
    rw [append_cons] at h
    exact insertBetween_spec h hc.1 (by simp) rfl
  | unlink elem =>
    obtain ⟨l, o, r, rfl, -, -, hunlink⟩ := exists_split hc
    change ∃ t, _ ∧ Represents a t (unlink _ _)
    rw [hunlink]
    exact my402ListUnlink_spec h
  | unlinkAll rounds => exact my402ListUnlinkAll_spec h.ring hc

theorem run_represents {p p' : ListState α×List (ℕ×α)} {cs : List (ListCall α)}
    (hrun : Run (ListStep a) Allowed p cs p') (h : Represents a p.1 p.2) :
    Represents a p'.1 p'.2 := by
  apply hrun.invariant (I := fun p => Represents a p.1 p.2) _ h
  rintro ⟨s, q⟩ c ⟨t, q'⟩ hallowed ⟨hperform, heffect⟩ hrep
  obtain ⟨u, hu, hurep⟩ := perform_spec hrep hallowed
  dsimp only at hperform heffect
  rw [hu, some.injEq] at hperform
  rw [heffect, ← hperform]
  exact hurep

/-- In every run of calls after `My402ListInit` whose list has fewer than 2^31 elements at its
end, the list is seen as the abstract sequence in both directions and by its count, the links
are one ring through the anchor, and no further call fails. -/
theorem list_refines_sequence {a : ℕ} {s s0 t : ListState α} {q : List (ℕ×α)}
    {cs : List (ListCall α)} (hinit : my402ListInit a s = some s0)
    (hrun : Run (ListStep a) Allowed (s0, []) cs (t, q)) (hq : q.length < 2^31) :
    Agrees a t q ∧ Ring a t q ∧ ∀ c, Allowed (t, q) c → ∃ u, perform a t c = some u := by
  have hsome : (s.next a).isSome = true := by
    cases hs : s.elems a with
    | none => simp [my402ListInit, ListState.setNext, hs] at hinit
    | some e => simp [ListState.next, hs]
  obtain ⟨s0', hs0', hstart⟩ := my402ListInit_spec hsome
  rw [hinit, some.injEq] at hs0'
  rw [← hs0'] at hstart
  have hrep := run_represents hrun hstart
  refine ⟨hrep.agrees hq, hrep.ring, fun c hc => ?_⟩
  obtain ⟨u, hu, -⟩ := perform_spec hrep hc
  exact ⟨u, hu⟩

instance (p : ListState α×List (ℕ×α)) (c : ListCall α) : Decidable (Allowed p c) := by
  cases c <;> unfold Allowed <;> infer_instance

def listNext (a : ℕ) (p : ListState α×List (ℕ×α)) (c : ListCall α) :
    Option (ListState α×List (ℕ×α)) := (perform a p.1 c).map fun t => (t, c.effect p.2)

theorem listStep_of_next (p : ListState α×List (ℕ×α)) (c : ListCall α) (p' : ListState α×List (ℕ×α))
    (h : listNext a p c = some p') : ListStep a p c p' := by
  rw [listNext, map_eq_some_iff] at h
  obtain ⟨t, ht, rfl⟩ := h
  exact ⟨ht, rfl⟩

/-- An empty list with its anchor at address 0, and no other element. -/
def emptyList : ListState ℕ := ⟨update (fun _ => none) 0 (some ⟨0, 0, 0⟩), 0⟩

/-- Elements at 1 to 4 are inserted on all four ways, and the second one is removed. -/
theorem refines_after_insertions : ∃ s0 t, my402ListInit 0 emptyList = some s0 ∧
    Agrees 0 t [(2, 12), (4, 14), (3, 13)] ∧ Ring 0 t [(2, 12), (4, 14), (3, 13)] := by
  obtain ⟨s0, hs0, -⟩ := my402ListInit_spec (a := 0) (s := emptyList) rfl
  refine ⟨s0, ?_⟩
  obtain ⟨⟨t, q⟩, hrun, rfl⟩ : ∃ p', Run (ListStep 0) Allowed (s0, [])
      [.append 11 1, .prepend 12 2, .insertAfter 13 1 3, .insertBefore 14 3 4, .unlink 1] p' ∧
      p'.2 = [(2, 12), (4, 14), (3, 13)] := by
    obtain rfl := some.inj hs0
    exact exists_run listStep_of_next (by decide +kernel)
  have hall := list_refines_sequence hs0 hrun (by decide)
  exact ⟨t, hs0, hall.1, hall.2.1⟩

/-! ### The count of a long list -/

theorem my402ListAppend_free {x y : ℕ} {t : ListState α} {obj : α}
    (h : my402ListAppend a s obj x = some t) (hne : y ≠ x) (hy : s.elems y = none) :
    t.elems y = none := by
  simp only [my402ListAppend, insertBetween, ListState.setNext, ListState.setPrev,
    Option.bind_eq_bind, Option.bind_eq_some_iff, Option.map_eq_some_iff, Option.pure_def,
    Option.some.injEq] at h
  obtain ⟨p, -, s1, ⟨e1, he1, rfl⟩, s2, ⟨e2, he2, rfl⟩, rfl⟩ := h
  have h1 : y ≠ p := by
    rintro rfl
    simp [ListState.put, update_of_ne hne, hy] at he1
  have h2 : y ≠ a := by
    rintro rfl
    simp [ListState.put, update_of_ne hne, update_of_ne h1, hy] at he2
  simp [ListState.count, ListState.put, update_of_ne hne, update_of_ne h1,
    update_of_ne h2, hy]

theorem exists_long_run (obj : α) (k : ℕ) (h : Represents a s q)
    (hfree : ∀ x, n ≤ x → s.elems x = none) :
    ∃ cs t q', Run (ListStep a) Allowed (s, q) cs (t, q') ∧ q'.length = q.length+k := by
  induction k generalizing s q n with
  | zero => exact ⟨[], s, q, .done _, rfl⟩
  | succ k ih =>
    have hallowed : Allowed (s, q) (.append obj n) := hfree n (Nat.le_refl n)
    obtain ⟨t, ht, hrep⟩ := perform_spec h hallowed
    obtain ⟨cs, u, q', hrun, hlen⟩ := ih hrep (n := n+1) fun x hx =>
      my402ListAppend_free ht (by omega) (hfree x (by omega))
    refine ⟨.append obj n::cs, u, q', .next hallowed ⟨ht, rfl⟩ hrun, ?_⟩
    rw [hlen, ListCall.effect, length_append, length_singleton]
    omega

/-- The count of a list of 2^31 elements is negative. -/
theorem long_list_count : ∃ s0 cs t q, my402ListInit 0 emptyList = some s0 ∧
    Run (ListStep 0) Allowed (s0, []) cs (t, q) ∧ q.length = 2^31 ∧
    my402ListLength t = -2^31 := by
  obtain ⟨s0, hs0, hrep⟩ := my402ListInit_spec (a := 0) (s := emptyList) rfl
  obtain ⟨cs, t, q, hrun, hlen⟩ := exists_long_run 0 (2^31) hrep (n := 1) (by
    obtain rfl : _ = s0 := some.inj hs0
    intro x hx
    have hne : x ≠ 0 := by omega
    simp [ListState.put, emptyList, update_of_ne hne])
  refine ⟨s0, cs, t, q, hs0, hrun, by simpa using hlen, ?_⟩
  rw [my402ListLength, (run_represents hrun hrep).count, hlen]
  decide

end SystemsProjects.My402Lists
