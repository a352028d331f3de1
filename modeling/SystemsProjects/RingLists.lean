import Mathlib.Data.List.Basic

/-!
# Circular doubly linked lists

The cells of a memory hold the addresses of a next and of a previous cell. Two cells are
joined by a list of cells if following the next cells from the first one leads through the
list to the second one, and following the previous cells leads back the same way. A ring is
a cell that is joined to itself. A cell can be put on any edge of such a path and taken off
it again with two changes in each direction, and the path depends on nothing but its cells.
-/
namespace SystemsProjects.RingLists
open Function List

variable {α : Type*}

/-- The cells that lie between `x` and `y`. -/
def Joined (next prev : α → Option α) : α → List α → α → Prop
  | x, [], y => next x = some y ∧ prev y = some x
  | x, z::l, y => (next x = some z ∧ prev z = some x) ∧ Joined next prev z l y

variable {next prev next' prev' : α → Option α} {x y z p q m : α} {l r : List α}

theorem Joined.congr (h : Joined next prev x l y) (hnext : ∀ w ∈ x::l, next' w = next w)
    (hprev : ∀ w ∈ y::l, prev' w = prev w) : Joined next' prev' x l y := by
  induction l generalizing x with
  | nil =>
    rw [Joined, hnext x mem_cons_self, hprev y mem_cons_self]
    exact h
  | cons z l ih =>
    constructor
    · rw [hnext x mem_cons_self, hprev z (by simp)]
      exact h.1
    · apply ih h.2 fun w hw => hnext w (mem_cons_of_mem _ hw)
      intro w hw
      apply hprev w
      rw [mem_cons] at hw ⊢
      exact hw.imp_right (mem_cons_of_mem _)

theorem joined_append : Joined next prev x (l++z::r) y ↔
    Joined next prev x l z ∧ Joined next prev z r y := by
  induction l generalizing x with
  | nil => exact Iff.rfl
  | cons w l ih => rw [cons_append, Joined, Joined, ih, and_assoc (c := Joined next prev z r y)]

theorem Joined.reverse (h : Joined next prev x l y) : Joined prev next y l.reverse x := by
  induction l generalizing x with
  | nil => exact ⟨h.2, h.1⟩
  | cons z l ih =>
    rw [reverse_cons, joined_append]
    exact ⟨ih h.2, h.1.2, h.1.1⟩

theorem Joined.edge (h : Joined next prev x (l++r) y) :
    next (l.getLastD x) = some (r.headD y) ∧ prev (r.headD y) = some (l.getLastD x) := by
  induction l generalizing x with
  | nil =>
    cases r with
    | nil => exact h
    | cons z r => exact h.1
  | cons z l ih =>
    rw [getLastD_cons]
    exact ih h.2

theorem Joined.next_isSome (h : Joined next prev x l y) : ∀ w ∈ x::l, (next w).isSome = true := by
  induction l generalizing x with
  | nil =>
    intro w hw
    rw [mem_singleton] at hw
    rw [hw, h.1]
    rfl
  | cons z l ih =>
    intro w hw
    rw [mem_cons] at hw
    rcases hw with rfl | hw
    · rw [h.1.1]
      rfl
    · exact ih h.2 w hw

theorem getLastD_mem : l.getLastD x ∈ x::l := by
  induction l generalizing x with
  | nil => exact mem_singleton_self x
  | cons z l ih =>
    rw [getLastD_cons]
    exact mem_cons_of_mem _ ih

theorem headD_mem : r.headD y ∈ y::r := by
  cases r <;> simp

/-- The cells between `l` and `r` are replaced, if nothing changes but their cells and the two
at which they are joined. -/
theorem Joined.relink {c d : List α} (h : Joined next prev x (l++(c++r)) y)
    (hx : (x::(l++r)).Nodup) (hy : y ∉ l++r) (hc : ∀ w ∈ x::y::(l++r), w ∉ d)
    (hp : l.getLastD x = p) (hq : r.headD y = q)
    (hnext : ∀ w, w ≠ p → w ∉ d → next' w = next w)
    (hprev : ∀ w, w ≠ q → w ∉ d → prev' w = prev w) (hnew : Joined next' prev' p d q) :
    Joined next' prev' x (l++(d++r)) y := by
  induction l generalizing x with
  | nil =>
    obtain rfl : x = p := hp
    rw [nil_append] at h hx hy hc ⊢
    cases r with
    | nil =>
      obtain rfl : y = q := hq
      rwa [append_nil]
    | cons w r =>
      obtain rfl : w = q := hq
      have hdup := nodup_cons.mp (nodup_cons.mp hx).2
      refine joined_append.mpr ⟨hnew, (joined_append.mp h).2.congr ?_ ?_⟩
      · intro v hv
        refine hnext v ?_ (hc v (mem_cons_of_mem _ (mem_cons_of_mem _ hv)))
        rintro rfl
        exact (nodup_cons.mp hx).1 hv
      · intro v hv
        refine hprev v ?_ (hc v (mem_cons_of_mem _ ?_))
        · rintro rfl
          exact (mem_cons.mp hv).elim (fun heq => hy (by simp [heq])) hdup.1
        · exact (mem_cons.mp hv).elim (fun heq => by simp [heq]) fun hr => by simp [hr]
  | cons w l ih =>
    rw [getLastD_cons] at hp
    simp only [cons_append, nodup_cons, mem_cons, not_or] at hx hy
    have hpmem : p ∈ w::l := hp ▸ getLastD_mem
    have hqmem : q ∈ y::r := hq ▸ headD_mem
    refine ⟨⟨?_, ?_⟩, ih h.2 (nodup_cons.mpr hx.2) hy.2 ?_ hp⟩
    · rw [hnext x ?_ (hc x mem_cons_self), h.1.1]
      rintro rfl
      exact not_or.mpr hx.1 ((mem_cons.mp hpmem).imp_right (mem_append_left _))
    · rw [hprev w ?_ (hc w (by simp)), h.1.2]
      rintro rfl
      rcases mem_cons.mp hqmem with heq | hqmem
      · exact hy.1 heq.symm
      · exact hx.2.1 (mem_append_right _ hqmem)
    · exact fun v hv => hc v (mem_cons_of_mem _ (by simp at hv ⊢; tauto))

variable [DecidableEq α]

theorem Joined.insert (h : Joined next prev x (l++r) y) (hx : (x::(l++r)).Nodup)
    (hy : y ∉ l++r) (hz : z ∉ x::y::(l++r)) (hp : l.getLastD x = p) (hq : r.headD y = q) :
    Joined (update (update next z (some q)) p (some z))
      (update (update prev z (some p)) q (some z)) x (l++z::r) y := by
  have hpz : p ∈ x::l := hp ▸ getLastD_mem
  have hqz : q ∈ y::r := hq ▸ headD_mem
  have hzp : z ≠ p := by
    rintro rfl
    exact hz (by simp at hpz ⊢; tauto)
  have hzq : z ≠ q := by
    rintro rfl
    exact hz (by simp at hqz ⊢; tauto)
  refine Joined.relink (c := []) (d := [z]) h hx hy ?_ hp hq (fun w hw hwz => ?_)
    (fun w hw hwz => ?_) ?_
  · rintro w hw (_ | ⟨_, ⟨⟩⟩)
    exact hz hw
  · rw [update_of_ne hw, update_of_ne (by simpa using hwz)]
  · rw [update_of_ne hw, update_of_ne (by simpa using hwz)]
  · exact ⟨⟨by simp, by simp [update_of_ne hzq]⟩, by simp [update_of_ne hzp], by simp⟩

theorem Joined.remove (h : Joined next prev x (l++m::r) y) (hx : (x::(l++m::r)).Nodup)
    (hy : y ∉ l++m::r) (hp : l.getLastD x = p) (hq : r.headD y = q) :
    Joined (update next p (some q)) (update prev q (some p)) x (l++r) y := by
  refine Joined.relink (c := [m]) (d := []) h ?_ ?_ (fun _ _ => not_mem_nil) hp hq
    (fun w hw _ => update_of_ne hw _ _) (fun w hw _ => update_of_ne hw _ _)
    ⟨update_self .., update_self ..⟩
  · exact hx.sublist (((sublist_cons_self m r).append_left l).cons_cons x)
  · exact fun hmem => hy (((sublist_cons_self m r).append_left l).subset hmem)

end SystemsProjects.RingLists
