import SystemsProjects.AreaOrdering

/-!
# The search for a free range

`vmmap_find_range` goes through the gaps between the areas from one end of user memory to the
other.
-/
namespace SystemsProjects.RangeSearch

open PageTables VmState AddressSpaces AreaOrdering

/-- The pages from `v` on, as many as asked for, lie in user memory and no area has one. -/
def FreeRun (l : List Vmarea) (npages v : ℕ) : Prop :=
  userLow ≤ v ∧ v+npages ≤ userHigh ∧ ∀ w, v ≤ w → w < v+npages → vmmapLookup l w = none

section Search

variable {n npages v w prev : ℕ} {l : List Vmarea}

theorem freeRun_iff (h : WellFormed n l) (hn : 1 ≤ npages) : FreeRun l npages v ↔
      userLow ≤ v ∧ v+npages ≤ userHigh ∧ ∀ a ∈ l, Clear v (v+npages) a := by
  unfold FreeRun
  refine and_congr_right fun _ => and_congr_right fun _ => ?_
  simp only [vmmapLookup_eq_none, covers]
  constructor
  · intro hfree a ha
    have hr := h.range a ha
    unfold Clear
    by_contra hc
    have hout := hfree (max v a.vmaStart) (by omega) (by omega) a ha
    omega
  · intro hclear w hvw hwv a ha
    have hc := hclear a ha
    unfold Clear at hc
    omega

/-- In a list of areas that is in order, the search finds a range exactly if there is a free one,
and then the lowest or the highest one; the result is not negative as an `int`, and no difference
wraps around. -/
theorem vmmapFindRange_first_fit (h : WellFormed n l) (hn : 1 ≤ npages) (dir : Dir) :
    ((∃ v, vmmapFindRange l npages dir = some v) ↔ ∃ v, FreeRun l npages v) ∧
    (∀ v, vmmapFindRange l npages dir = some v → v < 2^31 ∧ FreeRun l npages v ∧
      ∀ w, FreeRun l npages w → (dir = .lohi → v ≤ w) ∧ (dir = .hilo → w ≤ v)) ∧
    vmmapFindRangeExact l npages dir = some (vmmapFindRange l npages dir) := by
  have hfree : ∀ v, vmmapFindRange l npages dir = some v → FreeRun l npages v :=
    fun v hv => (freeRun_iff h hn).mpr (vmmapFindRange_spec h hv)
  obtain ⟨hexact, -, hbest⟩ := vmmapFindRange_best npages h dir
  have hfound := fun w hw => hbest w ((freeRun_iff h hn).mp hw)
  refine ⟨⟨?_, ?_⟩, ?_, hexact⟩
  · rintro ⟨v, hv⟩
    exact ⟨v, hfree v hv⟩
  · rintro ⟨w, hw⟩
    obtain ⟨v, hv, _⟩ := hfound w hw
    exact ⟨v, hv⟩
  · intro v hv
    refine ⟨?_, hfree v hv, fun w hw => ?_⟩
    · have hle := (hfree v hv).2.1
      unfold userHigh at hle
      omega
    · obtain ⟨v', hv', hle⟩ := hfound w hw
      rw [hv, Option.some.injEq] at hv'
      exact hv' ▸ hle

end Search

/-- Two areas with a gap of two pages between them, below and above which memory is free. -/
def gapped : List Vmarea :=
  [⟨0, 0x401, 0x403, 0, 3, 2, some 0, false⟩, ⟨1, 0x405, 0x406, 0, 3, 2, some 1, false⟩]

theorem gapped_first_fit :
    (vmmapFindRange gapped 2 .lohi = some 0x403 ∧ vmmapFindRange gapped 2 .hilo = some 0xbfffe) ∧
    (1 ≤ 2 ∧ vmmapFindRangeExact gapped 2 .hilo = some (vmmapFindRange gapped 2 .hilo)) := by
  have hwf : WellFormed 2 gapped := by
    refine ⟨?_, ?_, ?_, ?_, ?_⟩
    · unfold IntervalLists.Ordered
      decide
    all_goals decide
  exact ⟨by decide, by decide, (vmmapFindRange_first_fit hwf (by decide) .hilo).2.2⟩

end SystemsProjects.RangeSearch
