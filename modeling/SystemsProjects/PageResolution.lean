import SystemsProjects.RangeSearch

/-!
# What the pages of an address space show

A page of an address space that has an area shows a page of the object of that area, with the
protection and the flags of the area. `vmmap_remove` cuts areas and splits one in two, and
`vmmap_map` puts a new one into a range.
-/
namespace SystemsProjects.PageResolution

open List
open Function PageTables VmState AddressSpaces VmSystemCalls AreaMaps AreaOrdering RangeSearch

/-! ### Removal -/

section Removal

variable {s t : Vm} {p lo n : ℕ}

/-- After a removal that returns, no page of the range has an area, every other page shows what
it showed before, and the list is in order. -/
theorem vmmapRemove_pages (hwf : WellFormed s.nextVma (areas s p)) (hlo : userLow ≤ lo)
    (hhi : lo+n ≤ userHigh) (h : vmmapRemove s p lo n = .ok t) :
    (∀ vfn, lo ≤ vfn → vfn < lo+n → vmmapLookup (areas t p) vfn = none) ∧
    (∀ vfn, ¬(lo ≤ vfn ∧ vfn < lo+n) → resolve (areas t p) vfn = resolve (areas s p) vfn) ∧
    SpaceOk (areas t p) := by
  have hwords : lo < word ∧ n < word := by
    unfold userHigh at hhi
    unfold word
    omega
  obtain ⟨hrem, hkeep⟩ := vmmapRemove_spec h hwords.1 hwords.2 hwf
  refine ⟨fun vfn hle hlt => ?_, hkeep, hrem.wf.spaceOk⟩
  rw [vmmapLookup_eq_none]
  intro b hb hc
  have hclear := (hrem.clear b hb).resolve_right not_mem_nil
  unfold Clear at hclear
  unfold covers at hc
  omega

end Removal

/-- A process with four private pages of anonymous memory. -/
def fourPages : Vm :=
  { blankVm with
    procs := update (fun _ => none) 0 (some
      ⟨some ⟨[⟨0, 0x400, 0x404, 0, 3, mapPrivate, some 1, false⟩], some 0⟩, ptCreatePagedir, 0, 0,
        fun _ => none⟩)
    objs := update (update (fun _ => none) 0 (some ⟨.anon, 1, 0, [], .vmas [(0, 0)], none⟩)) 1
      (some ⟨.shadow, 1, 0, [], .bottomObj 0, some 0⟩)
    nextPid := 1
    nextObj := 2
    nextVma := 1 }

theorem fourPages_wellFormed : WellFormed fourPages.nextVma (areas fourPages 0) := by
  refine ⟨?_, ?_, ?_, ?_, ?_⟩
  · unfold IntervalLists.Ordered
    decide
  all_goals decide

/-- The second of four pages is removed. -/
theorem vmmapRemove_pages_second : ∃ t, vmmapRemove fourPages 0 0x401 1 = .ok t ∧
    vmmapLookup (areas t 0) 0x401 = none ∧
    resolve (areas t 0) 0x402 = some (some 1, 2, 3, mapPrivate) ∧ SpaceOk (areas t 0) := by
  have hok : (vmmapRemove fourPages 0 0x401 1).toOption.isSome = true := by decide +kernel
  cases ht : vmmapRemove fourPages 0 0x401 1 with
  | error e =>
    rw [ht] at hok
    cases hok
  | ok t =>
    obtain ⟨hin, hout, hspace⟩ :=
      vmmapRemove_pages fourPages_wellFormed (by decide) (by decide) ht
    refine ⟨t, rfl, hin _ (by decide) (by decide), ?_, hspace⟩
    rw [hout _ (by decide)]
    decide

/-! ### New mappings -/

section Mapping

variable {s t : Vm} {p lopage npages v : ℕ} {dir : Dir}

variable {file : Option VnodeMmap} {prot flags off : ℕ} {a : Vmarea}

/-- After a call that has succeeded, every page of the range of the new area has this area, with
the pages of the object in order from the offset on, every other page shows what it showed before,
and the list is in order. A range that has been searched for was free. -/
theorem vmmapMap_pages (hwf : WellFormed s.nextVma (areas s p)) (hlo : lopage < word)
    (hn : npages < word)
    (h : vmmapMap s p file lopage npages prot flags off dir = .ok (.ok a, t)) :
    (a.vmaEnd = a.vmaStart+npages ∧ a.vmaProt = prot ∧ a.vmaFlags = flags ∧
      (lopage ≠ 0 → a.vmaStart = lopage)) ∧
    (∀ vfn, a.vmaStart ≤ vfn → vfn < a.vmaEnd → vmmapLookup (areas t p) vfn = some a ∧
      pagenum a vfn = off/pageSize+(vfn-a.vmaStart)) ∧
    (∀ vfn, ¬(a.vmaStart ≤ vfn ∧ vfn < a.vmaEnd) →
      resolve (areas t p) vfn = resolve (areas s p) vfn) ∧
    SpaceOk (areas t p) ∧
    (lopage = 0 → FreeRun (areas s p) npages a.vmaStart) := by
  obtain ⟨hpos, place, s1, hplace, -, hnew⟩ := vmmapMap_spec h
  obtain ⟨rfl, hid, hend, hoff, hprot, hflags, hfreed, hed, -⟩ := hnew a rfl
  obtain ⟨hs1, hroom⟩ := placeMapping_spec hplace (fun _ => ⟨hlo, hn⟩) hwf
  obtain ⟨hlow, hhigh, hclear, hkeep, hsame, hfixed⟩ := hroom _ rfl
  have ht : WellFormed (s1.nextVma+1) (areas t p) := by
    rw [hed.self]
    exact hs1.wf.mapped hid hfreed hpos hend hlow hhigh hclear
  -- the new area is the only one with its number
  have hmem : ∀ b, b ∈ areas t p ↔ b = a ∨ b ∈ areas s1 p := by
    intro b
    rw [hed.self, mem_editArea]
    simp only [vmmapInsert, IntervalLists.mem_insertInterval]
    constructor
    · rintro ⟨c, rfl | hc, rfl⟩
      · rw [if_pos rfl]
        exact .inl rfl
      · have hne : c.vmaId ≠ a.vmaId := by
          rw [hid]
          exact Nat.ne_of_lt (hs1.wf.lt c hc)
        rw [if_neg hne]
        exact .inr hc
    · rintro (rfl | hb)
      · exact ⟨_, .inl rfl, by rw [if_pos rfl]⟩
      · have hne : b.vmaId ≠ a.vmaId := by
          rw [hid]
          exact Nat.ne_of_lt (hs1.wf.lt b hb)
        exact ⟨b, .inr hb, by rw [if_neg hne]⟩
  refine ⟨⟨hend, hprot, hflags, hfixed⟩, ?_, ?_, ht.spaceOk, ?_⟩
  · intro vfn hle hlt
    refine ⟨(vmmapLookup_eq_some ht).mpr ⟨(hmem a).mpr (.inl rfl), hle, hlt⟩, ?_⟩
    rw [pagenum, hoff, Nat.add_comm]
  · intro vfn hout
    rw [← hkeep vfn (by rw [← hend]; exact hout)]
    apply resolve_congr hs1.wf ht
    · intro b hb hc
      exact ⟨b, (hmem b).mpr (.inr hb), hc, rfl⟩
    · intro b hb hc
      rcases (hmem b).mp hb with rfl | hb
      · exact absurd hc hout
      · exact ⟨b, hb, hc⟩
  · intro h0
    rw [freeRun_iff hwf hpos]
    refine ⟨hlow, hhigh, ?_⟩
    rw [← hsame h0]
    exact hclear

end Mapping

/-- Two pages are mapped over the second and the third of four pages. -/
theorem vmmapMap_pages_over : ∃ a t,
    vmmapMap fourPages 0 none 0x401 2 1 mapShared 0 .hilo = .ok (.ok a, t) ∧
    vmmapLookup (areas t 0) 0x402 = some a ∧ pagenum a 0x402 = 1 ∧
    resolve (areas t 0) 0x403 = some (some 1, 3, 3, mapPrivate) ∧ SpaceOk (areas t 0) := by
  have hok : ((vmmapMap fourPages 0 none 0x401 2 1 mapShared 0 .hilo).toOption.any
      fun r => r.1.toOption.isSome) = true := by decide +kernel
  cases hr : vmmapMap fourPages 0 none 0x401 2 1 mapShared 0 .hilo with
  | error e =>
    rw [hr] at hok
    cases hok
  | ok r =>
    obtain ⟨res, t⟩ := r
    cases res with
    | error e =>
      rw [hr] at hok
      cases hok
    | ok a =>
      obtain ⟨⟨hend, -, -, hfixed⟩, hin, hout, hspace, -⟩ :=
        vmmapMap_pages fourPages_wellFormed (by decide) (by decide) hr
      have hstart := hfixed (by decide)
      rw [hstart] at hend hin hout
      rw [hend] at hin hout
      obtain ⟨hlookup, hpage⟩ := hin 0x402 (by decide) (by decide)
      refine ⟨a, t, rfl, hlookup, hpage, ?_, hspace⟩
      rw [hout _ (by decide)]
      decide

end SystemsProjects.PageResolution
