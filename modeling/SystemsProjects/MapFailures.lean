import SystemsProjects.PageResolution

/-!
# Mappings that fail

`vmmap_map` allocates an area, may have to split another one, and then needs an object for the new
area and, for a private mapping, a shadow object; each of these allocations may fail. Up to the
insertion of the new area a failure leaves no trace: at most one area is split by a removal, and
then no other area has been touched before. After the insertion, a failure frees the new area and
leaves it on the list.
-/
namespace SystemsProjects.MapFailures

open PageTables VmState MemoryObjects AddressSpaces AreaMaps AreaOrdering PageResolution

/-- There is no place for the mapping: no range is free, or the given one lies inside an area and
there is no memory to split the area. -/
def NoPlace (split : Bool) (l : List Vmarea) (lopage npages : ℕ) (dir : Dir) : Prop :=
  if lopage = 0 then vmmapFindRange l npages dir = none
  else ¬split ∧ ∃ a ∈ l, a.vmaStart < lopage ∧ lopage+npages < a.vmaEnd

/-- Nothing that comes after the insertion of the new area fails. -/
def LateStepsSucceed (al : Allocs) (file : Option VnodeMmap) (flags : ℕ) : Prop :=
  (file = none → al.anon) ∧ file.all neverFails ∧ (hasFlag flags mapPrivate → al.shadow)

instance (al : Allocs) (file : Option VnodeMmap) (flags : ℕ) :
    Decidable (LateStepsSucceed al file flags) :=
  inferInstanceAs (Decidable (_ ∧ _ ∧ _))

variable {split : Bool}

section Failures

variable {s t : Vm} {p lo hi lopage npages : ℕ} {l : List Vmarea} {a : Vmarea}

/-! ### Failures before the insertion -/

/-- If the range lies inside an area, a round for another area does nothing. -/
theorem removeArea_of_clear (hr : a.vmaStart < a.vmaEnd) (h : Clear lo hi a) (hlt : lo < hi) :
    removeArea p lo hi s a = .ok s := by
  unfold Clear at h
  unfold removeArea
  rw [if_neg (by omega), if_neg (by omega), if_neg (by omega), if_neg (by omega)]
  rfl

theorem foldlM_removeArea_of_clear (hlt : lo < hi)
    (h : ∀ a ∈ l, a.vmaStart < a.vmaEnd ∧ Clear lo hi a) :
    l.foldlM (removeArea p lo hi) s = .ok s := by
  induction l with
  | nil => rfl
  | cons a l ih =>
    obtain ⟨hr, hclear⟩ := h a List.mem_cons_self
    rw [List.foldlM_cons, removeArea_of_clear hr hclear hlt, ok_bind]
    exact ih fun b hb => h b (List.mem_cons_of_mem _ hb)

/-- The loop comes to its end, or it fails at an area around the range, after the rounds for the
areas before it. -/
theorem removeAreas_cases {res : Except Errno Unit}
    (h : removeAreas split p lo hi l s = .ok (res, t)) :
    (res = .ok () ∧ l.foldlM (removeArea p lo hi) s = .ok t ∧
      ¬(¬split ∧ ∃ a ∈ l, a.vmaStart < lo ∧ hi < a.vmaEnd)) ∨
    (res = .error .enomem ∧ ¬split ∧ ∃ l1 a l2, l = l1++a::l2 ∧ (a.vmaStart < lo ∧ hi < a.vmaEnd) ∧
      l1.foldlM (removeArea p lo hi) s = .ok t) := by
  induction l generalizing s with
  | nil =>
    obtain ⟨rfl, rfl⟩ := ok_inj h
    exact .inl ⟨rfl, rfl, by simp⟩
  | cons a l ih =>
    rw [removeAreas] at h
    split_ifs at h with hc
    · obtain ⟨rfl, rfl⟩ := ok_inj h
      exact .inr ⟨rfl, hc.2, [], a, l, rfl, hc.1, rfl⟩
    · rw [bind_eq_ok] at h
      obtain ⟨s1, hs1, h⟩ := h
      rcases ih h with ⟨rfl, hfold, hnone⟩ | ⟨rfl, hsplit, l1, b, l2, hl, hb, hfold⟩
      · refine .inl ⟨rfl, by rw [List.foldlM_cons, hs1]; exact hfold, ?_⟩
        rintro ⟨hsplit, b, hb, haround⟩
        rcases List.mem_cons.mp hb with rfl | hb
        · exact hc ⟨haround, hsplit⟩
        · exact hnone ⟨hsplit, b, hb, haround⟩
      · refine .inr ⟨rfl, hsplit, a::l1, b, l2, by rw [hl]; rfl, hb, ?_⟩
        rw [List.foldlM_cons, hs1]
        exact hfold

/-- The areas before one around the range are clear of it, so nothing has changed when the loop
fails. -/
theorem foldlM_before {n : ℕ} {l1 l2 : List Vmarea} (hwf : WellFormed n (l1++a::l2)) (hlt : lo < hi)
    (hstart : a.vmaStart < lo) (h : l1.foldlM (removeArea p lo hi) s = .ok t) : t = s := by
  have hclear : ∀ b ∈ l1, b.vmaStart < b.vmaEnd ∧ Clear lo hi b := by
    intro b hb
    have hend : b.vmaEnd ≤ a.vmaStart :=
      (List.pairwise_append.mp hwf.ordered).2.2 b hb a List.mem_cons_self
    exact ⟨(hwf.range b (List.mem_append_left _ hb)).2.1, .inl (by omega)⟩
  rw [foldlM_removeArea_of_clear hlt hclear] at h
  exact (Except.ok.inj h).symm

theorem vmmapRemoveAlloc_cases {res : Except Errno Unit} (hwf : WellFormed s.nextVma (areas s p))
    (hlo : lopage < word) (hn : npages < word)
    (h : vmmapRemoveAlloc split s p lopage npages = .ok (res, t)) :
    (res = .ok () ∧ vmmapRemove s p lopage npages = .ok t ∧
      ¬(¬split ∧ ∃ a ∈ areas s p, a.vmaStart < lopage ∧ lopage+npages < a.vmaEnd)) ∨
    (res = .error .enomem ∧ t = s ∧
      ¬split ∧ ∃ a ∈ areas s p, a.vmaStart < lopage ∧ lopage+npages < a.vmaEnd) := by
  simp only [vmmapRemoveAlloc, bind_eq_ok] at h
  obtain ⟨l, hl, empty, hempty, h⟩ := h
  obtain ⟨-, rfl⟩ := readAreas_eq_ok hl
  obtain ⟨-, hpos, hhi, hclear⟩ := vmmapIsRangeEmpty_eq_ok hlo hn hempty
  have hmod : (lopage+npages)%word = lopage+npages := Nat.mod_eq_of_lt (by
    unfold userHigh at hhi
    unfold word
    omega)
  have hremove : vmmapRemove s p lopage npages = if empty then .ok s else
      (areas s p).foldlM (removeArea p lopage (lopage+npages)) s := by
    rw [vmmapRemove_eq, hl, ok_bind, hempty, ok_bind, hmod]
    rfl
  rw [hmod] at h
  cases empty with
  | true =>
    obtain ⟨rfl, rfl⟩ := ok_inj h
    refine .inl ⟨rfl, hremove, ?_⟩
    rintro ⟨-, a, ha, haround⟩
    have hc := hclear.mp rfl a ha
    unfold Clear at hc
    omega
  | false =>
    rw [if_neg (by decide)] at h hremove
    rcases removeAreas_cases h with ⟨rfl, hfold, hnone⟩ | ⟨rfl, hsplit, l1, a, l2, heq, hb, hfold⟩
    · exact .inl ⟨rfl, hremove.trans hfold, hnone⟩
    · have ha : a ∈ areas s p := by simp [heq]
      rw [heq] at hwf
      exact .inr ⟨rfl, foldlM_before hwf (by omega) hb.1 hfold, hsplit, a, ha, hb⟩

/-- A place is found unless there is none; a search without a result changes nothing. -/
theorem placeMapping_cases {dir : Dir} {place : Except Errno ℕ}
    (hwf : WellFormed s.nextVma (areas s p)) (hlo : lopage < word) (hn : npages < word)
    (h : placeMappingWith (plain split) s p lopage npages dir = .ok (place, t)) :
    (∃ e, place = .error e ∧ t = s ∧ NoPlace split (areas s p) lopage npages dir) ∨
    (∃ v, place = .ok v ∧ s.nextVma ≤ t.nextVma ∧
      ¬NoPlace split (areas s p) lopage npages dir) := by
  simp only [placeMappingWith, plain, bind_eq_ok] at h
  obtain ⟨l, hl, h⟩ := h
  obtain ⟨-, rfl⟩ := readAreas_eq_ok hl
  unfold NoPlace
  split_ifs at h ⊢ with h0
  · split at h
    · next hnone =>
      obtain ⟨rfl, rfl⟩ := ok_inj h
      exact .inl ⟨_, rfl, rfl, hnone⟩
    · next v hv =>
      obtain ⟨-, hhigh, -⟩ := vmmapFindRange_spec hwf hv
      have hsmall : ¬2^31 ≤ v := by
        unfold userHigh at hhigh
        omega
      rw [if_neg hsmall] at h
      obtain ⟨rfl, rfl⟩ := ok_inj h
      exact .inr ⟨v, rfl, Nat.le_refl _, by simp [hv]⟩
  · simp only [bind_eq_ok] at h
    obtain ⟨empty, hempty, h⟩ := h
    cases empty with
    | true =>
      obtain ⟨rfl, rfl⟩ := ok_inj h
      obtain ⟨-, -, -, hclear⟩ := vmmapIsRangeEmpty_eq_ok hlo hn hempty
      refine .inr ⟨lopage, rfl, Nat.le_refl _, ?_⟩
      rintro ⟨-, a, ha, haround⟩
      have hc := hclear.mp rfl a ha
      unfold Clear at hc
      omega
    | false =>
      rw [if_neg (by decide), bind_eq_ok] at h
      obtain ⟨⟨res, s1⟩, hs1, h⟩ := h
      rcases vmmapRemoveAlloc_cases hwf hlo hn hs1 with ⟨rfl, hremove, hnone⟩ | ⟨rfl, rfl, hfail⟩
      · obtain ⟨rfl, rfl⟩ := ok_inj h
        exact .inr ⟨lopage, rfl, (vmmapRemove_spec hremove hlo hn hwf).1.next, hnone⟩
      · obtain ⟨rfl, rfl⟩ := ok_inj h
        exact .inl ⟨_, rfl, rfl, hfail⟩

/-! ### Failures behind the insertion -/

/-- An area that has been freed behind its insertion is still on the list. -/
theorem freed_listed {s2 s3 : Vm} {new : Vmarea}
    (hins : editAreas s p (vmmapInsert · new) = .ok s2) (hm : SameMaps s2 s3)
    (hfree : editAreas s3 p (editArea new.vmaId fun b => { b with vmaFreed := true }) = .ok t) :
    ∃ b ∈ areas t p, b.vmaId = new.vmaId := by
  obtain ⟨he2, -⟩ := editAreas_edited hins
  obtain ⟨he, -⟩ := editAreas_edited hfree
  have hnew : new ∈ areas s3 p := by
    rw [hm.areas_eq, he2.self]
    exact IntervalLists.mem_insertInterval.mpr (.inl rfl)
  rw [he.self]
  refine ⟨_, mem_editArea.mpr ⟨new, hnew, rfl⟩, ?_⟩
  split_ifs <;> rfl

theorem mappingObjAlloc_spec {anon : Bool} {file : Option VnodeMmap} {r : Except Errno ℕ}
    (h : mappingObjAlloc anon s file = .ok (r, t)) :
    SameMaps s t ∧ ∀ e, r = .error e → (file = none ∧ ¬anon) ∨ ¬file.all neverFails := by
  unfold mappingObjAlloc at h
  split_ifs at h with hc
  · obtain ⟨-, rfl⟩ := ok_inj h
    exact ⟨.refl s, fun _ _ => .inl ⟨Option.isNone_iff_eq_none.mp hc.1, hc.2⟩⟩
  · obtain ⟨hm, hfails⟩ := mappingObj_spec h
    refine ⟨hm, fun e he => ?_⟩
    obtain ⟨e', rfl⟩ := hfails e he
    exact .inr (by simp [neverFails])

/-- A call that fails leaves the state as it was exactly if it has not come to the insertion of the
new area: there is no memory for the area or no place for it. Nothing fails behind the insertion
if the late steps succeed. -/
theorem vmmapMapAlloc_error {al : Allocs} {file : Option VnodeMmap} {prot flags off : ℕ}
    {dir : Dir} {e : Errno} (hwf : WellFormed s.nextVma (areas s p)) (hlo : lopage < word)
    (hn : npages < word)
    (h : vmmapMapAlloc al s p file lopage npages prot flags off dir = .ok (.error e, t)) :
    t = s ↔ ¬al.area ∨ NoPlace al.split (areas s p) lopage npages dir ∨
      LateStepsSucceed al file flags := by
  simp only [vmmapMapAlloc, vmmapMapWith, bind_eq_ok] at h
  obtain ⟨u, -, h⟩ := h
  by_cases harea : ¬al.area
  · rw [if_pos harea] at h
    exact iff_of_true (ok_inj h).2.symm (.inl harea)
  rw [if_neg harea] at h
  simp only [bind_eq_ok] at h
  obtain ⟨⟨place, s1⟩, hplace, h⟩ := h
  rcases placeMapping_cases hwf hlo hn hplace with ⟨e', rfl, rfl, hno⟩ | ⟨v, rfl, hnext, hplaced⟩
  · exact iff_of_true (ok_inj h).2.symm (.inr (.inl hno))
  simp only [bind_eq_ok] at h
  obtain ⟨-, -, s2, hs2, ⟨obj, s3⟩, hobj, h⟩ := h
  obtain ⟨hm3, herror⟩ := mappingObjAlloc_spec hobj
  -- the number of the new area is that of no area before the call
  have hchanged : (∃ b ∈ areas t p, b.vmaId = s1.nextVma) → t ≠ s := by
    rintro ⟨b, hb, hid⟩ rfl
    have := hwf.lt b hb
    omega
  have hfails : ¬LateStepsSucceed al file flags → (∃ b ∈ areas t p, b.vmaId = s1.nextVma) →
      (t = s ↔ ¬al.area ∨ NoPlace al.split (areas s p) lopage npages dir ∨
        LateStepsSucceed al file flags) := by
    intro hlate hfreed
    refine iff_of_false (hchanged hfreed) ?_
    rintro (hc | hc | hc)
    exacts [harea hc, hplaced hc, hlate hc]
  cases obj with
  | error e' =>
    simp only [bind_eq_ok] at h
    obtain ⟨s4, hs4, h⟩ := h
    obtain rfl := (ok_inj h).2
    refine hfails (fun hlate => ?_) (freed_listed hs2 hm3 hs4)
    rcases herror e' rfl with ⟨hnone, hanon⟩ | hfile
    · exact hanon (hlate.1 hnone)
    · exact hfile hlate.2.1
  | ok o =>
    dsimp only at h
    by_cases hshadow : hasFlag flags mapPrivate ∧ ¬al.shadow
    · rw [if_pos hshadow] at h
      simp only [bind_eq_ok] at h
      obtain ⟨s4, hs4, s5, hs5, h⟩ := h
      obtain rfl := (ok_inj h).2
      exact hfails (fun hlate => hshadow.2 (hlate.2.2 hshadow.1))
        (freed_listed hs2 (hm3.trans (mmobjPut_sameMaps 2 hs4)) hs5)
    · rw [if_neg hshadow] at h
      simp only [bind_eq_ok] at h
      obtain ⟨b, -, s5, -, s6, -, h⟩ := h
      cases (ok_inj h).1

end Failures

/-- A mapping over the second of four pages, for which there is no memory to split their area. -/
theorem vmmapMapAlloc_error_split : ∃ e t,
    vmmapMapAlloc { allAllocs with split := false } fourPages 0 none 0x401 1 3 mapShared 0 .hilo =
      .ok (.error e, t) ∧ t = fourPages := by
  have hrun : vmmapMapAlloc { allAllocs with split := false } fourPages 0 none 0x401 1 3 mapShared
      0 .hilo = .ok (.error .enomem, fourPages) := rfl
  exact ⟨.enomem, fourPages, hrun, (vmmapMapAlloc_error fourPages_wellFormed (by decide) (by decide)
    hrun).mpr (.inr (.inr (by decide)))⟩

/-- A file is mapped over the second of four pages, and its `mmap` operation fails. The page has a
freed area then, and the object of the other pages has got another user. -/
theorem failed_mapping_leaves_area : ∃ e t,
    vmmapMapAlloc allAllocs fourPages 0 (some (.fails 19)) 0x401 1 3 mapShared 0 .hilo =
      .ok (.error e, t) ∧
    (vmmapLookup (areas t 0) 0x401).map Vmarea.vmaFreed = some true ∧
    resolve (areas t 0) 0x401 ≠ resolve (areas fourPages 0) 0x401 ∧
    (areas t 0).length = 3 ∧ (areas fourPages 0).length = 1 ∧
    (t.objs 1).map Mmobj.mmoRefcount ≠ (fourPages.objs 1).map Mmobj.mmoRefcount := by
  refine ⟨.other 19, _, rfl, ?_⟩
  decide +kernel

end SystemsProjects.MapFailures
