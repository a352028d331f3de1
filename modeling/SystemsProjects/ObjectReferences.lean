import SystemsProjects.VmRuns

/-!
# References to objects and from objects to areas

An anonymous or shadow object has one reference for each of its pages and for each area whose
chain it is in. The map of an area names the process that it belongs to unless the process was
forked: then `vmmap_clone` has left the name open, and `pframe_remove_from_pts` passes the process
over.
-/
namespace SystemsProjects.ObjectReferences

open Option
open Function PageTables VmState MemoryObjects AddressSpaces VmSystemCalls ObjectHeap PageLookup
  AreaMaps AreaOrdering VmInvariant AreaRemoval AreaCreation Forking PageFaults VmRuns

/-! ### Counts -/

variable {v : ℕ × ℕ}

section Kinds

variable {s t u : Vm} {o p : ℕ} {map : Vmmap}

theorem filesFrom_of_objs (h : t.objs = s.objs) : FilesFrom s t := by
  intro x ob hob hops
  exact ⟨ob, by rw [← h, hob], hops⟩

theorem filesFrom_of_forked (h : Forked s t p) (ht : Heap t) (hb : Backed s) : FilesFrom s t := by
  intro x ob' hob' hv
  cases hs : s.objs x with
  | some ob => exact ⟨ob, rfl, (h.keeps x ob ob' hs hob').ops.symm.trans hv⟩
  | none =>
    obtain ⟨-, a, ha, hsh, -⟩ := h.fresh x ob' hob' hs
    obtain ⟨y, oby, hy, -⟩ := hb p a ha
    have hnone := (ht.bottom_eq_self hob' (by rw [hv]; decide)).1
    rw [hsh, hy] at hnone
    cases hnone

theorem filesFrom_of_brought (h : Brought s t) : FilesFrom s t := by
  intro x ob' hob' hv
  have hops := h.ops_eq x
  rw [hob', map_some, eq_comm, map_eq_some_iff] at hops
  obtain ⟨ob, hob, heq⟩ := hops
  exact ⟨ob, hob, heq.trans hv⟩

end Kinds

theorem live_of_uses_pos {s : Vm} {o : ℕ} (h : Sound s) (ho : 0 < uses s o) :
    (s.objs o).isSome := by
  obtain ⟨p, a, ha, hold⟩ := exists_of_uses_pos ho
  obtain ⟨y, hy, hmem⟩ := holds_iff.mp hold
  exact h.heap.live_of_mem (h.spaces.live p a ha y hy) hmem

theorem anonymous_step {s t : Vm} {e : VmEvent} {o : ℕ} (h : Ok s) (hc : CallOk s e)
    (hstep : VmStep s e t) (ho : Anonymous s o) (hlive : (t.objs o).isSome) : Anonymous t o := by
  obtain ⟨ob, hob, hops⟩ := ho
  obtain ⟨ob', hob'⟩ := isSome_iff_exists.mp hlive
  have key : FilesFrom s t → Anonymous t o := fun hfiles => by
    refine ⟨ob', hob', fun hv => ?_⟩
    obtain ⟨ob1, hob1, hops1⟩ := hfiles o ob' hob' hv
    obtain rfl := some.inj (hob.symm.trans hob1)
    exact hops hops1
  cases effect_of_vmStep h hc hstep with
  | created => exact key (filesFrom_of_objs rfl)
  | vnodeCreated refs =>
    have hne : o ≠ s.nextObj := h.sound.heap.ne_next (by rw [hob]; rfl)
    exact ⟨ob, by simp [vnodeCreate, Vm.setObj, hne, hob], hops⟩
  | mapped hmap hargs ht =>
    obtain ⟨_, _, ht', -, hfiles, -⟩ := vmmapMap_ok h hmap hargs
    obtain ⟨-, rfl⟩ := ok_inj (ht'.symm.trans ht)
    exact key hfiles
  | removed hd hrem => exact key hd.filesFrom
  | destroyed hk => exact key (hk.descends.filesFrom)
  | forked hmap ht hs hf => exact key (filesFrom_of_forked hf hs.heap h.backed)
  | faultKilled hk => exact key (hk.descends.filesFrom)
  | faulted ho hb => exact key (filesFrom_of_brought hb)
  | loadKilled hk => exact key (hk.descends.filesFrom)
  | loaded hr => exact key (filesFrom_of_brought hr.brought)
  | storeKilled hk => exact key (hk.descends.filesFrom)
  | stored hr => exact key ((filesFrom_of_brought hr.brought).trans (filesFrom_of_objs rfl))

/-- The references to an anonymous or shadow object are those of its pages and of the areas over
it; every call returns, and frees the object exactly if it leaves no area over it. -/
theorem references_exact (vnLen : ℕ → ℕ) (vnData : ℕ → ℕ → Page) {es : List VmEvent} {s : Vm}
    (hrun : GuardedRuns.Run VmStep CallOk (bootVm vnLen vnData) es s) :
    (∀ o ob, s.objs o = some ob → ob.mmoOps ≠ .vnode →
      ob.mmoNrespages ≤ ob.mmoRefcount ∧ ob.mmoRefcount - ob.mmoNrespages = uses s o) ∧
    (∀ e, CallOk s e → (∀ p vaddr b, e ≠ .loaded p vaddr b) → ∃ t, VmStep s e t) ∧
    ∀ e t, CallOk s e → VmStep s e t → ∀ o, Anonymous s o → (t.objs o = none ↔ uses t o = 0) := by
  have hok := ok_run hrun (ok_bootVm vnLen vnData)
  refine ⟨fun o ob hob hops => ?_, fun e hc hload => ?_, fun e t hc hstep o ho => ?_⟩
  · have hcount := (hok.sound.counts.exact o ob hob hops).1
    omega
  · obtain ⟨t, ht, -⟩ := stepVm_ok hok hc hload
    exact ⟨t, vmStep_iff.mpr ht⟩
  · have hokt := ok_step hc hstep hok
    constructor
    · intro hnone
      by_contra hne
      have hlive := live_of_uses_pos hokt.sound (Nat.pos_of_ne_zero hne)
      rw [hnone] at hlive
      cases hlive
    · intro hzero
      cases hob : t.objs o with
      | none => rfl
      | some ob =>
        obtain ⟨ob', hob', hops⟩ := anonymous_step hok hc hstep ho (by rw [hob]; rfl)
        have hpos := (hokt.sound.counts.exact o ob' hob' hops).2
        omega

/-- A private and a shared area in two processes, with a page of each written to. -/
def sharedEvents : List VmEvent :=
  [.created, .mapped 0 none 0x400 2 3 (mapPrivate+mapAnon) 0 .lohi,
    .mapped 0 none 0x500 3 3 (mapShared+mapAnon) 0 .lohi, .forked 0,
    .stored 1 0x400000 7, .stored 0 0x501000 8]

theorem references_exact_shared : ∃ s t, GuardedRuns.Run VmStep CallOk blankVm sharedEvents s ∧
    VmStep s (.destroyed 1) t ∧
    ∀ o, Anonymous s o → (t.objs o = none ↔ uses t o = 0) := by
  obtain ⟨s, hrun, hc⟩ := exists_run_vm CallOk blankVm sharedEvents
    (P := fun s => CallOk s (.destroyed 1)) (by decide +kernel)
  obtain ⟨-, hreturns, hfreed⟩ := references_exact _ _ hrun
  obtain ⟨t, ht⟩ := hreturns _ hc nofun
  exact ⟨s, t, hrun, ht, hfreed _ t hc ht⟩

def followsWild : Kern Vm → Bool
  | .error .wildPointer => true
  | _ => false

instance (x : Kern Vm) : Decidable (x = .error .wildPointer) :=
  decidable_of_iff (followsWild x = true) <| by
    unfold followsWild
    split
    · exact iff_of_true rfl rfl
    · exact iff_of_false nofun (by assumption)

/-- The removal of a page inside a shared area takes the head of the list of areas for a
pointer to an object, and writes where that leads. -/
theorem shared_split_follows_list : ∃ s,
    GuardedRuns.Run VmStep CallOk blankVm
      [.created, .mapped 0 none 0x400 3 3 (mapShared+mapAnon) 0 .lohi] s ∧
    vmmapRemove s 0 0x401 1 = .error .wildPointer :=
  exists_run_vm _ _ _ (by decide +kernel)

/-! ### Lists of areas -/

/-- Every map names the process it belongs to. -/
def Owned (s : Vm) : Prop := ∀ p map, mapOf s p = some map → map.vmmProc = some p

def isFork : VmEvent → Bool
  | .forked _ => true
  | _ => false

variable {map : Vmmap} {q : ℕ}

section Owners

variable {s t : Vm} {o n p : ℕ}

theorem Owned.of_owner (h : Owned s)
    (ho : ∀ q map, mapOf t q = some map → ∃ map', mapOf s q = some map' ∧
      map'.vmmProc = map.vmmProc) : Owned t := by
  intro q map hmap
  obtain ⟨map', hmap', heq⟩ := ho q map hmap
  rw [← heq]
  exact h q map' hmap'

theorem exists_of_owner (h : (mapOf t q).map Vmmap.vmmProc = (mapOf s q).map Vmmap.vmmProc)
    (hmap : mapOf t q = some map) : ∃ map', mapOf s q = some map' ∧ map'.vmmProc = map.vmmProc := by
  rw [hmap, map_some, eq_comm, map_eq_some_iff] at h
  exact h

theorem Owned.killed (h : Owned s) (hk : Killed s t p) : Owned t := by
  refine h.of_owner fun q map hmap => ?_
  by_cases hq : q = p
  · subst hq
    rw [hk.gone] at hmap
    cases hmap
  · exact exists_of_owner (hk.owner q hq) hmap

theorem Owned.sameMap (h : Owned s) (hm : mapOf t = mapOf s) : Owned t := by
  intro q map hmap
  rw [hm] at hmap
  exact h q map hmap

theorem owned_step {e : VmEvent} (hok : Ok s) (hc : CallOk s e) (hfork : isFork e = false)
    (hstep : VmStep s e t) (h : Owned s) : Owned t := by
  cases effect_of_vmStep hok hc hstep with
  | created =>
    intro q map hmap
    by_cases hq : q = s.nextPid
    · subst hq
      simp only [mapOf, procCreate, Vm.setProc, update_self, bind_some, some.injEq] at hmap
      rw [← hmap]
    · simp only [mapOf, procCreate, Vm.setProc, update_of_ne hq] at hmap
      exact h q map hmap
  | vnodeCreated refs => exact h.sameMap rfl
  | mapped hmap hargs ht =>
    obtain ⟨_, _, ht', -, -, howner⟩ := vmmapMap_ok hok hmap hargs
    obtain ⟨-, rfl⟩ := ok_inj (ht'.symm.trans ht)
    exact h.of_owner fun q map => exists_of_owner (howner q)
  | removed hd hrem => exact h.of_owner fun q map => exists_of_owner (hrem.owner q)
  | destroyed hk => exact h.killed hk
  | forked hmap ht hs hf => cases hfork
  | faultKilled hk => exact h.killed hk
  | faulted ho hb => exact h.sameMap hb.mapOf_eq
  | loadKilled hk => exact h.killed hk
  | loaded hr => exact h.sameMap hr.brought.mapOf_eq
  | storeKilled hk => exact h.killed hk
  | stored hr => exact h.sameMap hr.brought.mapOf_eq

theorem removeFromPt_clears {a : Vmarea} (hmap : mapOf s v.1 = some map) (hq : map.vmmProc = some q)
    (ha : liveArea map.vmmList v.2 = some a)
    (hn : a.vmaOff ≤ n ∧ n < a.vmaOff + sub32 a.vmaEnd a.vmaStart) (ht : removeFromPt n s v = .ok t)
    : ptEntry (table t q) (a.vmaStart+n-a.vmaOff) = none := by
  obtain ⟨r, hr, hm⟩ := mapOf_eq_some.mp hmap
  simp only [removeFromPt, getProc, hr, getMap, hm, ha, need_some, ok_bind, if_pos hn, hq,
    bind_eq_ok, need_eq_ok] at ht
  obtain ⟨r', hr', pd, hpd, ht⟩ := ht
  obtain rfl := Except.ok.inj ht
  simp [table, setPagedir, Vm.setProc, ptEntry_ptUnmap hpd]

theorem foldlM_removeFromPt_clears {l : List (ℕ × ℕ)} {a : Vmarea}
    (hl : ∀ v ∈ l, Resolvable s.procs v) (hv : v ∈ l) (hmap : mapOf s v.1 = some map)
    (hq : map.vmmProc = some q) (ha : liveArea map.vmmList v.2 = some a)
    (hn : a.vmaOff ≤ n ∧ n < a.vmaOff + sub32 a.vmaEnd a.vmaStart)
    (ht : l.foldlM (removeFromPt n) s = .ok t) :
    ptEntry (table t q) (a.vmaStart+n-a.vmaOff) = none := by
  induction l generalizing s with
  | nil => cases hv
  | cons w l ih =>
    rw [List.foldlM_cons, bind_eq_ok] at ht
    obtain ⟨s1, h1, ht⟩ := ht
    obtain ⟨f1, hshrunk, heq⟩ := removeFromPt_spec n s (hl w (by simp))
    obtain rfl := Except.ok.inj (heq.symm.trans h1)
    have hl1 : ∀ v ∈ l, Resolvable f1 v := fun v hv => (hl v (by simp [hv])).shrunk hshrunk
    rcases List.mem_cons.mp hv with rfl | hv
    · have hnone := removeFromPt_clears hmap hq ha hn h1
      obtain ⟨f2, hshrunk2, heq2⟩ := foldlM_removeFromPt n l (s.setProcs f1) hl1
      obtain rfl := Except.ok.inj (heq2.symm.trans ht)
      rcases table_shrunk hshrunk2 q (a.vmaStart+n-a.vmaOff) with hgone | hkept
      · exact hgone
      · rw [hkept, hnone]
    · have hmap1 : mapOf (s.setProcs f1) v.1 = some map := by
        rw [(removeFromPt_sameMaps h1).1, hmap]
      exact ih hl1 hv hmap1 ht

/-- Before a page is freed, every entry that maps its frame is cleared. -/
theorem pframeRemoveFromPts_clears (h : Ok s) (ho : Owned s) {f : ℕ}
    (hf : frameAt s o n = some f) : ∃ t, pframeRemoveFromPts s o n = .ok t ∧
      ∀ q vfn e, ptEntry (table t q) vfn = some e → e.pteFrame ≠ f := by
  obtain ⟨ob, hob⟩ : ∃ ob, s.objs o = some ob := by
    cases hob : s.objs o with
    | none => simp [frameAt, pframeGetResident, hob] at hf
    | some ob => exact ⟨ob, rfl⟩
  have hl : ∀ v ∈ vmasAt s (bottom s o), Resolvable s.procs v := fun v => h.sound.resolvable
  obtain ⟨f', hshrunk, hloop⟩ := foldlM_removeFromPt n (vmasAt s (bottom s o)) s hl
  refine ⟨s.setProcs f', ?_, fun q vfn e he heq => ?_⟩
  · rw [pframeRemoveFromPts, h.sound.heap.mmobjBottomVmas_eq hob, ok_bind, hloop]
  · -- the entry belongs to an area over the bottom object of `o`, and shows page `n` there
    obtain ⟨a, ha, hcov, y, hy, hshow⟩ := h.tables q vfn e ((table_shrunk hshrunk q).eq_some he)
    obtain ⟨x, hx, hfx⟩ := exists_of_hit hshow.hit_eq
    obtain ⟨rfl, hn⟩ := frameAt_inj h.sound.heap hf (heq ▸ hfx)
    have hmem : (q, a.vmaId) ∈ vmasAt s (bottom s o) := (h.sound.links.mem_iff _ q _).mpr
      ⟨a, ha, rfl, y, hy, (h.sound.heap.bottom_of_mem hx).symm⟩
    obtain ⟨map, hmap⟩ := mapOf_of_mem ha
    have hlive := h.sound.liveArea_eq ha
    rw [areas_of_mapOf hmap] at hlive
    have hrange := (h.sound.spaces.wf q).range a ha
    obtain ⟨hlo, hhi⟩ := hcov
    have hn' : n = pagenum a vfn := hn
    have hin : a.vmaOff ≤ n ∧ n < a.vmaOff + sub32 a.vmaEnd a.vmaStart := by
      rw [sub32_of_le (Nat.le_of_lt hrange.2.1) hrange.2.2, hn', pagenum]
      omega
    have hnone := foldlM_removeFromPt_clears hl hmem hmap (ho q map hmap) hlive hin hloop
    have hvfn : a.vmaStart+n-a.vmaOff = vfn := by
      rw [hn', pagenum]
      omega
    rw [hvfn, he] at hnone
    cases hnone

end Owners

/-- Every area is on the list of the bottom object of its chain and on no other, and the lists
hold nothing else. As long as no process is forked every map names its process, and then the
entries of a page can be cleared, in all tables and without following a pointer to a structure
that is gone. -/
theorem reverse_mapping (vnLen : ℕ → ℕ) (vnData : ℕ → ℕ → Page) {es : List VmEvent} {s : Vm}
    (hrun : GuardedRuns.Run VmStep CallOk (bootVm vnLen vnData) es s) :
    (∀ p, ∀ a ∈ areas s p, ∃ o, a.vmaObj = some o ∧
      ∀ b, (vmasAt s b).count (p, a.vmaId) = if b = bottom s o then 1 else 0) ∧
    (∀ b p i, (p, i) ∈ vmasAt s b → ∃ a ∈ areas s p, a.vmaId = i ∧ a.vmaFreed = false) ∧
    ((∀ e ∈ es, isFork e = false) → (∀ p map, mapOf s p = some map → map.vmmProc = some p) ∧
      ∀ o n f, frameAt s o n = some f → ∃ t, pframeRemoveFromPts s o n = .ok t ∧
        ∀ q vfn e, ptEntry (table t q) vfn = some e → e.pteFrame ≠ f) := by
  have hok := ok_run hrun (ok_bootVm vnLen vnData)
  have hlinks := hok.sound.links
  refine ⟨fun p a ha => ?_, fun b p i hi => ?_, fun hes => ?_⟩
  · obtain ⟨o, ob, ho, -⟩ := hok.backed p a ha
    refine ⟨o, ho, fun b => ?_⟩
    split_ifs with hb
    · exact List.count_eq_one_of_mem (hlinks.nodup b)
        ((hlinks.mem_iff b p a.vmaId).mpr ⟨a, ha, rfl, o, ho, hb.symm⟩)
    · refine List.count_eq_zero.mpr fun hmem => hb ?_
      obtain ⟨c, hc, hid, y, hy, rfl⟩ := (hlinks.mem_iff b p a.vmaId).mp hmem
      obtain rfl := eq_of_id (hok.sound.spaces.wf p).ids hc ha hid
      rw [some.inj (hy.symm.trans ho)]
  · obtain ⟨a, ha, hid, -⟩ := (hlinks.mem_iff b p i).mp hi
    exact ⟨a, ha, hid, (hok.sound.spaces.wf p).kept a ha⟩
  · obtain ⟨-, howned⟩ : Ok s ∧ Owned s :=
      (hrun.labelled hes).invariant (I := fun s => Ok s ∧ Owned s) (fun s e t hc hstep h =>
        ⟨ok_step hc.1 hstep h.1, owned_step h.1 hc.1 hc.2 hstep h.2⟩)
        ⟨ok_bootVm vnLen vnData, nofun⟩
    exact ⟨howned, fun o n f => pframeRemoveFromPts_clears hok howned⟩

/-- A shared area in two processes, neither of which has been forked. -/
def unforkedEvents : List VmEvent :=
  [.created, .created, .vnodeCreated 5, .mapped 0 (some (.gives 0)) 0x400 1 3 mapShared 0 .lohi,
    .mapped 1 (some (.gives 0)) 0x500 1 3 mapPrivate 0 .lohi]

theorem reverse_mapping_unforked : ∃ s,
    GuardedRuns.Run VmStep CallOk blankVm unforkedEvents s ∧
      vmasAt s 0 = [(0, 0), (1, 1)] ∧ ∀ p map, mapOf s p = some map → map.vmmProc = some p := by
  exact (exists_run_vm _ _ _ (P := fun s => vmasAt s 0 = [(0, 0), (1, 1)])
    (by decide +kernel)).imp fun s h => ⟨h.1, h.2, ((reverse_mapping _ _ h.1).2.2 (by decide)).1⟩

/-- The map of a forked process names no process, and the entry of the page that it shares with
its parent outlives `pframe_remove_from_pts`. -/
theorem forked_entry_not_cleared : ∃ s t f,
    GuardedRuns.Run VmStep CallOk blankVm
      [.created, .mapped 0 none 0x400 1 3 (mapShared+mapAnon) 0 .lohi, .forked 0,
        .faulted 1 0x400000 true false] s ∧
    (mapOf s 1).map Vmmap.vmmProc = some none ∧ frameAt s 0 0 = some f ∧
    pframeRemoveFromPts s 0 0 = .ok t ∧
    ptEntry (table t 1) 0x400 = some ⟨f, true⟩ := by
  simp only [exists_and_left]
  refine (exists_run_vm _ _ _ (P := fun s => (mapOf s 1).map Vmmap.vmmProc = some none ∧
    ∃ f ∈ frameAt s 0 0, (pframeRemoveFromPts s 0 0).toOption.any fun t =>
      decide (ptEntry (table t 1) 0x400 = some ⟨f, true⟩)) (by decide +kernel)).imp fun s h =>
    ⟨h.1, h.2.1, ?_⟩
  obtain ⟨f, hf, hs⟩ := h.2.2
  cases ht : pframeRemoveFromPts s 0 0 with
  | error e =>
    rw [ht] at hs
    cases hs
  | ok t =>
    rw [ht] at hs
    exact ⟨t, f, hf, rfl, of_decide_eq_true hs⟩

end SystemsProjects.ObjectReferences
