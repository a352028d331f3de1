import SystemsProjects.Forking
import SystemsProjects.PageFaults

/-!
# Runs of the virtual memory system

The calls of one kernel, over any number of processes, in any order. Their callers see to
the arguments: those of a mapping meet the assertions of `vmmap_map` and ask for one kind of
sharing, a file that is mapped has references to spare, a removal stays in user memory, and
an area that a removal splits is private. Every such call returns, and the invariant of
address spaces and objects holds along every run.
-/
namespace SystemsProjects.VmRuns

open Option
open PageTables VmState MemoryObjects AddressSpaces VmSystemCalls AreaMaps AreaOrdering VmInvariant
  AreaRemoval AreaCreation Forking PageFaults

/-- A range of user memory, no shared area of which is split when it is removed. -/
@[mk_iff]
structure RemoveArgs (s : Vm) (p lopage npages : ℕ) : Prop where
  low : userLow ≤ lopage
  pos : 0 < npages
  high : lopage+npages ≤ userHigh
  splits : SplitsPrivate s p lopage (lopage+npages)

variable {s : Vm}

theorem RemoveArgs.lt {p lo n : ℕ} (h : RemoveArgs s p lo n) : lo < lo+n := by
  have := h.pos
  omega

theorem RemoveArgs.lt_word {p lo n : ℕ} (h : RemoveArgs s p lo n) : lo+n < word := by
  have := h.high
  unfold userHigh at this
  unfold word
  omega

instance (s : Vm) (p lo hi : ℕ) : Decidable (SplitsPrivate s p lo hi) :=
  inferInstanceAs (Decidable (∀ a ∈ areas s p, _))

instance (s : Vm) (p lopage npages : ℕ) : Decidable (RemoveArgs s p lopage npages) :=
  decidable_of_iff' _ (removeArgs_iff ..)

instance (s : Vm) (p : ℕ) (file : Option VnodeMmap) (lopage npages prot flags off : ℕ) :
    Decidable (MapArgs s p file lopage npages prot flags off) :=
  decidable_of_iff' _ (mapArgs_iff ..)

/-- The calls on address spaces and the loads and stores of processes that have one, with
arguments in order. -/
def CallOk (s : Vm) : VmEvent → Prop
  | .created => True
  | .vnodeCreated refs => 0 < refs
  | .mapped p file lopage npages prot flags off _ =>
    (mapOf s p).isSome ∧ MapArgs s p file lopage npages prot flags off
  | .removed p lopage npages => (mapOf s p).isSome ∧ RemoveArgs s p lopage npages
  | .destroyed p => (mapOf s p).isSome
  | .forked p => (mapOf s p).isSome
  | .faulted p _ _ _ => (mapOf s p).isSome
  | .loaded p _ _ => (mapOf s p).isSome
  | .stored p _ _ => (mapOf s p).isSome
  | _ => False

instance (s : Vm) (e : VmEvent) : Decidable (CallOk s e) := by
  rcases e with _ | _ <;> unfold CallOk <;> infer_instance

theorem ok_bootVm (vnLen : ℕ → ℕ) (vnData : ℕ → ℕ → Page) : Ok (bootVm vnLen vnData) := by
  have hareas : ∀ p, areas (bootVm vnLen vnData) p = [] := fun _ => rfl
  constructor
  · constructor
    · constructor
      · exact ⟨nofun, nofun, nofun, nofun, nofun, nofun⟩
      · exact ⟨fun p => wellFormed_nil _, nofun, nofun, nofun⟩
      · exact ⟨nofun, nofun⟩
      · exact ⟨fun _ => List.nodup_nil, fun _ _ _ => ⟨nofun, nofun⟩⟩
    · intro p a ha
      rw [hareas] at ha
      cases ha
  · constructor
    · intro p a ha
      rw [hareas] at ha
      cases ha
    · intro p q a ha
      rw [hareas] at ha
      cases ha
  · intro p vfn e he
    cases he

section Access

variable {s t : Vm} {p vaddr : ℕ} {map : Vmmap}

/-- The process has reached a frame, through the entry that is there now. -/
structure Reached (s t : Vm) (p vfn : ℕ) (write : Bool) (e : Pte) : Prop where
  ok : Ok t
  brought : Brought s t
  entry : ptEntry (table t p) vfn = some e
  allowed : write → e.pteWrite

theorem userAccess_ok (h : Ok s) (hmap : mapOf s p = some map) (vaddr : ℕ) (write : Bool) :
    (∃ t, userAccess s p vaddr write = .ok (none, t) ∧ Killed s t p) ∨
      ∃ t e, userAccess s p vaddr write = .ok (some e.pteFrame, t) ∧
        Reached s t p (vaddr/pageSize) write e := by
  obtain ⟨r, hr, hm⟩ := mapOf_eq_some.mp hmap
  have htable : table s p = r.pPagedir := by rw [table, hr, map_some, getD_some]
  simp only [userAccess, getProc, hr, need_some, ok_bind]
  split
  · next e he =>
    rw [filter_eq_some_iff, ← htable] at he
    refine .inr ⟨s, e, rfl, h, .refl s, he.1, fun hw => ?_⟩
    have hallowed := he.2
    rw [hw] at hallowed
    exact hallowed
  · rcases handlePagefault_ok h hmap vaddr write false with ⟨t, ht, hk⟩ | ⟨t, a, o, e, ht, hres, -⟩
    · rw [ht, ok_bind]
      exact .inl ⟨t, rfl, hk⟩
    · have hmapt : mapOf t p = some map := by rw [hres.brought.mapOf_eq, hmap]
      obtain ⟨r', hr', -⟩ := mapOf_eq_some.mp hmapt
      have hent := hres.entry
      rw [table, hr', map_some, getD_some] at hent
      simp only [ht, ok_bind, hr', need_some, hent]
      exact .inr ⟨t, e, rfl, hres.ok, hres.brought, hres.entry, fun hw => hres.pteWrite.trans hw⟩

theorem userLoad_ok (h : Ok s) (hmap : mapOf s p = some map) (vaddr : ℕ) :
    (∃ t, userLoad s p vaddr = .ok (none, t) ∧ Killed s t p) ∨
      ∃ t e, userLoad s p vaddr = .ok (some (t.mem e.pteFrame (vaddr%pageSize)), t) ∧
        Reached s t p (vaddr/pageSize) false e := by
  rcases userAccess_ok h hmap vaddr false with ⟨t, ht, hk⟩ | ⟨t, e, ht, hr⟩
  · refine .inl ⟨t, ?_, hk⟩
    rw [userLoad, ht]
    rfl
  · refine .inr ⟨t, e, ?_, hr⟩
    rw [userLoad, ht]
    rfl

theorem userStore_ok (h : Ok s) (hmap : mapOf s p = some map) (vaddr : ℕ) (b : UInt8) :
    (∃ t, userStore s p vaddr b = .ok t ∧ Killed s t p) ∨
      ∃ t e, userStore s p vaddr b =
          .ok (t.setMem e.pteFrame (Function.update (t.mem e.pteFrame) (vaddr%pageSize) b)) ∧
        Reached s t p (vaddr/pageSize) true e := by
  rcases userAccess_ok h hmap vaddr true with ⟨t, ht, hk⟩ | ⟨t, e, ht, hr⟩
  · refine .inl ⟨t, ?_, hk⟩
    rw [userStore, ht]
    rfl
  · refine .inr ⟨t, e, ?_, hr⟩
    rw [userStore, ht]
    rfl

end Access

variable {e : VmEvent}

inductive Effect (s : Vm) : VmEvent → Vm → Prop
  | created : Effect s .created (procCreate s)
  | vnodeCreated (refs : ℕ) : Effect s (.vnodeCreated refs) (vnodeCreate s refs)
  | mapped {p lopage npages prot flags off : ℕ} {file : Option VnodeMmap} {dir : Dir} {map : Vmmap}
      {res : Except Errno Vmarea} {t : Vm} (hmap : mapOf s p = some map)
      (hargs : MapArgs s p file lopage npages prot flags off)
      (ht : vmmapMap s p file lopage npages prot flags off dir = .ok (res, t)) :
      Effect s (.mapped p file lopage npages prot flags off dir) t
  | removed {p lopage npages : ℕ} {t : Vm} (hd : Descends s t)
      (hrem : Removing p lopage (lopage+npages) s [] t) : Effect s (.removed p lopage npages) t
  | destroyed {p : ℕ} {t : Vm} (hk : Killed s t p) : Effect s (.destroyed p) t
  | forked {p : ℕ} {map : Vmmap} {t : Vm} (hmap : mapOf s p = some map)
      (ht : doFork s p = .ok (s.nextPid, t)) (hs : Sound t) (hf : Forked s t p) :
      Effect s (.forked p) t
  | faultKilled {p vaddr : ℕ} {write exec : Bool} {t : Vm} (hk : Killed s t p) :
      Effect s (.faulted p vaddr write exec) t
  | faulted {p vaddr : ℕ} {write exec : Bool} {t : Vm} (ho : Ok t) (hb : Brought s t) :
      Effect s (.faulted p vaddr write exec) t
  | loadKilled {p vaddr : ℕ} {t : Vm} (hk : Killed s t p) : Effect s (.loaded p vaddr none) t
  | loaded {p vaddr : ℕ} {e : Pte} {t : Vm} (hr : Reached s t p (vaddr/pageSize) false e) :
      Effect s (.loaded p vaddr (some (t.mem e.pteFrame (vaddr%pageSize)))) t
  | storeKilled {p vaddr : ℕ} {b : UInt8} {t : Vm} (hk : Killed s t p) :
      Effect s (.stored p vaddr b) t
  | stored {p vaddr : ℕ} {b : UInt8} {e : Pte} {t : Vm}
      (hr : Reached s t p (vaddr/pageSize) true e) : Effect s (.stored p vaddr b)
        (t.setMem e.pteFrame (Function.update (t.mem e.pteFrame) (vaddr%pageSize) b))

theorem stepVm_ok (h : Ok s) (hc : CallOk s e) (hload : ∀ p vaddr b, e ≠ .loaded p vaddr b) :
    ∃ t, stepVm s e = .ok t ∧ Ok t ∧ Effect s e t := by
  cases e with
  | created => exact ⟨_, rfl, (procCreate_quiet h.sound).ok h, .created⟩
  | vnodeCreated refs => exact ⟨_, rfl, vnodeCreate_ok h hc, .vnodeCreated refs⟩
  | mapped p file lopage npages prot flags off dir =>
    obtain ⟨map, hmap⟩ := isSome_iff_exists.mp hc.1
    obtain ⟨res, t, ht, hok, -⟩ := vmmapMap_ok h hmap hc.2
    exact ⟨t, by rw [stepVm, ht]; rfl, hok, .mapped hmap hc.2 ht⟩
  | removed p lopage npages =>
    obtain ⟨map, hmap⟩ := isSome_iff_exists.mp hc.1
    obtain ⟨t, ht, hs, hd, -, hrem⟩ :=
      vmmapRemove_ok h.sound h.backed hmap hc.2.low hc.2.pos hc.2.high hc.2.splits
    exact ⟨t, ht, hd.ok h hs, .removed hd hrem⟩
  | destroyed p =>
    obtain ⟨map, hmap⟩ := isSome_iff_exists.mp hc
    obtain ⟨t, ht, hk⟩ := vmmapDestroy_ok h hmap
    exact ⟨t, ht, hk.ok, .destroyed hk⟩
  | forked p =>
    obtain ⟨map, hmap⟩ := isSome_iff_exists.mp hc
    obtain ⟨t, ht, hs, hf⟩ := doFork_spec h hmap
    exact ⟨t, by rw [stepVm, ht]; rfl, hf.ok h hs, .forked hmap ht hs hf⟩
  | faulted p vaddr write exec =>
    obtain ⟨map, hmap⟩ := isSome_iff_exists.mp hc
    rcases handlePagefault_ok h hmap vaddr write exec with ⟨t, ht, hk⟩ | ⟨t, a, y, pte, ht, hr, -⟩
    · exact ⟨t, by rw [stepVm, ht]; rfl, hk.ok, .faultKilled hk⟩
    · exact ⟨t, by rw [stepVm, ht]; rfl, hr.ok, .faulted hr.ok hr.brought⟩
  | loaded p vaddr b => exact absurd rfl (hload p vaddr b)
  | stored p vaddr b =>
    obtain ⟨map, hmap⟩ := isSome_iff_exists.mp hc
    rcases userStore_ok h hmap vaddr b with ⟨t, ht, hk⟩ | ⟨t, pte, ht, hr⟩
    · exact ⟨t, ht, hk.ok, .storeKilled hk⟩
    · exact ⟨_, ht, (sameFrames_setMem t pte.pteFrame _).ok hr.ok, .stored hr⟩
  | opened | execed | mmapped | munmapped | brked | written | copied | reclaimed =>
    exact False.elim hc

theorem vmStep_ok (h : Ok s) (hc : CallOk s e) (hstep : VmStep s e t) : Ok t ∧ Effect s e t := by
  by_cases hload : ∃ p vaddr b, e = .loaded p vaddr b
  · obtain ⟨p, vaddr, b, rfl⟩ := hload
    obtain ⟨map, hmap⟩ := isSome_iff_exists.mp hc
    rcases userLoad_ok h hmap vaddr with ⟨t', ht, hk⟩ | ⟨t', pte, ht, hr⟩
    · obtain ⟨rfl, rfl⟩ := ok_inj (ht.symm.trans hstep)
      exact ⟨hk.ok, .loadKilled hk⟩
    · obtain ⟨rfl, rfl⟩ := ok_inj (ht.symm.trans hstep)
      exact ⟨hr.ok, .loaded hr⟩
  · obtain ⟨t', ht, hok⟩ := stepVm_ok h hc fun p vaddr b he => hload ⟨p, vaddr, b, he⟩
    obtain rfl := Except.ok.inj (ht.symm.trans (vmStep_iff.mp hstep))
    exact hok

theorem effect_of_vmStep (h : Ok s) (hc : CallOk s e) (hstep : VmStep s e t) : Effect s e t :=
  (vmStep_ok h hc hstep).2

theorem ok_step (hc : CallOk s e) (hstep : VmStep s e t) (h : Ok s) : Ok t :=
  (vmStep_ok h hc hstep).1

theorem ok_run {es : List VmEvent} (h : GuardedRuns.Run VmStep CallOk s es t) (hs : Ok s) :
    Ok t := h.invariant (fun _ _ _ => ok_step) hs

end SystemsProjects.VmRuns
