import SystemsProjects.VmRuns
import SystemsProjects.PageResolution
import SystemsProjects.ForkedMemories

/-!
# Copy on write

What processes see of their private and shared memory, as they load, store, fault and fork, is
the memory of `ForkedMemories`: a private page is a page of the process's own, wherever along the
chain of its area the bytes are kept, and a shared page is a page of the object of its area.
-/
namespace SystemsProjects.CopyOnWrite

open Option
open PageTables VmState MemoryObjects AddressSpaces VmSystemCalls ObjectHeap PageLookup AreaMaps
  AreaOrdering VmInvariant AreaChanges AreaRemoval Forking PageFaults VmRuns ForkedMemories

/-- The place of the page of an area over an object. -/
def placeOf (q vfn : ℕ) (a : Vmarea) (o : ℕ) : Place ℕ ℕ (ℕ × ℕ) :=
  if hasFlag a.vmaFlags mapPrivate then .own q vfn else .shared (o, pagenum a vfn)

def areaAt (s : Vm) (q vfn : ℕ) : Option (Vmarea × ℕ) :=
  (vmmapLookup (areas s q) vfn).bind fun a => a.vmaObj.map fun o => (a, o)

def memoryOf (s : Vm) : Memory ℕ ℕ (ℕ × ℕ) ℕ UInt8 where
  place q vfn := (areaAt s q vfn).map fun ao => placeOf q vfn ao.1 ao.2
  page
    | .own q vfn => ((areaAt s q vfn).map fun ao => view s ao.2 (pagenum ao.1 vfn)).getD zeroPage
    | .shared k => view s k.1 k.2

variable {l : Place ℕ ℕ (ℕ × ℕ)}

section Memories

variable {s t u : Vm} {p q vfn o : ℕ} {a : Vmarea}

theorem areaAt_eq_some (h : Sound s) : areaAt s q vfn = some (a, o) ↔
    a ∈ areas s q ∧ covers a vfn ∧ a.vmaObj = some o := by
  simp only [areaAt, bind_eq_some_iff, map_eq_some_iff, Prod.mk.injEq,
    vmmapLookup_eq_some (h.spaces.wf q)]
  constructor
  · rintro ⟨b, ⟨hb, hcov⟩, y, hy, rfl, rfl⟩
    exact ⟨hb, hcov, hy⟩
  · rintro ⟨ha, hcov, ho⟩
    exact ⟨a, ⟨ha, hcov⟩, o, ho, rfl, rfl⟩

theorem place_eq_some (h : Sound s) : (memoryOf s).place q vfn = some l ↔
      ∃ a ∈ areas s q, covers a vfn ∧ ∃ o, a.vmaObj = some o ∧ placeOf q vfn a o = l := by
  simp only [memoryOf, map_eq_some_iff, Prod.exists, areaAt_eq_some h]
  constructor
  · rintro ⟨a, o, ⟨ha, hcov, ho⟩, hl⟩
    exact ⟨a, ha, hcov, o, ho, hl⟩
  · rintro ⟨a, ha, hcov, o, ho, hl⟩
    exact ⟨a, o, ⟨ha, hcov, ho⟩, hl⟩

theorem page_placeOf (h : Sound s) (ha : a ∈ areas s q) (hcov : covers a vfn)
    (ho : a.vmaObj = some o) :
    (memoryOf s).page (placeOf q vfn a o) = view s o (pagenum a vfn) := by
  unfold placeOf
  split
  · simp [memoryOf, (areaAt_eq_some h).mpr ⟨ha, hcov, ho⟩]
  · rfl

theorem placed_memoryOf (s : Vm) : Placed (memoryOf s) := by
  intro q vfn q' vfn' hq
  simp only [memoryOf, map_eq_some_iff, placeOf] at hq
  obtain ⟨ao, -, hl⟩ := hq
  split at hl
  · cases hl
    exact ⟨rfl, rfl⟩
  · cases hl

theorem memoryOf_brought (h : Brought s t) : memoryOf t = memoryOf s := by
  have harea : areaAt t = areaAt s := by
    funext q vfn
    rw [areaAt, areaAt, h.areas_eq]
  have hview : view t = view s := by
    funext x m
    exact h.view_eq x m
  unfold memoryOf
  rw [harea, hview]

theorem read_step {vaddr : ℕ} {e : Pte} (hr : Reached s t p (vaddr/pageSize) false e) :
    Step (memoryOf s) (.read p (vaddr/pageSize) (vaddr%pageSize)
      (t.mem e.pteFrame (vaddr%pageSize))) (memoryOf t) := by
  rw [← memoryOf_brought hr.brought]
  obtain ⟨a, ha, hcov, o, ho, hshow⟩ := hr.ok.tables p _ e hr.entry
  have hpage := page_placeOf hr.ok.sound ha hcov ho
  have hview : view t o (pagenum a (vaddr/pageSize)) = t.mem e.pteFrame := by
    rw [view, hshow.hit_eq]
  rw [← hview, ← hpage]
  exact .read p _ _ ((place_eq_some hr.ok.sound).mpr ⟨a, ha, hcov, o, ho, rfl⟩)

/-- The page of a process that remains has the same contents when another process is killed. -/
theorem died_step (h : Ok s) (hk : Killed s t p) : Step (memoryOf s) (.died p) (memoryOf t) := by
  have hst := hk.ok.sound
  have hnil : areas t p = [] := areas_of_mapOf_none hk.gone
  have harea : ∀ q, q ≠ p → areaAt t q = areaAt s q := fun q hq => by
    funext vfn
    rw [areaAt, areaAt, hk.others q hq]
  refine .died p (fun n => ?_) (fun q hq => ?_) fun l hl => ?_
  · simp [memoryOf, areaAt, hnil, vmmapLookup]
  · funext vfn
    simp only [memoryOf, harea q hq]
  · obtain ⟨q, vfn, hq⟩ := hl
    obtain ⟨a, ha, hcov, o, ho, rfl⟩ := (place_eq_some hst).mp hq
    have hqp : q ≠ p := fun heq => by
      rw [heq, hnil] at ha
      cases ha
    have has : a ∈ areas s q := by rwa [← hk.others q hqp]
    rw [page_placeOf hst ha hcov ho, page_placeOf h.sound has hcov ho]
    have hlive := hk.descends.live q a ha o ho
    exact hk.descends.keeps.view_eq (fun x hx => hk.descends.old x (hlive x hx)) hlive
      (h.sound.heap.bottom_mem o) hk.rest.mem hk.rest.vnData

theorem eq_of_mem_chain (h : Heap s) {x : ℕ} (hb : ∀ y, below s y ≠ some o) (hx : o ∈ chain s x) :
    x = o := by
  induction x using ParentChains.parent_induction h.decreasing with
  | h x ih =>
    rcases (ParentChains.mem_chain h.decreasing).mp hx with heq | ⟨y, hy, hmem⟩
    · exact heq.symm
    · exact absurd (ih y hy hmem ▸ hy) (hb x)

/-- Every area of the process is over an anonymous or a shadow object. -/
def AnonTops (s : Vm) (q : ℕ) : Prop :=
  ∀ a ∈ areas s q, ∀ o, a.vmaObj = some o → Anonymous s o

/-- A page at which the frame of an anonymous or shadow object is seen is the page that shows
it. -/
theorem placeOf_eq_iff (h : Ok s) {b : Vmarea} {y f vfn' : ℕ} (ha : a ∈ areas s p)
    (hcov : covers a vfn) (ho : a.vmaObj = some o) (hanon : Anonymous s o)
    (hf : frameAt s o (pagenum a vfn) = some f) (hb : b ∈ areas s q) (hcovb : covers b vfn')
    (hy : b.vmaObj = some y) :
    hit s y (pagenum b vfn') = some f ↔ placeOf q vfn' b y = placeOf p vfn a o := by
  have hs := h.sound
  obtain ⟨o', ob, ho', hob, -, hpriv⟩ := h.backed p a ha
  obtain rfl := some.inj (ho.symm.trans ho')
  constructor
  · intro hhit
    obtain ⟨x, hx, hfx⟩ := exists_of_hit hhit
    obtain ⟨rfl, hpage⟩ := frameAt_inj hs.heap hf hfx
    obtain rfl := eq_of_mem_chain hs.heap (h.tops.bare p a ha o ho hanon) hx
    obtain ⟨y', ob', hy', hob', -, hpriv'⟩ := h.backed q b hb
    obtain rfl := some.inj (hy.symm.trans hy')
    obtain rfl := some.inj (hob.symm.trans hob')
    have hflag : hasFlag b.vmaFlags mapPrivate = hasFlag a.vmaFlags mapPrivate :=
      Bool.eq_iff_iff.mpr (hpriv'.symm.trans hpriv)
    rw [placeOf, placeOf, hflag]
    split
    · next hp =>
      obtain ⟨rfl, hal⟩ := h.tops.alone p q a ha b hb y ho hy (by
        rw [IsShadow, hob, map_some, hpriv.mpr hp])
      rw [hal.vfn_eq hcov.1 hcovb.1 hpage]
    · rw [hpage]
  · intro heq
    have hhit := hit_of_frameAt hs.heap hf
    unfold placeOf at heq
    split at heq
    · split at heq
      · cases heq
        obtain rfl := hs.eq_of_covers hb ha hcovb hcov
        rwa [some.inj (hy.symm.trans ho)]
      · cases heq
    · split at heq
      · cases heq
      · obtain ⟨rfl, hpage⟩ := Prod.mk.inj (Place.shared.inj heq)
        rwa [hpage]

theorem AnonTops.brought (h : AnonTops s q) (hb : Brought s t) : AnonTops t q := by
  intro a ha o ho
  rw [hb.areas_eq] at ha
  obtain ⟨ob, hob, hops⟩ := h a ha o ho
  have hkind := hb.ops_eq o
  rw [hob, map_some, map_eq_some_iff] at hkind
  obtain ⟨ob', hob', heq⟩ := hkind
  exact ⟨ob', hob', by rwa [heq]⟩

theorem wrote_step {vaddr : ℕ} {b : UInt8} {e : Pte} (hp : AnonTops s p)
    (hr : Reached s t p (vaddr/pageSize) true e) :
    Step (memoryOf s) (.wrote p (vaddr/pageSize) (vaddr%pageSize) b)
      (memoryOf (t.setMem e.pteFrame (Function.update (t.mem e.pteFrame) (vaddr%pageSize) b))) := by
  rw [← memoryOf_brought hr.brought]
  set c := Function.update (t.mem e.pteFrame) (vaddr%pageSize) b with hc
  have hst := hr.ok.sound
  obtain ⟨a, ha, hcov, o, ho, hshow⟩ := hr.ok.tables p _ e hr.entry
  have hanon := hp.brought hr.brought a ha o ho
  have hf := hshow.write (hr.allowed rfl)
  have hsound : Sound (t.setMem e.pteFrame c) := ((sameFrames_setMem t _ c).ok hr.ok).sound
  refine .wrote p _ _ b (placeOf p (vaddr/pageSize) a o)
    ((place_eq_some hst).mpr ⟨a, ha, hcov, o, ho, rfl⟩) rfl ?_ fun l hl hne => ?_
  · rw [page_placeOf (s := t.setMem e.pteFrame c) hsound ha hcov ho, page_placeOf hst ha hcov ho,
      view_setMem, if_pos hshow.hit_eq, hc, view, hshow.hit_eq]
  · obtain ⟨q, vfn', hq⟩ := hl
    obtain ⟨a', ha', hcov', o', ho', rfl⟩ := (place_eq_some hst).mp hq
    rw [page_placeOf (s := t.setMem e.pteFrame c) hsound ha' hcov' ho',
      page_placeOf hst ha' hcov' ho', view_setMem, if_neg]
    exact fun hhit => hne ((placeOf_eq_iff hr.ok ha hcov ho hanon hf ha' hcov' ho').mp hhit)

theorem view_forked (h : Sound s) (hf : Forked s t p) (ho : (s.objs o).isSome) (n : ℕ) :
    view t o n = view s o n :=
  hf.keeps.view_eq (fun _ hx => h.heap.live_of_mem ho hx)
    (fun x hx => hf.live x (h.heap.live_of_mem ho hx)) (h.heap.bottom_mem o) hf.mem hf.vnData

/-- The copy of an area shows what the area shows, at the same pages. -/
structure Alike (s t : Vm) (a b : Vmarea) (o y : ℕ) : Prop where
  covers_iff : ∀ vfn, covers b vfn ↔ covers a vfn
  obj : a.vmaObj = some o
  obj' : b.vmaObj = some y
  place : ∀ q vfn, placeOf q vfn b y = placeOf q vfn a o
  view_eq : ∀ n, view t y n = view s o n
  pagenum_eq : ∀ vfn, pagenum b vfn = pagenum a vfn

theorem alike_of_copied {b : Vmarea} (h : Sound s) (ht : Sound t) (hf : Forked s t p)
    (ha : a ∈ areas s p) (hc : Copied s t a b) : ∃ o y, Alike s t a b o y := by
  obtain ⟨i, z, rfl⟩ := hc.same
  obtain ⟨o, y, ho, hy, hcase⟩ := hc.obj
  refine ⟨o, y, fun _ => Iff.rfl, ho, hy, fun q vfn => ?_, fun n => ?_, fun _ => rfl⟩
  · rcases hcase with ⟨rfl, -⟩ | ⟨-, hpriv, -⟩
    · rfl
    · simp [placeOf, hpriv]
  · have hlive := h.obj_live ha ho
    rcases hcase with ⟨rfl, -⟩ | ⟨-, -, ob, hob, -, hpages, hsh⟩
    · exact view_forked h hf hlive n
    · have hnone : frameAt t y n = none := by
        simp [frameAt, pframeGetResident, hob, pageOf, hpages]
      have hbelow : below t y = some o := (below_of_obj hob).trans hsh
      rw [view_of_below ht.heap hnone hbelow, view_forked h hf hlive]

theorem placeOf_inherit (p q vfn : ℕ) (a : Vmarea) (o : ℕ) :
    placeOf q vfn a o = inherit q vfn (placeOf p vfn a o) := by
  unfold placeOf
  split <;> rfl

theorem place_forked (h : Sound s) (ht : Sound t) (hf : Forked s t p)
    (hto : ∀ a ∈ areas s p, ∃ b ∈ areas t q, Copied s t a b)
    (hfrom : ∀ b ∈ areas t q, ∃ a ∈ areas s p, Copied s t a b) (vfn : ℕ) :
    (memoryOf t).place q vfn = ((memoryOf s).place p vfn).map (inherit q vfn) := by
  apply ext
  intro l
  rw [place_eq_some ht, map_eq_some_iff]
  constructor
  · rintro ⟨b, hb, hcov, y, hy, rfl⟩
    obtain ⟨a, ha, hc⟩ := hfrom b hb
    obtain ⟨o, y', hal⟩ := alike_of_copied h ht hf ha hc
    obtain rfl := some.inj (hy.symm.trans hal.obj')
    refine ⟨_, (place_eq_some h).mpr ⟨a, ha, (hal.covers_iff vfn).mp hcov, o, hal.obj, rfl⟩, ?_⟩
    rw [hal.place, ← placeOf_inherit]
  · rintro ⟨l', hl', rfl⟩
    obtain ⟨a, ha, hcov, o, ho, rfl⟩ := (place_eq_some h).mp hl'
    obtain ⟨b, hb, hc⟩ := hto a ha
    obtain ⟨o', y, hal⟩ := alike_of_copied h ht hf ha hc
    obtain rfl := some.inj (ho.symm.trans hal.obj)
    refine ⟨b, hb, (hal.covers_iff vfn).mpr hcov, y, hal.obj', ?_⟩
    rw [hal.place, ← placeOf_inherit]

theorem page_forked (h : Sound s) (ht : Sound t) (hf : Forked s t p)
    (hto : ∀ a ∈ areas s p, ∃ b ∈ areas t q, Copied s t a b)
    (hl : (memoryOf s).place p vfn = some l) :
    (memoryOf t).page (inherit q vfn l) = (memoryOf s).page l := by
  obtain ⟨a, ha, hcov, o, ho, rfl⟩ := (place_eq_some h).mp hl
  obtain ⟨b, hb, hc⟩ := hto a ha
  obtain ⟨o', y, hal⟩ := alike_of_copied h ht hf ha hc
  obtain rfl := some.inj (ho.symm.trans hal.obj)
  rw [← placeOf_inherit, ← hal.place, page_placeOf ht hb ((hal.covers_iff vfn).mpr hcov) hal.obj',
    page_placeOf h ha hcov hal.obj, hal.pagenum_eq, hal.view_eq]

theorem inherit_self (hl : (memoryOf s).place p vfn = some l) : inherit p vfn l = l := by
  cases l with
  | own q n =>
    obtain ⟨rfl, rfl⟩ := placed_memoryOf s p vfn q n hl
    rfl
  | shared k => rfl

theorem forked_step (h : Ok s) (hf : Forked s t p) (ht : Sound t) :
    Step (memoryOf s) (.forked p s.nextPid) (memoryOf t) := by
  have hs := h.sound
  have hnew : areas s s.nextPid = [] := areas_of_le hs.spaces (Nat.le_refl _)
  refine .forked p s.nextPid (fun n => ?_) (place_forked hs ht hf hf.toChild hf.inChild)
    (fun q hq => ?_) (fun l hl => ?_) fun n hn => page_forked hs ht hf hf.toChild hn
  · simp [memoryOf, areaAt, hnew, vmmapLookup]
  · funext vfn
    by_cases hqp : q = p
    · subst hqp
      rw [place_forked hs ht hf hf.toParent hf.parent]
      cases hl : (memoryOf s).place q vfn with
      | none => rfl
      | some l => rw [map_some, inherit_self hl]
    · simp only [memoryOf, areaAt, (hf.others q hqp hq).1]
  · obtain ⟨q, vfn, hq⟩ := hl
    by_cases hqp : q = p
    · subst hqp
      rw [← page_forked hs ht hf hf.toParent hq, inherit_self hq]
    · obtain ⟨a, ha, hcov, o, ho, rfl⟩ := (place_eq_some hs).mp hq
      have hqc : q ≠ s.nextPid := fun heq => by
        rw [heq, hnew] at ha
        cases ha
      have hat : a ∈ areas t q := by rwa [(hf.others q hqp hqc).1]
      rw [page_placeOf ht hat hcov ho, page_placeOf hs ha hcov ho,
        view_forked hs hf (hs.obj_live ha ho)]

end Memories

/-! ### Runs -/

/-- Faults, loads, stores and forks of a process that has no file mapped as shared. -/
def FamilyCall (s : Vm) : VmEvent → Prop
  | .faulted q _ _ _ => (mapOf s q).isSome ∧ AnonTops s q
  | .loaded q _ _ => (mapOf s q).isSome ∧ AnonTops s q
  | .stored q _ _ => (mapOf s q).isSome ∧ AnonTops s q
  | .forked q => (mapOf s q).isSome ∧ AnonTops s q
  | _ => False

theorem FamilyCall.callOk {s : Vm} {e : VmEvent} (h : FamilyCall s e) : CallOk s e := by
  cases e with
  | faulted | loaded | stored | forked => exact h.1
  | _ => exact h.elim

/-- How a call appears in the memory: a process may be killed by a fault. -/
inductive Appears : VmEvent → Label ℕ ℕ ℕ UInt8 → Prop
  | faulted (p vaddr : ℕ) (write exec : Bool) : Appears (.faulted p vaddr write exec) .idle
  | faultKilled (p vaddr : ℕ) (write exec : Bool) :
      Appears (.faulted p vaddr write exec) (.died p)
  | loaded (p vaddr : ℕ) (b : UInt8) :
      Appears (.loaded p vaddr (some b)) (.read p (vaddr/pageSize) (vaddr%pageSize) b)
  | loadKilled (p vaddr : ℕ) : Appears (.loaded p vaddr none) (.died p)
  | stored (p vaddr : ℕ) (b : UInt8) :
      Appears (.stored p vaddr b) (.wrote p (vaddr/pageSize) (vaddr%pageSize) b)
  | storeKilled (p vaddr : ℕ) (b : UInt8) : Appears (.stored p vaddr b) (.died p)
  | forked (p c : ℕ) : Appears (.forked p) (.forked p c)

section Simulation

variable {s t : Vm} {p q : ℕ} {e : VmEvent} {es : List VmEvent}

theorem memory_step (h : Ok s) (hc : FamilyCall s e) (hstep : VmStep s e t) :
    ∃ l, Appears e l ∧ Step (memoryOf s) l (memoryOf t) := by
  cases effect_of_vmStep h hc.callOk hstep with
  | created | vnodeCreated | mapped | removed | destroyed => exact hc.elim
  | forked hmap ht hs hf => exact ⟨_, .forked _ _, forked_step h hf hs⟩
  | faultKilled hk => exact ⟨_, .faultKilled _ _ _ _, died_step h hk⟩
  | faulted ho hb =>
    refine ⟨_, .faulted _ _ _ _, ?_⟩
    rw [memoryOf_brought hb]
    exact .idle _
  | loadKilled hk => exact ⟨_, .loadKilled _ _, died_step h hk⟩
  | loaded hr => exact ⟨_, .loaded _ _ _, read_step hr⟩
  | storeKilled hk => exact ⟨_, .storeKilled _ _ _, died_step h hk⟩
  | stored hr => exact ⟨_, .stored _ _ _, wrote_step hc.2 hr⟩

theorem memory_run (h : Ok s) (hrun : GuardedRuns.Run VmStep FamilyCall s es t) :
    ∃ ls, List.Forall₂ Appears es ls ∧
      GuardedRuns.Run Step (fun _ _ => True) (memoryOf s) ls (memoryOf t) := by
  induction hrun with
  | done s => exact ⟨[], .nil, .done _⟩
  | next hc hstep _ ih =>
    obtain ⟨l, hl, hstep'⟩ := memory_step h hc hstep
    obtain ⟨ls, hls, hrun'⟩ := ih (ok_step hc.callOk hstep h)
    exact ⟨l :: ls, .cons hl hls, .next trivial hstep' hrun'⟩

theorem AnonTops.killed (h : AnonTops s q) (hk : Killed s t p) : AnonTops t q := by
  intro a ha o ho
  have hq : q ≠ p := fun hq => by
    rw [hq, areas_of_mapOf_none hk.gone] at ha
    cases ha
  rw [hk.others q hq] at ha
  obtain ⟨ob, hob, hops⟩ := h a ha o ho
  obtain ⟨ob', hob'⟩ := isSome_iff_exists.mp (hk.descends.live q a
    (by rwa [hk.others q hq]) o ho o (ParentChains.mem_chain_self _ o))
  exact ⟨ob', hob', by rwa [(hk.descends.keeps o ob ob' hob hob').ops]⟩

theorem anonymous_forked {o : ℕ} (hf : Forked s t p) (h : Anonymous s o) : Anonymous t o := by
  obtain ⟨ob, hob, hops⟩ := h
  obtain ⟨ob', hob'⟩ := isSome_iff_exists.mp (hf.live o (by rw [hob]; rfl))
  exact ⟨ob', hob', by rwa [(hf.keeps o ob ob' hob hob').ops]⟩

theorem AnonTops.copied (h : AnonTops s p) (hf : Forked s t p)
    (hfrom : ∀ b ∈ areas t q, ∃ a ∈ areas s p, Copied s t a b) : AnonTops t q := by
  intro b hb y hy
  obtain ⟨a, ha, hc⟩ := hfrom b hb
  obtain ⟨o, y', ho, hy', hcase⟩ := hc.obj
  obtain rfl := some.inj (hy.symm.trans hy')
  rcases hcase with ⟨rfl, -⟩ | ⟨-, -, ob, hob, hops, -⟩
  · exact anonymous_forked hf (h a ha y ho)
  · exact ⟨ob, hob, by rw [hops]; decide⟩

theorem anonTops_step (hok : Ok s) (hc : FamilyCall s e) (hstep : VmStep s e t)
    (h : AnonTops s q) : AnonTops t q := by
  cases effect_of_vmStep hok hc.callOk hstep with
  | created | vnodeCreated | mapped | removed | destroyed => exact hc.elim
  | @forked p map t hmap ht hs hf =>
    by_cases hqp : q = p
    · subst hqp
      exact h.copied hf hf.parent
    · by_cases hqc : q = s.nextPid
      · subst hqc
        exact hc.2.copied hf hf.inChild
      · intro a ha o ho
        rw [(hf.others q hqp hqc).1] at ha
        exact anonymous_forked hf (h a ha o ho)
  | faultKilled hk => exact h.killed hk
  | faulted ho hb => exact h.brought hb
  | loadKilled hk => exact h.killed hk
  | loaded hr => exact h.brought hr.brought
  | storeKilled hk => exact h.killed hk
  | stored hr => exact fun a ha o ho => h.brought hr.brought a ha o ho

theorem anonTops_run (hok : Ok s) (hrun : GuardedRuns.Run VmStep FamilyCall s es t)
    (h : AnonTops s q) : AnonTops t q :=
  (hrun.invariant (I := fun s => Ok s ∧ AnonTops s q)
    (fun _ _ _ hc hstep hs => ⟨ok_step hc.callOk hstep hs.1, anonTops_step hs.1 hc hstep hs.2⟩)
    ⟨hok, h⟩).2

end Simulation

/-- A fork of a process whose areas are anonymous returns, and both see what the parent saw. From
then on, however the parent, the child and their descendants fault, load, store and fork, every
load gives the byte of the memory; a private page has the contents that it had after the fork,
changed by the stores of its process, and a shared page those changed by the stores of all
processes that share it. -/
theorem copy_on_write {s : Vm} {p : ℕ} (h : Ok s) (hmap : (mapOf s p).isSome) (hp : AnonTops s p) :
    ∃ s1, doFork s p = .ok (s.nextPid, s1) ∧
      (∀ vfn, (memoryOf s1).read p vfn = (memoryOf s).read p vfn ∧
        (memoryOf s1).read s.nextPid vfn = (memoryOf s).read p vfn) ∧
      ∀ es t, GuardedRuns.Run VmStep FamilyCall s1 es t →
        (AnonTops t p ∧ AnonTops t s.nextPid) ∧
        ∃ ls, List.Forall₂ Appears es ls ∧
          GuardedRuns.Run Step (fun _ _ => True) (memoryOf s1) ls (memoryOf t) ∧
          (∀ q vfn, (memoryOf s1).place q vfn = some (.own q vfn) → .died q ∉ ls →
            (memoryOf t).read q vfn =
              some (ls.foldl (written q vfn) ((memoryOf s1).page (.own q vfn)))) ∧
          ∀ q vfn k, (memoryOf t).place q vfn = some (.shared k) → (memoryOf t).read q vfn =
            some (sharedWrites k (memoryOf s1).place ls ((memoryOf s1).page (.shared k))) := by
  obtain ⟨map, hmap⟩ := isSome_iff_exists.mp hmap
  obtain ⟨s1, hs1, hsound, hf⟩ := doFork_spec h hmap
  have hok1 := hf.ok h hsound
  have hread : ∀ {q vfn}, (∀ a ∈ areas s p, ∃ b ∈ areas s1 q, Copied s s1 a b) →
      (∀ b ∈ areas s1 q, ∃ a ∈ areas s p, Copied s s1 a b) →
      (memoryOf s1).read q vfn = (memoryOf s).read p vfn := fun {q vfn} hto hfrom => by
    rw [Memory.read, Memory.read, place_forked h.sound hsound hf hto hfrom]
    cases hl : (memoryOf s).place p vfn with
    | none => rfl
    | some l =>
      rw [map_some, map_some, map_some, page_forked h.sound hsound hf hto hl]
  refine ⟨s1, hs1, fun vfn => ⟨hread hf.toParent hf.parent, hread hf.toChild hf.inChild⟩,
    fun es t hrun => ?_⟩
  obtain ⟨ls, hls, hmem⟩ := memory_run hok1 hrun
  refine ⟨⟨anonTops_run hok1 hrun (hp.copied hf hf.parent),
    anonTops_run hok1 hrun (hp.copied hf hf.inChild)⟩, ls, hls, hmem, ?_, ?_⟩
  · exact fun q vfn => own_run hmem (placed_memoryOf s1)
  · exact fun q vfn k => shared_run hmem

instance (s : Vm) (q : ℕ) : Decidable (AnonTops s q) :=
  decidable_of_iff (∀ a ∈ areas s q, a.vmaObj.all
      (fun o => (s.objs o).any fun ob => decide (ob.mmoOps ≠ .vnode)) = true) <| by
    unfold AnonTops Anonymous
    simp [all_eq_true, any_eq_true]

instance (s : Vm) (e : VmEvent) : Decidable (FamilyCall s e) := by
  rcases e with _ | _ <;> unfold FamilyCall <;> infer_instance

/-- A private and a shared page, both written to. -/
def parentEvents : List VmEvent :=
  [.created, .mapped 0 none 0x400 1 3 (mapPrivate+mapAnon) 0 .lohi,
    .mapped 0 none 0x500 1 3 (mapShared+mapAnon) 0 .lohi, .stored 0 0x400000 1,
    .stored 0 0x500000 2]

/-- The child writes to both pages and forks, and all three processes read. -/
def familyEvents : List VmEvent :=
  [.stored 1 0x400000 3, .stored 1 0x500000 4, .forked 1, .stored 2 0x400000 5,
    .loaded 0 0x400000 (some 1), .loaded 1 0x400000 (some 3), .loaded 2 0x400000 (some 5),
    .loaded 0 0x500000 (some 4), .loaded 2 0x500000 (some 4)]

theorem copy_on_write_family : ∃ s s1 t ls,
    GuardedRuns.Run VmStep CallOk blankVm parentEvents s ∧ doFork s 0 = .ok (s.nextPid, s1) ∧
      GuardedRuns.Run VmStep FamilyCall s1 familyEvents t ∧
      List.Forall₂ Appears familyEvents ls ∧
      GuardedRuns.Run Step (fun _ _ => True) (memoryOf s1) ls (memoryOf t) := by
  obtain ⟨s, hrun, hmap, hanon, hexec⟩ := exists_run_vm CallOk blankVm parentEvents
    (P := fun s => (mapOf s 0).isSome ∧ AnonTops s 0 ∧ (doFork s 0).toOption.any fun p =>
      (execVm FamilyCall p.2 familyEvents).any fun _ => decide True) (by decide +kernel)
  obtain ⟨s1, hs1, -, hlater⟩ := copy_on_write (ok_run hrun (ok_bootVm _ _)) hmap hanon
  rw [hs1] at hexec
  obtain ⟨t, hrun', -⟩ := exists_run_vm _ _ _ hexec
  obtain ⟨-, ls, hls, hmem, -⟩ := hlater familyEvents t hrun'
  exact ⟨s, s1, t, ls, hrun, hs1, hrun', hls, hmem⟩

/-- At any time an entry of a page table lies in an area of its process and maps the first frame
along the chain of the area. If it allows writing and the area is private, no other entry of any
process maps the frame. -/
theorem writable_private_alone {vnLen : ℕ → ℕ} {vnData : ℕ → ℕ → Page} {es : List VmEvent} {s : Vm}
    {p vfn : ℕ} {e : Pte} (hrun : GuardedRuns.Run VmStep CallOk (bootVm vnLen vnData) es s)
    (he : ptEntry (table s p) vfn = some e) :
    ∃ a ∈ areas s p, covers a vfn ∧
      (∃ o, a.vmaObj = some o ∧ hit s o (pagenum a vfn) = some e.pteFrame) ∧
      (e.pteWrite → hasFlag a.vmaFlags mapPrivate → ∀ q vfn' e',
        ptEntry (table s q) vfn' = some e' → e'.pteFrame = e.pteFrame → q = p ∧ vfn' = vfn) := by
  have hok := ok_run hrun (ok_bootVm _ _)
  obtain ⟨a, ha, hcov, o, ho, hshow⟩ := hok.tables p vfn e he
  refine ⟨a, ha, hcov, ⟨o, ho, hshow.hit_eq⟩, fun hw hpriv q vfn' e' he' hf => ?_⟩
  obtain ⟨b, hb, hcovb, y, hy, hshow'⟩ := hok.tables q vfn' e' he'
  obtain ⟨o', ob, ho', hob, -, hops⟩ := hok.backed p a ha
  obtain rfl := some.inj (ho.symm.trans ho')
  have hanon : Anonymous s o := ⟨ob, hob, by rw [hops.mpr hpriv]; decide⟩
  have hplace := (placeOf_eq_iff hok ha hcov ho hanon (hshow.write hw) hb hcovb hy).mp
    (hf ▸ hshow'.hit_eq)
  simp only [placeOf, if_pos hpriv] at hplace
  split at hplace
  · cases hplace
    exact ⟨rfl, rfl⟩
  · cases hplace

/-- The private page of a parent that has written to it after the fork. -/
theorem writable_private_alone_parent : ∃ s e,
    GuardedRuns.Run VmStep CallOk blankVm (parentEvents ++ [.forked 0, .stored 0 0x400000 3]) s ∧
    ptEntry (table s 0) 0x400 = some e ∧ ∀ q vfn' e', ptEntry (table s q) vfn' = some e' →
      e'.pteFrame = e.pteFrame → q = 0 ∧ vfn' = 0x400 := by
  obtain ⟨s, hrun, ⟨e, he, hw⟩, hpriv⟩ := exists_run_vm CallOk blankVm
    (parentEvents ++ [.forked 0, .stored 0 0x400000 3])
    (P := fun s => (∃ e ∈ ptEntry (table s 0) 0x400, e.pteWrite = true) ∧
      ∀ a ∈ areas s 0, covers a 0x400 → hasFlag a.vmaFlags mapPrivate = true) (by decide +kernel)
  obtain ⟨a, ha, hcov, -, halone⟩ := writable_private_alone hrun he
  exact ⟨s, e, hrun, he, halone hw (hpriv a ha hcov)⟩

end SystemsProjects.CopyOnWrite
