import SystemsProjects.ProcessLifecycle
import SystemsProjects.VmRuns

/-!
# What is left of a child

A process forks, parent and child take page faults, the child exits and the parent waits for it.
There is then one map more, the one that `do_fork` replaces, and every file has one reference more
for every descriptor of the parent beyond the first free one.
-/
namespace SystemsProjects.ForkBalance

open List Option
open Function CallOutcomes VfsState FileCalls VmState AddressSpaces VmSystemCalls AreaMaps
  VmInvariant AreaRemoval Forking PageFaults VmRuns TablePages ProcessLifecycle

/-! ### Files -/

structure Usable (x : VfsState.File) : Prop where
  mode : x.fMode < 8
  pos : -1 ≤ x.fPos
  refs : 0 < x.fRefcount
  vnode : x.fVnode.isSome

def fileRefs (s : VState) (f : ℕ) : ℕ := ((s.files f).map VfsState.File.fRefcount).getD 0

variable {l : List (Option ℕ)} {c v : ℕ}

section Files

variable {s t : VState} {f : ℕ} {x : VfsState.File}

def withRefs (s : VState) (g : ℕ → ℕ → ℕ) : VState :=
  { s with files := fun f => (s.files f).map fun x => { x with fRefcount := g f x.fRefcount } }

theorem fref_eq (hx : s.files f = some x) (hu : Usable x) :
    fref f s = .ok ((), s.setFile f (some { x with fRefcount := x.fRefcount+1 })) := by
  have hc : x.fMode < 8 ∧ -1 ≤ x.fPos ∧ (x.fRefcount = 0 ∨ x.fVnode.isSome) :=
    ⟨hu.mode, hu.pos, .inr hu.vnode⟩
  rw [fref, bind_ok (show fileAt f s = .ok (x, s) by simp [fileAt, hx]), if_pos hc]
  rfl

theorem fput_eq (hx : s.files f = some x) (hu : Usable x) (h2 : 2 ≤ x.fRefcount) :
    fput f s = .ok ((), s.setFile f (some { x with fRefcount := x.fRefcount-1 })) := by
  have hc : x.fMode < 8 ∧ -1 ≤ x.fPos ∧ 0 < x.fRefcount ∧ (x.fRefcount = 1 ∨ x.fVnode.isSome) :=
    ⟨hu.mode, hu.pos, hu.refs, .inr hu.vnode⟩
  rw [fput, bind_ok (show fileAt f s = .ok (x, s) by simp [fileAt, hx]), if_pos hc,
    if_neg (by omega)]
  rfl

theorem Usable.withRefs (hu : Usable x) {n : ℕ} (hn : 0 < n) :
    Usable { x with fRefcount := n } := ⟨hu.mode, hu.pos, hn, hu.vnode⟩

/-- Every descriptor of the list refers to an open file, which has more references than the list
accounts for. -/
def Open (s : VState) (l : List (Option ℕ)) : Prop :=
  ∀ f, some f ∈ l → ∃ x, s.files f = some x ∧ Usable x ∧ l.count (some f) < x.fRefcount

theorem frefAll_eq (l : List (Option ℕ)) (s : VState)
    (h : ∀ f, some f ∈ l → ∃ x, s.files f = some x ∧ Usable x) :
    frefAll l s = .ok ((), withRefs s fun f n => n + l.count (some f)) := by
  induction l generalizing s with
  | nil =>
    have hself : withRefs s (fun f n => n + ([] : List (Option ℕ)).count (some f)) = s := by
      simp [withRefs]
    rw [hself]
    rfl
  | cons a l ih =>
    cases a with
    | none =>
      rw [frefAll, ih s fun f hf => h f (mem_cons_of_mem _ hf)]
      simp [withRefs]
    | some f =>
      obtain ⟨x, hx, hu⟩ := h f (by simp)
      have hset : ∀ g, some g ∈ l → ∃ y, (s.setFile f (some
          { x with fRefcount := x.fRefcount+1 })).files g = some y ∧ Usable y := by
        intro g hg
        by_cases hgf : g = f
        · subst hgf
          exact ⟨_, update_self .., hu.withRefs (by omega)⟩
        · obtain ⟨y, hy, huy⟩ := h g (mem_cons_of_mem _ hg)
          exact ⟨y, by rw [← hy]; exact update_of_ne hgf _ _, huy⟩
      rw [frefAll, bind_ok (fref_eq hx hu), ih _ hset]
      congr 2
      unfold withRefs VState.setFile
      congr 1
      funext g
      by_cases hgf : g = f
      · subst hgf
        simp only [update_self, map_some, hx, count_cons_self]
        congr 2
        omega
      · simp [hgf, Ne.symm hgf]

/-- The files and the working directory of a child. -/
def forkedFiles (s : VState) (l : List (Option ℕ)) (v : ℕ) (vn : Vnode) : VState :=
  { (withRefs s fun f n => n + l.count (some f)).setVnode v
      { vn with vnRefcount := vn.vnRefcount+1 } with
    procs := s.procs ++ [⟨l, some v⟩] }

theorem doFork_files {p : ℕ} {vn : Vnode} (hp : s.procs[p]? = some ⟨l, some v⟩)
    (hl : ∀ f, some f ∈ l → ∃ x, s.files f = some x ∧ Usable x) (hv : s.vnodes v = some vn)
    (hpos : 0 < vn.vnRefcount) :
    FileCalls.doFork p s = .ok ((), forkedFiles s l v vn) := by
  rw [FileCalls.doFork, bind_ok (show PathCalls.procAt p s = .ok (⟨l, some v⟩, s) by
    simp [PathCalls.procAt, hp]), bind_ok (frefAll_eq l s hl)]
  have href : vref v (withRefs s fun f n => n + l.count (some f)) =
      .ok ((), (withRefs s fun f n => n + l.count (some f)).setVnode v
        { vn with vnRefcount := vn.vnRefcount+1 }) := by
    simp [vref, withRefs, hv, hpos]
  dsimp only
  rw [bind_ok href]
  rfl

theorem slotAt_eq {fd : ℕ} {q : VProc} (hq : s.procs[c]? = some q) (hlt : fd < NFILES) :
    slotAt c fd s = .ok (q.pFiles.getD fd none, s) := by
  have hrange : ¬((fd : ℤ) < 0 ∨ (NFILES : ℤ) ≤ fd) := by omega
  rw [slotAt, if_neg hrange, bind_ok (show PathCalls.procAt c s = .ok (q, s) by
    simp [PathCalls.procAt, hq]), Int.toNat_natCast]
  rfl

theorem doClose_shared {fd : ℕ} {q : VProc} (hq : s.procs[c]? = some q)
    (hfd : q.pFiles[fd]? = some (some f)) (hlt : fd < NFILES) (hx : s.files f = some x)
    (hu : Usable x) (h2 : 2 ≤ x.fRefcount) :
    doClose c fd s = .ok (.val 0, { s.setFile f (some { x with fRefcount := x.fRefcount-1 }) with
        procs := s.procs.modify c fun p => { p with pFiles := p.pFiles.set fd none } }) := by
  have hrange : ¬((fd : ℤ) < 0 ∨ (NFILES : ℤ) ≤ fd) := by omega
  have hslot := slotAt_eq hq hlt
  rw [getD_eq_getElem?_getD, hfd, getD_some] at hslot
  set s1 := s.setFile f (some { x with fRefcount := x.fRefcount+1 }) with hs1
  have hget : FileCalls.fget c fd s = .ok (some f, s1) := by
    rw [FileCalls.fget, if_neg (by omega), bind_ok hslot]
    dsimp only
    rw [bind_ok (fref_eq hx hu)]
    rfl
  have hx1 : s1.files f = some { x with fRefcount := x.fRefcount+1 } := update_self ..
  have hput1 := fput_eq hx1 (hu.withRefs (by omega)) (by dsimp only; omega)
  have hback : s1.setFile f (some { x with fRefcount := x.fRefcount+1-1 }) = s := by
    simp only [hs1, VState.setFile, update_idem, Nat.add_sub_cancel]
    rw [← hx, update_eq_self]
  dsimp only at hput1
  rw [hback] at hput1
  rw [doClose, if_neg hrange, bind_ok hget]
  dsimp only
  rw [bind_ok hput1]
  set s2 : VState := { s with
    procs := s.procs.modify c fun p => { p with pFiles := p.pFiles.set fd none } }
  have hset : setSlot c (fd : ℤ).toNat none s = .ok ((), s2) := by
    rw [Int.toNat_natCast]
    rfl
  rw [bind_ok hset, bind_ok (fput_eq (s := s2) hx hu h2)]
  rfl

/-- The descriptors before the first free one. -/
def closable (l : List (Option ℕ)) : List (Option ℕ) := l.takeWhile isSome

theorem closeFiles_spec {cwd : Option ℕ} (rest done : List (Option ℕ)) (s : VState)
    (hq : s.procs[c]? = some ⟨done ++ rest, cwd⟩) (hlen : done.length + rest.length = NFILES)
    (ho : Open s rest) :
    ∃ t l, closeFiles c done.length rest.length s = .ok ((), t) ∧ t.vnodes = s.vnodes ∧
      t.procs[c]? = some ⟨l, cwd⟩ ∧
      t.files = (withRefs s fun f n => n - (closable rest).count (some f)).files := by
  induction rest generalizing done s with
  | nil => exact ⟨s, _, rfl, rfl, hq, by simp [withRefs, closable]⟩
  | cons a rest ih =>
    have hlt : done.length < NFILES := by
      rw [← hlen, length_cons]
      omega
    have hget : (done ++ a :: rest)[done.length]? = some a := by simp
    have hslot := slotAt_eq hq hlt
    rw [getD_eq_getElem?_getD, hget, getD_some] at hslot
    rw [length_cons, closeFiles, bind_ok hslot]
    cases a with
    | none => exact ⟨s, _, rfl, rfl, hq, by simp [withRefs, closable]⟩
    | some f =>
      obtain ⟨x, hx, hu, hcount⟩ := ho f (by simp)
      rw [count_cons_self] at hcount
      dsimp only
      rw [bind_ok (doClose_shared hq hget hlt hx hu (by omega))]
      set s1 : VState := { s.setFile f (some { x with fRefcount := x.fRefcount-1 }) with
        procs := s.procs.modify c fun p => { p with pFiles := p.pFiles.set done.length none } }
        with hs1
      have hx1 : s1.files f = some { x with fRefcount := x.fRefcount-1 } :=
        update_self ..
      have hother : ∀ g, g ≠ f → s1.files g = s.files g := fun g hg =>
        update_of_ne hg _ _
      have hq1 : s1.procs[c]? = some ⟨(done ++ [none]) ++ rest, cwd⟩ := by
        simp [hs1, hq]
      have ho1 : Open s1 rest := by
        intro g hg
        by_cases hgf : g = f
        · subst hgf
          exact ⟨_, hx1, hu.withRefs (by omega), by dsimp only; omega⟩
        · obtain ⟨y, hy, huy, hcy⟩ := ho g (by simp [hg])
          rw [count_cons_of_ne (by simpa using Ne.symm hgf)] at hcy
          exact ⟨y, by rw [hother g hgf, hy], huy, hcy⟩
      obtain ⟨t, l, ht, hv, hp, hf⟩ := ih (done ++ [none]) s1 hq1
        (by rw [length_append, ← hlen]; simp; omega) ho1
      rw [length_append, length_singleton] at ht
      refine ⟨t, l, ht, hv, hp, ?_⟩
      rw [hf]
      funext g
      simp only [withRefs, closable, takeWhile_cons, isSome_some, if_true]
      by_cases hgf : g = f
      · subst hgf
        simp only [hx1, hx, map_some, count_cons_self]
        congr 2
        omega
      · rw [hother g hgf, count_cons_of_ne (by simpa using Ne.symm hgf)]

/-- What the exit of a child does to the files and the directories it has from its parent. -/
theorem exitFiles_spec {vn : Vnode} (hq : s.procs[c]? = some ⟨l, some v⟩) (hlen : l.length = NFILES)
    (ho : Open s l) (hv : s.vnodes v = some vn) (h2 : 2 ≤ vn.vnRefcount) :
    ∃ t u, closeFiles c 0 NFILES s = .ok ((), t) ∧ putCwd c t = .ok ((), u) ∧
      (∀ w, u.refs w = if w = v then s.refs w - 1 else s.refs w) ∧
      ∀ f, fileRefs u f = fileRefs s f - (closable l).count (some f) := by
  obtain ⟨t, l', ht, hvn, hp, hf⟩ := closeFiles_spec l [] s hq (by simpa using hlen) ho
  rw [length_nil, hlen] at ht
  have hvt : t.vnodes v = some vn := by rw [hvn, hv]
  refine ⟨t, t.setVnode v { vn with vnRefcount := vn.vnRefcount-1 }, ht, ?_, fun w => ?_,
    fun f => ?_⟩
  · rw [putCwd, bind_ok (show PathCalls.procAt c t = .ok (⟨l', some v⟩, t) by
      simp [PathCalls.procAt, hp])]
    dsimp only
    simp only [VfsState.dropRef, hvt]
    rw [if_neg (by omega), if_pos (by omega)]
  · by_cases hw : w = v
    · subst hw
      rw [if_pos rfl, VState.refs_setVnode_self]
      simp [VState.refs, hv]
    · rw [if_neg hw, VState.refs_setVnode_of_ne _ _ hw]
      simp [VState.refs, hvn]
  · have hfiles : (t.setVnode v { vn with vnRefcount := vn.vnRefcount-1 }).files f = t.files f :=
      rfl
    rw [fileRefs, hfiles, hf, fileRefs]
    cases hx : s.files f <;> simp [withRefs, hx]

end Files

/-! ### Address spaces -/

section Memory

variable {s t u : Vm} {p c : ℕ}

structure During (s : Vm) (p : ℕ) (t : Vm) : Prop where
  ok : Ok t
  nextPid : t.nextPid = s.nextPid+1
  parent : (mapOf t p).isSome
  child : (mapOf t s.nextPid).isSome
  lengths : ∀ q, q ≠ s.nextPid → (areas t q).length = (areas s q).length
  tables : ∀ q, q ≠ p → q ≠ s.nextPid → SameTables (table s q) (table t q)
  user : UserTables (table t s.nextPid)

theorem during_of_forked (hf : Forked s t p) (hok : Ok t) : During s p t where
  ok := hok
  nextPid := hf.nextPid
  parent := hf.maps p (.inl rfl)
  child := hf.maps _ (.inr rfl)
  lengths q hq := by
    by_cases hqp : q = p
    · rw [hqp, hf.length]
    · rw [(hf.others q hqp hq).1]
  tables q hqp hqc i := by rw [(hf.others q hqp hqc).2]
  user := by
    rw [hf.childTable]
    exact userTables_create

theorem During.fault (hd : During s p t) (hq : c = p ∨ c = s.nextPid) (hp : p ≠ s.nextPid)
    {vaddr : ℕ} {write exec : Bool} (h : handlePagefault t c vaddr write exec = .ok (.resumed, u)) :
    During s p u := by
  have hmap : ∃ map, mapOf t c = some map := by
    rcases hq with rfl | rfl
    · exact isSome_iff_exists.mp hd.parent
    · exact isSome_iff_exists.mp hd.child
  obtain ⟨map, hmap⟩ := hmap
  rcases handlePagefault_ok hd.ok hmap vaddr write exec with
    ⟨u', hu', -⟩ | ⟨u', a, o, e, hu', hr, he⟩
  · rw [h] at hu'
    cases (ok_inj hu').1
  · rw [h] at hu'
    obtain ⟨-, rfl⟩ := ok_inj hu'
    obtain ⟨hothers, huser⟩ := mapped_of_entered he
    refine ⟨hr.ok, hr.brought.nextPid.trans hd.nextPid,
      by rw [hr.brought.mapOf_eq]; exact hd.parent,
      by rw [hr.brought.mapOf_eq]; exact hd.child, fun q hqc => ?_, fun q hqp hqc => ?_, ?_⟩
    · rw [hr.brought.areas_eq]
      exact hd.lengths q hqc
    · have hne : q ≠ c := by
        rintro rfl
        rcases hq with h1 | h1
        · exact hqp h1
        · exact hqc h1
      rw [hothers q hne]
      exact hd.tables q hqp hqc
    · by_cases hc : s.nextPid = c
      · subst hc
        exact huser hd.user
      · rw [hothers _ hc]
        exact hd.user

end Memory

/-! ### The life of the child -/

variable {vfs : VState} {vm : Vm}

section Life

variable {k : Kernel} {p c : ℕ} {r : ProcessLifecycle.Proc}

theorem onMemory_eq {α : Type} {m : Vm → Kern (α×Vm)} {a : α} (h : m k.vm = .ok (a, vm)) :
    onMemory m k = .ok (a, charge k vm) := by
  simp [onMemory, h]

theorem onFiles_eq {α : Type} {m : Vfs α} {a : α} (h : m k.vfs = .ok (a, vfs)) :
    onFiles m k = .ok (a, { k with vfs := vfs }) := by
  simp [onFiles, h]

/-- The ledger without the areas and the tables of the address spaces. -/
def net (k : Kernel) : Ledger :=
  { k.live with
    vmareas := k.live.vmareas - areaCount k.vm, ptPages := k.live.ptPages - tableCount k.vm }

theorem net_charge (k : Kernel) (vm : Vm) : net (charge k vm) = net k := by
  simp only [net, charge, Ledger.mk.injEq, true_and]
  omega

theorem procAt_eq (h : k.procs p = some r) : procAt p k = .ok (r, k) := by
  simp [procAt, h]

/-- What `do_fork` enters in the ledger. -/
structure Born (k : Kernel) (p : ℕ) (r : ProcessLifecycle.Proc) (vm : Vm) (vfs : VState)
    (k' : Kernel) : Prop where
  memory : k'.vm = vm
  files : k'.vfs = vfs
  parent : k'.procs p = some { r with pChildren := r.pChildren ++ [k.vm.nextPid] }
  child : k'.procs k.vm.nextPid = some ⟨p, [], false, [k.nextThread]⟩
  others : ∀ q, q ≠ p → q ≠ k.vm.nextPid → k'.procs q = k.procs q
  ledger : net k' = { net k with
    procs := k.live.procs+1, kthreads := k.live.kthreads+1, kstacks := k.live.kstacks+1
    vmmaps := k.live.vmmaps+2, ptPages := (net k).ptPages+2 }

theorem doFork_born (hr : k.procs p = some r) (hpc : p ≠ k.vm.nextPid)
    (hvm : VmSystemCalls.doFork k.vm p = .ok (k.vm.nextPid, vm))
    (hvfs : FileCalls.doFork p k.vfs = .ok ((), vfs)) :
    ∃ k', ProcessLifecycle.doFork p k = .ok (k.vm.nextPid, k') ∧ Born k p r vm vfs k' := by
  set c := k.vm.nextPid
  set k1 : Kernel := { k with
    procs := update (update k.procs c (some ⟨p, [], false, []⟩)) p
      (some { r with pChildren := r.pChildren ++ [c] })
    live := { k.live with
      procs := k.live.procs+1, ptPages := k.live.ptPages+2, vmmaps := k.live.vmmaps+1 } } with hk1
  have hcreate : procCreate p c k = .ok ((), k1) := by
    rw [ProcessLifecycle.procCreate, bind_ok (procAt_eq hr)]
    rfl
  have hmem : onMemory (fun s => VmSystemCalls.doFork s p) k1 = .ok (c, charge k1 vm) :=
    onMemory_eq hvm
  set ka : Kernel := { charge k1 vm with
    live := { (charge k1 vm).live with vmmaps := (charge k1 vm).live.vmmaps+1 } }
  set k2 : Kernel := { ka with
    nextThread := ka.nextThread+1
    live := { ka.live with kthreads := ka.live.kthreads+1, kstacks := ka.live.kstacks+1 } }
  have hprocs : k2.procs = k1.procs := rfl
  have hchild : k2.procs c = some ⟨p, [], false, []⟩ := by
    rw [hprocs, hk1]
    simp [hpc.symm]
  set k3 : Kernel := { k2 with
    procs := update k2.procs c (some ⟨p, [], false, [k.nextThread]⟩) }
  refine ⟨{ k3 with vfs := vfs }, ?_, rfl, rfl, ?_, ?_, fun q hqp hqc => ?_, ?_⟩
  · rw [ProcessLifecycle.doFork, bind_ok (show getPid k = .ok (c, k) from rfl), bind_ok hcreate,
      bind_ok hmem]
    rw [bind_ok (show account _ (charge k1 vm) = .ok ((), ka) from rfl),
      bind_ok (show kthreadClone ka = .ok (k.nextThread, k2) from rfl), bind_ok (procAt_eq hchild)]
    simp only [nil_append]
    rw [bind_ok (show setProc c _ k2 = .ok ((), k3) from rfl), bind_ok (onFiles_eq (k := k3) hvfs)]
    rfl
  · change update k1.procs c _ p = _
    rw [update_of_ne hpc]
    exact update_self ..
  · exact update_self ..
  · change update k1.procs c _ q = _
    rw [update_of_ne hqc]
    change update (update k.procs c _) p _ q = _
    rw [update_of_ne hqp, update_of_ne hqc]
  · simp only [net, Ledger.mk.injEq]
    change k.live.procs+1 = _ ∧ k.live.kthreads+1 = _ ∧ k.live.kstacks+1 = _ ∧
      k.live.vmmaps+1+1 = _ ∧ k.live.vmareas + areaCount vm - areaCount k.vm - areaCount vm = _ ∧
      k.live.ptPages + 2 + tableCount vm - tableCount k.vm - tableCount vm = _
    omega

/-- What a child and its parent do before the child exits. -/
def Faults (p c : ℕ) : Kernel → Kernel → Prop :=
  Relation.ReflTransGen fun k k' => Faulted p k k' ∨ Faulted c k k'

structure Lived (s : Vm) (p : ℕ) (k k' : Kernel) : Prop where
  during : During s p k'.vm
  vfs : k'.vfs = k.vfs
  procs : k'.procs = k.procs
  ledger : net k' = net k

theorem lived_of_faults {s : Vm} (hp : p ≠ s.nextPid) (hd : During s p k.vm) {k' : Kernel}
    (h : Faults p s.nextPid k k') : Lived s p k k' := by
  induction h with
  | refl => exact ⟨hd, rfl, rfl, rfl⟩
  | @tail k1 k2 _ hstep ih =>
    have hcases : ∃ q, (q = p ∨ q = s.nextPid) ∧ Faulted q k1 k2 := by
      rcases hstep with h | h
      · exact ⟨p, .inl rfl, h⟩
      · exact ⟨s.nextPid, .inr rfl, h⟩
    obtain ⟨q, hq, vaddr, write, exec, vm, hvm, rfl⟩ := hcases
    exact ⟨ih.during.fault hq hp hvm, ih.vfs, ih.procs, (net_charge k1 vm).trans ih.ledger⟩

/-- What the exit of a process without children enters in the ledger. -/
structure Exited (k : Kernel) (c : ℕ) (rc : ProcessLifecycle.Proc) (vm : Vm) (vfs : VState)
    (k' : Kernel) : Prop where
  memory : k'.vm = vm
  files : k'.vfs = vfs
  child : k'.procs c = some { rc with pDead := true }
  others : ∀ q, q ≠ c → k'.procs q = k.procs q
  ledger : net k' = { net k with vmmaps := k.live.vmmaps-1 }

theorem procCleanup_exited {rc : ProcessLifecycle.Proc} (hinit : (k.procs 1).isSome) (hc : 1 < c)
    (hrc : k.procs c = some rc) (hnone : rc.pChildren = []) {vfs' : VState}
    (hvm : vmmapDestroy k.vm c = .ok vm) (hclose : closeFiles c 0 NFILES k.vfs = .ok ((), vfs))
    (hput : putCwd c vfs = .ok ((), vfs')) :
    ∃ k', procCleanup c k = .ok ((), k') ∧ Exited k c rc vm vfs' k' := by
  have hassert : ProcessLifecycle.kassert
      (fun k => (k.procs 1).isSome && decide (1 ≤ c)) k = .ok ((), k) := by
    have hle : decide (1 ≤ c) = true := decide_eq_true (by omega)
    simp [ProcessLifecycle.kassert, hinit, hle]
  set k1 : Kernel := { charge k vm with
    live := { (charge k vm).live with vmmaps := (charge k vm).live.vmmaps-1 } }
  have hdestroy : destroyMap c k = .ok ((), k1) := by
    have hmem : onMemory (fun s => (vmmapDestroy s c).map fun t => ((), t)) k =
        .ok ((), charge k vm) := onMemory_eq (by rw [hvm]; rfl)
    rw [destroyMap, bind_ok hmem]
    rfl
  set k2 : Kernel := { k1 with vfs := vfs' }
  have hfiles : ∀ f : Unit → Sys Unit, (onFiles (closeFiles c 0 NFILES) >>= fun _ =>
      onFiles (putCwd c) >>= f) k1 = f () k2 := by
    intro f
    rw [bind_ok (onFiles_eq (k := k1) hclose),
      bind_ok (onFiles_eq (k := { k1 with vfs := vfs }) hput)]
  have hrc2 : k2.procs c = some rc := hrc
  set k3 : Kernel := { k2 with procs := update k2.procs c (some rc) }
  have hsame : { rc with pChildren := [] } = rc := by rw [← hnone]
  have hrep : reparent c k2 = .ok ((), k3) := by
    rw [reparent, bind_ok (procAt_eq hrc2), hnone,
      bind_ok (show List.forM [] adopt k2 = .ok ((), k2)
      from rfl), hsame]
    rfl
  have hrc3 : k3.procs c = some rc := update_self ..
  refine ⟨{ k3 with procs := update k3.procs c (some { rc with pDead := true }) }, ?_, rfl,
    rfl, update_self .., fun q hq => ?_, ?_⟩
  · rw [procCleanup, bind_ok hassert, bind_ok hdestroy, hfiles, if_pos (by omega), bind_ok hrep]
    dsimp only
    rw [bind_ok (procAt_eq hrc3)]
    rfl
  · change update (update k.procs c _) c _ q = _
    rw [update_of_ne hq, update_of_ne hq]
  · rw [← net_charge k vm]
    rfl

theorem doWaitpid_reaps {rc : ProcessLifecycle.Proc} {t : ℕ} (hr : k.procs p = some r)
    (hc : 0 < c) (hmem : c ∈ r.pChildren) (hrc : k.procs c = some rc)
    (hdead : rc.pDead = true) (hthread : rc.pThreads = [t]) :
    ∃ k', doWaitpid p c k = .ok (.reaped c, k') ∧ k'.vfs = k.vfs ∧
      (∀ q, q ≠ c → k'.vm.procs q = k.vm.procs q) ∧
      k'.live = { k.live with
        procs := k.live.procs-1, kthreads := k.live.kthreads-1, kstacks := k.live.kstacks-1
        ptPages := k.live.ptPages - ptDestroyPagedir (table k.vm c) } := by
  have hne : r.pChildren ≠ [] := ne_nil_of_mem hmem
  have hfind : r.pChildren.find? (fun x : ℕ => decide ((x : ℤ) = c)) = some c := by
    cases hf : r.pChildren.find? (fun x : ℕ => decide ((x : ℤ) = c)) with
    | none =>
      have hno := find?_eq_none.mp hf c hmem
      simp at hno
    | some x =>
      have hx := find?_some hf
      rw [decide_eq_true_eq, Int.natCast_inj] at hx
      rw [hx]
  have hchild : findChild r.pChildren (fun _ x => decide ((x : ℤ) = c)) k =
      .ok (some c, k) := by
    rw [findChild, hfind]
  set k1 : Kernel := { k with live := { k.live with
    kstacks := k.live.kstacks-1, kthreads := k.live.kthreads-1 } }
  set k2 : Kernel := { k1 with
    procs := update k1.procs p (some { r with pChildren := r.pChildren.erase c }) }
  have hthreads : [t].forM kthreadDestroy k = .ok ((), k1) := rfl
  have hr1 : k1.procs p = some r := hr
  have hreap : reap p c k = freeProc c k2 := by
    rw [reap, bind_ok (procAt_eq hrc), hthread, bind_ok hthreads, bind_ok (procAt_eq hr1)]
    rfl
  set k3 : Kernel := { k2 with
    vm := { k2.vm with procs := update k2.vm.procs c none }
    procs := update k2.procs c none
    live := { k2.live with
      ptPages := k2.live.ptPages - ptDestroyPagedir (table k2.vm c)
      procs := k2.live.procs-1 } }
  have hfree : reap p c k = .ok ((), k3) := hreap
  refine ⟨k3, ?_, rfl, fun q hq => ?_, rfl⟩
  · rw [doWaitpid, bind_ok (procAt_eq hr), if_neg hne, if_neg (by omega), if_pos (by omega),
      bind_ok hchild]
    dsimp only
    rw [bind_ok (procAt_eq hrc), if_pos hdead, bind_ok hfree]
    rfl
  · exact update_of_ne hq _ _

end Life

/-! ### The balance -/

def descriptors (k : Kernel) (p : ℕ) : List (Option ℕ) :=
  ((k.vfs.procs[p]?).map VProc.pFiles).getD []

/-- A process that can fork: its address space, its descriptors and its working directory are in
order, and there is a first process. -/
structure Ready (k : Kernel) (p : ℕ) : Prop where
  ok : Ok k.vm
  map : (mapOf k.vm p).isSome
  proc : (k.procs p).isSome
  init : (k.procs 1).isSome
  fresh : ∀ q, (k.procs q).isSome → q < k.vm.nextPid
  places : k.vfs.procs.length = k.vm.nextPid
  files : ∃ v vn, k.vfs.procs[p]? = some ⟨descriptors k p, some v⟩ ∧
    k.vfs.vnodes v = some vn ∧ 0 < vn.vnRefcount
  size : (descriptors k p).length = NFILES
  usable : ∀ f, some f ∈ descriptors k p → ∃ x, k.vfs.files f = some x ∧ Usable x

/-- The state before a fork and the one after the child has been waited for. -/
structure Balance (k k' : Kernel) (p : ℕ) : Prop where
  procs : k'.live.procs = k.live.procs
  kthreads : k'.live.kthreads = k.live.kthreads
  kstacks : k'.live.kstacks = k.live.kstacks
  vmareas : k'.live.vmareas = k.live.vmareas
  vmmaps : k'.live.vmmaps = k.live.vmmaps+1
  ptPages : k'.live.ptPages + tables (table k.vm p) = k.live.ptPages + tables (table k'.vm p)
  files : ∀ f, fileRefs k'.vfs f = fileRefs k.vfs f +
    ((descriptors k p).dropWhile isSome).count (some f)
  dirs : ∀ v, k'.vfs.refs v = k.vfs.refs v

theorem fileRefs_forkedFiles {s : VState} (vn : Vnode)
    (hl : ∀ f, some f ∈ l → ∃ x, s.files f = some x ∧ Usable x) (f : ℕ) :
    fileRefs (forkedFiles s l v vn) f = fileRefs s f + l.count (some f) := by
  cases hf : s.files f with
  | some x => simp [fileRefs, forkedFiles, withRefs, VState.setVnode, hf]
  | none =>
    have hnot : some f ∉ l := fun hmem => by
      obtain ⟨x, hx, -⟩ := hl f hmem
      simp [hf] at hx
    simp [fileRefs, forkedFiles, withRefs, VState.setVnode, hf, count_eq_zero.mpr hnot]

theorem count_closable (l : List (Option ℕ)) (f : ℕ) :
    l.count (some f) = (closable l).count (some f) +
      (l.dropWhile isSome).count (some f) := by
  rw [closable, ← count_append, takeWhile_append_dropWhile]

theorem counts_after_exit {s t u : Vm} {p : ℕ} (hlt : p < s.nextPid) (hd : During s p t)
    (hareas : ∀ q, q ≠ s.nextPid → areas u q = areas t q) (hgone : areas u s.nextPid = [])
    (hun : Unmapped s.nextPid t u) (hnext : u.nextPid = t.nextPid) :
    areaCount u = areaCount s ∧ tableCount u + tables (table s p) =
      tableCount s + tables (table u p) + tables (table u s.nextPid) := by
  have hn : u.nextPid = s.nextPid+1 := hnext.trans hd.nextPid
  constructor
  · rw [areaCount, hn, Finset.sum_range_succ, hgone, length_nil, Nat.add_zero, areaCount]
    apply Finset.sum_congr rfl
    intro q hq
    have hne := Nat.ne_of_lt (Finset.mem_range.mp hq)
    rw [hareas q hne, hd.lengths q hne]
  · have hsum := sum_change (p := p) (n := s.nextPid) (f := fun q => tables (table s q))
      (g := fun q => if q < s.nextPid then tables (table u q) else tables (table s q)) hlt
      fun q hq => by
        split_ifs with hqn
        · have hne := Nat.ne_of_lt hqn
          rw [(hun.others q hne).tables_eq, (hd.tables q hq hne).tables_eq]
        · rfl
    have hcongr : ∑ q ∈ Finset.range s.nextPid,
        (if q < s.nextPid then tables (table u q) else tables (table s q)) =
        ∑ q ∈ Finset.range s.nextPid, tables (table u q) :=
      Finset.sum_congr rfl fun q hq => if_pos (Finset.mem_range.mp hq)
    rw [hcongr, if_pos hlt] at hsum
    rw [tableCount, hn, Finset.sum_range_succ, tableCount]
    omega

/-- A child that exits and is waited for leaves the ledger as it was, up to the map that the fork
has replaced, the tables of its parent and the descriptors beyond the first free one. -/
theorem fork_exit_wait_balance {k : Kernel} {p : ℕ} (h : Ready k p) :
    ∃ c k1, ProcessLifecycle.doFork p k = .ok (c, k1) ∧ ∀ k2, Faults p c k1 k2 →
      ∃ k3 k4, procCleanup c k2 = .ok ((), k3) ∧ doWaitpid p c k3 = .ok (.reaped c, k4) ∧
        Balance k k4 p := by
  obtain ⟨map, hmap⟩ := isSome_iff_exists.mp h.map
  obtain ⟨r, hr⟩ := isSome_iff_exists.mp h.proc
  obtain ⟨v, vn, hp, hv, hpos⟩ := h.files
  have hlt : p < k.vm.nextPid := h.fresh p h.proc
  have hinit : 1 < k.vm.nextPid := h.fresh 1 h.init
  have hpc : p ≠ k.vm.nextPid := Nat.ne_of_lt hlt
  obtain ⟨vm, hvm, hsound, hforked⟩ := doFork_spec h.ok hmap
  have hvfs := doFork_files hp h.usable hv hpos
  obtain ⟨k1, hk1, hb⟩ := doFork_born hr hpc hvm hvfs
  have hd1 := during_of_forked hforked (hforked.ok h.ok hsound)
  refine ⟨k.vm.nextPid, k1, hk1, fun k2 hrun => ?_⟩
  have hl := lived_of_faults hpc (hb.memory ▸ hd1) hrun
  -- the exit of the child
  obtain ⟨map2, hmap2⟩ := isSome_iff_exists.mp hl.during.child
  obtain ⟨u, hu, -, -, hrest, hgone, hothers, -⟩ := vmmapDestroy_ok hl.during.ok hmap2
  have hplace : (forkedFiles k.vfs (descriptors k p) v vn).procs[k.vm.nextPid]? =
      some ⟨descriptors k p, some v⟩ := by
    rw [← h.places]
    simp [forkedFiles]
  have hopen : Open (forkedFiles k.vfs (descriptors k p) v vn) (descriptors k p) := by
    intro f hf
    obtain ⟨x, hx, hux⟩ := h.usable f hf
    have hrefs := hux.refs
    refine ⟨{ x with fRefcount := x.fRefcount + (descriptors k p).count (some f) }, ?_,
      hux.withRefs (by omega), by dsimp only; omega⟩
    simp [forkedFiles, withRefs, VState.setVnode, hx]
  have hvn : (forkedFiles k.vfs (descriptors k p) v vn).vnodes v =
      some { vn with vnRefcount := vn.vnRefcount+1 } := update_self ..
  obtain ⟨fs, fs', hclose, hput, hdirs, hfiles⟩ := exitFiles_spec hplace h.size hopen hvn
    (by dsimp only; omega)
  have hvfs2 : k2.vfs = forkedFiles k.vfs (descriptors k p) v vn := hl.vfs.trans hb.files
  have hchild2 : k2.procs k.vm.nextPid = some ⟨p, [], false, [k.nextThread]⟩ := by
    rw [hl.procs, hb.child]
  have hinit2 : (k2.procs 1).isSome := by
    rw [hl.procs]
    by_cases h1 : 1 = p
    · rw [h1, hb.parent]
      rfl
    · rw [hb.others 1 h1 (by omega)]
      exact h.init
  obtain ⟨k3, hk3, he⟩ := procCleanup_exited hinit2 hinit hchild2 rfl hu (hvfs2 ▸ hclose) hput
  -- the wait of the parent
  have hparent3 : k3.procs p = some { r with pChildren := r.pChildren ++ [k.vm.nextPid] } := by
    rw [he.others p hpc, hl.procs, hb.parent]
  obtain ⟨k4, hk4, hvfs4, hprocs4, hlive4⟩ := doWaitpid_reaps hparent3 (by omega) (by simp) he.child
    rfl rfl
  refine ⟨k3, k4, hk3, hk4, ?_⟩
  have hun := vmmapDestroy_unmapped hu
  obtain ⟨hareas, htables⟩ := counts_after_exit hlt hl.during hothers (areas_of_mapOf_none hgone)
    hun hrest.nextPid
  have huser : UserTables (table u k.vm.nextPid) := fun i hi => hl.during.user i (hun.self i hi)
  have htable4 : table k4.vm p = table u p := by
    rw [table, hprocs4 p hpc, he.memory, ← table]
  have hnet2 := hl.ledger.trans hb.ledger
  have hnet3 := he.ledger
  simp only [net, he.memory, Ledger.mk.injEq] at hnet2 hnet3
  refine ⟨?_, ?_, ?_, ?_, ?_, ?_, fun f => ?_, fun w => ?_⟩
  iterate 5
    · rw [hlive4]
      dsimp only
      omega
  · rw [hlive4, htable4, he.memory, ptDestroyPagedir_eq huser]
    dsimp only
    omega
  · rw [hvfs4, he.files, hfiles f, fileRefs_forkedFiles _ h.usable, count_closable]
    omega
  · rw [hvfs4, he.files, hdirs w]
    by_cases hw : w = v
    · subst hw
      rw [if_pos rfl, VState.refs, VState.refs, hvn, hv]
      rfl
    · rw [if_neg hw]
      exact VState.refs_setVnode_of_ne _ _ hw

/-- Two processes, the second with one written page. -/
def twoProcesses : List VmEvent :=
  [.created, .created, .mapped 1 none 0x400 1 3 (mapPrivate+mapAnon) 0 .lohi,
    .faulted 1 0x400000 true false]

/-- The second process has one file under its descriptors 0 and 2. -/
def sampleKernel (vm : Vm) : Kernel where
  vm := vm
  vfs :=
    { procs := [⟨replicate NFILES none, some 0⟩,
        ⟨[some 0, none, some 0] ++ replicate 29 none, some 0⟩]
      files := fun f => if f = 0 then some ⟨0, 1, 2, some 1⟩ else none
      nextFile := 1
      vnodes := fun v =>
        if v = 0 then some ⟨2, .dir, 0⟩ else if v = 1 then some ⟨1, .reg, 0⟩ else none
      inodes := fun _ => none
      memory := true
      held := []
      late := false
      opened := []
      closed := [] }
  procs := fun p => if p = 1 then some ⟨0, [], false, [0]⟩ else none
  nextThread := 1
  live := ⟨1, 1, 1, 2, areaCount vm, tableCount vm + 4⟩

theorem ready_sampleKernel (hok : Ok vm) (hmap : (mapOf vm 1).isSome) (hnext : vm.nextPid = 2) :
    Ready (sampleKernel vm) 1 := by
  refine ⟨hok, hmap, rfl, rfl, fun q hq => ?_, hnext.symm, ⟨0, ⟨2, .dir, 0⟩, rfl, rfl, by decide⟩,
    rfl, fun f hf => ?_⟩
  · have hq1 : q = 1 := by
      by_contra hne
      simp [sampleKernel, hne] at hq
    change q < vm.nextPid
    omega
  · have hf0 : f = 0 := by
      simpa [descriptors, sampleKernel] using hf
    subst hf0
    exact ⟨⟨0, 1, 2, some 1⟩, rfl, by decide, by decide, by decide, rfl⟩

theorem fork_exit_wait_balance_sample : ∃ vm c k1 k3 k4,
    GuardedRuns.Run VmStep CallOk blankVm twoProcesses vm ∧
      ProcessLifecycle.doFork 1 (sampleKernel vm) = .ok (c, k1) ∧
      procCleanup c k1 = .ok ((), k3) ∧ doWaitpid 1 c k3 = .ok (.reaped c, k4) ∧
      Balance (sampleKernel vm) k4 1 := by
  obtain ⟨vm, hrun, hvm⟩ := exists_run_vm CallOk blankVm twoProcesses
    (P := fun s => (mapOf s 1).isSome ∧ s.nextPid = 2) (by decide +kernel)
  have hready := ready_sampleKernel (ok_run hrun (ok_bootVm _ _)) hvm.1 hvm.2
  obtain ⟨c, k1, hk1, hlife⟩ := fork_exit_wait_balance hready
  obtain ⟨k3, k4, hk3, hk4, hbalance⟩ := hlife k1 .refl
  exact ⟨vm, c, k1, k3, k4, hrun, hk1, hk3, hk4, hbalance⟩

/-- A fork, the exit of the child and the wait for it. -/
def childLife (p : ℕ) : Sys Waited := do
  let c ← ProcessLifecycle.doFork p
  procCleanup c
  doWaitpid p c

/-- A map is leaked, the parent has one table less, and the file under the descriptor beyond the
first free one has one reference more. -/
theorem child_leaves_map_and_file : ∃ vm k,
    GuardedRuns.Run VmStep CallOk blankVm twoProcesses vm ∧ Ready (sampleKernel vm) 1 ∧
      childLife 1 (sampleKernel vm) = .ok (.reaped 2, k) ∧
      k.live.vmmaps = (sampleKernel vm).live.vmmaps+1 ∧
      k.live.ptPages+1 = (sampleKernel vm).live.ptPages ∧
      fileRefs k.vfs 0 = fileRefs (sampleKernel vm).vfs 0+1 := by
  obtain ⟨vm, hrun, hmap, hnext, k, hlife⟩ := exists_run_vm CallOk blankVm twoProcesses
    (P := fun s => (mapOf s 1).isSome ∧ s.nextPid = 2 ∧
      ∃ k, childLife 1 (sampleKernel s) = .ok (.reaped 2, k) ∧
        k.live.vmmaps = (sampleKernel s).live.vmmaps+1 ∧
        k.live.ptPages+1 = (sampleKernel s).live.ptPages ∧
        fileRefs k.vfs 0 = fileRefs (sampleKernel s).vfs 0+1) (by decide +kernel)
  exact ⟨vm, k, hrun, ready_sampleKernel (ok_run hrun (ok_bootVm _ _)) hmap hnext, hlife⟩

end SystemsProjects.ForkBalance
