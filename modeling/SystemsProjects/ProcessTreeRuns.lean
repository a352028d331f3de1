import SystemsProjects.LinkedForests
import SystemsProjects.ProcessTree

/-!
# Runs of process creation, exit and reaping

The pointers to parents and the lists of children form one forest with the idle process as
its root, as long as two things hold when a call is made: a new process gets a number, and
the init process is alive when a process exits that has children. Without the first, the
new process has no parent. Without the second, the children are given to a process that is
dead, or to memory that may be in use for something else.
-/
namespace SystemsProjects.ProcessTreeRuns

open Function GuardedRuns ProcessTree LinkedForests List Option
open ExitWaiting (PState)

variable {k : ℤ × PState}

section Views

def kind (s : ProcState) (a : ℕ) : Option (ℤ × PState) :=
  (s.procs a).map fun P => (P.pPid, P.pState)

def forest (s : ProcState) : Forest ℕ :=
  ⟨fun a => (s.procs a).bind Proc.pPproc, fun q => (s.procs q).elim [] Proc.pChildren⟩

/-- Two states that differ in pointers and lists of children only. -/
structure Relinked (s s' : ProcState) : Prop where
  kind_eq : kind s' = kind s
  list_eq : s'.procList = s.procList
  init_eq : s'.procInitproc = s.procInitproc
  waits_eq : s'.waits = s.waits

variable {s s' s'' : ProcState} {a b q : ℕ} {P : Proc}

theorem Relinked.trans (h : Relinked s s') (h' : Relinked s' s'') : Relinked s s'' where
  kind_eq := h'.kind_eq.trans h.kind_eq
  list_eq := h'.list_eq.trans h.list_eq
  init_eq := h'.init_eq.trans h.init_eq
  waits_eq := h'.waits_eq.trans h.waits_eq

theorem isSome_kind : (kind s a).isSome = (s.procs a).isSome := isSome_map

theorem exists_proc (h : kind s a = some k) : ∃ P, s.procs a = some P ∧ k = (P.pPid, P.pState) := by
  obtain ⟨P, hP, rfl⟩ := map_eq_some_iff.mp h
  exact ⟨P, hP, rfl⟩

theorem kind_of_parent (h : (forest s).parent a = some q) : ∃ k, kind s a = some k := by
  obtain ⟨P, hP, -⟩ := bind_eq_some_iff.mp h
  exact ⟨_, by rw [kind, hP]; rfl⟩

theorem children_eq (h : s.procs a = some P) : (forest s).children a = P.pChildren := by
  change (s.procs a).elim [] Proc.pChildren = P.pChildren
  rw [h]
  rfl

theorem parent_eq (h : s.procs a = some P) : (forest s).parent a = P.pPproc := by
  change (s.procs a).bind Proc.pPproc = P.pPproc
  rw [h]
  rfl

/-- The state with another structure at an address. -/
def setProc (s : ProcState) (a : ℕ) (r : Option Proc) : ProcState :=
  { s with procs := update s.procs a r }

theorem kind_setProc {r : Option Proc} :
    kind (setProc s a r) = update (kind s) a (r.map fun P => (P.pPid, P.pState)) :=
  comp_update (Option.map fun P : Proc => (P.pPid, P.pState)) s.procs a r

theorem forest_setProc {r : Option Proc} :
    forest (setProc s a r) = ⟨update (forest s).parent a (r.bind Proc.pPproc),
      update (forest s).children a (r.elim [] Proc.pChildren)⟩ := by
  unfold forest
  congr 1
  · exact comp_update (Option.bind · Proc.pPproc) s.procs a r
  · exact comp_update (Option.elim · [] Proc.pChildren) s.procs a r

theorem modify_eq (h : s.procs a = some P) (f : Proc → Proc) :
    s.modify a f = some (setProc s a (some (f P))) := by
  rw [ProcState.modify, h]
  rfl

theorem relinked_setProc {P' : Proc} (h : s.procs a = some P) (hpid : P'.pPid = P.pPid)
    (hstate : P'.pState = P.pState) : Relinked s (setProc s a (some P')) where
  kind_eq := by
    rw [kind_setProc, map_some, hpid, hstate]
    apply update_eq_iff.mpr
    exact ⟨by rw [kind, h]; rfl, fun _ _ => rfl⟩
  list_eq := rfl
  init_eq := rfl
  waits_eq := rfl

theorem modify_parent (h : kind s a = some k) (x : Option ℕ) :
    ∃ s', s.modify a (fun P => { P with pPproc := x }) = some s' ∧ Relinked s s' ∧
      forest s' = { forest s with parent := update (forest s).parent a x } := by
  obtain ⟨P, hP, -⟩ := exists_proc h
  refine ⟨_, modify_eq hP _, relinked_setProc hP rfl rfl, ?_⟩
  rw [forest_setProc]
  congr 1
  apply update_eq_iff.mpr
  exact ⟨(children_eq hP).symm, fun _ _ => rfl⟩

theorem modify_children (h : kind s a = some k) (g : List ℕ → List ℕ) :
    ∃ s', s.modify a (fun P => { P with pChildren := g P.pChildren }) = some s' ∧
      Relinked s s' ∧ forest s' = { forest s with
        children := update (forest s).children a (g ((forest s).children a)) } := by
  obtain ⟨P, hP, -⟩ := exists_proc h
  refine ⟨_, modify_eq hP _, relinked_setProc hP rfl rfl, ?_⟩
  rw [forest_setProc, children_eq hP]
  congr 1
  apply update_eq_iff.mpr
  exact ⟨(parent_eq hP).symm, fun _ _ => rfl⟩

end Views

section Reparenting

variable {s : ProcState} {cur init c : ℕ}

theorem reparent_round {kc kcur ki : ℤ × PState} (hc : kind s c = some kc)
    (hcur : kind s cur = some kcur) (hinit : kind s init = some ki) (rest : List ℕ) :
    ∃ s', reparent cur init (c::rest) s = reparent cur init rest s' ∧ Relinked s s' ∧
      forest s' = ((forest s).detach cur c).attach init c := by
  obtain ⟨s₁, hs₁, hr₁, hf₁⟩ := modify_parent hc (some init)
  obtain ⟨s₂, hs₂, hr₂, hf₂⟩ := modify_children (s := s₁) (a := cur)
    (by rw [hr₁.kind_eq, hcur]) (·.erase c)
  obtain ⟨s₃, hs₃, hr₃, hf₃⟩ := modify_children (s := s₂) (a := init)
    (by rw [hr₂.kind_eq, hr₁.kind_eq, hinit]) (·++[c])
  refine ⟨s₃, ?_, (hr₁.trans hr₂).trans hr₃, ?_⟩
  · simp only [reparent, hs₁, hs₂, hs₃, bind_eq_bind, bind_some]
  · rw [hf₃, hf₂, hf₁]
    simp only [Forest.attach, Forest.detach, update_idem]

/-- The state after the loop: the children of one process are children of another one. -/
structure Moved (cur init : ℕ) (s s' : ProcState) : Prop where
  relinked : Relinked s s'
  linked : (forest s').Linked
  parent : ∀ a, (forest s').parent a =
    if (forest s).parent a = some cur then some init else (forest s).parent a
  rooted : ∀ root a, (forest s).parent init = some root → root ≠ cur →
    (forest s).Rooted root a → (forest s').Rooted root a

theorem reparent_spec {children : List ℕ} {kcur ki : ℤ × PState} {root : ℕ}
    (hlist : (forest s).children cur = children)
    (hlinked : (forest s).Linked) (hcur : kind s cur = some kcur)
    (hinit : kind s init = some ki) (hne : init ≠ cur)
    (hroot : (forest s).parent init = some root) (hrc : root ≠ cur) :
    ∃ s', reparent cur init children s = some s' ∧ Moved cur init s s' := by
  induction children generalizing s with
  | nil =>
    have hnone : ∀ a, (forest s).parent a ≠ some cur := by
      intro a ha
      have hmem := (hlinked.mem_iff cur a).mpr ha
      rw [hlist] at hmem
      cases hmem
    refine ⟨s, rfl, ⟨rfl, rfl, rfl, rfl⟩, hlinked, fun a => ?_, fun _ _ _ _ h => h⟩
    rw [if_neg (hnone a)]
  | cons c rest ih =>
    have hpc : (forest s).parent c = some cur :=
      (hlinked.mem_iff cur c).mp (hlist ▸ mem_cons_self)
    have hic : init ≠ c := by
      rintro rfl
      exact hrc (some.inj (hroot.symm.trans hpc))
    obtain ⟨kc, hkc⟩ := kind_of_parent hpc
    obtain ⟨s₁, hround, hr₁, hf₁⟩ := reparent_round hkc hcur hinit rest
    have hparent : ∀ a,
        (forest s₁).parent a = if a = c then some init else (forest s).parent a := by
      intro a
      rw [hf₁]
      split
      · rename_i hac
        rw [hac, Forest.parent_attach]
      · rename_i hac
        rw [Forest.parent_attach_of_ne hac, Forest.parent_detach_of_ne hac]
    have hlinked₁ : (forest s₁).Linked := by
      rw [hf₁]
      exact (hlinked.detach hpc).attach Forest.parent_detach
    have hlist₁ : (forest s₁).children cur = rest := by
      rw [hf₁]
      simp only [Forest.attach, Forest.detach]
      rw [update_of_ne hne.symm, update_self, hlist, erase_cons_head]
    have hroot₁ : (forest s₁).parent init = some root := by
      rw [hparent, if_neg hic, hroot]
    obtain ⟨s', hs', hmoved⟩ := ih hlist₁ hlinked₁ (by rw [hr₁.kind_eq, hcur])
      (by rw [hr₁.kind_eq, hinit]) hroot₁
    refine ⟨s', hround.trans hs', hr₁.trans hmoved.relinked, hmoved.linked, fun a => ?_, ?_⟩
    · rw [hmoved.parent, hparent]
      by_cases hac : a = c
      · subst hac
        rw [if_pos rfl, if_pos hpc, if_neg fun heq => hne (some.inj heq)]
      · rw [if_neg hac]
    · intro root' a hroot' hrc' hrooted
      obtain rfl : root = root' := some.inj (hroot.symm.trans hroot')
      apply hmoved.rooted root a hroot₁ hrc
      rw [hf₁]
      exact hrooted.move hroot hic

end Reparenting

variable {a pid : ℕ} {n : ℤ}

section Invariant

structure TreeInv (idle : ℕ) (s : ProcState) : Prop where
  nodup : s.procList.Nodup
  mem_list : ∀ a, a ∈ s.procList ↔ (kind s a).isSome = true
  pids : ∀ a b pid x y, kind s a = some (pid, x) → kind s b = some (pid, y) → a = b
  kind_idle : kind s idle = some (0, .running)
  parent_idle : (forest s).parent idle = none
  linked : (forest s).Linked
  live : ∀ a q, (forest s).parent a = some q → ∃ pid, kind s q = some (pid, .running)
  rooted : ∀ a, (kind s a).isSome = true → (forest s).Rooted idle a
  init : ∀ a x, kind s a = some (1, x) →
    (forest s).parent a = some idle ∧ s.procInitproc = some a
  sleeper : ∀ a w, s.waits a = some w → ∃ pid, kind s a = some (pid, .running)
  awaited : ∀ a p, s.waits a = some (.child p) → (forest s).parent p = some a

variable {s s' : ProcState} {idle cur addr p : ℕ}

theorem usedPid_of_kind {x : PState} (hi : TreeInv idle s) (ha : kind s a = some (Int.ofNat pid, x))
    : s.usedPid pid = true := by
  obtain ⟨P, hP, hk⟩ := exists_proc ha
  have hmem : a ∈ s.procList := by
    rw [hi.mem_list, ha]
    rfl
  refine any_eq_true.mpr ⟨a, hmem, ?_⟩
  rw [hP, any_some, decide_eq_true_eq]
  exact (Prod.mk.inj hk).1.symm

theorem pidFrom_unused {rounds pid' : ℕ} (h : pidFrom s rounds pid = some pid') :
    s.usedPid pid' = false := by
  induction rounds generalizing pid with
  | zero => cases h
  | succ rounds ih =>
    unfold pidFrom at h
    split at h
    · split at h
      · cases h
      · exact ih h
    · rename_i hunused
      obtain rfl := some.inj h
      exact Bool.eq_false_iff.mpr hunused

/-- What a new process is, once it has a number. -/
structure Created (cur addr pid : ℕ) (s s' : ProcState) : Prop where
  fresh : kind s addr = none
  pid_pos : 0 < pid
  unused : s.usedPid pid = false
  from_idle : pid = 1 → ∃ x, kind s cur = some (0, x)
  kind_eq : kind s' = update (kind s) addr (some (Int.ofNat pid, .running))
  forest_eq : forest s' = (forest s).attach cur addr
  list_eq : s'.procList = s.procList++[addr]
  init_eq : s'.procInitproc = if pid = 1 then some addr else s.procInitproc
  waits_eq : s'.waits = s.waits

/-- The state with a new process, a child of `cur`. -/
def created (s : ProcState) (cur addr pid : ℕ) (C : Proc) : ProcState :=
  { setProc (setProc s addr (some ⟨pid, .running, some cur, []⟩)) cur
      (some { C with pChildren := C.pChildren++[addr] }) with
    procList := s.procList++[addr]
    nextPid := (pid+1)%procMaxCount
    procInitproc := if pid = 1 then some addr else s.procInitproc }

/-- With a number above 0, creation succeeds exactly if its assertions hold. -/
theorem procCreate_eq_some {C : Proc} (hid : procGetid s = some pid) (hpos : 0 < pid)
    (hC : s.procs cur = some C) : procCreate s (some cur) addr = some s' ↔
      s.procs addr = none ∧ (pid = 1 → C.pPid = 0) ∧ s' = created s cur addr pid C := by
  have hpos' : (0 : ℤ) < pid := by omega
  have hzero : (pid : ℤ) ≠ 0 := by omega
  have hone : (pid : ℤ) = 1 ↔ pid = 1 := by omega
  simp only [procCreate, hid, Option.elim_some, Int.ofNat_eq_natCast, Option.bind_some, hC,
    Option.map_some, ite_none_left_eq_some, hzero, hone, false_and, false_or, not_or, not_and,
    not_not, Option.some.injEq, if_pos hpos', and_assoc, not_isSome_iff_eq_none]
  refine and_congr_right fun hfree => and_congr_right fun _ => ?_
  have hne : cur ≠ addr := by
    rintro rfl
    rw [hfree] at hC
    cases hC
  rw [modify_eq ((update_of_ne hne _ _).trans hC), Option.some.injEq, eq_comm]
  rfl

theorem procCreate_spec (hi : TreeInv idle s) (hid : procGetid s = some pid)
    (hcur : kind s cur = some k) (hs : procCreate s (some cur) addr = some s') :
    Created cur addr pid s s' := by
  obtain ⟨C, hC, -⟩ := exists_proc hcur
  have hunused := pidFrom_unused hid
  have hpos : 0 < pid := by
    rw [Nat.pos_iff_ne_zero]
    rintro rfl
    rw [usedPid_of_kind hi hi.kind_idle] at hunused
    cases hunused
  obtain ⟨hnone, hone, rfl⟩ := (procCreate_eq_some hid hpos hC).mp hs
  have hne : cur ≠ addr := by
    rintro rfl
    rw [hnone] at hC
    cases hC
  refine ⟨by rw [kind, hnone]; rfl, hpos, hunused, fun h1 => ?_, ?_, ?_, rfl, rfl, rfl⟩
  · exact ⟨C.pState, by rw [kind, hC, Option.map_some, hone h1]⟩
  · change kind (setProc (setProc s addr _) cur _) = _
    rw [kind_setProc, kind_setProc]
    apply update_eq_iff.mpr
    exact ⟨by rw [update_of_ne hne, kind, hC]; rfl, fun _ _ => rfl⟩
  · change forest (setProc (setProc s addr _) cur _) = _
    rw [forest_setProc, forest_setProc]
    unfold Forest.attach
    congr 1
    · apply update_eq_iff.mpr
      exact ⟨by simp [update_of_ne hne, parent_eq hC], fun _ _ => rfl⟩
    · rw [children_eq hC]
      congr 1
      apply update_eq_iff.mpr
      exact ⟨by simp [forest, hnone], fun _ _ => rfl⟩

theorem TreeInv.create (hi : TreeInv idle s) (hcur : ∃ n, kind s cur = some (n, .running))
    (h : Created cur addr pid s s') : TreeInv idle s' := by
  obtain ⟨n, hcur⟩ := hcur
  have hne : ∀ a k, kind s a = some k → a ≠ addr := by
    rintro a k ha rfl
    rw [h.fresh] at ha
    cases ha
  have hold : ∀ a k, kind s a = some k → kind s' a = some k := fun a k ha => by
    rw [h.kind_eq, update_of_ne (hne a k ha), ha]
  have hnew : kind s' addr = some (Int.ofNat pid, .running) := by
    rw [h.kind_eq, update_self]
  have hcases : ∀ a k, kind s' a = some k →
      a = addr ∧ k = (Int.ofNat pid, .running) ∨ a ≠ addr ∧ kind s a = some k := by
    intro a k ha
    by_cases haa : a = addr
    · subst haa
      exact .inl ⟨rfl, (some.inj (ha.symm.trans hnew))⟩
    · rw [h.kind_eq, update_of_ne haa] at ha
      exact .inr ⟨haa, ha⟩
  have hfresh : (forest s).parent addr = none := by
    cases hp : (forest s).parent addr with
    | none => rfl
    | some q =>
      obtain ⟨k, hk⟩ := kind_of_parent hp
      exact absurd rfl (hne addr k hk)
  have hparent : ∀ a, a ≠ addr → (forest s').parent a = (forest s).parent a := fun a ha => by
    rw [h.forest_eq, Forest.parent_attach_of_ne ha]
  have hunused : ∀ a x, kind s a ≠ some (Int.ofNat pid, x) := by
    intro a x ha
    have hused := usedPid_of_kind hi ha
    rw [h.unused] at hused
    cases hused
  constructor
  · rw [h.list_eq]
    refine nodup_append.mpr ⟨hi.nodup, nodup_singleton _, fun a ha b hb heq => ?_⟩
    rw [mem_singleton] at hb
    obtain ⟨k, hk⟩ := isSome_iff_exists.mp ((hi.mem_list a).mp ha)
    exact hne a k hk (heq.trans hb)
  · intro a
    rw [h.list_eq, mem_append, mem_singleton, hi.mem_list, h.kind_eq]
    by_cases haa : a = addr
    · subst haa
      simp
    · simp [haa]
  · intro a b n' x y ha hb
    rcases hcases a _ ha with ⟨rfl, hk⟩ | ⟨-, ha⟩
    · rcases hcases b _ hb with ⟨rfl, -⟩ | ⟨-, hb⟩
      · rfl
      · exact absurd ((Prod.mk.inj hk).1 ▸ hb) (hunused b y)
    · rcases hcases b _ hb with ⟨rfl, hk⟩ | ⟨-, hb⟩
      · exact absurd ((Prod.mk.inj hk).1 ▸ ha) (hunused a x)
      · exact hi.pids a b n' x y ha hb
  · exact hold idle _ hi.kind_idle
  · rw [hparent idle (hne idle _ hi.kind_idle), hi.parent_idle]
  · rw [h.forest_eq]
    exact hi.linked.attach hfresh
  · intro a q hq
    by_cases haa : a = addr
    · subst haa
      rw [h.forest_eq, Forest.parent_attach, some.injEq] at hq
      exact ⟨n, hq ▸ hold cur _ hcur⟩
    · rw [hparent a haa] at hq
      obtain ⟨n', hn'⟩ := hi.live a q hq
      exact ⟨n', hold q _ hn'⟩
  · intro a ha
    obtain ⟨k, hk⟩ := isSome_iff_exists.mp ha
    have hroot : ∀ b, (kind s b).isSome = true → (forest s').Rooted idle b := fun b hb => by
      rw [h.forest_eq]
      exact (hi.rooted b hb).attach hfresh
    rcases hcases a k hk with ⟨rfl, -⟩ | ⟨-, hk⟩
    · refine .step ?_ (hroot cur (by rw [hcur]; rfl))
      rw [h.forest_eq, Forest.parent_attach]
    · exact hroot a (by rw [hk]; rfl)
  · intro a x ha
    rw [h.init_eq]
    rcases hcases a _ ha with ⟨rfl, hk⟩ | ⟨haa, ha⟩
    · have hone : pid = 1 := Int.ofNat_inj.mp (Prod.mk.inj hk).1.symm
      obtain ⟨y, hy⟩ := h.from_idle hone
      obtain rfl := hi.pids cur idle 0 _ _ hy hi.kind_idle
      rw [if_pos hone, h.forest_eq, Forest.parent_attach]
      exact ⟨rfl, rfl⟩
    · have hone : pid ≠ 1 := by
        rintro rfl
        exact hunused a x ha
      rw [if_neg hone, hparent a haa]
      exact hi.init a x ha
  · intro a w hw
    rw [h.waits_eq] at hw
    obtain ⟨n', hn'⟩ := hi.sleeper a w hw
    exact ⟨n', hold a _ hn'⟩
  · intro a c hw
    rw [h.waits_eq] at hw
    have hc := hi.awaited a c hw
    obtain ⟨k, hk⟩ := kind_of_parent hc
    rw [hparent c (hne c k hk), hc]

theorem TreeInv.idle_ne {x : PState} (hi : TreeInv idle s) (hn : 1 ≤ n)
    (h : kind s cur = some (n, x)) : idle ≠ cur := by
  rintro rfl
  have hzero := (Prod.mk.inj (some.inj (h.symm.trans hi.kind_idle))).1
  omega

theorem TreeInv.parent_ne_dead (hi : TreeInv idle s) (hp : kind s p = some (n, .dead)) (a : ℕ) :
    (forest s).parent a ≠ some p := by
  intro ha
  obtain ⟨m, hm⟩ := hi.live a p ha
  rw [hp] at hm
  cases hm

structure Reaped (cur p : ℕ) (s s' : ProcState) : Prop where
  kind_eq : kind s' = update (kind s) p none
  forest_eq : forest s' = (forest s).detach cur p
  list_eq : s'.procList = s.procList.erase p
  init_eq : s'.procInitproc = s.procInitproc
  waits_eq : s'.waits = update s.waits cur none

theorem reap_spec (hi : TreeInv idle s) (hp : kind s p = some (n, .dead))
    (hcur : (forest s).parent p = some cur) :
    ∃ s', reap s cur p = some s' ∧ Reaped cur p s s' := by
  obtain ⟨m, hm⟩ := hi.live p cur hcur
  have hne : p ≠ cur := by
    rintro rfl
    rw [hp] at hm
    cases hm
  obtain ⟨s₁, hs₁, hr₁, hf₁⟩ := modify_children hm (·.erase p)
  have hleaf : (forest s).children p = [] := by
    apply eq_nil_iff_forall_not_mem.mpr
    intro a ha
    exact hi.parent_ne_dead hp a ((hi.linked.mem_iff p a).mp ha)
  refine ⟨_, by rw [reap, hs₁, map_some], ?_⟩
  constructor
  · change kind (setProc s₁ p none) = _
    rw [kind_setProc, hr₁.kind_eq]
    rfl
  · change forest (setProc s₁ p none) = _
    rw [forest_setProc, hf₁]
    unfold Forest.detach
    congr 1
    apply update_eq_iff.mpr
    refine ⟨?_, fun _ _ => rfl⟩
    rw [update_of_ne hne, hleaf]
    rfl
  · exact congrArg (List.erase · p) hr₁.list_eq
  · exact hr₁.init_eq
  · exact congrArg (update · cur none) hr₁.waits_eq

theorem TreeInv.reap (hi : TreeInv idle s) (hp : kind s p = some (n, .dead))
    (hcur : (forest s).parent p = some cur) (h : Reaped cur p s s') : TreeInv idle s' := by
  have hidle : idle ≠ p := by
    rintro rfl
    rw [hi.kind_idle] at hp
    cases hp
  have hkind : ∀ a, a ≠ p → kind s' a = kind s a := fun a ha => by
    rw [h.kind_eq, update_of_ne ha]
  have hgone : kind s' p = none := by
    rw [h.kind_eq, update_self]
  have hcases : ∀ a k, kind s' a = some k → a ≠ p ∧ kind s a = some k := by
    intro a k ha
    have hap : a ≠ p := by
      rintro rfl
      rw [hgone] at ha
      cases ha
    exact ⟨hap, (hkind a hap) ▸ ha⟩
  have hparent : ∀ a, a ≠ p → (forest s').parent a = (forest s).parent a := fun a ha => by
    rw [h.forest_eq, Forest.parent_detach_of_ne ha]
  have hrun : ∀ a n, kind s a = some (n, .running) → kind s' a = some (n, .running) := by
    intro a n ha
    rw [hkind, ha]
    rintro rfl
    rw [hp] at ha
    cases ha
  have hwaits : ∀ a w, s'.waits a = some w → a ≠ cur ∧ s.waits a = some w := by
    intro a w hw
    rw [h.waits_eq, update_apply] at hw
    split_ifs at hw with hac
    exact ⟨hac, hw⟩
  constructor
  · rw [h.list_eq]
    exact hi.nodup.erase p
  · intro a
    rw [h.list_eq, hi.nodup.mem_erase_iff, hi.mem_list]
    by_cases hap : a = p
    · subst hap
      simp [hgone]
    · simp [hap, hkind a hap]
  · intro a b m x y ha hb
    exact hi.pids a b m x y (hcases a _ ha).2 (hcases b _ hb).2
  · exact hrun idle 0 hi.kind_idle
  · rw [hparent idle hidle, hi.parent_idle]
  · rw [h.forest_eq]
    exact hi.linked.detach hcur
  · intro a q hq
    have hap : a ≠ p := by
      rintro rfl
      rw [h.forest_eq, Forest.parent_detach] at hq
      cases hq
    rw [hparent a hap] at hq
    obtain ⟨m, hm⟩ := hi.live a q hq
    exact ⟨m, hrun q m hm⟩
  · intro a ha
    obtain ⟨k, hk⟩ := isSome_iff_exists.mp ha
    obtain ⟨hap, hk⟩ := hcases a k hk
    rw [h.forest_eq]
    exact (hi.rooted a (by rw [hk]; rfl)).detach (hi.parent_ne_dead hp) hap
  · intro a x ha
    obtain ⟨hap, ha⟩ := hcases a _ ha
    rw [hparent a hap, h.init_eq]
    exact hi.init a x ha
  · intro a w hw
    obtain ⟨m, hm⟩ := hi.sleeper a w (hwaits a w hw).2
    exact ⟨m, hrun a m hm⟩
  · intro a c hw
    obtain ⟨hac, hw⟩ := hwaits a _ hw
    have hc := hi.awaited a c hw
    rw [hparent c, hc]
    rintro rfl
    exact hac (some.inj (hc.symm.trans hcur))

theorem TreeInv.sleep {w : Waiting} (hi : TreeInv idle s) (hcur : kind s cur = some (n, .running))
    (hw : ∀ p, w = .child p → (forest s).parent p = some cur) :
    TreeInv idle (sleep s cur w) where
  nodup := hi.nodup
  mem_list := hi.mem_list
  pids := hi.pids
  kind_idle := hi.kind_idle
  parent_idle := hi.parent_idle
  linked := hi.linked
  live := hi.live
  rooted := hi.rooted
  init := hi.init
  sleeper a v hv := by
    change update s.waits cur (some w) a = some v at hv
    by_cases hac : a = cur
    · subst hac
      exact ⟨n, hcur⟩
    · rw [update_of_ne hac] at hv
      exact hi.sleeper a v hv
  awaited a p hv := by
    change update s.waits cur (some w) a = some (.child p) at hv
    by_cases hac : a = cur
    · subst hac
      rw [update_self, some.injEq] at hv
      exact hw p hv
    · rw [update_of_ne hac] at hv
      exact hi.awaited a p hv

/-- The process that exits is dead, and its children are children of init. -/
structure Exited (idle cur : ℕ) (s s' : ProcState) : Prop where
  pid : ∃ n x, 1 ≤ n ∧ kind s cur = some (n, x) ∧
    kind s' = update (kind s) cur (some (n, .dead))
  linked : (forest s').Linked
  parent : ∀ a, (forest s').parent a = (forest s).parent a ∧ (forest s).parent a ≠ some cur ∨
    ∃ init, (forest s).parent a = some cur ∧ (forest s').parent a = some init ∧ init ≠ cur ∧
      kind s init = some (1, .running)
  rooted : ∀ a, (forest s).Rooted idle a → (forest s').Rooted idle a
  list_eq : s'.procList = s.procList
  init_eq : s'.procInitproc = s.procInitproc
  waits_eq : s'.waits = s.waits

theorem modify_dead {x : PState} (h : kind s a = some (n, x)) :
    ∃ s', s.modify a (fun P => { P with pState := .dead }) = some s' ∧
      kind s' = update (kind s) a (some (n, .dead)) ∧ forest s' = forest s ∧
      s'.procList = s.procList ∧ s'.procInitproc = s.procInitproc ∧ s'.waits = s.waits := by
  obtain ⟨P, hP, hk⟩ := exists_proc h
  obtain ⟨rfl, rfl⟩ := Prod.mk.inj hk
  refine ⟨_, modify_eq hP _, ?_, ?_, rfl, rfl, rfl⟩
  · rw [kind_setProc]
    rfl
  · rw [forest_setProc]
    have hparent := parent_eq hP
    have hchildren := children_eq hP
    rw [bind_some, elim_some, ← hparent, ← hchildren, update_eq_self, update_eq_self]

def InitAlive (s : ProcState) : Prop := s.procInitproc.bind (kind s) = some (1, .running)

theorem procCleanup_spec (hi : TreeInv idle s)
    (halive : (forest s).children cur ≠ [] → InitAlive s)
    (hempty : ∀ x, kind s cur = some (1, x) → (forest s).children cur = [])
    (hs : procCleanup s cur = some s') : Exited idle cur s s' := by
  simp only [procCleanup, bind_eq_bind, bind_eq_some_iff] at hs
  obtain ⟨P, hP, init, hinit, hs⟩ := hs
  split at hs
  · cases hs
  rename_i hassert
  rw [not_or] at hassert
  obtain ⟨s₁, hs₁, hdead⟩ := bind_eq_some_iff.mp hs
  have hkind : kind s cur = some (P.pPid, P.pState) := by
    rw [kind, hP]
    rfl
  have hpid : 1 ≤ P.pPid := Int.not_lt.mp hassert.1
  rw [← children_eq hP] at hs₁
  by_cases hnil : (forest s).children cur = []
  · -- nothing is moved, whatever `proc_initproc` points to
    have heq : s₁ = s := by
      rw [hnil] at hs₁
      split at hs₁
      · exact (some.inj hs₁).symm
      · exact (some.inj hs₁).symm
    subst heq
    obtain ⟨s₂, hs₂, hk₂, hf₂, hl₂, hi₂, hw₂⟩ := modify_dead hkind
    obtain rfl : s₂ = s' := some.inj (hs₂.symm.trans hdead)
    refine ⟨⟨_, _, hpid, hkind, hk₂⟩, hf₂ ▸ hi.linked, fun a => .inl ⟨by rw [hf₂], fun ha => ?_⟩,
      fun a ha => hf₂ ▸ ha, hl₂, hi₂, hw₂⟩
    have hmem := (hi.linked.mem_iff cur a).mpr ha
    rw [hnil] at hmem
    cases hmem
  · have hne1 : P.pPid ≠ 1 := fun hone => hnil (hempty P.pState (hone ▸ hkind))
    have hrun : kind s init = some (1, .running) := by
      have halive := halive hnil
      rwa [InitAlive, hinit, bind_some] at halive
    have hroot := (hi.init init _ hrun).1
    have hic : init ≠ cur := by
      rintro rfl
      rw [hkind] at hrun
      exact hne1 (Prod.mk.inj (some.inj hrun)).1
    have hidle := hi.idle_ne hpid hkind
    obtain ⟨s₁', hmove, hmoved⟩ := reparent_spec rfl hi.linked hkind hrun hic hroot hidle
    rw [if_pos hne1] at hs₁
    obtain rfl : s₁' = s₁ := some.inj (hmove.symm.trans hs₁)
    have hr := hmoved.relinked
    obtain ⟨s₂, hs₂, hk₂, hf₂, hl₂, hi₂, hw₂⟩ := modify_dead (s := s₁')
      (by rw [hr.kind_eq, hkind])
    obtain rfl : s₂ = s' := some.inj (hs₂.symm.trans hdead)
    refine ⟨⟨_, _, hpid, hkind, by rw [hk₂, hr.kind_eq]⟩, hf₂ ▸ hmoved.linked, fun a => ?_,
      fun a ha => hf₂ ▸ hmoved.rooted idle a hroot hidle ha, hl₂.trans hr.list_eq,
      hi₂.trans hr.init_eq, hw₂.trans hr.waits_eq⟩
    rw [hf₂, hmoved.parent]
    by_cases ha : (forest s).parent a = some cur
    · rw [if_pos ha]
      exact .inr ⟨init, ha, rfl, hic, hrun⟩
    · rw [if_neg ha]
      exact .inl ⟨rfl, ha⟩

theorem TreeInv.exit (hi : TreeInv idle s) (hawake : s.waits cur = none)
    (h : Exited idle cur s s') : TreeInv idle s' := by
  obtain ⟨n, x, hn, hcur, hkind⟩ := h.pid
  have hidle := hi.idle_ne hn hcur
  have hother : ∀ a, a ≠ cur → kind s' a = kind s a := fun a ha => by
    rw [hkind, update_of_ne ha]
  have hcases : ∀ a m y, kind s' a = some (m, y) → ∃ z, kind s a = some (m, z) := by
    intro a m y ha
    by_cases hac : a = cur
    · subst hac
      rw [hkind, update_self] at ha
      obtain ⟨rfl, -⟩ := Prod.mk.inj (some.inj ha)
      exact ⟨x, hcur⟩
    · exact ⟨y, hother a hac ▸ ha⟩
  have hsome : ∀ a, (kind s' a).isSome = (kind s a).isSome := by
    intro a
    by_cases hac : a = cur
    · subst hac
      rw [hkind, update_self, hcur]
      rfl
    · rw [hother a hac]
  have hrun : ∀ a m, a ≠ cur → kind s a = some (m, .running) → kind s' a = some (m, .running) :=
    fun a m hac ha => (hother a hac).trans ha
  have hparent : ∀ a q, (forest s).parent a = some q → q ≠ cur →
      (forest s').parent a = some q := by
    intro a q hq hqc
    rcases h.parent a with ⟨heq, -⟩ | ⟨init, hcur', -⟩
    · rw [heq, hq]
    · exact absurd (some.inj (hq.symm.trans hcur')) hqc
  have hasleep : ∀ a w, s.waits a = some w → a ≠ cur := by
    rintro a w hw rfl
    rw [hawake] at hw
    cases hw
  constructor
  · rw [h.list_eq]
    exact hi.nodup
  · intro a
    rw [h.list_eq, hsome, hi.mem_list]
  · intro a b m y z ha hb
    obtain ⟨y', ha⟩ := hcases a m y ha
    obtain ⟨z', hb⟩ := hcases b m z hb
    exact hi.pids a b m y' z' ha hb
  · exact hrun idle 0 hidle hi.kind_idle
  · rcases h.parent idle with ⟨heq, -⟩ | ⟨init, hcur', -⟩
    · rw [heq, hi.parent_idle]
    · rw [hi.parent_idle] at hcur'
      cases hcur'
  · exact h.linked
  · intro a q hq
    rcases h.parent a with ⟨heq, hne⟩ | ⟨init, -, heq, hic, hinit⟩
    · rw [heq] at hq
      have hqc : q ≠ cur := by
        rintro rfl
        exact hne hq
      obtain ⟨m, hm⟩ := hi.live a q hq
      exact ⟨m, hrun q m hqc hm⟩
    · obtain rfl : init = q := some.inj (heq.symm.trans hq)
      exact ⟨1, hrun init 1 hic hinit⟩
  · intro a ha
    rw [hsome] at ha
    exact h.rooted a (hi.rooted a ha)
  · intro a y ha
    obtain ⟨y', ha⟩ := hcases a 1 y ha
    obtain ⟨hp, hinit⟩ := hi.init a y' ha
    exact ⟨hparent a idle hp hidle, h.init_eq.trans hinit⟩
  · intro a w hw
    rw [h.waits_eq] at hw
    obtain ⟨m, hm⟩ := hi.sleeper a w hw
    exact ⟨m, hrun a m (hasleep a w hw) hm⟩
  · intro a p hw
    rw [h.waits_eq] at hw
    exact hparent p a (hi.awaited a p hw) (hasleep a _ hw)

end Invariant

section Steps

variable {s s' : ProcState} {idle cur p : ℕ} {e : ProcEvent}

theorem firstChild_spec {test : Proc → Bool} {l : List ℕ}
    (hl : ∀ c ∈ l, (kind s c).isSome = true) :
    firstChild s test l = some none ∨
    ∃ c P, firstChild s test l = some (some c) ∧ c ∈ l ∧ s.procs c = some P ∧ test P = true := by
  induction l with
  | nil => exact .inl rfl
  | cons c l ih =>
    obtain ⟨k, hk⟩ := isSome_iff_exists.mp (hl c mem_cons_self)
    obtain ⟨P, hP, -⟩ := exists_proc hk
    simp only [firstChild, hP, Option.bind_eq_bind, Option.bind_some, Option.pure_def]
    by_cases htest : test P = true
    · rw [if_pos htest]
      exact .inr ⟨c, P, rfl, mem_cons_self, hP, htest⟩
    · rw [if_neg htest]
      rcases ih fun d hd => hl d (mem_cons_of_mem _ hd) with hnone | ⟨d, Q, hd, hmem, hQ⟩
      · exact .inl hnone
      · exact .inr ⟨d, Q, hd, mem_cons_of_mem _ hmem, hQ⟩

theorem TreeInv.isSome_child (hi : TreeInv idle s) {c : ℕ} (hc : c ∈ (forest s).children cur) :
    (kind s c).isSome = true := by
  obtain ⟨k, hk⟩ := kind_of_parent ((hi.linked.mem_iff cur c).mp hc)
  rw [hk]
  rfl

theorem kind_of_proc {P : Proc} (hP : s.procs a = some P) : kind s a = some (P.pPid, P.pState) := by
  rw [kind, hP]
  rfl

theorem TreeInv.waitChild (hi : TreeInv idle s) (hcur : kind s cur = some (n, .running))
    (hp : (forest s).parent p = some cur) :
    ∃ s', waitChild s cur p = some s' ∧ TreeInv idle s' := by
  obtain ⟨k, hk⟩ := kind_of_parent hp
  obtain ⟨P, hP, rfl⟩ := exists_proc hk
  simp only [ProcessTree.waitChild, hP, Option.bind_eq_bind, Option.bind_some, Option.pure_def]
  by_cases hdead : P.pState = .dead
  · rw [if_pos hdead]
    rw [hdead] at hk
    obtain ⟨s', hs', hreaped⟩ := reap_spec hi hk hp
    exact ⟨s', hs', hi.reap hk hp hreaped⟩
  · rw [if_neg hdead]
    refine ⟨_, rfl, hi.sleep hcur ?_⟩
    rintro _ ⟨⟩
    exact hp

theorem TreeInv.waitAny (hi : TreeInv idle s) (hcur : kind s cur = some (n, .running)) :
    ∃ s', waitAny s cur = some s' ∧ TreeInv idle s' := by
  obtain ⟨C, hC, -⟩ := exists_proc hcur
  simp only [ProcessTree.waitAny, hC, Option.bind_eq_bind, Option.bind_some, Option.pure_def]
  rw [← children_eq hC]
  rcases firstChild_spec fun c hc => hi.isSome_child hc with hnone | ⟨c, P, hc, hmem, hP, htest⟩
  · rw [hnone]
    exact ⟨_, rfl, hi.sleep hcur nofun⟩
  · rw [hc]
    have hk := kind_of_proc hP
    rw [of_decide_eq_true htest] at hk
    have hp := (hi.linked.mem_iff cur c).mp hmem
    obtain ⟨s', hs', hreaped⟩ := reap_spec hi hk hp
    exact ⟨s', hs', hi.reap hk hp hreaped⟩

theorem TreeInv.doWaitpid {pid : ℤ} (hi : TreeInv idle s) (hcur : kind s cur = some (n, .running)) :
    ∃ s', doWaitpid s cur pid = some s' ∧ TreeInv idle s' := by
  obtain ⟨C, hC, -⟩ := exists_proc hcur
  simp only [ProcessTree.doWaitpid, hC, Option.bind_eq_bind, Option.bind_some, Option.pure_def]
  rw [← children_eq hC]
  split
  · exact ⟨s, rfl, hi⟩
  · split
    · exact hi.waitAny hcur
    · split
      · rcases firstChild_spec fun c hc => hi.isSome_child hc with
          hnone | ⟨c, P, hc, hmem, -⟩
        · rw [hnone]
          exact ⟨s, rfl, hi⟩
        · rw [hc]
          exact hi.waitChild hcur ((hi.linked.mem_iff cur c).mp hmem)
      · exact ⟨s, rfl, hi⟩

/-- A new process gets a number, and init is alive when a process with children exits. -/
def KeepsTree (s : ProcState) : ProcEvent → Prop
  | .create _ _ => (procGetid s).isSome = true
  | .exit cur => (forest s).children cur ≠ [] → InitAlive s
  | _ => True

instance (s : ProcState) : Decidable (InitAlive s) := inferInstanceAs (Decidable (_ = _))

instance (s : ProcState) (e : ProcEvent) : Decidable (KeepsTree s e) := by
  cases e <;> unfold KeepsTree <;> infer_instance

theorem kind_of_isRunning (h : isRunning s cur = true) : ∃ n, kind s cur = some (n, .running) := by
  unfold isRunning at h
  cases hP : s.procs cur with
  | none => simp [hP] at h
  | some P =>
    rw [hP, any_some, decide_eq_true_eq] at h
    exact ⟨P.pPid, h ▸ kind_of_proc hP⟩

theorem kind_of_active (h : active s cur = true) :
    (∃ n, kind s cur = some (n, .running)) ∧ s.waits cur = none := by
  rw [active, Bool.and_eq_true, decide_eq_true_eq] at h
  exact ⟨kind_of_isRunning h.1, h.2⟩

theorem TreeInv.step (hi : TreeInv idle s) (hgood : KeepsTree s e) (hs : ProcSteps s e s') :
    TreeInv idle s' := by
  unfold ProcSteps at hs
  cases e with
  | create cur addr =>
    simp only [stepProcs] at hs
    split at hs
    · rename_i hactive
      obtain ⟨⟨n, hcur⟩, -⟩ := kind_of_active hactive
      obtain ⟨pid, hid⟩ := isSome_iff_exists.mp hgood
      exact hi.create ⟨n, hcur⟩ (procCreate_spec hi hid hcur hs)
    · cases hs
  | exit cur =>
    simp only [stepProcs] at hs
    split at hs
    · rename_i hactive
      obtain ⟨-, hawake⟩ := kind_of_active hactive.1
      refine hi.exit hawake (procCleanup_spec hi hgood (fun x hx => ?_) hs)
      obtain ⟨P, hP, hk⟩ := exists_proc hx
      have hall := hactive.2
      rw [hP, all_some, decide_eq_true_eq] at hall
      rw [children_eq hP]
      exact hall (Prod.mk.inj hk).1.symm
    · cases hs
  | waitpid cur pid =>
    simp only [stepProcs] at hs
    split at hs
    · rename_i hactive
      obtain ⟨⟨n, hcur⟩, -⟩ := kind_of_active hactive
      obtain ⟨s₁, hs₁, hi₁⟩ := hi.doWaitpid hcur
      exact some.inj (hs₁.symm.trans hs) ▸ hi₁
    · cases hs
  | resume cur =>
    simp only [stepProcs] at hs
    split at hs
    · rename_i hrun
      obtain ⟨n, hcur⟩ := kind_of_isRunning hrun
      unfold resume at hs
      split at hs
      · cases hs
      · obtain ⟨s₁, hs₁, hi₁⟩ := hi.waitAny hcur
        exact some.inj (hs₁.symm.trans hs) ▸ hi₁
      · rename_i p hw
        obtain ⟨s₁, hs₁, hi₁⟩ := hi.waitChild hcur (hi.awaited cur p hw)
        exact some.inj (hs₁.symm.trans hs) ▸ hi₁
    · cases hs

end Steps

section Runs

variable {s s₀ : ProcState} {idle : ℕ}

theorem procGetid_noProcs : procGetid noProcs = some 0 := by
  have hrounds : procMaxCount = 65535+1 := rfl
  rw [procGetid, hrounds, pidFrom, if_neg (by decide)]
  rfl

def idleAlone (idle : ℕ) : ProcState :=
  { setProc noProcs idle (some ⟨0, .running, none, []⟩) with
    procList := [idle]
    nextPid := (0+1)%procMaxCount }

theorem bootProcs_eq : bootProcs idle = some (idleAlone idle) := by
  rw [bootProcs, procCreate]
  simp only [procGetid_noProcs]
  rfl

theorem kind_idleAlone (a : ℕ) :
    kind (idleAlone idle) a = if a = idle then some (0, .running) else none := by
  change kind (setProc noProcs idle _) a = _
  rw [kind_setProc, update_apply]
  rfl

theorem forest_idleAlone : forest (idleAlone idle) = ⟨fun _ => none, fun _ => []⟩ := by
  change forest (setProc noProcs idle _) = _
  rw [forest_setProc, bind_some, elim_some]
  congr 1
  · exact update_eq_self _ _
  · exact update_eq_self _ _

theorem treeInv_boot (h : bootProcs idle = some s₀) : TreeInv idle s₀ := by
  obtain rfl := some.inj (bootProcs_eq.symm.trans h)
  have hidle : ∀ a k, kind (idleAlone idle) a = some k → a = idle ∧ k = (0, .running) := by
    intro a k ha
    rw [kind_idleAlone] at ha
    split at ha
    · rename_i heq
      exact ⟨heq, (some.inj ha).symm⟩
    · cases ha
  constructor
  · exact nodup_singleton idle
  · intro a
    rw [kind_idleAlone]
    change a ∈ [idle] ↔ _
    rw [mem_singleton]
    by_cases ha : a = idle <;> simp [ha]
  · intro a b pid x y ha hb
    exact (hidle a _ ha).1.trans (hidle b _ hb).1.symm
  · rw [kind_idleAlone, if_pos rfl]
  · rw [forest_idleAlone]
  · rw [forest_idleAlone]
    exact ⟨fun q c => iff_of_false not_mem_nil nofun, fun q => nodup_nil⟩
  · intro a q hq
    rw [forest_idleAlone] at hq
    cases hq
  · intro a ha
    obtain ⟨k, hk⟩ := isSome_iff_exists.mp ha
    rw [(hidle a k hk).1]
    exact .root
  · intro a x ha
    cases (hidle a _ ha).2
  · exact nofun
  · exact nofun

/-- The lists, the pointers and the list of all processes agree. -/
structure TreeOk (idle : ℕ) (s : ProcState) : Prop where
  oneParent : ∀ a P, s.procs a = some P → a ≠ idle → ∃ q Q, P.pPproc = some q ∧
    s.procs q = some Q ∧ Q.pState = .running ∧ Q.pChildren.count a = 1 ∧
    ∀ r R, s.procs r = some R → a ∈ R.pChildren → r = q
  children : ∀ q Q, s.procs q = some Q →
    ∀ c, c ∈ Q.pChildren ↔ ∃ P, s.procs c = some P ∧ P.pPproc = some q
  reaches : ∀ a, (s.procs a).isSome = true → (forest s).Rooted idle a
  listed : ∀ a, s.procList.count a = if (s.procs a).isSome = true then 1 else 0

theorem TreeInv.treeOk (hi : TreeInv idle s) : TreeOk idle s := by
  have hmem : ∀ q Q, s.procs q = some Q → ∀ c, c ∈ Q.pChildren ↔ (forest s).parent c = some q := by
    intro q Q hQ c
    rw [← children_eq hQ]
    exact hi.linked.mem_iff q c
  constructor
  · intro a P hP hne
    have hrooted := hi.rooted a (by rw [kind_of_proc hP]; rfl)
    cases hrooted with
    | root => exact absurd rfl hne
    | @step _ q hq _ =>
      obtain ⟨n, hn⟩ := hi.live a q hq
      obtain ⟨Q, hQ, hk⟩ := exists_proc hn
      have hnodup := hi.linked.nodup q
      rw [children_eq hQ] at hnodup
      refine ⟨q, Q, (parent_eq hP).symm.trans hq, hQ, (Prod.mk.inj hk).2.symm, ?_, ?_⟩
      · exact count_eq_one_of_mem hnodup ((hmem q Q hQ a).mpr hq)
      · intro r R hR ha
        exact some.inj (((hmem r R hR a).mp ha).symm.trans hq)
  · intro q Q hQ c
    rw [hmem q Q hQ c]
    exact bind_eq_some_iff
  · intro a ha
    rw [← isSome_kind] at ha
    exact hi.rooted a ha
  · intro a
    rw [← isSome_kind]
    split
    · rename_i ha
      exact count_eq_one_of_mem hi.nodup ((hi.mem_list a).mpr ha)
    · rename_i ha
      exact count_eq_zero_of_not_mem fun hin => ha ((hi.mem_list a).mp hin)

/-- In every state that is reached the processes form one tree. -/
theorem guarded_run_treeOk {es : List ProcEvent} (hboot : bootProcs idle = some s₀)
    (hrun : Run ProcSteps KeepsTree s₀ es s) : TreeOk idle s :=
  (hrun.invariant (fun _ _ _ hgood hs hi => hi.step hgood hs) (treeInv_boot hboot)).treeOk

theorem exists_run_procs (good : ProcState → ProcEvent → Prop) [∀ s e, Decidable (good s e)]
    (idle : ℕ) (es : List ProcEvent) {P : ProcState → Prop} [DecidablePred P]
    (hexec : (bootProcs idle).any (fun s => (exec stepProcs good s es).any fun t => decide (P t))
      = true) : ∃ s₀ s, bootProcs idle = some s₀ ∧ Run ProcSteps good s₀ es s ∧ P s := by
  cases hboot : bootProcs idle with
  | none => simp [hboot] at hexec
  | some s₀ =>
    rw [hboot, any_some] at hexec
    obtain ⟨s, hrun, hq⟩ := exists_run (fun _ _ _ hs => hs) hexec
    exact ⟨s₀, s, rfl, hrun, hq⟩

/-- A process with a child exits and is reaped by the idle process, which slept. -/
theorem treeOk_after_reaping : ∃ s₀ s, bootProcs 10 = some s₀ ∧
    Run ProcSteps KeepsTree s₀ [.create 10 11, .create 10 12, .create 12 13, .waitpid 10 (-1),
      .exit 12, .resume 10] s ∧
    s.procList = [10, 11, 13] ∧ (s.procs 13).map Proc.pPproc = some (some 11) ∧
    TreeOk 10 s := by
  exact (exists_run_procs _ _ _ (P := fun s => s.procList = [10, 11, 13] ∧
      (s.procs 13).map Proc.pPproc = some (some 11)) (by decide +kernel)).imp fun _ h =>
    h.imp fun s h => ⟨h.1, h.2.1, h.2.2.1, h.2.2.2, guarded_run_treeOk h.1 h.2.1⟩

/-- After the exit of init, the child of another process that exits is given to it all the
same. -/
theorem child_of_dead_init : ∃ s₀ s, bootProcs 10 = some s₀ ∧
    Run ProcSteps (fun _ _ => True) s₀ [.create 10 11, .create 10 12, .create 12 13, .exit 11,
      .exit 12] s ∧
    s.procs 13 = some ⟨3, .running, some 11, []⟩ ∧ s.procs 11 = some ⟨1, .dead, some 10, [13]⟩ ∧
    ¬TreeOk 10 s := by
  obtain ⟨s₀, s, hboot, hrun, hchild, hinit⟩ := exists_run_procs (fun _ _ => True) 10
    [.create 10 11, .create 10 12, .create 12 13, .exit 11, .exit 12]
    (P := fun s => s.procs 13 = some ⟨3, .running, some 11, []⟩ ∧
      s.procs 11 = some ⟨1, .dead, some 10, [13]⟩) (by decide +kernel)
  refine ⟨s₀, s, hboot, hrun, hchild, hinit, fun hok => ?_⟩
  obtain ⟨q, Q, hq, hQ, hstate, -⟩ := hok.oneParent 13 _ hchild (by decide)
  obtain rfl := some.inj hq
  obtain rfl := some.inj (hinit.symm.trans hQ)
  cases hstate

end Runs

end SystemsProjects.ProcessTreeRuns
