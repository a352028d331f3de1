import SystemsProjects.ProcessLifecycle
import SystemsProjects.ProcessTreeRuns

/-!
# What `do_waitpid` and `proc_cleanup` do to the tree

The functions are modelled three times: with the scheduler and the wait queues in `ExitWaiting`,
with memory and files in `ProcessLifecycle`, and with addresses and numbers in `ProcessTree`. Each
model has the pointers to parents and the lists of children. On these the functions do in the
first two what they do in the third (`ProcessTreeRuns.Reaped`, `ProcessTreeRuns.Moved`): a child
that is reaped is detached, and init becomes the parent of the children of a process that exits.
-/
namespace SystemsProjects.ProcessForests
open Function LinkedForests CallOutcomes List
open ExitWaiting (World pidInit waitPass exitFinish)
open ProcessLifecycle (Kernel procAt setProc adopt kthreadDestroy)

section Structures

variable {R : Type} (parent : R → Option ℕ) (children : R → List ℕ) {procs : ℕ → Option R}
  {r r' : R} {p c : ℕ}

/-- The forest of processes with some kind of structure. -/
def forestOf (procs : ℕ → Option R) : Forest ℕ :=
  ⟨fun a => (procs a).bind parent, fun a => (procs a).elim [] children⟩

/-- The structure of a leaf is freed after its parent's list has been changed. -/
theorem forestOf_reap (hr : procs p = some r) (hparent : parent r' = parent r)
    (hchildren : children r' = (children r).erase c) (hpc : p ≠ c)
    (hleaf : ∀ rc, procs c = some rc → children rc = []) :
    forestOf parent children (update (update procs p (some r')) c none) =
      (forestOf parent children procs).detach p c := by
  unfold forestOf Forest.detach
  congr 1
  · funext a
    by_cases hac : a = c
    · simp [hac]
    · by_cases hap : a = p <;> simp [hac, hap, hr, hparent, hpc]
  · funext a
    by_cases hap : a = p
    · simp [hap, hpc, hr, hchildren]
    · by_cases hac : a = c
      · cases hc : procs c <;> simp_all [hpc.symm]
      · simp [hac, hap]

end Structures

/-! ### With the scheduler -/

section Scheduler

variable {D : Type} [DecidableEq D] {w w' : World D}

def worldForest (w : World D) : Forest ℕ :=
  forestOf ExitWaiting.Proc.pPproc ExitWaiting.Proc.pChildren w.procs

theorem waitPass_detaches {pid value : ℤ} {status : Option ℤ}
    (hnodup : ∀ r, w.procs w.sched.curthr = some r → r.pChildren.Nodup)
    (hdead : ∀ c, w.isDead c = true →
      w.sched.curthr ≠ c ∧ ∀ r, w.procs c = some r → r.pChildren = [])
    (h : waitPass w pid = some (.returned value status, w')) :
    ∃ c : ℕ, value = c ∧ worldForest w' = (worldForest w).detach w.sched.curthr c := by
  unfold waitPass at h
  split at h
  · cases h
  next r hr =>
    split at h
    next c hc =>
      obtain ⟨hret, rfl⟩ := Prod.mk.inj (Option.some.inj h)
      have hmay := find?_some hc
      obtain ⟨hcur, hleaf⟩ := hdead c (Bool.and_eq_true_iff.mp hmay).2
      refine ⟨c, (ExitWaiting.WaitResult.returned.inj hret).1.symm, ?_⟩
      refine forestOf_reap _ _ hr rfl ?_ hcur hleaf
      rw [(hnodup r hr).erase_eq_filter]
      exact filter_congr fun x _ => by by_cases hx : x = c <;> simp [hx]
    · obtain ⟨_, _, hret⟩ := Option.bind_eq_some_iff.mp h
      cases Option.some.inj hret

theorem exitFinish_moves {status : ℤ} (hne : w.sched.curthr ≠ pidInit)
    (hthere : ∀ c ∈ w.children w.sched.curthr, w.procs c ≠ none)
    (h : exitFinish w status = some w') (a : ℕ) : w'.parent a =
      if a ∈ w.children w.sched.curthr then some pidInit else w.parent a := by
  simp only [exitFinish, ExitWaiting.reparent, if_neg hne, Option.bind_eq_bind] at h
  split at h
  · cases h
  simp only [Option.bind_some, Option.bind_eq_some_iff] at h
  obtain ⟨r, hr, _, _, hw⟩ := h
  obtain rfl := Option.some.inj hw
  obtain ⟨r₀, hr₀, rfl⟩ := Option.map_eq_some_iff.mp hr
  cases ha : w.procs a with
  | none =>
    have hmem : a ∉ w.children w.sched.curthr := fun hmem => hthere a hmem ha
    have hac : a ≠ w.sched.curthr := fun hac => by rw [hac, hr₀] at ha; cases ha
    simp [World.parent, ha, hmem, hac]
  | some ra =>
    by_cases hac : a = w.sched.curthr
    · obtain rfl := Option.some.inj (hr₀.symm.trans (hac ▸ ha))
      simp [World.parent, hac, hr₀]
    · simp [World.parent, ha, hac]

end Scheduler

/-! ### With memory and files -/

section Resources

variable {k k' : Kernel} {cur c : ℕ}

def kernelForest (k : Kernel) : Forest ℕ :=
  forestOf (fun r => some r.pPproc) ProcessLifecycle.Proc.pChildren k.procs

theorem procAt_gives (p : ℕ) (k : Kernel) :
    Gives (procAt p k) fun r k' => k' = k ∧ k.procs p = some r := by
  unfold ProcessLifecycle.procAt
  split
  next r hr => exact ⟨rfl, hr⟩
  · trivial

theorem threads_keep (l : List ℕ) (k : Kernel) :
    Gives (l.forM kthreadDestroy k) fun _ k' => k'.procs = k.procs := by
  induction l generalizing k with
  | nil => exact rfl
  | cons t l ih => exact (ih _ : Gives _ _)

theorem reap_detaches (hcur : cur ≠ c)
    (hleaf : ∀ r, k.procs c = some r → r.pChildren = []) :
    Gives (ProcessLifecycle.reap cur c k) fun _ k' =>
      kernelForest k' = (kernelForest k).detach cur c := by
  refine (procAt_gives c k).bind ?_
  rintro rc _ ⟨rfl, -⟩
  refine (threads_keep _ _).bind fun _ k₁ h₁ => (procAt_gives cur k₁).bind ?_
  rintro r k₂ ⟨rfl, hr⟩
  rw [h₁] at hr
  change forestOf _ _ (update (update k₂.procs cur _) c none) = _
  rw [h₁]
  exact forestOf_reap _ _ hr rfl rfl hcur hleaf

theorem parent_setProc (k : Kernel) (p : ℕ) (r : ProcessLifecycle.Proc) (a : ℕ) :
    (kernelForest { k with procs := update k.procs p (some r) }).parent a =
      if a = p then some r.pPproc else (kernelForest k).parent a := by
  by_cases h : a = p <;> simp [kernelForest, forestOf, h]

theorem parent_of_proc {p : ℕ} {r : ProcessLifecycle.Proc} (h : k.procs p = some r) :
    (kernelForest k).parent p = some r.pPproc := by simp [kernelForest, forestOf, h]

theorem adopt_moves (c : ℕ) (k : Kernel) : Gives (adopt c k) fun _ k' =>
    ∀ a, (kernelForest k').parent a = if a = c then some 1 else (kernelForest k).parent a := by
  refine (procAt_gives c k).bind ?_
  rintro rc k₁ ⟨rfl, hc⟩
  rw [bind_ok (rfl : setProc c _ k₁ = .ok ((), _))]
  refine (procAt_gives 1 _).bind ?_
  rintro r k₂ ⟨rfl, hr⟩ a
  have hadopted := parent_setProc k₁ c { rc with pPproc := 1 }
  refine (parent_setProc _ 1 _ a).trans ?_
  split
  next h1 => exact (parent_of_proc hr).symm.trans (h1 ▸ hadopted a)
  · exact hadopted a

theorem forM_adopt_moves (l : List ℕ) (k : Kernel) :
    Gives (l.forM adopt k) fun _ k' =>
      ∀ a, (kernelForest k').parent a = if a ∈ l then some 1 else (kernelForest k).parent a := by
  induction l generalizing k with
  | nil => exact fun a => by simp
  | cons c l ih =>
    refine (adopt_moves c k).bind fun _ k₁ h₁ => (ih k₁).imp fun _ k₂ h₂ a => ?_
    rw [h₂, h₁]
    by_cases hac : a = c <;> by_cases hal : a ∈ l <;> simp [hac, hal]

/-- The loop of `proc_cleanup` over the children. -/
theorem reparent_moves (hself : cur ∉ (kernelForest k).children cur) :
    Gives (ProcessLifecycle.reparent cur k) fun _ k' => ∀ a, (kernelForest k').parent a =
      if a ∈ (kernelForest k).children cur then some 1 else (kernelForest k).parent a := by
  refine (procAt_gives cur k).bind ?_
  rintro r k ⟨rfl, hr⟩
  have hlist : (kernelForest k).children cur = r.pChildren := by simp [kernelForest, forestOf, hr]
  rw [hlist] at hself ⊢
  refine (forM_adopt_moves _ _).bind fun _ k₁ h₁ a => (parent_setProc _ cur _ a).trans ?_
  split
  next h => rw [h, if_neg hself, parent_of_proc hr]
  · exact h₁ a

end Resources

end SystemsProjects.ProcessForests
