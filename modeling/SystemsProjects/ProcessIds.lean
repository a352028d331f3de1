import SystemsProjects.ProcessTreeRuns

/-!
# The numbers of processes

`_proc_getid` looks for a number that no process on `_proc_list` has, from `next_pid` on and
around the end of the numbers, and returns -1 if there is none. `proc_create` gives what it gets
to the new process: a number of its own while one is free, and -1 to every process that is
created afterwards.

Only creation hands out numbers. The other steps write to pointers and lists of children, or
take one process off the list; the idle process is nobody's child, so it is never taken off and
its number is never found again.
-/
namespace SystemsProjects.ProcessIds

open Function GuardedRuns ProcessTree ProcessTreeRuns List

variable {s s' : ProcState} {idle cur a p : ℕ} {P : Proc}

def pidAt (s : ProcState) (a : ℕ) : Option ℤ := (s.procs a).map Proc.pPid

theorem pidAt_eq (h : s.procs a = some P) : pidAt s a = some P.pPid := by
  rw [pidAt, h]
  rfl

/-- The numbers are distinct and in range, and the list holds the processes that there are. -/
structure PidInv (idle : ℕ) (s : ProcState) : Prop where
  nodup : s.procList.Nodup
  listed : ∀ a, a ∈ s.procList ↔ (pidAt s a).isSome = true
  range : ∀ a n, pidAt s a = some n → 0 ≤ n ∧ n < procMaxCount
  distinct : ∀ a b n, pidAt s a = some n → pidAt s b = some n → a = b
  next : s.nextPid < procMaxCount
  zero : pidAt s idle = some 0
  noChild : ∀ q Q, s.procs q = some Q → idle ∉ Q.pChildren
  noWait : ∀ q, s.waits q ≠ some (.child idle)

/-- A write that keeps the number and does not make the idle process a child. -/
theorem PidInv.modify (h : PidInv idle s) {f : Proc → Proc}
    (hs : s.modify a f = some s') (hpid : ∀ P, (f P).pPid = P.pPid)
    (hchild : ∀ P : Proc, idle ∉ P.pChildren → idle ∉ (f P).pChildren) :
    PidInv idle s' := by
  obtain ⟨P, hP, rfl⟩ := Option.map_eq_some_iff.mp hs
  have hpids : ∀ b, pidAt { s with procs := update s.procs a (some (f P)) } b
      = pidAt s b := by
    intro b
    by_cases hb : b = a
    · subst hb
      simp [pidAt, hP, hpid]
    · simp [pidAt, hb]
  refine ⟨h.nodup, fun b => ?_, fun b n => ?_, fun b c n => ?_, h.next, ?_, ?_, h.noWait⟩
  · rw [hpids]
    exact h.listed b
  · rw [hpids]
    exact h.range b n
  · rw [hpids, hpids]
    exact h.distinct b c n
  · rw [hpids]
    exact h.zero
  · intro q Q hQ
    change update s.procs a (some (f P)) q = some Q at hQ
    by_cases hq : q = a
    · subst hq
      rw [update_self, Option.some.injEq] at hQ
      subst hQ
      exact hchild P (h.noChild q P hP)
    · rw [update_of_ne hq] at hQ
      exact h.noChild q Q hQ

theorem PidInv.reparent (h : PidInv idle s) {init : ℕ} {l : List ℕ} (hl : idle ∉ l)
    (hs : reparent cur init l s = some s') : PidInv idle s' := by
  induction l generalizing s with
  | nil =>
    cases hs
    exact h
  | cons c rest ih =>
    simp only [ProcessTree.reparent, Option.bind_eq_bind, Option.bind_eq_some_iff] at hs
    obtain ⟨s₁, h₁, s₂, h₂, s₃, h₃, hrest⟩ := hs
    rw [mem_cons, not_or] at hl
    have hi₁ := h.modify h₁ (fun _ => rfl) fun _ hc => hc
    have hi₂ := hi₁.modify h₂ (fun _ => rfl) fun _ hc hm => hc (mem_of_mem_erase hm)
    have hi₃ := hi₂.modify h₃ (fun _ => rfl) fun P hc hm => by
      rcases mem_append.mp hm with hm | hm
      · exact hc hm
      · exact hl.1 (mem_singleton.mp hm)
    exact ih hi₃ hl.2 hrest

theorem PidInv.cleanup (h : PidInv idle s) (hs : procCleanup s cur = some s') : PidInv idle s' := by
  simp only [procCleanup, Option.bind_eq_bind, Option.bind_eq_some_iff] at hs
  obtain ⟨P, hP, init, -, hs⟩ := hs
  split_ifs at hs
  · obtain ⟨s₁, h₁, hs⟩ := Option.bind_eq_some_iff.mp hs
    have hi₁ := h.reparent (h.noChild cur P hP) h₁
    exact hi₁.modify hs (fun _ => rfl) fun _ hc => hc
  · exact h.modify hs (fun _ => rfl) fun _ hc => hc

theorem PidInv.reap (h : PidInv idle s) (hp : p ≠ idle) (hs : reap s cur p = some s') :
    PidInv idle s' := by
  obtain ⟨s₁, h₁, rfl⟩ := Option.map_eq_some_iff.mp hs
  have hi := h.modify h₁ (fun _ => rfl) fun _ hc hm => hc (mem_of_mem_erase hm)
  have hpids : ∀ b n, (update s₁.procs p none b).map Proc.pPid = some n →
      b ≠ p ∧ pidAt s₁ b = some n := by
    intro b n hb
    by_cases hbp : b = p
    · subst hbp
      simp at hb
    · rw [update_of_ne hbp] at hb
      exact ⟨hbp, hb⟩
  refine ⟨hi.nodup.erase p, fun b => ?_, fun b n hb => ?_, fun b c n hb hc => ?_, hi.next, ?_,
    fun q Q hQ => ?_, fun q hq => ?_⟩
  · rw [hi.nodup.mem_erase_iff, hi.listed, pidAt, pidAt]
    by_cases hbp : b = p
    · simp [hbp]
    · simp [hbp]
  · exact hi.range b n (hpids b n hb).2
  · exact hi.distinct b c n (hpids b n hb).2 (hpids c n hc).2
  · rw [pidAt]
    simp only [update_of_ne hp.symm]
    exact hi.zero
  · by_cases hqp : q = p
    · subst hqp
      simp at hQ
    · exact hi.noChild q Q ((update_of_ne hqp _ _).symm.trans hQ)
  · by_cases hqc : q = cur
    · subst hqc
      simp at hq
    · exact hi.noWait q ((update_of_ne hqc _ _).symm.trans hq)

theorem PidInv.sleep (h : PidInv idle s) {w : Waiting} (hw : w ≠ .child idle) :
    PidInv idle (sleep s cur w) := by
  refine ⟨h.nodup, h.listed, h.range, h.distinct, h.next, h.zero, h.noChild, fun q hq => ?_⟩
  change update s.waits cur (some w) q = _ at hq
  by_cases hqc : q = cur
  · rw [hqc, update_self] at hq
    exact hw (Option.some.inj hq)
  · rw [update_of_ne hqc] at hq
    exact h.noWait q hq

theorem mem_of_firstChild {test : Proc → Bool} {l : List ℕ}
    (h : firstChild s test l = some (some p)) : p ∈ l := by
  induction l with
  | nil => cases h
  | cons c rest ih =>
    simp only [firstChild, Option.bind_eq_bind, Option.bind_eq_some_iff] at h
    obtain ⟨P, -, h⟩ := h
    split_ifs at h
    · cases h
      exact mem_cons_self
    · exact mem_cons_of_mem _ (ih h)

theorem PidInv.waitChild (h : PidInv idle s) (hp : p ≠ idle)
    (hs : waitChild s cur p = some s') : PidInv idle s' := by
  simp only [ProcessTree.waitChild, Option.bind_eq_bind, Option.bind_eq_some_iff] at hs
  obtain ⟨P, -, hs⟩ := hs
  split_ifs at hs
  · exact h.reap hp hs
  · cases hs
    exact h.sleep fun he => hp (Waiting.child.inj he)

theorem PidInv.waitAny (h : PidInv idle s) (hs : waitAny s cur = some s') : PidInv idle s' := by
  simp only [ProcessTree.waitAny, Option.bind_eq_bind, Option.bind_eq_some_iff] at hs
  obtain ⟨P, hP, r, hr, hs⟩ := hs
  cases r with
  | none =>
    cases hs
    exact h.sleep (by simp)
  | some p =>
    refine h.reap ?_ hs
    rintro rfl
    exact h.noChild cur P hP (mem_of_firstChild hr)

theorem PidInv.waitpid (h : PidInv idle s) {pid : ℤ} (hs : doWaitpid s cur pid = some s') :
    PidInv idle s' := by
  simp only [ProcessTree.doWaitpid, Option.bind_eq_bind, Option.bind_eq_some_iff] at hs
  obtain ⟨P, hP, hs⟩ := hs
  split_ifs at hs
  · cases hs
    exact h
  · exact h.waitAny hs
  · obtain ⟨r, hr, hs⟩ := Option.bind_eq_some_iff.mp hs
    cases r with
    | none =>
      cases hs
      exact h
    | some p =>
      refine h.waitChild ?_ hs
      rintro rfl
      exact h.noChild cur P hP (mem_of_firstChild hr)
  · cases hs
    exact h

theorem PidInv.resume (h : PidInv idle s) (hs : resume s cur = some s') : PidInv idle s' := by
  unfold ProcessTree.resume at hs
  split at hs
  · cases hs
  · exact h.waitAny hs
  next p hw =>
    refine h.waitChild ?_ hs
    rintro rfl
    exact h.noWait cur hw

/-! ### Creation -/

variable {pid : ℕ}

/-- The loop of `_proc_getid` ends at `pid`: what it returns, and what `next_pid` is then. -/
inductive GetidLoop (s : ProcState) : ℕ → Option ℕ → ℕ → Prop
  | around {pid : ℕ} (hused : s.usedPid pid = true) (hend : (pid+1)%procMaxCount = s.nextPid) :
    GetidLoop s pid none s.nextPid
  | failed {pid : ℕ} {r : Option ℕ} {next : ℕ} (hused : s.usedPid pid = true)
    (hgo : (pid+1)%procMaxCount ≠ s.nextPid)
    (hloop : GetidLoop s ((pid+1)%procMaxCount) r next) : GetidLoop s pid r next
  | found {pid : ℕ} (hfree : s.usedPid pid = false) :
    GetidLoop s pid (some pid) ((pid+1)%procMaxCount)

/-- The first `k` numbers from `next_pid` on are in use. -/
def UsedFrom (s : ProcState) (k : ℕ) : Prop :=
  ∀ j < k, s.usedPid ((s.nextPid+j)%procMaxCount) = true

/-- What the scan of the numbers from `next_pid` on, around their end, has to return. -/
def FirstUnused (s : ProcState) : Option ℕ → Prop
  | none => UsedFrom s procMaxCount
  | some pid => ∃ k < procMaxCount, pid = (s.nextPid+k)%procMaxCount ∧ s.usedPid pid = false ∧
    UsedFrom s k

theorem UsedFrom.succ {k : ℕ} (h : UsedFrom s k)
    (hk : s.usedPid ((s.nextPid+k)%procMaxCount) = true) : UsedFrom s (k+1) := by
  intro j hj
  rcases Nat.lt_succ_iff_lt_or_eq.mp hj with hj | rfl
  · exact h j hj
  · exact hk

theorem UsedFrom.le {k j pid : ℕ} (h : UsedFrom s k) (hj : pid = (s.nextPid+j)%procMaxCount)
    (hfree : s.usedPid pid = false) : k ≤ j := by
  subst hj
  refine Nat.le_of_not_lt fun hlt => ?_
  rw [h j hlt] at hfree
  cases hfree

/-- The round with `rounds` more to come, behind numbers that are all in use. -/
theorem pidFrom_spec (hnext : s.nextPid < procMaxCount) (rounds k : ℕ)
    (hk : k+rounds+1 = procMaxCount) (hused : UsedFrom s k) {r : Option ℕ}
    (hr : pidFrom s (rounds+1) ((s.nextPid+k)%procMaxCount) = r) :
    GetidLoop s ((s.nextPid+k)%procMaxCount) r
      (r.elim s.nextPid fun pid => (pid+1)%procMaxCount) ∧ FirstUnused s r := by
  have hsucc : ((s.nextPid+k)%procMaxCount+1)%procMaxCount = (s.nextPid+(k+1))%procMaxCount := by
    rw [Nat.mod_add_mod, Nat.add_assoc]
  cases hu : s.usedPid ((s.nextPid+k)%procMaxCount) with
  | false =>
    rw [pidFrom, if_neg (by simp [hu])] at hr
    subst hr
    exact ⟨.found hu, k, by omega, rfl, hu, hused⟩
  | true =>
    have hused' := hused.succ hu
    rw [pidFrom, if_pos hu] at hr
    cases rounds with
    | zero =>
      rw [show k+1 = procMaxCount from hk] at hsucc hused'
      have hend := hsucc.trans ((Nat.add_mod_right ..).trans (Nat.mod_eq_of_lt hnext))
      rw [if_pos hend] at hr
      subst hr
      exact ⟨.around hu hend, hused'⟩
    | succ rounds =>
      have hgo : ((s.nextPid+k)%procMaxCount+1)%procMaxCount ≠ s.nextPid := by
        unfold procMaxCount at *
        omega
      rw [if_neg hgo, hsucc] at hr
      obtain ⟨hloop, hfirst⟩ := pidFrom_spec hnext rounds (k+1) (by omega) hused' hr
      exact ⟨.failed hu hgo (hsucc ▸ hloop), hfirst⟩

theorem procGetid_spec (hnext : s.nextPid < procMaxCount) :
    GetidLoop s s.nextPid (procGetid s)
      ((procGetid s).elim s.nextPid fun pid => (pid+1)%procMaxCount) ∧
    FirstUnused s (procGetid s) := by
  have hspec := @pidFrom_spec s hnext 65535 0 rfl (by simp [UsedFrom])
  rw [Nat.add_zero s.nextPid, Nat.mod_eq_of_lt hnext] at hspec
  exact hspec rfl

theorem procGetid_eq_none (hnext : s.nextPid < procMaxCount) :
    procGetid s = none ↔ ∀ n < procMaxCount, s.usedPid n = true := by
  have hfirst := (procGetid_spec hnext).2
  cases hr : procGetid s with
  | none =>
    rw [hr] at hfirst
    refine ⟨fun _ n hn => ?_, fun _ => rfl⟩
    have hj := hfirst ((n+(procMaxCount-s.nextPid))%procMaxCount) (Nat.mod_lt _ (by decide))
    rwa [Nat.add_mod_mod, show s.nextPid+(n+(procMaxCount-s.nextPid)) = n+procMaxCount by omega,
      Nat.add_mod_right, Nat.mod_eq_of_lt hn] at hj
  | some pid =>
    rw [hr] at hfirst
    obtain ⟨k, -, rfl, hfree, -⟩ := hfirst
    simp only [reduceCtorEq, false_iff]
    intro hall
    rw [hall _ (Nat.mod_lt _ (by decide))] at hfree
    cases hfree

/-- `_proc_getid` ends, with the first number from `next_pid` on that is not in use. -/
theorem procGetid_first_unused (hnext : s.nextPid < procMaxCount) :
    GetidLoop s s.nextPid (procGetid s)
      ((procGetid s).elim s.nextPid fun pid => (pid+1)%procMaxCount) ∧
    (procGetid s = none ↔ ∀ n < procMaxCount, s.usedPid n = true) ∧
    ∀ pid, procGetid s = some pid ↔ FirstUnused s (some pid) := by
  obtain ⟨hloop, hfirst⟩ := procGetid_spec hnext
  refine ⟨hloop, procGetid_eq_none hnext, fun pid => ⟨fun hid => hid ▸ hfirst, ?_⟩⟩
  rintro ⟨k, hk, hpid, hfree, hused⟩
  cases hr : procGetid s with
  | none =>
    rw [hr] at hfirst
    exact absurd (hfirst.le hpid hfree) (Nat.not_le_of_lt hk)
  | some pid' =>
    rw [hr] at hfirst
    obtain ⟨k', -, hpid', hfree', hused'⟩ := hfirst
    rw [hpid, hpid', Nat.le_antisymm (hused.le hpid' hfree') (hused'.le hpid hfree)]

/-- Only the last number is in use, and it is next. -/
def lastUsed : ProcState :=
  ⟨fun _ => some ⟨65535, .running, none, []⟩, [7], 65535, none, fun _ => none⟩

theorem firstUnused_lastUsed : FirstUnused lastUsed (some 0) :=
  ((procGetid_first_unused (by decide)).2.2 0).mp (by decide +kernel)

theorem PidInv.getid_fresh (h : PidInv idle s) (hid : procGetid s = some pid) :
    pid < procMaxCount ∧ ∀ b, pidAt s b ≠ some (pid : ℤ) := by
  have hfirst := (procGetid_spec h.next).2
  rw [hid] at hfirst
  obtain ⟨k, -, rfl, hunused, -⟩ := hfirst
  refine ⟨Nat.mod_lt _ (by decide), fun b hb => ?_⟩
  rw [ProcState.usedPid, any_eq_false] at hunused
  have hmem : b ∈ s.procList := by
    rw [h.listed, hb]
    rfl
  obtain ⟨P, hP, hpid⟩ := Option.map_eq_some_iff.mp hb
  apply hunused b hmem
  rw [hP, Option.any_some, decide_eq_true_eq]
  exact hpid

variable {addr : ℕ}

theorem PidInv.add (h : PidInv idle s) {x : ExitWaiting.PState} {q : Option ℕ}
    (hid : procGetid s = some pid) (hfree : s.procs addr = none)
    (hprocs : s'.procs = update s.procs addr (some ⟨pid, x, q, []⟩))
    (hlist : s'.procList = s.procList++[addr]) (hnext : s'.nextPid = (pid+1)%procMaxCount)
    (hwaits : s'.waits = s.waits) : PidInv idle s' := by
  obtain ⟨hlt, hfresh⟩ := h.getid_fresh hid
  have hnone : pidAt s addr = none := by
    rw [pidAt, hfree]
    rfl
  have hself : pidAt s' addr = some (pid : ℤ) := by
    rw [pidAt, hprocs, update_self]
    rfl
  have hother : ∀ b, b ≠ addr → pidAt s' b = pidAt s b := by
    intro b hb
    rw [pidAt, hprocs, update_of_ne hb]
    rfl
  refine ⟨?_, fun b => ?_, fun b n hb => ?_, fun b c n hb hc => ?_, ?_, ?_, fun r R hR => ?_, ?_⟩
  · rw [hlist, nodup_append]
    refine ⟨h.nodup, nodup_singleton _, fun b hb c hc hbc => ?_⟩
    rw [hbc, mem_singleton.mp hc, h.listed, hnone] at hb
    cases hb
  · rw [hlist, mem_append, mem_singleton, h.listed]
    by_cases hb : b = addr
    · simp [hb, hself]
    · simp [hb, hother b hb]
  · by_cases hba : b = addr
    · rw [hba, hself] at hb
      cases hb
      omega
    · rw [hother b hba] at hb
      exact h.range b n hb
  · by_cases hba : b = addr
    · by_cases hca : c = addr
      · rw [hba, hca]
      · rw [hba, hself] at hb
        rw [hother c hca, ← hb] at hc
        exact absurd hc (hfresh c)
    · by_cases hca : c = addr
      · rw [hca, hself] at hc
        rw [hother b hba, ← hc] at hb
        exact absurd hb (hfresh b)
      · rw [hother b hba] at hb
        rw [hother c hca] at hc
        exact h.distinct b c n hb hc
  · rw [hnext]
    exact Nat.mod_lt _ (by decide)
  · have hne : idle ≠ addr := by
      rintro rfl
      rw [h.zero] at hnone
      cases hnone
    rw [hother idle hne]
    exact h.zero
  · by_cases hr : r = addr
    · rw [hprocs, hr, update_self, Option.some.injEq] at hR
      subst hR
      exact not_mem_nil
    · rw [hprocs, update_of_ne hr] at hR
      exact h.noChild r R hR
  · rw [hwaits]
    exact h.noWait

/-- The new process has the number that was found and is on the list; the numbers and the states
of the others are the same. -/
structure Fresh (cur addr pid : ℕ) (s s' : ProcState) : Prop where
  proc : s'.procs addr = some ⟨pid, .running, some cur, []⟩
  listed : s'.procList = s.procList++[addr]
  others : ∀ b, b ≠ addr → kind s' b = kind s b
  next : s'.nextPid = (pid+1)%procMaxCount
  waits : s'.waits = s.waits

/-- The state when the new process is on the list and not yet a child. -/
def numbered (s : ProcState) (cur addr pid : ℕ) : ProcState :=
  { s with
    procs := update s.procs addr (some ⟨pid, .running, some cur, []⟩)
    procList := s.procList++[addr]
    nextPid := (pid+1)%procMaxCount
    procInitproc := if pid = 1 then some addr else s.procInitproc }

/-- A creation that finds a number above 0 makes a process with this number. -/
theorem procCreate_fresh (h : PidInv idle s) (hcur : s.procs cur = some P)
    (hid : procGetid s = some pid) (hpos : 0 < pid) (hfree : s.procs addr = none)
    (hinit : pid = 1 → P.pPid = 0) :
    ∃ s', procCreate s (some cur) addr = some s' ∧ Fresh cur addr pid s s' ∧ PidInv idle s' := by
  have hne : cur ≠ addr := by
    rintro rfl
    rw [hfree] at hcur
    cases hcur
  have hproc : (numbered s cur addr pid).procs cur = some P :=
    (update_of_ne hne _ _).trans hcur
  have hadd : PidInv idle (numbered s cur addr pid) := h.add hid hfree rfl rfl rfl rfl
  refine ⟨_, (procCreate_eq_some hid hpos hcur).mpr ⟨hfree, hinit, rfl⟩,
    ⟨?_, rfl, fun b hb => ?_, rfl, rfl⟩, ?_⟩
  · exact (update_of_ne hne.symm _ _).trans (update_self ..)
  · by_cases hbc : b = cur
    · subst hbc
      simp [kind, created, setProc, hcur]
    · simp [kind, created, setProc, hbc, hb]
  · refine hadd.modify (modify_eq hproc fun Q => { Q with pChildren := Q.pChildren++[addr] })
      (fun _ => rfl) ?_
    intro Q hQ hm
    rcases mem_append.mp hm with hm | hm
    · exact hQ hm
    · rw [mem_singleton] at hm
      have hz := h.zero
      rw [pidAt, hm, hfree] at hz
      cases hz

theorem PidInv.getid_pos (h : PidInv idle s) (hid : procGetid s = some pid) : 0 < pid := by
  rw [Nat.pos_iff_ne_zero]
  rintro rfl
  exact (h.getid_fresh hid).2 idle h.zero

/-! ### Runs -/

def NumberFree (s : ProcState) : ProcEvent → Prop
  | .create _ _ => (procGetid s).isSome = true
  | _ => True

instance (s : ProcState) (e : ProcEvent) : Decidable (NumberFree s e) := by
  rcases e with _ | _ <;> unfold NumberFree <;> infer_instance

theorem PidInv.create (h : PidInv idle s) (hcur : s.procs cur = some P)
    (hid : (procGetid s).isSome = true) (hs : procCreate s (some cur) addr = some s') :
    PidInv idle s' := by
  obtain ⟨pid, hid⟩ := Option.isSome_iff_exists.mp hid
  have hpos := h.getid_pos hid
  -- the call returned, so its assertions hold
  obtain ⟨hfree, hinit, -⟩ := (procCreate_eq_some hid hpos hcur).mp hs
  obtain ⟨s₁, hs₁, -, hi⟩ := procCreate_fresh h hcur hid hpos hfree hinit
  rw [hs] at hs₁
  cases hs₁
  exact hi

theorem PidInv.step {e : ProcEvent} (hgood : NumberFree s e) (hs : ProcSteps s e s')
    (h : PidInv idle s) : PidInv idle s' := by
  change stepProcs s e = some s' at hs
  cases e with
  | create cur addr =>
    simp only [stepProcs, Option.ite_none_right_eq_some] at hs
    obtain ⟨⟨n, hn⟩, -⟩ := kind_of_active hs.1
    obtain ⟨P, hP, -⟩ := exists_proc hn
    exact h.create hP hgood hs.2
  | exit cur =>
    simp only [stepProcs, Option.ite_none_right_eq_some] at hs
    exact h.cleanup hs.2
  | waitpid cur pid =>
    simp only [stepProcs, Option.ite_none_right_eq_some] at hs
    exact h.waitpid hs.2
  | resume cur =>
    simp only [stepProcs, Option.ite_none_right_eq_some] at hs
    exact h.resume hs.2

theorem pidInv_boot (h : bootProcs idle = some s) : PidInv idle s := by
  obtain rfl := Option.some.inj (bootProcs_eq.symm.trans h)
  have hpid : ∀ b, pidAt (idleAlone idle) b = if b = idle then some 0 else none := by
    intro b
    by_cases hb : b = idle
    · simp [pidAt, idleAlone, setProc, hb]
    · simp [pidAt, idleAlone, setProc, noProcs, hb]
  refine ⟨nodup_singleton _, fun b => ?_, fun b n hb => ?_, fun b c n hb hc => ?_, ?_, ?_,
    fun q Q hQ => ?_, fun _ hw => by cases hw⟩
  · change b ∈ [idle] ↔ _
    rw [hpid, mem_singleton]
    by_cases hb : b = idle <;> simp [hb]
  · rw [hpid] at hb
    split_ifs at hb
    cases hb
    decide
  · rw [hpid] at hb hc
    split_ifs at hb hc with hbi hci
    rw [hbi, hci]
  · change (0+1)%procMaxCount < procMaxCount
    decide
  · rw [hpid, if_pos rfl]
  · change update noProcs.procs idle _ q = some Q at hQ
    by_cases hq : q = idle
    · subst hq
      rw [update_self, Option.some.injEq] at hQ
      subst hQ
      exact not_mem_nil
    · rw [update_of_ne hq] at hQ
      cases hQ

/-- The processes that there are have different numbers in range, and the next creation makes
one with a number of its own: unless no number is free, or the number found is that of init and
another process than idle creates. -/
structure PidsOk (idle : ℕ) (s : ProcState) : Prop where
  listed : ∀ a, a ∈ s.procList ↔ (s.procs a).isSome = true
  range : ∀ a P, s.procs a = some P → 0 ≤ P.pPid ∧ P.pPid < procMaxCount
  distinct : ∀ a b P Q, s.procs a = some P → s.procs b = some Q → P.pPid = Q.pPid → a = b
  create : ∀ cur addr, active s cur = true → s.procs addr = none → (procGetid s).isSome = true →
    (procGetid s = some 1 → cur = idle) → ∃ s' pid, procCreate s (some cur) addr = some s' ∧
      Fresh cur addr pid s s' ∧ pid < procMaxCount ∧ ∀ b, pidAt s b ≠ some (pid : ℤ)

theorem PidInv.pidsOk (h : PidInv idle s) : PidsOk idle s where
  listed a := by
    rw [h.listed, pidAt, Option.isSome_map]
  range a P hP := h.range a P.pPid (pidAt_eq hP)
  distinct a b P Q hP hQ hpid := h.distinct a b P.pPid (pidAt_eq hP) (hpid ▸ pidAt_eq hQ)
  create cur addr hactive hfree hid hinit := by
    obtain ⟨pid, hid⟩ := Option.isSome_iff_exists.mp hid
    obtain ⟨⟨n, hn⟩, -⟩ := kind_of_active hactive
    obtain ⟨P, hP, -⟩ := exists_proc hn
    obtain ⟨s', hs', hfresh, -⟩ := procCreate_fresh h hP hid (h.getid_pos hid) hfree fun hone => by
      have hz := h.zero
      rw [← hinit (hone ▸ hid), pidAt_eq hP] at hz
      exact Option.some.inj hz
    exact ⟨s', pid, hs', hfresh, h.getid_fresh hid⟩

/-- In every run in which each creation finds a free number, the numbers are distinct. -/
theorem numbered_run_pidsOk {s₀ : ProcState} {es : List ProcEvent}
    (hboot : bootProcs idle = some s₀) (hrun : Run ProcSteps NumberFree s₀ es s) :
    PidsOk idle s :=
  (hrun.invariant (fun _ _ _ => PidInv.step) (pidInv_boot hboot)).pidsOk

/-- Processes are created, exit and are reaped; the numbers go on. -/
theorem pidsOk_after_reaping : ∃ s₀ s, bootProcs 10 = some s₀ ∧
    Run ProcSteps NumberFree s₀ [.create 10 11, .create 10 12, .exit 12, .waitpid 10 (-1),
      .create 11 12] s ∧ pidAt s 12 = some 3 ∧ PidsOk 10 s := by
  exact (exists_run_procs _ _ _ (P := fun s => pidAt s 12 = some 3) (by decide +kernel)).imp
    fun _ h => h.imp fun s h => ⟨h.1, h.2.1, h.2.2, numbered_run_pidsOk h.1 h.2.1⟩

/-! ### A full table -/

variable {n : ℕ}

theorem PidInv.usedPid_of (h : PidInv idle s) (ha : pidAt s a = some (n : ℤ)) :
    s.usedPid n = true := by
  obtain ⟨P, hP, hpid⟩ := Option.map_eq_some_iff.mp ha
  refine any_eq_true.mpr ⟨a, ?_, ?_⟩
  · rw [h.listed, ha]
    rfl
  · rw [hP, Option.any_some, decide_eq_true_eq]
    exact hpid

theorem pidAt_of_usedPid (h : s.usedPid n = true) : ∃ a, pidAt s a = some (n : ℤ) := by
  obtain ⟨a, -, ha⟩ := any_eq_true.mp h
  obtain ⟨P, hP, hpid⟩ := (Option.any_eq_true _ _).mp ha
  exact ⟨a, (pidAt_eq hP).trans (congrArg some (of_decide_eq_true hpid))⟩

/-- The processes with the numbers up to `n`, each at the address with its number. -/
structure Filled (n : ℕ) (s : ProcState) : Prop where
  inv : PidInv 0 s
  pids : ∀ b, pidAt s b = if b ≤ n then some (b : ℤ) else none
  next : s.nextPid = (n+1)%procMaxCount
  running : kind s 0 = some (0, .running)
  awake : s.waits 0 = none

theorem Filled.active (h : Filled n s) : active s 0 = true := by
  obtain ⟨P, hP, hk⟩ := exists_proc h.running
  simp [ProcessTree.active, isRunning, hP, h.awake, (Prod.mk.inj hk).2.symm]

theorem Filled.create (h : Filled n s) (hn : n+1 < procMaxCount) :
    ∃ s', ProcSteps s (.create 0 (n+1)) s' ∧ Filled (n+1) s' := by
  have hnext : s.nextPid = n+1 := h.next.trans (Nat.mod_eq_of_lt hn)
  have hunused : s.usedPid (n+1) ≠ true := by
    intro hused
    obtain ⟨b, hb⟩ := pidAt_of_usedPid hused
    rw [h.pids] at hb
    split_ifs at hb
    have := Option.some.inj hb
    omega
  have hid : procGetid s = some (n+1) := by
    rw [procGetid, hnext, show procMaxCount = 65535+1 from rfl, pidFrom, if_neg hunused]
  obtain ⟨P, hP, hk⟩ := exists_proc h.running
  have hfree : s.procs (n+1) = none := by
    have hnone := h.pids (n+1)
    rw [if_neg (by omega)] at hnone
    exact Option.map_eq_none_iff.mp hnone
  obtain ⟨s', hs', hf, hi⟩ := procCreate_fresh h.inv hP hid (Nat.succ_pos n) hfree
    fun _ => (Prod.mk.inj hk).1.symm
  have hstep : ProcSteps s (.create 0 (n+1)) s' := by
    rw [ProcSteps, stepProcs, if_pos h.active, hs']
  refine ⟨s', hstep, hi, fun b => ?_, hf.next, ?_, by rw [hf.waits]; exact h.awake⟩
  · by_cases hb : b = n+1
    · subst hb
      rw [pidAt_eq hf.proc, if_pos (Nat.le_refl _)]
    · have hkind := congrArg (Option.map Prod.fst) (hf.others b hb)
      simp only [kind, Option.map_map, Function.comp_def] at hkind
      rw [pidAt, hkind, ← pidAt, h.pids]
      have : b ≤ n ↔ b ≤ n+1 := by omega
      simp only [this]
  · rw [hf.others 0 (by omega)]
    exact h.running

theorem create_without_number (hactive : active s cur = true)
    (hused : ∀ n < procMaxCount, s.usedPid n = true) (hnext : s.nextPid < procMaxCount)
    (hfree : s.procs addr = none) :
    ∃ s', ProcSteps s (.create cur addr) s' ∧ s'.procs addr = some ⟨-1, .running, none, []⟩ ∧
      (∀ b, b ≠ addr → s'.procs b = s.procs b) ∧ active s' cur = true ∧
      (∀ n < procMaxCount, s'.usedPid n = true) ∧ s'.nextPid < procMaxCount := by
  have hne : cur ≠ addr := by
    rintro rfl
    simp [active, isRunning, hfree] at hactive
  have hother : ∀ b, b ≠ addr →
      update s.procs addr (some ⟨-1, .running, none, []⟩) b = s.procs b :=
    fun b hb => update_of_ne hb _ _
  refine ⟨{ s with
    procs := update s.procs addr (some ⟨-1, .running, none, []⟩)
    procList := s.procList++[addr] }, ?_, update_self .., hother, ?_, ?_, hnext⟩
  · rw [ProcSteps, stepProcs, if_pos hactive, procCreate]
    simp only [(procGetid_eq_none hnext).mpr hused, Option.elim_none, hfree]
    rfl
  · rw [← hactive]
    simp only [active, isRunning, hother cur hne]
  · intro n hn
    obtain ⟨b, hb, hP⟩ := any_eq_true.mp (hused n hn)
    have hba : b ≠ addr := by
      rintro rfl
      rw [hfree] at hP
      cases hP
    refine any_eq_true.mpr ⟨b, mem_append_left _ hb, ?_⟩
    simpa only [hother b hba] using hP

/-- From a table that is filled in part, creations lead to two processes with the number -1. -/
theorem Filled.overflows (k : ℕ) (h : Filled n s) (hn : n+k+1 = procMaxCount) :
    ∃ es t a b, Run ProcSteps (fun _ _ => True) s es t ∧ a ≠ b ∧
      t.procs a = some ⟨-1, .running, none, []⟩ ∧ t.procs b = some ⟨-1, .running, none, []⟩ := by
  induction k generalizing n s with
  | zero =>
    have hused : ∀ m < procMaxCount, s.usedPid m = true := by
      intro m hm
      apply h.inv.usedPid_of (a := m)
      rw [h.pids, if_pos (by omega)]
    have hfree : ∀ b, n < b → s.procs b = none := by
      intro b hb
      have hnone := h.pids b
      rw [if_neg (by omega)] at hnone
      exact Option.map_eq_none_iff.mp hnone
    obtain ⟨s₁, hs₁, hp₁, ho₁, ha₁, hu₁, hn₁⟩ := create_without_number h.active hused h.inv.next
      (hfree (n+1) (by omega))
    have hfree₁ : s₁.procs (n+2) = none := by
      rw [ho₁ (n+2) (by omega)]
      exact hfree (n+2) (by omega)
    obtain ⟨s₂, hs₂, hp₂, ho₂, -⟩ := create_without_number ha₁ hu₁ hn₁ hfree₁
    refine ⟨_, s₂, n+1, n+2, .next trivial hs₁ (.next trivial hs₂ (.done s₂)), by omega, ?_, hp₂⟩
    rw [ho₂ (n+1) (by omega)]
    exact hp₁
  | succ k ih =>
    obtain ⟨s', hs', hfilled⟩ := h.create (by omega)
    obtain ⟨es, t, a, b, hrun, hrest⟩ := ih hfilled (by omega)
    exact ⟨_, t, a, b, .next trivial hs' hrun, hrest⟩

theorem filled_boot : Filled 0 (idleAlone 0) where
  inv := pidInv_boot bootProcs_eq
  pids b := by
    by_cases hb : b = 0
    · simp [hb, pidAt, idleAlone, setProc]
    · simp [hb, pidAt, idleAlone, setProc, noProcs]
  next := rfl
  running := by rw [kind_idleAlone, if_pos rfl]
  awake := rfl

/-- When all numbers are taken, `proc_create` goes on with the result -1: two processes on the
list have the same number, which is out of range. -/
theorem processes_share_minus_one : ∃ s₀ es s a b, bootProcs 0 = some s₀ ∧
    Run ProcSteps (fun _ _ => True) s₀ es s ∧ a ≠ b ∧
    s.procs a = some ⟨-1, .running, none, []⟩ ∧ s.procs b = some ⟨-1, .running, none, []⟩ ∧
    ¬PidsOk 0 s := by
  obtain ⟨es, s, a, b, hrun, hne, ha, hb⟩ := filled_boot.overflows 65535 rfl
  refine ⟨_, es, s, a, b, bootProcs_eq, hrun, hne, ha, hb, fun hok => ?_⟩
  exact hne (hok.distinct a b _ _ ha hb rfl)

end SystemsProjects.ProcessIds
