import SystemsProjects.SchedulerQueues

/-!
# Exiting processes and parents that wait for them

A process that exits wakes its parent, closes its files, gives its children to the
init process and marks itself dead, in this order; the parent reaps it inside
`do_waitpid`, which looks for a dead child and otherwise sleeps on the wait queue
of its own process. The wake-up comes before the mark, so that it is of use only
if the parent does not look in between. Closing a file may block, and then the
parent does look. Reparenting gives init children that may already be dead, and
wakes nobody.

A thread and its process have one number, since a process has one thread. Numbers
are handed out in increasing order and not used again: `_proc_getid` starts its
search at `next_pid`, and its wrap-around is not modelled. `phase` says where inside
`do_waitpid` or `proc_cleanup` the code of a thread continues.
-/
namespace SystemsProjects.ExitWaiting

open Function GuardedRuns KernelScheduler SchedulerQueues Option

/-- `PID_INIT` of `config.h`. -/
def pidInit : Pid := 1

/-- `ECHILD` of `errno.h`. -/
def echild : ℤ := 10

inductive PState where
  | running
  | dead
  deriving DecidableEq, Repr

structure Proc where
  pState : PState
  pPproc : Option Pid
  pChildren : List Pid
  pStatus : ℤ
  deriving DecidableEq, Repr

/-- Where a thread continues: in code of its own, in the loop of `do_waitpid` for the
given argument, in `proc_cleanup` between the wake-up of the parent and the end of the
closing of files, or nowhere. -/
inductive Phase where
  | executing
  | waiting (pid : ℤ)
  | closing (status : ℤ)
  | ended
  deriving DecidableEq, Repr

/-- The queues are the `p_wait` of each process and those of devices. -/
structure World (D : Type) where
  sched : Sched (Pid ⊕ D)
  procs : Pid → Option Proc
  nextPid : Pid
  phase : Tid → Phase

variable {D : Type} [DecidableEq D]

namespace World

def setProc (w : World D) (p : Pid) (r : Option Proc) : World D :=
  { w with procs := update w.procs p r }

def setPhase (w : World D) (t : Tid) (f : Phase) : World D :=
  { w with phase := update w.phase t f }

def children (w : World D) (p : Pid) : List Pid :=
  match w.procs p with
  | none => []
  | some r => r.pChildren

def parent (w : World D) (c : Pid) : Option Pid := (w.procs c).bind Proc.pPproc

def isDead (w : World D) (c : Pid) : Bool :=
  match w.procs c with
  | none => false
  | some r => r.pState = .dead

end World

/-- The children that `do_waitpid` may reap: any for -1, else the one with that number. -/
def MayReap (pid : ℤ) (c : Pid) : Prop := pid = -1 ∨ pid = c

instance (pid : ℤ) (c : Pid) : Decidable (MayReap pid c) :=
  inferInstanceAs (Decidable (_ ∨ _))

/-- `proc_create` and the start of the thread, as `do_fork` does both. -/
def fork (w : World D) (pid : Pid) : Option (World D) :=
  match w.procs w.sched.curthr with
  | none => none
  | some r =>
    if pid = pidInit ∧ w.sched.curthr ≠ pidIdle then none
    else do
      let s ← schedMakeRunnable w.sched pid
      return { ((w.setProc w.sched.curthr
        (some { r with pChildren := r.pChildren ++ [pid] })).setProc
        pid (some ⟨.running, some w.sched.curthr, [], 0⟩)).setPhase pid .executing with
        sched := s, nextPid := pid+1 }

/-- `kthread_exit` and `proc_cleanup` up to the wake-up of the parent. -/
def exitBegin (w : World D) (status : ℤ) : Option (World D) :=
  match w.procs w.sched.curthr with
  | none => none
  | some r =>
    match r.pPproc with
    | none => none
    | some parent =>
      if w.procs pidInit = none ∨ w.sched.curthr < 1 then none
      else do
        let s1 ← kthreadExit w.sched status
        let (_, s2) ← schedWakeupOn s1 (.inl parent)
        return { w.setPhase w.sched.curthr (.closing status) with sched := s2 }

/-- The children of `p` become children of init. -/
def reparent (w : World D) (p : Pid) : Option (World D) :=
  if p = pidInit then some w
  else if w.procs pidInit = none then none
  else some { w with procs := fun q => (w.procs q).map fun r =>
    { r with
      pPproc := if q ∈ w.children p then some pidInit else r.pPproc
      pChildren := if q = pidInit then r.pChildren ++ w.children p
        else if q = p then [] else r.pChildren } }

/-- The rest of `proc_cleanup`. -/
def exitFinish (w : World D) (status : ℤ) : Option (World D) := do
  let w1 ← reparent w w.sched.curthr
  let r ← w1.procs w.sched.curthr
  let s ← schedSwitch w.sched
  return { (w1.setProc w.sched.curthr (some { r with pState := .dead, pStatus := status })).setPhase
    w.sched.curthr .ended with sched := s }

/-- What a call of `do_waitpid` has come to: a return value with the status it stored,
or a sleep. -/
inductive WaitResult where
  | returned (value : ℤ) (status : Option ℤ)
  | asleep
  deriving DecidableEq, Repr

/-- One pass over the children: the first that is dead and may be reaped is removed and
its process freed, otherwise the caller sleeps on its own wait queue. -/
def waitPass (w : World D) (pid : ℤ) : Option (WaitResult × World D) :=
  match w.procs w.sched.curthr with
  | none => none
  | some r =>
    match r.pChildren.find? fun c => decide (MayReap pid c) && w.isDead c with
    | some c => some (.returned c ((w.procs c).map Proc.pStatus), ((w.setProc w.sched.curthr
          (some { r with pChildren := r.pChildren.filter (· ≠ c) })).setProc c none).setPhase
          w.sched.curthr .executing)
    | none => do
      let s ← schedSleepOn w.sched (.inl w.sched.curthr)
      return (.asleep, { w.setPhase w.sched.curthr (.waiting pid) with sched := s })

def doWaitpid (w : World D) (pid : ℤ) : Option (WaitResult × World D) :=
  if w.children w.sched.curthr = [] then some (.returned (-echild) none, w)
  else if pid = -1 ∨ (0 < pid ∧ ∃ c ∈ w.children w.sched.curthr, pid = (c : ℤ)) then
    waitPass w pid
  else some (.returned (-echild) none, w)

/-- The operations of a run. `finish` ends an exit that `exit` has begun, `recheck` is the
next pass of a `do_waitpid` that was woken. The last three are done by interrupt handlers
as well; `sleep` is any blocking on a device, also while files are closed. -/
inductive ProcOp (D : Type) where
  | fork (pid : Pid)
  | exit (status : ℤ)
  | finish
  | waitpid (pid : ℤ)
  | recheck
  | yield
  | cancel (t : Tid) (retval : ℤ)
  | sleep (d : D)
  | cancellableSleep (d : D)
  | wakeup (d : D)
  | broadcast (d : D)
  | intrReturn
  deriving DecidableEq, Repr

/-- The current thread executes code of its own. -/
def World.executing (w : World D) : Prop :=
  w.sched.switching = false ∧ w.phase w.sched.curthr = .executing

instance (w : World D) : Decidable w.executing := inferInstanceAs (Decidable (_ ∧ _))

/-- A number for a new process: it has not been used, and its thread is as
`kthread_create` makes it. -/
def World.unused (w : World D) (pid : Pid) : Prop :=
  w.nextPid ≤ pid ∧ w.procs pid = none ∧
    w.sched.threads pid = ⟨pid, 0, false, none, .run, false⟩

instance (w : World D) (pid : Pid) : Decidable (w.unused pid) :=
  inferInstanceAs (Decidable (_ ∧ _ ∧ _))

/-- The current thread may block: it executes code of its own, or closes files. -/
def World.mayBlock (w : World D) : Bool :=
  !w.sched.switching &&
    match w.phase w.sched.curthr with
    | .executing => true
    | .closing _ => true
    | _ => false

def onDevices (w : World D) (op : Op (Pid ⊕ D)) : Option (World D) :=
  (KernelScheduler.step w.sched op).map fun s => { w with sched := s }

def step (w : World D) : ProcOp D → Option (World D)
  | .fork pid => if w.executing ∧ w.unused pid then ExitWaiting.fork w pid else none
  | .exit status => if w.executing then exitBegin w status else none
  | .finish =>
    match w.phase w.sched.curthr with
    | .closing status => if w.sched.switching then none else exitFinish w status
    | _ => none
  | .waitpid pid => if w.executing then (doWaitpid w pid).map Prod.snd else none
  | .recheck =>
    match w.phase w.sched.curthr with
    | .waiting pid => if w.sched.switching then none else (waitPass w pid).map Prod.snd
    | _ => none
  | .yield =>
    if w.executing ∧ (w.sched.threads w.sched.curthr).ktProc ≠ pidIdle then do
      let w1 ← onDevices w (.makeRunnable w.sched.curthr)
      onDevices w1 .switch
    else none
  | .cancel t retval =>
    if w.executing ∧ t ≠ w.sched.curthr then onDevices w (.cancel t retval) else none
  | .sleep d => if w.mayBlock then onDevices w (.sleepOn (.inr d)) else none
  | .cancellableSleep d =>
    if w.mayBlock then onDevices w (.cancellableSleepOn (.inr d)) else none
  | .wakeup d => onDevices w (.wakeupOn (.inr d))
  | .broadcast d => onDevices w (.broadcastOn (.inr d))
  | .intrReturn => onDevices w .intrReturn

def ProcSteps (w : World D) (op : ProcOp D) (w' : World D) : Prop := step w op = some w'

/-- The process sleeps in `do_waitpid` on its own wait queue. -/
def AsleepFor (w : World D) (p : Pid) (pid : ℤ) : Prop :=
  (w.sched.threads p).ktWchan = some (.wait (.inl p)) ∧ w.phase p = .waiting pid

/-- No thread can proceed before the next interrupt. -/
def Quiescent (w : World D) : Prop :=
  w.sched.switching = true ∧ (w.sched.queue .runq).tqList = []

/-- A parent sleeps for a child that is dead, and nothing is left to wake it. -/
def LostExit (w : World D) : Prop :=
  Quiescent w ∧ ∃ p pid c, AsleepFor w p pid ∧ c ∈ w.children p ∧ MayReap pid c ∧
    w.isDead c = true

/-- Closing the files of an exiting process does not block, and a process that leaves a
dead child does not finish its exit while init sleeps for such a child. -/
def Prompt (w : World D) : ProcOp D → Prop
  | .sleep _ => w.phase w.sched.curthr = .executing
  | .cancellableSleep _ => w.phase w.sched.curthr = .executing
  | .finish => w.sched.curthr ≠ pidInit → ∀ c ∈ w.children w.sched.curthr, w.isDead c = true →
      ∀ pid, AsleepFor w pidInit pid → ¬MayReap pid c
  | _ => True

structure Started (w : World D) : Prop where
  booted : Booted w.sched
  only_idle : ∀ p, p ≠ w.sched.curthr → w.procs p = none
  idle_parent : w.parent w.sched.curthr = none
  idle_issued : w.sched.curthr < w.nextPid
  idle_children : w.children w.sched.curthr = []
  executing : ∀ t, w.phase t = .executing

/-- Whoever sleeps in `do_waitpid` has no dead child that the call may reap. For this, an
exiting process has its parent awake until it is done. -/
structure Inv (w : World D) : Prop where
  sched : SchedulerQueues.Inv w.sched
  current_off : w.sched.switching = false → (w.sched.threads w.sched.curthr).ktWchan = none
  own_queue : ∀ t p, (w.sched.threads t).ktWchan = some (.wait (.inl p)) →
    t = p ∧ (w.sched.threads t).ktState = .sleep
  issued : ∀ p, w.procs p ≠ none → p < w.nextPid
  older : ∀ p c, w.parent c = some p → p < c
  child_parent : ∀ p c, c ∈ w.children p → w.parent c = some p
  none_dead : ∀ p pid c, AsleepFor w p pid → c ∈ w.children p → MayReap pid c →
    w.isDead c = false
  closing : ∀ t status, w.phase t = .closing status → t = w.sched.curthr ∧ 1 ≤ t ∧
    w.sched.switching = false ∧ w.sched.exited t = true ∧
    ∀ p, w.parent t = some p → (w.sched.threads p).ktWchan ≠ some (.wait (.inl p))

section Fields

omit [DecidableEq D]

variable (w : World D) (p q : Pid) (r : Option Proc) (f : Phase)

@[simp] theorem setProc_procs : (w.setProc p r).procs q = if q = p then r else w.procs q := by
  simp [World.setProc, update_apply]

@[simp] theorem setProc_sched : (w.setProc p r).sched = w.sched := rfl

@[simp] theorem setProc_phase : (w.setProc p r).phase = w.phase := rfl

@[simp] theorem setPhase_phase : (w.setPhase p f).phase q = if q = p then f else w.phase q := by
  simp [World.setPhase, update_apply]

@[simp] theorem setPhase_sched : (w.setPhase p f).sched = w.sched := rfl

@[simp] theorem setPhase_procs : (w.setPhase p f).procs = w.procs := rfl

end Fields

variable {w : World D}

variable {s : Sched (Pid ⊕ D)}
variable {d : D}

section

omit [DecidableEq D]

theorem Started.inv (h : Started w) : Inv w where
  sched := h.booted.inv
  current_off _ := h.booted.wchan_none _
  own_queue t p ht := by simp [h.booted.wchan_none] at ht
  issued p hp := by
    by_cases hcur : p = w.sched.curthr
    · exact hcur ▸ h.idle_issued
    · exact absurd (h.only_idle p hcur) hp
  older p c hc := by
    by_cases hcur : c = w.sched.curthr
    · simp [hcur, h.idle_parent] at hc
    · simp [World.parent, h.only_idle c hcur] at hc
  child_parent p c hc := by
    by_cases hp : p = w.sched.curthr
    · rw [hp, h.idle_children] at hc
      simp at hc
    · simp [World.children, h.only_idle p hp] at hc
  none_dead p pid c hp := by simp [AsleepFor, h.executing] at hp
  closing t status ht := by simp [h.executing] at ht

/-- While the current thread executes code of its own, no exit is under way. -/
theorem Inv.not_closing (h : Inv w) (hw : w.executing) (t : Tid) (status : ℤ) :
    w.phase t ≠ .closing status := by
  intro ht
  rw [(h.closing t status ht).1, hw.2] at ht
  simp at ht

theorem Inv.own_queue_of_same (h : Inv w) (hsame : ∀ p, SameSleepers (.inl p) w.sched s)
    (t : Tid) (p : Pid) (ht : (s.threads t).ktWchan = some (.wait (.inl p))) :
    t = p ∧ (s.threads t).ktState = .sleep := by
  have hold := ((hsame p).wchan_iff t).1 ht
  obtain ⟨heq, hst⟩ := h.own_queue t p hold
  exact ⟨heq, ((hsame p).state_eq t hold).trans hst⟩

/-- A change of the scheduler that leaves the wait queues of processes alone. -/
theorem Inv.reschedule (h : Inv w) (hs : SchedulerQueues.Inv s)
    (hsame : ∀ p, SameSleepers (.inl p) w.sched s)
    (hoff : s.switching = false → (s.threads s.curthr).ktWchan = none)
    (hclosing : ∀ t status, w.phase t = .closing status →
      t = s.curthr ∧ s.switching = false ∧ s.exited t = true) :
    Inv { w with sched := s } where
  sched := hs
  current_off := hoff
  own_queue := h.own_queue_of_same hsame
  issued := h.issued
  older := h.older
  child_parent := h.child_parent
  none_dead p pid c hp := h.none_dead p pid c ⟨((hsame p).wchan_iff p).1 hp.1, hp.2⟩
  closing t status ht := by
    obtain ⟨hcur, hsw, hx⟩ := hclosing t status ht
    refine ⟨hcur, (h.closing t status ht).2.1, hsw, hx, fun p hp hw => ?_⟩
    exact (h.closing t status ht).2.2.2.2 p hp (((hsame p).wchan_iff p).1 hw)

theorem Inv.wakesOne (h : Inv w) (hw : WakesOne (.inr d) w.sched s) :
    Inv { w with sched := s } := by
  refine h.reschedule (h.sched.wakesOne hw) (fun p => .wakesOne (by simp) hw) ?_ ?_
  all_goals obtain ⟨t, hc, ht⟩ := hw
  · intro hsw
    rw [ht.switching] at hsw
    have hoff := h.current_off hsw
    rw [ht.curthr]
    have hne : w.sched.curthr ≠ t := by
      rintro rfl
      simp [hc] at hoff
    rw [ht.other hne, hoff]
  · intro u status hu
    obtain ⟨hcur, -, hsw, hx, -⟩ := h.closing u status hu
    exact ⟨hcur.trans ht.curthr.symm, ht.switching.trans hsw, by rw [ht.exited, hx]⟩

end

variable {w' : World D}

/-- An operation of the scheduler, other than a wake-up, that names no wait queue of a
process and is taken while no exit is under way. -/
theorem Inv.onDevices (h : Inv w) {op : Op (Pid ⊕ D)} (he : onDevices w op = some w')
    (hd : Disciplined w.sched op) (hn : ∀ p, ¬Names (.inl p) op)
    (hoff : ∀ s, Steps w.sched op s → s.switching = false →
      (s.threads s.curthr).ktWchan = none) (hclosing : ∀ t status, w.phase t ≠ .closing status) :
    Inv w' := by
  obtain ⟨s, hs, rfl⟩ := map_eq_some_iff.1 he
  refine h.reschedule (h.sched.step hd hs) (fun p => ?_) (hoff s hs)
    (fun t status ht => absurd ht (hclosing t status))
  refine Steps.sameSleepers h.sched.linked hs hd (hn p) fun t retval _ hst hw => ?_
  simp [(h.own_queue t p hw).2] at hst

/-- What `fork` does to the scheduler and to the family relations. -/
structure Forked (w w' : World D) (pid : Pid) : Prop where
  forker : w.procs w.sched.curthr ≠ none
  sched : schedMakeRunnable w.sched pid = some w'.sched
  phase : ∀ t, w'.phase t = if t = pid then .executing else w.phase t
  nextPid : w'.nextPid = pid+1
  procs_none : ∀ p, p ≠ pid → w.procs p = none → w'.procs p = none
  children : ∀ p, w'.children p = if p = pid then [] else
    if p = w.sched.curthr then w.children p ++ [pid] else w.children p
  parent : ∀ c, w'.parent c = if c = pid then some w.sched.curthr else w.parent c
  isDead : ∀ c, w'.isDead c = if c = pid then false else w.isDead c

theorem fork_spec {pid : Pid} (he : ExitWaiting.fork w pid = some w') : Forked w w' pid := by
  unfold ExitWaiting.fork at he
  split at he
  · simp at he
  rename_i r hr
  split_ifs at he
  simp only [pure_def, bind_eq_bind, bind_eq_some_iff, some.injEq] at he
  obtain ⟨s, hs, rfl⟩ := he
  refine ⟨by simp [hr], hs, fun t => by simp, rfl, fun p hp hn => ?_, fun p => ?_, fun c => ?_,
    fun c => ?_⟩
  · have hc : p ≠ w.sched.curthr := fun hc => by simp [← hc, hn] at hr
    simp [hp, hc, hn]
  · by_cases hp : p = pid <;> by_cases hc : p = w.sched.curthr <;>
      simp_all [World.children]
  · by_cases hp : c = pid <;> by_cases hc : c = w.sched.curthr <;>
      simp_all [World.parent]
  · by_cases hp : c = pid <;> by_cases hc : c = w.sched.curthr <;>
      simp_all [World.isDead]

theorem Inv.fork (h : Inv w) {pid : Pid} (hw : w.executing) (hpid : w.unused pid)
    (he : ExitWaiting.fork w pid = some w') : Inv w' := by
  obtain ⟨hnext, hnone, hthread⟩ := hpid
  have hoffq : (w.sched.threads pid).ktWchan = none := by rw [hthread]
  have hf := fork_spec he
  have hlt : w.sched.curthr < pid := Nat.lt_of_lt_of_le (h.issued _ hf.forker) hnext
  have hstep : Steps w.sched (.makeRunnable pid) w'.sched := hf.sched
  have hsame : ∀ p, SameSleepers (.inl p) w.sched w'.sched := fun p =>
    Steps.sameSleepers h.sched.linked hstep hoffq (by simp [Names]) (by simp)
  have horphan : w.parent pid = none := by simp [World.parent, hnone]
  have hsched := h.sched.makeRunnable hoffq hf.sched
  obtain ⟨s1, hs1, ht⟩ := h.sched.linked.makeRunnable hoffq hf.sched
  refine ⟨hsched, fun hsw => ?_, h.own_queue_of_same hsame, fun p hp => ?_, fun p c hc => ?_,
    fun p c hc => ?_, fun p q c hp hc hm => ?_, fun t status hts => ?_⟩
  · rw [hs1] at hsw ⊢
    change (s1.threads s1.curthr).ktWchan = none
    rw [ht.curthr, ht.other (Nat.ne_of_lt hlt)]
    exact h.current_off (ht.switching ▸ hsw)
  · rw [hf.nextPid]
    by_cases hpp : p = pid
    · exact hpp ▸ Nat.lt_succ_self pid
    · have hold : w.procs p ≠ none := fun hn => hp (hf.procs_none p hpp hn)
      exact Nat.lt_succ_of_lt (Nat.lt_of_lt_of_le (h.issued p hold) hnext)
  · rw [hf.parent] at hc
    split_ifs at hc with hcp
    · rw [← some.inj hc, hcp]
      exact hlt
    · exact h.older p c hc
  · rw [hf.children] at hc
    rw [hf.parent]
    have hnot : ∀ q, pid ∉ w.children q := by
      intro q hq
      simp [h.child_parent q pid hq] at horphan
    split_ifs at hc with hpp hpc
    · simp at hc
    · rcases List.mem_append.1 hc with hold | hnew
      · have hcp : c ≠ pid := fun hcp => hnot p (hcp ▸ hold)
        rw [if_neg hcp]
        exact h.child_parent p c hold
      · rw [if_pos (List.mem_singleton.1 hnew), hpc]
    · have hcp : c ≠ pid := fun hcp => hnot p (hcp ▸ hc)
      rw [if_neg hcp]
      exact h.child_parent p c hc
  · rw [AsleepFor, (hsame p).wchan_iff, hf.phase] at hp
    rw [hf.children] at hc
    rw [hf.isDead]
    have hpp : p ≠ pid := by
      rintro rfl
      simp at hp
    rw [if_neg hpp] at hp
    have hpc : p ≠ w.sched.curthr := by
      rintro rfl
      simp [hw.2] at hp
    rw [if_neg hpp, if_neg hpc] at hc
    split_ifs
    · rfl
    · exact h.none_dead p q c hp hc hm
  · rw [hf.phase] at hts
    split_ifs at hts
    exact absurd hts (h.not_closing hw t status)

variable {status : ℤ}

theorem exitBegin_spec (he : exitBegin w status = some w') : 1 ≤ w.sched.curthr ∧
    ∃ p s r s', w.parent w.sched.curthr = some p ∧ kthreadExit w.sched status = some s ∧
      schedWakeupOn s (.inl p) = some (r, s') ∧
      w' = { w.setPhase w.sched.curthr (.closing status) with sched := s' } := by
  unfold exitBegin at he
  split at he
  · simp at he
  rename_i r hr
  split at he
  · simp at he
  rename_i p hp
  split_ifs at he with hinit
  simp only [pure_def, bind_eq_bind, bind_eq_some_iff, some.injEq] at he
  obtain ⟨s, hs, ⟨r', s'⟩, hs', rfl⟩ := he
  exact ⟨Nat.not_lt.1 fun hlt => hinit (.inr hlt), p, s, r', s', by simp [World.parent, hr, hp],
    hs, hs', rfl⟩

omit [DecidableEq D] in
/-- After `kthread_exit` the thread is current, off the queues and marked as exited; the
sleepers are those of before. -/
theorem exited_current (h : Inv w) (hw : w.executing) (hs : kthreadExit w.sched status = some s) :
    s.curthr = w.sched.curthr ∧ s.switching = false ∧ s.exited w.sched.curthr = true ∧
    (s.threads w.sched.curthr).ktWchan = none := by
  obtain ⟨hoff, s0, rfl, ht⟩ := h.sched.linked.exit hs
  refine ⟨ht.curthr, ht.switching.trans hw.1, by simp, ?_⟩
  change (s0.threads _).ktWchan = none
  rw [ht.self]
  exact hoff

theorem Inv.exitBegin (h : Inv w) (hw : w.executing) (he : ExitWaiting.exitBegin w status = some w')
    : Inv w' := by
  obtain ⟨hone, p, s, r, s', hpar, hs, hwake, rfl⟩ := exitBegin_spec he
  have hsi := h.sched.exit hs
  obtain ⟨hcur, hsw, hx, hoff⟩ := exited_current h hw hs
  have hsame : ∀ q, SameSleepers (.inl q) w.sched s := fun q => .exit h.sched.linked hs
  have hown := h.own_queue_of_same hsame
  obtain ⟨hcur', hsw', hx', hoff', hleft, hawake⟩ : s'.curthr = s.curthr ∧
      s'.switching = s.switching ∧ s'.exited = s.exited ∧
      (s'.threads w.sched.curthr).ktWchan = none ∧
      (∀ t q, (s'.threads t).ktWchan = some (.wait (.inl q)) → s'.threads t = s.threads t) ∧
      (s'.threads p).ktWchan ≠ some (.wait (.inl p)) := by
    obtain ⟨-, heq, hnone⟩ | ⟨t, -, hc, ht⟩ := hsi.linked.wakeupOn hwake
    · rw [heq]
      exact ⟨rfl, rfl, rfl, hoff, fun _ _ _ => rfl, hnone p⟩
    · have htp : t = p := (hown t p hc).1
      have hne : w.sched.curthr ≠ t := by
        rintro rfl
        simp [hc] at hoff
      refine ⟨ht.curthr, ht.switching, ht.exited, by rw [ht.other hne, hoff], fun u q hu => ?_,
        ?_⟩
      · refine ht.other fun hut => ?_
        rw [hut, ht.self] at hu
        simp [Kthread.place] at hu
      · rw [← htp, ht.self]
        simp [Kthread.place]
  have hstep : Steps _ (.wakeupOn _) s' := congrArg (Option.map Prod.snd) hwake
  refine ⟨SchedulerQueues.Inv.step (by trivial) hstep hsi, fun _ => ?_, fun t q ht => ?_,
    h.issued, h.older, h.child_parent, fun q pid c hq hc hm => ?_, fun t st hts => ?_⟩
  · change (s'.threads s'.curthr).ktWchan = none
    rw [hcur', hcur, hoff']
  · have heq := hleft t q ht
    rw [heq] at ht ⊢
    exact hown t q ht
  · simp only [AsleepFor, setPhase_phase] at hq
    split_ifs at hq
    · simp at hq
    · exact h.none_dead q pid c ⟨((hsame q).wchan_iff q).1 (hleft q q hq.1 ▸ hq.1), hq.2⟩ hc hm
  · simp only [setPhase_phase] at hts
    split_ifs at hts with htc
    · subst htc
      refine ⟨hcur.symm.trans hcur'.symm, hone, hsw'.trans hsw, (congrFun hx' _).trans hx,
        fun q hq => ?_⟩
      have hqp : q = p := some.inj (hq.symm.trans hpar)
      exact hqp ▸ hawake
    · exact absurd hts (h.not_closing hw t st)

/-- What the second half of an exit does to the family relations: the children of `p` go
to init unless `p` is init. -/
structure Reparented (w w' : World D) (p : Pid) : Prop where
  nextPid : w'.nextPid = w.nextPid
  procs_none : ∀ q, w.procs q = none → w'.procs q = none
  children : ∀ q, w'.children q = if p = pidInit then w.children q else
    if q = pidInit then w.children q ++ w.children p else
    if q = p then [] else w.children q
  parent : ∀ c, w'.parent c =
    if p ≠ pidInit ∧ c ∈ w.children p ∧ w.procs c ≠ none then some pidInit else w.parent c

omit [DecidableEq D] in
theorem reparent_spec {p : Pid} (he : reparent w p = some w') :
    w'.sched = w.sched ∧ w'.phase = w.phase ∧ (∀ c, w'.isDead c = w.isDead c) ∧
    Reparented w w' p := by
  unfold reparent at he
  split_ifs at he with hp hinit
  · obtain rfl := some.inj he
    exact ⟨rfl, rfl, fun _ => rfl, rfl, fun _ h => h, by simp [hp], by simp [hp]⟩
  · obtain rfl := some.inj he
    refine ⟨rfl, rfl, fun c => ?_, rfl, fun q hq => by simp [hq], fun q => ?_, fun c => ?_⟩
    · cases hc : w.procs c <;> simp [World.isDead, hc]
    · cases hq : w.procs q with
      | none =>
        have hqi : q ≠ pidInit := by
          rintro rfl
          exact hinit hq
        simp [World.children, hq, hp, hqi]
      | some r => simp [World.children, hq, hp]
    · cases hc : w.procs c <;> by_cases hm : c ∈ w.children p <;>
        simp [World.parent, hc, hp, hm]

theorem exitFinish_spec (he : exitFinish w status = some w') : schedSwitch w.sched = some w'.sched ∧
    (∀ t, w'.phase t = if t = w.sched.curthr then .ended else w.phase t) ∧
    (∀ c, c ≠ w.sched.curthr → w'.isDead c = w.isDead c) ∧
    Reparented w w' w.sched.curthr := by
  simp only [exitFinish, pure_def, bind_eq_bind, bind_eq_some_iff, some.injEq] at he
  obtain ⟨w1, hw1, r, hr, s, hs, rfl⟩ := he
  obtain ⟨hsched, hphase, hdead, hrep⟩ := reparent_spec hw1
  refine ⟨hs, fun t => by simp [hphase], fun c hc => ?_, hrep.nextPid, fun q hq => ?_,
    fun q => ?_, fun c => ?_⟩
  · rw [← hdead c]
    simp [World.isDead, hc]
  · have hne : q ≠ w.sched.curthr := by
      rintro rfl
      simp [hrep.procs_none _ hq] at hr
    simp [hne, hrep.procs_none _ hq]
  · rw [← hrep.children]
    by_cases hq : q = w.sched.curthr <;> simp [World.children, hq, hr]
  · rw [← hrep.parent]
    by_cases hq : c = w.sched.curthr <;> simp [World.parent, hq, hr]

theorem Inv.exitFinish (h : Inv w) (hphase : w.phase w.sched.curthr = .closing status)
    (hgood : Prompt w .finish) (he : ExitWaiting.exitFinish w status = some w') : Inv w' := by
  obtain ⟨hsw, hphase', hdead, hrep⟩ := exitFinish_spec he
  obtain ⟨-, hone, hnsw, hx, hawake⟩ := h.closing _ _ hphase
  have hsame : ∀ q, SameSleepers (.inl q) w.sched w'.sched := fun q => .switch h.sched.linked hsw
  have hasleep : ∀ q pid, AsleepFor w' q pid → AsleepFor w q pid := by
    intro q pid hq
    rw [AsleepFor, hphase', (hsame q).wchan_iff] at hq
    split_ifs at hq
    · simp at hq
    · exact hq
  have hcases : ∀ p c, c ∈ w'.children p → c ∈ w.children p ∨
      (p = pidInit ∧ w.sched.curthr ≠ pidInit ∧ c ∈ w.children w.sched.curthr) := by
    intro p c hc
    rw [hrep.children] at hc
    split_ifs at hc with hcur hp hp
    · exact .inl hc
    · exact (List.mem_append.1 hc).imp_right fun hc => ⟨hp, hcur, hc⟩
    · simp at hc
    · exact .inl hc
  refine ⟨h.sched.switch (.inr hx) hsw, switch_current_off h.sched.linked hsw,
    h.own_queue_of_same hsame, fun q hq => ?_, fun q c hc => ?_, fun q c hc => ?_,
    fun q pid c hq hc hm => ?_, fun t st hts => ?_⟩
  · rw [hrep.nextPid]
    exact h.issued q fun hn => hq (hrep.procs_none q hn)
  · rw [hrep.parent] at hc
    split_ifs at hc with hgiven
    · have holder := h.older _ c (h.child_parent _ c hgiven.2.1)
      rw [← some.inj hc]
      exact Nat.lt_of_le_of_lt hone holder
    · exact h.older q c hc
  · rw [hrep.parent]
    have hexists : ∀ p, c ∈ w.children p → w.procs c ≠ none := by
      intro p hp hn
      simpa [World.parent, hn] using h.child_parent p c hp
    obtain hold | ⟨rfl, hne, hgiven⟩ := hcases q c hc
    · split_ifs with hgiven
      · have hcur : q = w.sched.curthr := by
          have hpar := h.child_parent _ c hgiven.2.1
          rw [h.child_parent q c hold] at hpar
          exact some.inj hpar
        rw [hrep.children, if_neg hgiven.1] at hc
        split_ifs at hc with hqi
        · rw [hqi]
        · simp at hc
      · exact h.child_parent q c hold
    · rw [if_pos ⟨hne, hgiven, hexists _ hgiven⟩]
  · have hasl := hasleep q pid hq
    obtain hold | ⟨rfl, hne, hgiven⟩ := hcases q c hc
    · have hcc : c ≠ w.sched.curthr := by
        rintro rfl
        exact hawake q (h.child_parent q _ hold) hasl.1
      rw [hdead c hcc]
      exact h.none_dead q pid c hasl hold hm
    · have hcc : c ≠ w.sched.curthr := by
        rintro rfl
        exact Nat.lt_irrefl _ (h.older _ _ (h.child_parent _ _ hgiven))
      rw [hdead c hcc]
      by_contra hd
      exact hgood hne c hgiven (by simpa using hd) pid hasl hm
  · rw [hphase'] at hts
    split_ifs at hts with htc
    exact absurd (h.closing t st hts).1 htc

variable {res : WaitResult} {pid : ℤ}

/-- A pass over the children finds a dead child to reap, or none of those it looks for is
dead and the caller goes to sleep. -/
theorem waitPass_spec (he : waitPass w pid = some (res, w')) :
    (∃ c ∈ w.children w.sched.curthr, w'.sched = w.sched ∧ w'.nextPid = w.nextPid ∧
      (∀ t, w'.phase t = if t = w.sched.curthr then .executing else w.phase t) ∧
      (∀ p, w.procs p = none → w'.procs p = none) ∧
      (∀ p q, q ∈ w'.children p → q ∈ w.children p ∧ (p = w.sched.curthr → q ≠ c)) ∧
      (∀ q, w'.parent q = if q = c then none else w.parent q) ∧
      ∀ q, w'.isDead q = true → w.isDead q = true) ∨
    ((∀ c ∈ w.children w.sched.curthr, MayReap pid c → w.isDead c = false) ∧
      ∃ s, schedSleepOn w.sched (.inl w.sched.curthr) = some s ∧
        w' = { w.setPhase w.sched.curthr (.waiting pid) with sched := s }) := by
  unfold waitPass at he
  split at he
  · simp at he
  rename_i r hr
  have hkids : w.children w.sched.curthr = r.pChildren := by simp [World.children, hr]
  rw [hkids]
  split at he
  · rename_i c hc
    have hmem := List.mem_of_find?_eq_some hc
    obtain ⟨-, rfl⟩ := Prod.mk.inj (some.inj he)
    refine .inl ⟨c, hmem, rfl, rfl, fun t => by simp, fun p hp => ?_, fun p q hq => ?_,
      fun q => ?_, fun q hq => ?_⟩
    · have hne : p ≠ w.sched.curthr := by
        rintro rfl
        simp [hp] at hr
      simp [hp, hne]
    · by_cases hpc : p = c
      · simp [World.children, hpc] at hq
      · by_cases hp : p = w.sched.curthr
        · subst hp
          rw [hkids]
          simpa [World.children, hpc] using hq
        · simpa [World.children, hpc, hp] using hq
    · by_cases hqc : q = c <;> by_cases hq : q = w.sched.curthr <;>
        simp_all [World.parent]
    · by_cases hqc : q = c <;> by_cases hq' : q = w.sched.curthr <;>
        simp_all [World.isDead]
  · rename_i hnone
    simp only [pure_def, bind_eq_bind, bind_eq_some_iff, some.injEq, Prod.mk.injEq] at he
    obtain ⟨s, hs, -, rfl⟩ := he
    refine .inr ⟨fun c hc hm => ?_, s, hs, rfl⟩
    simpa [hm] using List.find?_eq_none.1 hnone c hc

section

variable (h : Inv w)
include h

theorem Inv.waitPass (hphase : ∀ status, w.phase w.sched.curthr ≠ .closing status)
    (he : ExitWaiting.waitPass w pid = some (res, w')) : Inv w' := by
  have hnot : ∀ t status, w.phase t ≠ .closing status := by
    intro t status ht
    have hcur := (h.closing t status ht).1
    exact hphase status (hcur ▸ ht)
  obtain ⟨c, hc, hsched, hnext, hphase', hprocs, hkids, hpar, hdead⟩ |
    ⟨hnone, s, hsleep, rfl⟩ := waitPass_spec he
  · refine ⟨hsched ▸ h.sched, hsched ▸ h.current_off, hsched ▸ h.own_queue, fun p hp => ?_,
      fun p q hq => ?_, fun p q hq => ?_, fun p pid' q hp hq hm => ?_, fun t status ht => ?_⟩
    · exact hnext ▸ h.issued p fun hn => hp (hprocs p hn)
    · rw [hpar] at hq
      split_ifs at hq
      exact h.older p q hq
    · obtain ⟨hold, hne⟩ := hkids p q hq
      have hqp := h.child_parent p q hold
      have hqc : q ≠ c := by
        rintro rfl
        rw [h.child_parent _ q hc] at hqp
        exact hne (some.inj hqp).symm rfl
      rw [hpar, if_neg hqc]
      exact hqp
    · rw [AsleepFor, hphase', hsched] at hp
      split_ifs at hp
      · simp at hp
      · have hlive := h.none_dead p pid' q hp (hkids p q hq).1 hm
        by_contra hd
        simp [hdead q (by simpa using hd)] at hlive
    · rw [hphase'] at ht
      split_ifs at ht
      exact absurd ht (hnot t status)
  · obtain ⟨-, s1, ht, hsw⟩ := h.sched.linked.sleepOn hsleep
    have hmem : ∀ t q, (s.threads t).ktWchan = some (.wait (.inl q)) ↔
        if t = w.sched.curthr then w.sched.curthr = q
        else (w.sched.threads t).ktWchan = some (.wait (.inl q)) := by
      intro t q
      simpa using park_sleepers (q := .inl q) ht hsw t
    refine ⟨h.sched.sleepOn hsleep, switch_current_off ht.linked hsw, fun t q htq => ?_,
      h.issued, h.older, h.child_parent, fun p pid' q hp hq hm => ?_, fun t status hts => ?_⟩
    · have hsame : SameSleepers (.inl q) s1 s := .switch ht.linked hsw
      have hst := hsame.state_eq t ((hsame.wchan_iff t).1 htq)
      rw [hmem] at htq
      split_ifs at htq with htc
      · refine ⟨htc.trans htq, hst.trans ?_⟩
        rw [htc, ht.self]
        rfl
      · dsimp only
        rw [hst, ht.other htc]
        exact h.own_queue t q htq
    · simp only [AsleepFor, setPhase_phase, hmem] at hp
      split_ifs at hp with hpc
      · subst hpc
        have hpid : pid = pid' := by simpa using hp.2
        exact hnone q hq (hpid ▸ hm)
      · exact h.none_dead p pid' q hp hq hm
    · simp only [setPhase_phase] at hts
      split_ifs at hts
      exact absurd hts (hnot t status)

theorem Inv.doWaitpid (hw : w.executing) (he : ExitWaiting.doWaitpid w pid = some (res, w')) :
    Inv w' := by
  unfold ExitWaiting.doWaitpid at he
  split_ifs at he
  · exact (Prod.mk.inj (some.inj he)).2 ▸ h
  · exact h.waitPass (fun status => by simp [hw.2]) he
  · exact (Prod.mk.inj (some.inj he)).2 ▸ h

theorem Inv.yield {w1 w2 : World D} (hw : w.executing)
    (hidle : (w.sched.threads w.sched.curthr).ktProc ≠ pidIdle)
    (h1 : ExitWaiting.onDevices w (.makeRunnable w.sched.curthr) = some w1)
    (h2 : ExitWaiting.onDevices w1 .switch = some w2) : Inv w2 := by
  obtain ⟨s1, hs1, rfl⟩ := map_eq_some_iff.1 h1
  obtain ⟨s2, hs2, rfl⟩ := map_eq_some_iff.1 h2
  have hoff := h.current_off hw.1
  have hsi := h.sched.makeRunnable hoff hs1
  have hpark : (s1.threads s1.curthr).ktWchan ≠ none := by
    obtain ⟨s0, rfl, ht⟩ := h.sched.linked.makeRunnable hoff hs1
    rw [if_neg hidle] at ht
    change (s0.threads s0.curthr).ktWchan ≠ none
    rw [ht.curthr, ht.self]
    simp [Kthread.place]
  have hsw : schedSwitch s1 = some s2 := by
    replace hs2 := ite_none_left_eq_some.mp hs2
    exact hs2.2
  refine h.reschedule (hsi.switch (.inl hpark) hsw) (fun p => ?_)
    (switch_current_off hsi.linked hsw) (fun t status ht => absurd ht (h.not_closing hw t status))
  have hstep : Steps w.sched (.makeRunnable w.sched.curthr) s1 := hs1
  have hsame : SameSleepers (.inl p) w.sched s1 :=
    Steps.sameSleepers h.sched.linked hstep hoff (by simp [Names]) (by simp)
  exact hsame.trans (.switch hsi.linked hsw)

theorem Inv.sleep (hw : w.executing) (he : ExitWaiting.onDevices w (.sleepOn (.inr d)) = some w') :
    Inv w' := by
  refine h.onDevices he trivial (fun p => by simp [Names]) (fun s hs hsw => ?_)
    (h.not_closing hw)
  replace hs := ite_none_left_eq_some.mp hs
  obtain ⟨-, s1, ht, hswitch⟩ := h.sched.linked.sleepOn hs.2
  exact switch_current_off ht.linked hswitch hsw

theorem Inv.cancellableSleep (hw : w.executing)
    (he : ExitWaiting.onDevices w (.cancellableSleepOn (.inr d)) = some w') : Inv w' := by
  have hoff := h.current_off hw.1
  refine h.onDevices he hoff (fun p => by simp [Names]) (fun s hs hsw => ?_)
    (h.not_closing hw)
  replace hs := ite_none_left_eq_some.mp hs
  obtain ⟨⟨r, _⟩, hr, rfl⟩ := map_eq_some_iff.1 hs.2
  obtain ⟨-, -, rfl⟩ | ⟨-, -, s1, ht, hswitch⟩ := h.sched.linked.cancellableSleepOn hoff hr
  · exact hoff
  · exact switch_current_off ht.linked hswitch hsw

theorem Inv.cancel (hw : w.executing) {t : Tid} {retval : ℤ} (hcur : t ≠ w.sched.curthr)
    (he : ExitWaiting.onDevices w (.cancel t retval) = some w') :
    Inv w' := by
  refine h.onDevices he trivial (fun p => by simp [Names]) (fun s hs _ => ?_)
    (h.not_closing hw)
  replace hs := ite_none_left_eq_some.mp hs
  obtain ⟨-, ht⟩ | ⟨-, s1, rfl, ht⟩ := h.sched.linked.kthreadCancel hcur hs.2
  · rw [ht.curthr, ht.other (Ne.symm hcur)]
    exact h.current_off hw.1
  · change (s1.threads s1.curthr).ktWchan = none
    rw [ht.curthr, ht.other (Ne.symm hcur)]
    exact h.current_off hw.1

theorem Inv.intrReturn (he : ExitWaiting.onDevices w .intrReturn = some w') : Inv w' := by
  have hsw : w.sched.switching = true := by
    obtain ⟨s, hs, -⟩ := map_eq_some_iff.1 he
    replace hs := ite_none_right_eq_some.mp hs
    exact hs.1
  refine h.onDevices he trivial (fun p => by simp [Names]) (fun s hs hns => ?_)
    (fun t status ht => ?_)
  · replace hs := ite_none_right_eq_some.mp hs
    exact switch_current_off h.sched.linked hs.2 hns
  · have hns := (h.closing t status ht).2.2.1
    simp [hsw] at hns

theorem Inv.wakeup (he : ExitWaiting.onDevices w (.wakeupOn (.inr d)) = some w') : Inv w' := by
  obtain ⟨s, hs, rfl⟩ := map_eq_some_iff.1 he
  obtain ⟨⟨r, _⟩, hr, rfl⟩ := map_eq_some_iff.1 hs
  obtain ⟨-, rfl, -⟩ | ⟨t, -, hc, ht⟩ := h.sched.linked.wakeupOn hr
  · exact h
  · exact h.wakesOne ⟨t, hc, ht⟩

theorem Inv.broadcast (he : ExitWaiting.onDevices w (.broadcastOn (.inr d)) = some w') :
    Inv w' := by
  obtain ⟨s, hs, rfl⟩ := map_eq_some_iff.1 he
  have hwakes := h.sched.linked.broadcastRounds _ hs
  clear hs he
  induction hwakes with
  | refl => exact h
  | tail _ hw ih => exact ih.wakesOne hw

end

omit [DecidableEq D] in
theorem executing_of_mayBlock (hb : w.mayBlock = true) (hp : w.phase w.sched.curthr = .executing) :
    w.executing := by
  simp only [World.mayBlock, Bool.and_eq_true, Bool.not_eq_eq_eq_not, Bool.not_true] at hb
  exact ⟨hb.1, hp⟩

theorem Inv.step {op : ProcOp D} (hgood : Prompt w op) (he : ProcSteps w op w') (h : Inv w) :
    Inv w' := by
  cases op with
  | fork pid =>
    replace he := ite_none_right_eq_some.mp he
    exact h.fork he.1.1 he.1.2 he.2
  | exit status =>
    replace he := ite_none_right_eq_some.mp he
    exact h.exitBegin he.1 he.2
  | finish =>
    simp only [ProcSteps, ExitWaiting.step] at he
    split at he
    · rename_i status hphase
      simp only [ite_none_left_eq_some] at he
      exact h.exitFinish hphase hgood he.2
    · simp at he
  | waitpid pid =>
    replace he := ite_none_right_eq_some.mp he
    obtain ⟨⟨res, _⟩, hr, rfl⟩ := map_eq_some_iff.1 he.2
    exact h.doWaitpid he.1 hr
  | recheck =>
    simp only [ProcSteps, ExitWaiting.step] at he
    split at he
    · rename_i pid hphase
      simp only [ite_none_left_eq_some] at he
      obtain ⟨⟨res, _⟩, hr, rfl⟩ := map_eq_some_iff.1 he.2
      exact h.waitPass (fun status => by simp [hphase]) hr
    · simp at he
  | yield =>
    simp only [ProcSteps, ExitWaiting.step, ite_none_right_eq_some,
      bind_eq_bind, bind_eq_some_iff] at he
    obtain ⟨⟨hw, hidle⟩, w1, h1, h2⟩ := he
    exact h.yield hw hidle h1 h2
  | cancel t retval =>
    replace he := ite_none_right_eq_some.mp he
    exact h.cancel he.1.1 he.1.2 he.2
  | sleep d =>
    replace he := ite_none_right_eq_some.mp he
    exact h.sleep (executing_of_mayBlock he.1 hgood) he.2
  | cancellableSleep d =>
    replace he := ite_none_right_eq_some.mp he
    exact h.cancellableSleep (executing_of_mayBlock he.1 hgood) he.2
  | wakeup d => exact h.wakeup he
  | broadcast d => exact h.broadcast he
  | intrReturn => exact h.intrReturn he

/-- In every run of prompt exits, no state is reached in which a parent sleeps in
`do_waitpid` for a child that is dead. -/
theorem prompt_run_no_lostExit {w w' : World D} {ops : List (ProcOp D)} (hw : Started w)
    (hrun : Run ProcSteps Prompt w ops w') : ¬LostExit w' := by
  have h := hrun.invariant (fun _ _ _ => Inv.step) hw.inv
  rintro ⟨-, p, pid, c, hp, hc, hm, hd⟩
  simp [h.none_dead p pid c hp hc hm] at hd

def idleWorld : World Unit where
  sched := bootState
  procs p := if p = 0 then some ⟨.running, none, [], 0⟩ else none
  nextPid := 1
  phase _ := .executing

theorem idleWorld_started : Started idleWorld :=
  ⟨bootState_booted, fun p hp => by simpa [idleWorld, bootState] using hp, rfl, by decide, rfl,
    fun _ => rfl⟩

/-- Idle makes init and waits; init makes process 2 and waits; process 2 begins to exit. -/
def untilExit : List (ProcOp Unit) :=
  [.fork 1, .waitpid (-1), .fork 2, .waitpid (-1), .exit 0]

theorem no_lostExit_after_exit : ∃ w', Run ProcSteps Prompt idleWorld
    (untilExit ++ [.finish, .recheck]) w' ∧ ¬LostExit w' := by
  have hrun : Run ProcSteps Prompt idleWorld (untilExit ++ [.finish, .recheck]) _ :=
    .next trivial rfl (.next trivial rfl (.next trivial rfl (.next trivial rfl
      (.next trivial rfl (.next (fun _ c (hc : c ∈ []) => nomatch hc) rfl
      (.next trivial rfl (.done _)))))))
  exact ⟨_, hrun, prompt_run_no_lostExit idleWorld_started hrun⟩

/-- Process 3 exits while its child 4 is dead, its parent 2 sleeps for a device and init
waits for any child. -/
def orphaned : List (ProcOp Unit) :=
  [.fork 1, .waitpid (-1), .fork 2, .waitpid (-1), .fork 3, .sleep (), .fork 4, .yield,
    .exit 0, .finish, .exit 0, .finish]

/-- In the first run process 2 blocks while it closes its files: init, woken too early,
looks, finds no dead child and sleeps again, and the death of process 2 wakes nobody. In
the second, init is given a child that is already dead. -/
theorem exits_are_lost : (∃ w', Run ProcSteps (fun _ _ => True) idleWorld
      (untilExit ++ [.sleep (), .recheck, .wakeup (), .intrReturn, .finish]) w' ∧ LostExit w') ∧
    (∃ w', Run ProcSteps (fun _ _ => True) idleWorld orphaned w' ∧ LostExit w') := by
  constructor
  · refine ⟨_, .next trivial rfl (.next trivial rfl (.next trivial rfl (.next trivial rfl
      (.next trivial rfl (.next trivial rfl (.next trivial rfl (.next trivial rfl
      (.next trivial rfl (.next trivial rfl (.done _)))))))))), ⟨rfl, rfl⟩, 1, -1, 2, ⟨rfl, rfl⟩,
      ?_, .inl rfl, rfl⟩
    decide
  · refine ⟨_, .next trivial rfl (.next trivial rfl (.next trivial rfl (.next trivial rfl
      (.next trivial rfl (.next trivial rfl (.next trivial rfl (.next trivial rfl
      (.next trivial rfl (.next trivial rfl (.next trivial rfl (.next trivial rfl
      (.done _)))))))))))), ⟨rfl, rfl⟩, 1, -1, 4, ⟨rfl, rfl⟩, ?_, .inl rfl, rfl⟩
    decide

end SystemsProjects.ExitWaiting
