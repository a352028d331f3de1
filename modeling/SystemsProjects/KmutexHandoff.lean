import SystemsProjects.SchedulerQueues

/-!
# Kernel mutexes and the hand-over of ownership

`kmutex_unlock` does not release a contended mutex: it wakes one waiter and makes
that thread the holder while it is still on its way out of the wait queue. A
caller of `kmutex_lock` therefore does not look at the mutex again when it has
been woken. The argument is sound for as long as only `kmutex_unlock` takes
threads off the wait queue.

`kmutex_lock_cancellable` sleeps in a way that a cancellation ends as well, and
ignores the result of that sleep: it returns 0 whether it was handed the mutex,
was cancelled while it waited, or did not wait because it had been cancelled
before. The state records, beside the mutexes, the call each thread is inside and
the sections it has entered; no function reads these.
-/
namespace SystemsProjects.KmutexHandoff

open Function GuardedRuns KernelScheduler SchedulerQueues Option

/-- Threads sleep on the queue of a mutex or on one of the other queues. `pending` is
the mutex whose lock function a sleeping thread has not yet returned from, `inside`
holds from the return of a successful lock to the unlock. -/
structure Locks (M Q : Type) where
  sched : Sched (M ⊕ Q)
  kmHolder : M → Option Tid
  pending : Tid → Option M
  inside : Tid → M → Bool

variable {M Q : Type} [DecidableEq M] [DecidableEq Q]

namespace Locks

def setInside (l : Locks M Q) (t : Tid) (m : M) (b : Bool) : Locks M Q :=
  { l with inside := update l.inside t (update (l.inside t) m b) }

def setHolder (l : Locks M Q) (m : M) (t : Option Tid) : Locks M Q :=
  { l with kmHolder := update l.kmHolder m t }

/-- The current thread sleeps inside a lock function; the scheduler state is the one
after its switch. -/
def await (l : Locks M Q) (m : M) (s : Sched (M ⊕ Q)) : Locks M Q :=
  { l with sched := s, pending := update l.pending l.sched.curthr (some m) }

end Locks

def kmutexLock (l : Locks M Q) (m : M) : Option (Locks M Q) :=
  if l.kmHolder m = some l.sched.curthr then none
  else if l.kmHolder m = none then
    some ((l.setHolder m (some l.sched.curthr)).setInside l.sched.curthr m true)
  else do
    let s ← schedSleepOn l.sched (.inl m)
    return l.await m s

/-- The value of the cancellable sleep is not used. When the thread had been cancelled
before, the sleep returns at once and so does this function, with 0. -/
def kmutexLockCancellable (l : Locks M Q) (m : M) : Option (Locks M Q) :=
  if l.kmHolder m = some l.sched.curthr then none
  else if l.kmHolder m ≠ none then do
    let (r, s) ← schedCancellableSleepOn l.sched (.inl m)
    if r = -eintr then return l.setInside l.sched.curthr m true
    else return l.await m s
  else some ((l.setHolder m (some l.sched.curthr)).setInside l.sched.curthr m true)

def kmutexUnlock (l : Locks M Q) (m : M) : Option (Locks M Q) :=
  if l.kmHolder m = some l.sched.curthr then do
    let (t, s) ← schedWakeupOn l.sched (.inl m)
    return { (l.setHolder m t).setInside l.sched.curthr m false with sched := s }
  else some (l.setInside l.sched.curthr m false)

/-- Scheduler operations on the queues that belong to no mutex. -/
def onOther : Op Q → Op (M ⊕ Q)
  | .makeRunnable t => .makeRunnable t
  | .wakeupOn q => .wakeupOn (.inr q)
  | .broadcastOn q => .broadcastOn (.inr q)
  | .sleepOn q => .sleepOn (.inr q)
  | .cancellableSleepOn q => .cancellableSleepOn (.inr q)
  | .cancel t retval => .cancel t retval
  | .exit retval => .exit retval
  | .switch => .switch
  | .intrReturn => .intrReturn

/-- `returns` is the return of a lock function to its caller after its sleep, `other` any
scheduler operation of a thread or of an interrupt handler, `kthread_cancel` among
them. -/
inductive LockOp (M Q : Type) where
  | lock (m : M)
  | lockCancellable (m : M)
  | unlock (m : M)
  | returns
  | other (op : Op Q)
  deriving DecidableEq, Repr

/-- The operations that an interrupt handler, or the wait inside `sched_switch`, may
perform on behalf of no thread. -/
def Asynchronous : Op Q → Bool
  | .makeRunnable _ => true
  | .wakeupOn _ => true
  | .broadcastOn _ => true
  | .intrReturn => true
  | _ => false

/-- The current thread executes its own code: it neither waits for an interrupt inside
`sched_switch` nor is still inside a lock function. -/
def Locks.free (l : Locks M Q) : Bool :=
  !l.sched.switching && (l.pending l.sched.curthr).isNone

def step (l : Locks M Q) : LockOp M Q → Option (Locks M Q)
  | .lock m => if l.free then kmutexLock l m else none
  | .lockCancellable m => if l.free then kmutexLockCancellable l m else none
  | .unlock m => if l.free then kmutexUnlock l m else none
  | .returns =>
    if l.sched.switching then none
    else (l.pending l.sched.curthr).map fun m =>
      { l.setInside l.sched.curthr m true with
        pending := update l.pending l.sched.curthr none }
  | .other op =>
    if Asynchronous op || l.free then
      (KernelScheduler.step l.sched (onOther op)).map fun s => { l with sched := s }
    else none

/-- The scheduler is used as its callers in the kernel use it; in particular a thread
that may go to sleep is on no queue. -/
def Proper (l : Locks M Q) : LockOp M Q → Prop
  | .lockCancellable _ => (l.sched.threads l.sched.curthr).ktWchan = none
  | .other op => Disciplined l.sched (onOther op)
  | _ => True

def LockSteps (l : Locks M Q) (op : LockOp M Q) (l' : Locks M Q) : Prop :=
  step l op = some l' ∧ Proper l op

/-- No cancellation meets a wait for a mutex: a cancelled thread does not ask cancellably
for a mutex that is held, and a thread in such a wait is not cancelled. -/
def Uncancelled (l : Locks M Q) : LockOp M Q → Prop
  | .lockCancellable m => l.kmHolder m = none ∨
      (l.sched.threads l.sched.curthr).ktCancelled = false
  | .other (.cancel t _) => (l.sched.threads t).ktState = .sleepCancellable →
      ∀ m, (l.sched.threads t).ktWchan ≠ some (.wait (.inl m))
  | _ => True

/-- Whoever is inside the section of a mutex holds it, so that no two threads are. -/
structure Exclusive (l : Locks M Q) : Prop where
  holder : ∀ t m, l.inside t m = true → l.kmHolder m = some t
  alone : ∀ t u m, l.inside t m = true → l.inside u m = true → t = u

/-- All mutexes are free and no thread is inside a lock function. -/
structure Initial (l : Locks M Q) : Prop where
  booted : Booted l.sched
  holder_none : ∀ m, l.kmHolder m = none
  pending_none : ∀ t, l.pending t = none
  inside_false : ∀ t m, l.inside t m = false

/-- A thread inside a lock function still waits on the queue of the mutex or has been
made its holder; a thread that runs does not wait. -/
structure Inv (l : Locks M Q) : Prop where
  sched : SchedulerQueues.Inv l.sched
  inside_holder : ∀ t m, l.inside t m = true → l.kmHolder m = some t
  pending_cases : ∀ t m, l.pending t = some m →
    (l.sched.threads t).ktWchan = some (.wait (.inl m)) ∨ l.kmHolder m = some t
  sleeper_pending : ∀ t m, (l.sched.threads t).ktWchan = some (.wait (.inl m)) →
    l.pending t = some m
  current_awake : l.sched.switching = false → ∀ m,
    (l.sched.threads l.sched.curthr).ktWchan ≠ some (.wait (.inl m))

variable {l : Locks M Q}

omit [DecidableEq M] [DecidableEq Q] in
theorem Initial.inv (h : Initial l) : Inv l where
  sched := h.booted.inv
  inside_holder t m ht := by simp [h.inside_false] at ht
  pending_cases t m ht := by simp [h.pending_none] at ht
  sleeper_pending t m ht := by simp [h.booted.wchan_none] at ht
  current_awake _ m := by simp [h.booted.wchan_none]

omit [DecidableEq M] [DecidableEq Q] in
theorem Inv.exclusive (h : Inv l) : Exclusive l where
  holder := h.inside_holder
  alone t u m ht hu := by
    have heq := (h.inside_holder t m ht).symm.trans (h.inside_holder u m hu)
    exact some.inj heq

section Fields

omit [DecidableEq Q]

variable (l : Locks M Q) (t u : Tid) (m n : M) (b : Bool) (r : Option Tid)

@[simp] theorem setInside_inside :
    (l.setInside t m b).inside u n = if u = t ∧ n = m then b else l.inside u n := by
  by_cases hu : u = t <;> by_cases hn : n = m <;> simp [Locks.setInside, hu, hn]

@[simp] theorem setInside_sched : (l.setInside t m b).sched = l.sched := rfl

@[simp] theorem setInside_pending : (l.setInside t m b).pending = l.pending := rfl

@[simp] theorem setInside_kmHolder : (l.setInside t m b).kmHolder = l.kmHolder := rfl

@[simp] theorem setHolder_kmHolder :
    (l.setHolder m r).kmHolder n = if n = m then r else l.kmHolder n := by
  simp [Locks.setHolder, update_apply]

@[simp] theorem setHolder_sched : (l.setHolder m r).sched = l.sched := rfl

@[simp] theorem setHolder_pending : (l.setHolder m r).pending = l.pending := rfl

@[simp] theorem setHolder_inside : (l.setHolder m r).inside = l.inside := rfl

end Fields

variable {m : M}

omit [DecidableEq Q] in
theorem Inv.acquire (h : Inv l) (hfree : l.kmHolder m = none) :
    Inv ((l.setHolder m (some l.sched.curthr)).setInside l.sched.curthr m true) where
  sched := h.sched
  inside_holder t n ht := by
    have hold := h.inside_holder t n
    simp only [setInside_inside, setHolder_inside, setInside_kmHolder, setHolder_kmHolder] at ht ⊢
    by_cases hn : n = m
    · subst hn
      by_cases hcur : t = l.sched.curthr
      · simp [hcur]
      · simp [hcur] at ht
        simp [hold ht] at hfree
    · simp [hn] at ht ⊢
      exact hold ht
  pending_cases t n ht := by
    rcases h.pending_cases t n ht with hw | hh
    · exact .inl hw
    · have hn : n ≠ m := by
        rintro rfl
        simp [hfree] at hh
      exact .inr (by simpa [hn] using hh)
  sleeper_pending := h.sleeper_pending
  current_awake := h.current_awake

variable {s' : Sched (M ⊕ Q)}

theorem Inv.await (h : Inv l) {st : KtState} {s1 : Sched (M ⊕ Q)}
    (hst : st = .sleep ∨ st = .sleepCancellable) (ht : Touches l.sched s1 l.sched.curthr
      ((l.sched.threads l.sched.curthr).place (some (.wait (.inl m))) st))
    (he : schedSwitch s1 = some s') : Inv (l.await m s') where
  sched := h.sched.park hst ht he
  inside_holder := h.inside_holder
  pending_cases t n hn := by
    rw [show (l.await m s').sched = s' from rfl, park_sleepers ht he]
    by_cases hcur : t = l.sched.curthr
    · subst hcur
      simp_all [Locks.await]
    · simp only [hcur, if_false]
      exact h.pending_cases t n (by simpa [Locks.await, hcur] using hn)
  sleeper_pending t n hn := by
    rw [show (l.await m s').sched = s' from rfl, park_sleepers ht he] at hn
    by_cases hcur : t = l.sched.curthr
    · simp_all [Locks.await]
    · simp only [hcur, if_false] at hn
      simpa [Locks.await, hcur] using h.sleeper_pending t n hn
  current_awake hsw n := by
    obtain ⟨hsw', -⟩ | ⟨-, hne, hrun⟩ := park_current ht he
    · simp [Locks.await, hsw'] at hsw
    · rw [show (l.await m s').sched = s' from rfl, Ne, park_sleepers ht he, if_neg hne, hrun]
      simp

theorem Inv.release (h : Inv l) {r : Option Tid} (hhold : l.kmHolder m = some l.sched.curthr)
    (hpend : l.pending l.sched.curthr = none) (he : schedWakeupOn l.sched (.inl m) = some (r, s')) :
    Inv { (l.setHolder m r).setInside l.sched.curthr m false with sched := s' } := by
  have hinside : ∀ t n, ((l.setHolder m r).setInside l.sched.curthr m false).inside t n = true →
      ((l.setHolder m r).setInside l.sched.curthr m false).kmHolder n = some t := by
    intro t n ht
    simp only [setInside_inside, setHolder_inside, setInside_kmHolder, setHolder_kmHolder,
      Bool.if_false_left, Bool.and_eq_true] at ht ⊢
    have hold := h.inside_holder t n ht.2
    by_cases hn : n = m
    · subst hn
      rw [hhold] at hold
      simp [some.inj hold] at ht
    · simpa [hn] using hold
  have hwaits : ∀ t, l.pending t = some m →
      (l.sched.threads t).ktWchan = some (.wait (.inl m)) := by
    intro t ht
    refine (h.pending_cases t m ht).resolve_right fun hh => ?_
    rw [hhold] at hh
    rw [← some.inj hh, hpend] at ht
    simp at ht
  obtain ⟨rfl, rfl, hn⟩ | ⟨u, rfl, hc, ht⟩ := h.sched.linked.wakeupOn he
  · refine ⟨h.sched, hinside, fun t n htn => ?_, h.sleeper_pending, h.current_awake⟩
    by_cases hnm : n = m
    · subst hnm
      exact absurd (hwaits t htn) (hn t)
    · simpa [hnm] using h.pending_cases t n htn
  · refine ⟨h.sched.wakesOne ⟨u, hc, ht⟩, hinside, fun t n htn => ?_, fun t n htn => ?_,
      fun hsw n => ?_⟩
    · by_cases htu : t = u
      · subst htu
        have hm := (h.sleeper_pending t m hc).symm.trans htn
        exact .inr (by simp [some.inj hm])
      · rw [ht.other htu]
        by_cases hnm : n = m
        · subst hnm
          exact .inl (hwaits t htn)
        · simpa [hnm] using h.pending_cases t n htn
    · by_cases htu : t = u
      · rw [htu, ht.self] at htn
        simp [Kthread.place] at htn
      · rw [ht.other htu] at htn
        exact h.sleeper_pending t n htn
    · rw [ht.curthr]
      by_cases hcu : l.sched.curthr = u
      · rw [hcu, ht.self]
        simp [Kthread.place]
      · rw [ht.other hcu]
        exact h.current_awake (ht.switching ▸ hsw) n

omit [DecidableEq Q] in
theorem Inv.leave (h : Inv l) (m : M) : Inv (l.setInside l.sched.curthr m false) where
  sched := h.sched
  inside_holder t n ht := by
    simp only [setInside_inside, Bool.if_false_left, Bool.and_eq_true] at ht
    exact h.inside_holder t n ht.2
  pending_cases := h.pending_cases
  sleeper_pending := h.sleeper_pending
  current_awake := h.current_awake

omit [DecidableEq Q] in
theorem Inv.returns (h : Inv l) (hsw : l.sched.switching = false)
    (hm : l.pending l.sched.curthr = some m) :
    Inv { l.setInside l.sched.curthr m true with
      pending := update l.pending l.sched.curthr none } where
  sched := h.sched
  inside_holder t n ht := by
    have hholder := (h.pending_cases _ m hm).resolve_left (h.current_awake hsw m)
    rw [show Locks.inside _ t n = (l.setInside l.sched.curthr m true).inside t n from rfl,
      setInside_inside] at ht
    split_ifs at ht with heq
    · rw [heq.1, heq.2]
      exact hholder
    · exact h.inside_holder t n ht
  pending_cases t n ht := by
    by_cases hcur : t = l.sched.curthr
    · simp [hcur] at ht
    · exact h.pending_cases t n (by simpa [hcur] using ht)
  sleeper_pending t n ht := by
    have hcur : t ≠ l.sched.curthr := by
      rintro rfl
      exact h.current_awake hsw n ht
    simpa [hcur] using h.sleeper_pending t n ht
  current_awake := h.current_awake

omit [DecidableEq M] [DecidableEq Q] in
theorem not_names_onOther (m : M) (op : Op Q) : ¬Names (.inl m) (onOther op) := by
  cases op <;> simp [Names, onOther]

theorem Inv.other (h : Inv l) {op : Op Q} (hproper : Disciplined l.sched (onOther op))
    (hgood : Uncancelled l (.other op)) (he : Steps l.sched (onOther op) s') :
    Inv { l with sched := s' } := by
  have hsame : ∀ m, SameSleepers (.inl m) l.sched s' := by
    refine fun m => Steps.sameSleepers h.sched.linked he hproper (not_names_onOther m op) ?_
    intro t retval hop hst
    cases op with
    | cancel t' retval' =>
      simp only [onOther, Op.cancel.injEq] at hop
      exact hgood (hop.1 ▸ hst) m ∘ fun hw => hop.1 ▸ hw
    | _ => simp [onOther] at hop
  refine ⟨h.sched.step hproper he, h.inside_holder, fun t m ht => ?_, fun t m ht => ?_,
    fun hsw m => ?_⟩
  · exact (h.pending_cases t m ht).imp_left ((hsame m).wchan_iff t).2
  · exact h.sleeper_pending t m (((hsame m).wchan_iff t).1 ht)
  · rw [Ne, (hsame m).wchan_iff]
    rcases Steps.currentFrom h.sched.linked hproper he with ⟨hcur, hsw'⟩ | ⟨-, hrun⟩
    · rw [show Sched.curthr _ = l.sched.curthr from hcur]
      exact h.current_awake (hsw' hsw) m
    · rw [hrun]
      simp

variable {l' : Locks M Q}

theorem Inv.lock (h : Inv l) (he : kmutexLock l m = some l') : Inv l' := by
  unfold kmutexLock at he
  split_ifs at he with hself hfree
  · exact some.inj he ▸ h.acquire hfree
  · simp only [pure_def, bind_eq_bind, bind_eq_some_iff, some.injEq] at he
    obtain ⟨s, hs, rfl⟩ := he
    obtain ⟨-, s1, ht, hsw⟩ := h.sched.linked.sleepOn hs
    exact h.await (.inl rfl) ht hsw

theorem Inv.lockCancellable (h : Inv l) (hproper : Proper l (.lockCancellable m))
    (hgood : Uncancelled l (.lockCancellable m)) (he : kmutexLockCancellable l m = some l') :
    Inv l' := by
  unfold kmutexLockCancellable at he
  split_ifs at he with hself hheld
  · simp only [pure_def, bind_eq_bind, bind_eq_some_iff] at he
    obtain ⟨⟨r, s⟩, hs, hr⟩ := he
    obtain ⟨hcan, -⟩ | ⟨-, rfl, s1, ht, hsw⟩ :=
      h.sched.linked.cancellableSleepOn hproper hs
    · exact absurd hcan (by simp [hgood.resolve_left hheld])
    · rw [if_neg (by decide : (0 : ℤ) ≠ -eintr)] at hr
      exact some.inj hr ▸ h.await (.inr rfl) ht hsw
  · exact some.inj he ▸ h.acquire (by simpa using hheld)

theorem Inv.unlock (h : Inv l) (hpend : l.pending l.sched.curthr = none)
    (he : kmutexUnlock l m = some l') : Inv l' := by
  unfold kmutexUnlock at he
  split_ifs at he with hhold
  · simp only [pure_def, bind_eq_bind, bind_eq_some_iff, some.injEq] at he
    obtain ⟨⟨r, s⟩, hs, rfl⟩ := he
    exact h.release hhold hpend hs
  · exact some.inj he ▸ h.leave m

theorem Inv.step {op : LockOp M Q} (hgood : Uncancelled l op) (he : LockSteps l op l') (h : Inv l) :
    Inv l' := by
  obtain ⟨he, hproper⟩ := he
  cases op with
  | lock m =>
    replace he := ite_none_right_eq_some.mp he
    exact h.lock he.2
  | lockCancellable m =>
    replace he := ite_none_right_eq_some.mp he
    exact h.lockCancellable hproper hgood he.2
  | unlock m =>
    simp only [KmutexHandoff.step, ite_none_right_eq_some, Locks.free, Bool.and_eq_true,
      isNone_iff_eq_none] at he
    exact h.unlock he.1.2 he.2
  | returns =>
    simp only [KmutexHandoff.step, ite_none_left_eq_some, map_eq_some_iff] at he
    obtain ⟨hsw, m, hm, rfl⟩ := he
    exact h.returns (by simpa using hsw) hm
  | other op =>
    simp only [KmutexHandoff.step, ite_none_right_eq_some, map_eq_some_iff] at he
    obtain ⟨-, s, hs, rfl⟩ := he
    exact h.other hproper hgood hs

/-- In every run in which no cancellation meets a wait for a mutex, a thread that a lock
function returned to holds the mutex until it unlocks it, and it is alone. -/
theorem uncancelled_run_exclusive {l l' : Locks M Q} {ops : List (LockOp M Q)}
    (hl : Initial l) (hrun : Run LockSteps Uncancelled l ops l') : Exclusive l' :=
  (hrun.invariant (fun _ _ _ => Inv.step) hl.inv).exclusive

def freshLocks : Locks Unit Unit where
  sched := bootState
  kmHolder _ := none
  pending _ := none
  inside _ _ := false

theorem freshLocks_initial : Initial freshLocks :=
  ⟨bootState_booted, fun _ => rfl, fun _ => rfl, fun _ _ => rfl⟩

/-- Thread 1 runs, takes the mutex and yields to thread 2. -/
def contention : List (LockOp Unit Unit) :=
  [.other (.makeRunnable 1), .other (.makeRunnable 2), .other (.sleepOn ()), .lock (),
    .other (.makeRunnable 1), .other .switch]

theorem exclusive_after_handoff : ∃ l', Run LockSteps Uncancelled freshLocks
    (contention ++ [.lockCancellable (), .unlock (), .other (.sleepOn ()), .returns]) l' ∧
    l'.inside 2 () = true ∧ Exclusive l' := by
  have hrun : Run LockSteps Uncancelled freshLocks
      (contention ++ [.lockCancellable (), .unlock (), .other (.sleepOn ()), .returns]) _ :=
    .next trivial ⟨rfl, rfl⟩ (.next trivial ⟨rfl, rfl⟩ (.next trivial ⟨rfl, trivial⟩
      (.next trivial ⟨rfl, trivial⟩ (.next trivial ⟨rfl, rfl⟩ (.next trivial ⟨rfl, .inl (by decide)⟩
      (.next (.inr rfl) ⟨rfl, rfl⟩ (.next trivial ⟨rfl, trivial⟩ (.next trivial ⟨rfl, trivial⟩
      (.next trivial ⟨rfl, trivial⟩ (.done _))))))))))
  exact ⟨_, hrun, rfl, uncancelled_run_exclusive freshLocks_initial hrun⟩

/-- Thread 1 cancels thread 2 while that waits for the mutex: its call returns 0, and both
are inside. -/
theorem cancelled_waiter_enters : ∃ l', Run LockSteps (fun _ _ => True) freshLocks
    (contention ++ [.lockCancellable (), .other (.cancel 2 0), .other (.makeRunnable 1),
      .other .switch, .returns]) l' ∧
    l'.inside 1 () = true ∧ l'.inside 2 () = true ∧ ¬Exclusive l' := by
  refine ⟨_, .next trivial ⟨rfl, rfl⟩ (.next trivial ⟨rfl, rfl⟩ (.next trivial ⟨rfl, trivial⟩
    (.next trivial ⟨rfl, trivial⟩ (.next trivial ⟨rfl, rfl⟩ (.next trivial ⟨rfl, .inl ?_⟩
    (.next trivial ⟨rfl, rfl⟩ (.next trivial ⟨rfl, trivial⟩ (.next trivial ⟨rfl, rfl⟩
    (.next trivial ⟨rfl, .inl ?_⟩ (.next trivial ⟨rfl, trivial⟩ (.done _))))))))))), rfl, rfl,
    fun h => absurd (h.alone 1 2 () rfl rfl) (by decide)⟩
  · decide
  · decide

end SystemsProjects.KmutexHandoff
