import Mathlib.Data.List.Nodup
import Mathlib.Data.Int.Notation
import Mathlib.Logic.Relation

/-!
# The kernel scheduler and its thread queues

Weenix runs one kernel thread at a time and changes thread only inside
`sched_switch`. A thread that may run later is linked on exactly one `ktqueue`:
the run queue, or the queue of the event for which it sleeps. The links, the
`kt_wchan` back pointer and the `tq_size` counter are three records of one fact,
kept by different functions of `sched.c` and `kthread.c`.

The definitions below follow those two files function by function. `none` is a
failed `KASSERT` or a dereference of `NULL`. Two fields of the state are ghosts
that no function reads: which threads were made runnable, and which have called
`kthread_exit`. A call of `sched_switch` that finds the run queue empty waits for
an interrupt inside its loop; that wait is the `switching` flag.
-/
namespace SystemsProjects.KernelScheduler
open Function Option

abbrev Tid := ℕ

abbrev Pid := ℕ

/-- `PID_IDLE` of `config.h`. -/
def pidIdle : Pid := 0

/-- `EINTR` of `errno.h`. -/
def eintr : ℤ := 4

inductive KtState where
  | noState
  | run
  | sleep
  | sleepCancellable
  | exited
  deriving DecidableEq, Repr

/-- The address of a `ktqueue_t`: the run queue, or a queue of sleepers. -/
inductive Chan (Q : Type) where
  | runq
  | wait (q : Q)
  deriving DecidableEq, Repr

/-- `ktQlink` says whether the link of the thread is on a list, that is whether
its two pointers are set. -/
structure Kthread (Q : Type) where
  ktProc : Pid
  ktRetval : ℤ
  ktCancelled : Bool
  ktWchan : Option (Chan Q)
  ktState : KtState
  ktQlink : Bool
  deriving DecidableEq, Repr

structure Ktqueue where
  tqList : List Tid
  tqSize : ℤ
  deriving DecidableEq, Repr

structure Sched (Q : Type) where
  threads : Tid → Kthread Q
  queue : Chan Q → Ktqueue
  curthr : Tid
  switching : Bool
  started : Tid → Bool
  exited : Tid → Bool

variable {Q : Type} [DecidableEq Q]

namespace Sched

def setThread (s : Sched Q) (t : Tid) (k : Kthread Q) : Sched Q :=
  { s with threads := update s.threads t k }

def setQueue (s : Sched Q) (c : Chan Q) (l : Ktqueue) : Sched Q :=
  { s with queue := update s.queue c l }

def setState (s : Sched Q) (t : Tid) (st : KtState) : Sched Q :=
  s.setThread t { s.threads t with ktState := st }

/-- The thread is put on the list of `c` or, for `none`, taken off its list. -/
def setWchan (s : Sched Q) (t : Tid) (c : Option (Chan Q)) : Sched Q :=
  s.setThread t { s.threads t with ktWchan := c, ktQlink := c.isSome }

end Sched

def ktqueueEnqueue (s : Sched Q) (c : Chan Q) (t : Tid) : Option (Sched Q) :=
  if (s.threads t).ktWchan = none then
    some ((s.setQueue c ⟨t::(s.queue c).tqList, (s.queue c).tqSize+1⟩).setWchan t (some c))
  else none

/-- Queues are filled at the head and emptied at the tail. -/
def ktqueueDequeue (s : Sched Q) (c : Chan Q) : Option Tid × Sched Q :=
  match (s.queue c).tqList.getLast? with
  | none => (none, s)
  | some t => (some t,
      (s.setQueue c ⟨(s.queue c).tqList.dropLast, (s.queue c).tqSize-1⟩).setWchan t none)

def ktqueueRemove (s : Sched Q) (c : Chan Q) (t : Tid) : Option (Sched Q) :=
  if (s.threads t).ktQlink then
    some ((s.setQueue c ⟨(s.queue c).tqList.erase t, (s.queue c).tqSize-1⟩).setWchan t none)
  else none

/-- One test of the loop of `sched_switch`: an empty run queue waits for the next
interrupt, otherwise the thread at its tail becomes `curthr`. The thread that
called the function is not put on any queue. -/
def schedSwitch (s : Sched Q) : Option (Sched Q) :=
  if (s.queue .runq).tqSize = 0 then some { s with switching := true }
  else
    match ktqueueDequeue s .runq with
    | (none, _) => none
    | (some t, s1) => some { s1.setState t .run with curthr := t, switching := false }

def schedSleepOn (s : Sched Q) (q : Q) : Option (Sched Q) := do
  let s1 ← ktqueueEnqueue (s.setState s.curthr .sleep) (.wait q) s.curthr
  schedSwitch s1

/-- The integer is the value the call returns: at once, or when the thread that
slept is next dispatched. The assignment to `kt_wchan` precedes the enqueue, so
that its assertion never fails here. -/
def schedCancellableSleepOn (s : Sched Q) (q : Q) : Option (ℤ × Sched Q) :=
  if (s.threads s.curthr).ktCancelled then some (-eintr, s)
  else do
    let s1 ← ktqueueEnqueue (s.setThread s.curthr
      { s.threads s.curthr with ktWchan := none, ktState := .sleepCancellable })
      (.wait q) s.curthr
    let s2 ← schedSwitch s1
    return (0, s2)

def schedWakeupOn (s : Sched Q) (q : Q) : Option (Option Tid × Sched Q) :=
  match ktqueueDequeue s (.wait q) with
  | (none, s1) => some (none, s1)
  | (some t, s1) =>
    if (s1.threads t).ktState = .sleep ∨ (s1.threads t).ktState = .sleepCancellable then do
      let s2 ← ktqueueEnqueue (s1.setState t .run) .runq t
      return (some t, s2)
    else none

/-- The loop of `sched_broadcast_on`, for at most the given number of rounds. -/
def broadcastRounds : ℕ → Sched Q → Q → Option (Sched Q)
  | 0, s, q => if 0 < (s.queue (.wait q)).tqSize then none else some s
  | n+1, s, q =>
    if 0 < (s.queue (.wait q)).tqSize then
      match ktqueueDequeue s (.wait q) with
      | (none, _) => none
      | (some t, s1) => do
        let s2 ← ktqueueEnqueue (s1.setState t .run) .runq t
        broadcastRounds n s2 q
    else some s

def schedBroadcastOn (s : Sched Q) (q : Q) : Option (Sched Q) :=
  broadcastRounds (s.queue (.wait q)).tqList.length s q

def schedMakeRunnable (s : Sched Q) (t : Tid) : Option (Sched Q) :=
  if (s.threads t).ktWchan = some .runq then none
  else
    let s1 := { s.setState t .run with started := update s.started t true }
    if (s.threads t).ktProc = pidIdle then some s1 else ktqueueEnqueue s1 .runq t

def schedCancel (s : Sched Q) (t : Tid) : Option (Sched Q) :=
  let s1 := s.setThread t { s.threads t with ktCancelled := true }
  if (s.threads t).ktState = .sleepCancellable ∨ (s.threads t).ktState = .exited ∨
      (s.threads t).ktState = .noState then
    match (s.threads t).ktWchan with
    | none => none
    | some c => do
      let s2 ← ktqueueRemove s1 c t
      schedMakeRunnable s2 t
  else some s1

/-- `kthread_exit` up to its call of `proc_thread_exited`, whose steps are further
operations of the same thread and end in a `sched_switch`. -/
def kthreadExit (s : Sched Q) (retval : ℤ) : Option (Sched Q) :=
  let k := s.threads s.curthr
  if k.ktWchan = none ∧ k.ktQlink = false then
    some { s.setThread s.curthr { k with ktRetval := retval, ktState := .exited } with
      exited := update s.exited s.curthr true }
  else none

def kthreadCancel (s : Sched Q) (t : Tid) (retval : ℤ) : Option (Sched Q) :=
  if t = s.curthr then kthreadExit s retval
  else
    let s1 := s.setThread t { s.threads t with ktCancelled := true, ktRetval := retval }
    if (s.threads t).ktState = .sleepCancellable then schedCancel s1 t else some s1

/-- The operations of the run. The first three are also called by interrupt
handlers and may occur while `sched_switch` waits; the others are calls of the
current thread, and `intrReturn` repeats the loop test of a waiting switch. -/
inductive Op (Q : Type) where
  | makeRunnable (t : Tid)
  | wakeupOn (q : Q)
  | broadcastOn (q : Q)
  | sleepOn (q : Q)
  | cancellableSleepOn (q : Q)
  | cancel (t : Tid) (retval : ℤ)
  | exit (retval : ℤ)
  | switch
  | intrReturn
  deriving DecidableEq, Repr

def step (s : Sched Q) : Op Q → Option (Sched Q)
  | .makeRunnable t => schedMakeRunnable s t
  | .wakeupOn q => (schedWakeupOn s q).map Prod.snd
  | .broadcastOn q => schedBroadcastOn s q
  | .sleepOn q => if s.switching then none else schedSleepOn s q
  | .cancellableSleepOn q =>
    if s.switching then none else (schedCancellableSleepOn s q).map Prod.snd
  | .cancel t retval => if s.switching then none else kthreadCancel s t retval
  | .exit retval => if s.switching then none else kthreadExit s retval
  | .switch => if s.switching then none else schedSwitch s
  | .intrReturn => if s.switching then schedSwitch s else none

/-- The operation runs to the end of its code and leaves the second state. -/
def Steps (s : Sched Q) (op : Op Q) (s' : Sched Q) : Prop := step s op = some s'

/-- The three records of a thread's place agree. -/
structure Linked (s : Sched Q) : Prop where
  mem_iff : ∀ t c, t ∈ (s.queue c).tqList ↔ (s.threads t).ktWchan = some c
  qlink : ∀ t, (s.threads t).ktQlink = (s.threads t).ktWchan.isSome
  nodup : ∀ c, (s.queue c).tqList.Nodup
  size_eq : ∀ c, (s.queue c).tqSize = (s.queue c).tqList.length

/-- The record of a thread moved to another queue, or to none, in a new state. -/
def Kthread.place (k : Kthread Q) (c : Option (Chan Q)) (st : KtState) : Kthread Q :=
  { k with ktWchan := c, ktQlink := c.isSome, ktState := st }

/-- The second state is linked and differs from the first only in one thread and in
the queues. -/
structure Touches (s s' : Sched Q) (t : Tid) (k : Kthread Q) : Prop where
  linked : Linked s'
  threads : s'.threads = update s.threads t k
  curthr : s'.curthr = s.curthr
  switching : s'.switching = s.switching
  started : s'.started = s.started
  exited : s'.exited = s.exited

variable {k : Kthread Q} {s : Sched Q} {t : Tid}

variable {s' : Sched Q}

section

omit [DecidableEq Q]

theorem Touches.trans {s1 s2 : Sched Q} {k' : Kthread Q} (h : Touches s s1 t k)
    (h' : Touches s1 s2 t k') : Touches s s2 t k' where
  linked := h'.linked
  threads := by rw [h'.threads, h.threads, update_idem]
  curthr := h'.curthr.trans h.curthr
  switching := h'.switching.trans h.switching
  started := h'.started.trans h.started
  exited := h'.exited.trans h.exited

@[simp] theorem Touches.self (h : Touches s s' t k) :
    s'.threads t = k := by rw [h.threads, update_self]

theorem Touches.other {u : Tid} (h : Touches s s' t k) (hu : u ≠ t) :
    s'.threads u = s.threads u := by
  rw [h.threads, update_of_ne hu]

/-- Changes of a thread's record that leave its place alone keep the links. -/
theorem Linked.setThread (h : Linked s) (hw : k.ktWchan = (s.threads t).ktWchan)
    (hq : k.ktQlink = (s.threads t).ktQlink) :
    Touches s (s.setThread t k) t k := by
  refine ⟨⟨?_, ?_, h.nodup, h.size_eq⟩, rfl, rfl, rfl, rfl, rfl⟩
  · intro u c
    by_cases hu : u = t
    · subst hu
      simpa [Sched.setThread, hw] using h.mem_iff u c
    · simpa [Sched.setThread, hu] using h.mem_iff u c
  · intro u
    by_cases hu : u = t
    · subst hu
      simpa [Sched.setThread, hw, hq] using h.qlink u
    · simpa [Sched.setThread, hu] using h.qlink u

/-- The links do not depend on the current thread or on the ghost fields. -/
theorem linked_of_same (h : Linked s) (ht : s'.threads = s.threads) (hq : s'.queue = s.queue) :
    Linked s' := by
  constructor
  · rw [ht, hq]
    exact h.mem_iff
  · rw [ht]
    exact h.qlink
  · rw [hq]
    exact h.nodup
  · rw [hq]
    exact h.size_eq

end

variable {c : Chan Q}

/-- A thread that is on no other queue is put on one, or taken off it. -/
theorem Linked.requeue (h : Linked s) {w : Option (Chan Q)} {l : List Tid}
    (hfrom : ∀ d, d ≠ c → (s.threads t).ktWchan ≠ some d) (hto : ∀ d, d ≠ c → w ≠ some d)
    (hself : t ∈ l ↔ w = some c) (hrest : ∀ u, u ≠ t → (u ∈ l ↔ u ∈ (s.queue c).tqList))
    (hnd : l.Nodup) {n : ℤ} (hn : n = l.length) :
    Touches s ((s.setQueue c ⟨l, n⟩).setWchan t w) t
      ((s.threads t).place w (s.threads t).ktState) := by
  refine ⟨⟨?_, ?_, ?_, ?_⟩, rfl, rfl, rfl, rfl, rfl⟩
  · intro u d
    have hu := h.mem_iff u d
    by_cases hd : d = c <;> by_cases hut : u = t <;>
      simp_all [Sched.setQueue, Sched.setWchan, Sched.setThread]
  · intro u
    have hu := h.qlink u
    by_cases hut : u = t <;> simp_all [Sched.setQueue, Sched.setWchan, Sched.setThread]
  · intro d
    have hd := h.nodup d
    by_cases hdc : d = c <;> simp_all [Sched.setQueue, Sched.setWchan, Sched.setThread]
  · intro d
    have hd := h.size_eq d
    by_cases hdc : d = c <;> simp_all [Sched.setQueue, Sched.setWchan, Sched.setThread]

theorem Linked.enqueue (h : Linked s) (he : ktqueueEnqueue s c t = some s') :
    (s.threads t).ktWchan = none ∧
    Touches s s' t ((s.threads t).place (some c) (s.threads t).ktState) := by
  simp only [ktqueueEnqueue, ite_none_right_eq_some, some.injEq] at he
  obtain ⟨hw, rfl⟩ := he
  have hnot : t ∉ (s.queue c).tqList := by simp [h.mem_iff, hw]
  refine ⟨hw, h.requeue (by simp [hw]) (fun d hd => ?_) (by simp) (fun u hu => by simp [hu])
    (List.nodup_cons.mpr ⟨hnot, h.nodup c⟩) (by simp [h.size_eq])⟩
  simpa using hd.symm

theorem Linked.remove (h : Linked s) (hc : (s.threads t).ktWchan = some c)
    (he : ktqueueRemove s c t = some s') :
    Touches s s' t ((s.threads t).place none (s.threads t).ktState) := by
  simp only [ktqueueRemove, ite_none_right_eq_some, some.injEq] at he
  obtain ⟨-, rfl⟩ := he
  have hmem : t ∈ (s.queue c).tqList := (h.mem_iff t c).2 hc
  refine h.requeue (fun d hd => ?_) (by simp) ?_ (fun u hu => List.mem_erase_of_ne hu)
    ((h.nodup c).erase t) ?_
  · simpa [hc] using hd.symm
  · simp [(h.nodup c).mem_erase_iff]
  · have hpos := List.length_pos_of_mem hmem
    rw [h.size_eq, List.length_erase_of_mem hmem]
    omega

theorem dropLast_eq_erase {l : List Tid} (hl : l.Nodup) (ht : l.getLast? = some t) :
    l.dropLast = l.erase t := by
  obtain ⟨init, rfl⟩ := List.getLast?_eq_some_iff.1 ht
  have hnot : t ∉ init := fun hm => by
    simpa using (List.nodup_append.1 hl).2.2 t hm t
  rw [List.dropLast_concat, List.erase_append_right _ hnot]
  simp

theorem Linked.dequeue (h : Linked s) {r : Option Tid} (he : ktqueueDequeue s c = (r, s')) :
    (r = none ∧ s' = s ∧ ∀ t, (s.threads t).ktWchan ≠ some c) ∨
    ∃ t, r = some t ∧ (s.threads t).ktWchan = some c ∧
      Touches s s' t ((s.threads t).place none (s.threads t).ktState) := by
  cases hl : (s.queue c).tqList.getLast? with
  | none =>
    simp only [ktqueueDequeue, hl, Prod.mk.injEq] at he
    refine .inl ⟨he.1.symm, he.2.symm, fun t ht => ?_⟩
    have hmem := (h.mem_iff t c).2 ht
    simp [List.getLast?_eq_none_iff.1 hl] at hmem
  | some t =>
    have hmem : t ∈ (s.queue c).tqList := List.mem_of_getLast? hl
    have hc := (h.mem_iff t c).1 hmem
    simp only [ktqueueDequeue, hl, Prod.mk.injEq] at he
    refine .inr ⟨t, he.1.symm, hc, h.remove hc ?_⟩
    rw [← he.2, dropLast_eq_erase (h.nodup c) hl]
    simp [ktqueueRemove, h.qlink, hc]

theorem Linked.enqueue_as (h : Linked s) {st : KtState}
    (he : ktqueueEnqueue (s.setState t st) c t = some s') : (s.threads t).ktWchan = none ∧
    Touches s s' t ((s.threads t).place (some c) st) := by
  have hset : Touches s (s.setState t st) t _ := h.setThread rfl rfl
  obtain ⟨hw, ht⟩ := hset.linked.enqueue he
  rw [hset.self] at hw ht
  exact ⟨hw, hset.trans ht⟩

/-- `sched_switch` waits only when no thread is runnable; otherwise one that is
becomes the current thread. -/
theorem Linked.switch (h : Linked s) (he : schedSwitch s = some s') :
    (s' = { s with switching := true } ∧ ∀ t, (s.threads t).ktWchan ≠ some .runq) ∨
    ∃ t s1, (s.threads t).ktWchan = some .runq ∧
      Touches s s1 t ((s.threads t).place none .run) ∧
      s' = { s1 with curthr := t, switching := false } := by
  unfold schedSwitch at he
  split_ifs at he with hsize
  · refine .inl ⟨(some.inj he).symm, fun t ht => ?_⟩
    have hmem := (h.mem_iff t .runq).2 ht
    rw [h.size_eq] at hsize
    simp_all
  · rcases hd : ktqueueDequeue s .runq with ⟨_ | t, s1⟩
    · simp [hd] at he
    · simp only [hd, some.injEq] at he
      obtain ⟨hr, -⟩ | ⟨u, hu, hc, ht⟩ := h.dequeue hd
      · simp at hr
      · obtain rfl := some.inj hu
        have hset : Touches s1 (s1.setState t .run) t _ := ht.linked.setThread rfl rfl
        rw [ht.self] at hset
        exact .inr ⟨t, _, hc, ht.trans hset, he.symm⟩

variable {q : Q}

theorem Linked.wakeupOn (h : Linked s) {r : Option Tid} (he : schedWakeupOn s q = some (r, s')) :
    (r = none ∧ s' = s ∧ ∀ t, (s.threads t).ktWchan ≠ some (.wait q)) ∨
    ∃ t, r = some t ∧ (s.threads t).ktWchan = some (.wait q) ∧
      Touches s s' t ((s.threads t).place (some .runq) .run) := by
  unfold schedWakeupOn at he
  rcases hd : ktqueueDequeue s (.wait q) with ⟨_ | t, s1⟩
  · simp only [hd, some.injEq, Prod.mk.injEq] at he
    obtain ⟨-, rfl, hn⟩ | ⟨t, ht, -⟩ := h.dequeue hd
    · exact .inl ⟨he.1.symm, he.2.symm, hn⟩
    · simp at ht
  · obtain ⟨hr, -⟩ | ⟨u, hu, hc, ht⟩ := h.dequeue hd
    · simp at hr
    · obtain rfl := some.inj hu
      simp only [hd, pure_def, bind_eq_bind, ite_none_right_eq_some,
        bind_eq_some_iff, some.injEq, Prod.mk.injEq] at he
      obtain ⟨-, s2, hs2, rfl, rfl⟩ := he
      obtain ⟨-, ht2⟩ := ht.linked.enqueue_as hs2
      rw [ht.self] at ht2
      exact .inr ⟨t, rfl, hc, ht.trans ht2⟩

/-- One thread goes from the queue `q` to the run queue. -/
def WakesOne (q : Q) (s s' : Sched Q) : Prop :=
  ∃ t, (s.threads t).ktWchan = some (.wait q) ∧
    Touches s s' t ((s.threads t).place (some .runq) .run)

theorem Linked.broadcastRounds (n : ℕ) (h : Linked s) (he : broadcastRounds n s q = some s') :
    Relation.ReflTransGen (WakesOne q) s s' := by
  induction n generalizing s with
  | zero =>
    simp only [KernelScheduler.broadcastRounds, ite_none_left_eq_some, some.injEq] at he
    exact he.2 ▸ .refl
  | succ n ih =>
    unfold KernelScheduler.broadcastRounds at he
    split_ifs at he with hsize
    · rcases hd : ktqueueDequeue s (.wait q) with ⟨_ | t, s1⟩
      · simp [hd] at he
      · simp only [hd, bind_eq_bind, bind_eq_some_iff] at he
        obtain ⟨s2, hs2, hrest⟩ := he
        obtain ⟨hr, -⟩ | ⟨u, hu, hc, ht⟩ := h.dequeue hd
        · simp at hr
        · obtain rfl := some.inj hu
          obtain ⟨-, ht2⟩ := ht.linked.enqueue_as hs2
          rw [ht.self] at ht2
          exact (ih ht2.linked hrest).head ⟨t, hc, ht.trans ht2⟩
    · exact some.inj he ▸ .refl

theorem Linked.sleepOn (h : Linked s) (he : schedSleepOn s q = some s') :
    (s.threads s.curthr).ktWchan = none ∧ ∃ s1,
    Touches s s1 s.curthr ((s.threads s.curthr).place (some (.wait q)) .sleep) ∧
    schedSwitch s1 = some s' := by
  simp only [schedSleepOn, bind_eq_bind, bind_eq_some_iff] at he
  obtain ⟨s1, hs1, hsw⟩ := he
  obtain ⟨hw, ht⟩ := h.enqueue_as hs1
  exact ⟨hw, s1, ht, hsw⟩

theorem Linked.cancellableSleepOn (h : Linked s) {r : ℤ} (hw : (s.threads s.curthr).ktWchan = none)
    (he : schedCancellableSleepOn s q = some (r, s')) :
    ((s.threads s.curthr).ktCancelled = true ∧ r = -eintr ∧ s' = s) ∨
    ((s.threads s.curthr).ktCancelled = false ∧ r = 0 ∧ ∃ s1,
      Touches s s1 s.curthr ((s.threads s.curthr).place (some (.wait q)) .sleepCancellable) ∧
      schedSwitch s1 = some s') := by
  unfold schedCancellableSleepOn at he
  split_ifs at he with hcan
  · obtain ⟨hr, hs⟩ := Prod.mk.inj (some.inj he)
    exact .inl ⟨hcan, hr.symm, hs.symm⟩
  · have hset : s.setThread s.curthr
        { s.threads s.curthr with ktWchan := none, ktState := .sleepCancellable } =
        s.setState s.curthr .sleepCancellable := by
      rw [← hw]
      rfl
    simp only [hset, pure_def, bind_eq_bind, bind_eq_some_iff, some.injEq, Prod.mk.injEq] at he
    obtain ⟨s1, hs1, s2, hsw, hr, rfl⟩ := he
    exact .inr ⟨by simpa using hcan, hr.symm, s1, (h.enqueue_as hs1).2, hsw⟩

theorem Linked.makeRunnable (h : Linked s) (hw : (s.threads t).ktWchan = none)
    (he : schedMakeRunnable s t = some s') :
    ∃ s1, s' = { s1 with started := update s.started t true } ∧
      Touches s s1 t ((s.threads t).place
        (if (s.threads t).ktProc = pidIdle then none else some .runq) .run) := by
  have hset : Touches s (s.setState t .run) t _ := h.setThread rfl rfl
  have henq : ∀ f, ktqueueEnqueue { s.setState t .run with started := f } .runq t =
      (ktqueueEnqueue (s.setState t .run) .runq t).map fun s1 => { s1 with started := f } := by
    intro f
    unfold ktqueueEnqueue
    split <;> simp_all [Sched.setWchan, Sched.setQueue, Sched.setThread]
  simp only [schedMakeRunnable, hw, reduceCtorEq, ↓reduceIte] at he
  split_ifs at he with hidle
  · refine ⟨s.setState t .run, (some.inj he).symm, ?_⟩
    have hk : (s.threads t).place none .run = { s.threads t with ktState := .run } := by
      simp [Kthread.place, hw, h.qlink t]
    rw [if_pos hidle, hk]
    exact hset
  · rw [henq, map_eq_some_iff] at he
    obtain ⟨s1, hs1, rfl⟩ := he
    refine ⟨s1, rfl, ?_⟩
    rw [if_neg hidle]
    exact (h.enqueue_as hs1).2

theorem Linked.cancel (h : Linked s) (hst : (s.threads t).ktState = .sleepCancellable)
    (he : schedCancel s t = some s') :
    ∃ s1, s' = { s1 with started := update s.started t true } ∧
      Touches s s1 t (Kthread.place { s.threads t with ktCancelled := true }
        (if (s.threads t).ktProc = pidIdle then none else some .runq) .run) := by
  have hset : Touches s (s.setThread t { s.threads t with ktCancelled := true }) t _ :=
    h.setThread rfl rfl
  cases hc : (s.threads t).ktWchan with
  | none => simp [schedCancel, hst, hc] at he
  | some c =>
    obtain ⟨s2, hrem, hrun⟩ : ∃ s2, ktqueueRemove (s.setThread t
        { s.threads t with ktCancelled := true }) c t = some s2 ∧
        schedMakeRunnable s2 t = some s' := by
      simpa [schedCancel, hst, hc, bind_eq_some_iff] using he
    have ht2 := hset.linked.remove (by rw [hset.self]; exact hc) hrem
    rw [hset.self] at ht2
    obtain ⟨s3, rfl, ht3⟩ := ht2.linked.makeRunnable (by rw [ht2.self]; rfl) hrun
    rw [ht2.self] at ht3
    exact ⟨s3, by rw [ht2.started, hset.started], (hset.trans ht2).trans ht3⟩

theorem Linked.kthreadCancel (h : Linked s) {retval : ℤ} (hcur : t ≠ s.curthr)
    (he : kthreadCancel s t retval = some s') :
    ((s.threads t).ktState ≠ .sleepCancellable ∧
      Touches s s' t { s.threads t with ktCancelled := true, ktRetval := retval }) ∨
    ((s.threads t).ktState = .sleepCancellable ∧
      ∃ s1, s' = { s1 with started := update s.started t true } ∧ Touches s s1 t (Kthread.place
          { s.threads t with ktCancelled := true, ktRetval := retval }
          (if (s.threads t).ktProc = pidIdle then none else some .runq) .run)) := by
  have hmark : Touches s (s.setThread t
      { s.threads t with ktCancelled := true, ktRetval := retval }) t _ :=
    h.setThread rfl rfl
  unfold KernelScheduler.kthreadCancel at he
  rw [if_neg hcur] at he
  by_cases hst : (s.threads t).ktState = .sleepCancellable
  · rw [if_pos hst] at he
    obtain ⟨s1, rfl, ht⟩ := hmark.linked.cancel (by rw [hmark.self]; exact hst) he
    rw [hmark.self] at ht
    exact .inr ⟨hst, s1, rfl, hmark.trans ht⟩
  · rw [if_neg hst] at he
    exact .inl ⟨hst, some.inj he ▸ hmark⟩

omit [DecidableEq Q] in
theorem Linked.exit (h : Linked s) {retval : ℤ} (he : kthreadExit s retval = some s') :
    (s.threads s.curthr).ktWchan = none ∧
    ∃ s1, s' = { s1 with exited := update s.exited s.curthr true } ∧
      Touches s s1 s.curthr
        { s.threads s.curthr with ktRetval := retval, ktState := .exited } := by
  simp only [kthreadExit, ite_none_right_eq_some, some.injEq] at he
  obtain ⟨⟨hw, -⟩, rfl⟩ := he
  exact ⟨hw, _, rfl, h.setThread rfl rfl⟩

end SystemsProjects.KernelScheduler
