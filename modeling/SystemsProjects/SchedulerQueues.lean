import SystemsProjects.GuardedRuns
import SystemsProjects.KernelScheduler

/-!
# No scheduler operation loses a thread

The invariant of the queues over whole runs of the scheduler: every operation
moves one thread between at most two queues, and what has to be kept is stated
once for such a move. The one exception is `sched_switch`, which changes the
current thread and leaves the thread that called it wherever it was; callers
put themselves on a queue first, or have exited.
-/
namespace SystemsProjects.SchedulerQueues

open Function GuardedRuns KernelScheduler Option

variable {Q : Type}

/-- Threads are made runnable only while they are on no queue. -/
def Offered (s : Sched Q) : Op Q → Prop
  | .makeRunnable t => (s.threads t).ktWchan = none
  | _ => True

/-- What the callers in the kernel keep to: `sched_switch` is called by a thread
that is on a queue or has exited, and nobody goes to sleep twice. -/
def Disciplined (s : Sched Q) : Op Q → Prop
  | .switch => (s.threads s.curthr).ktWchan ≠ none ∨ s.exited s.curthr = true
  | .cancellableSleepOn _ => (s.threads s.curthr).ktWchan = none
  | op => Offered s op

/-- The scheduler before the first thread is made runnable. -/
structure Booted (s : Sched Q) : Prop where
  queue_empty : ∀ c, s.queue c = ⟨[], 0⟩
  wchan_none : ∀ t, (s.threads t).ktWchan = none
  qlink_none : ∀ t, (s.threads t).ktQlink = false
  awake : ∀ t, (s.threads t).ktState ≠ .sleepCancellable
  only_current : ∀ t, s.started t = true → t = s.curthr
  not_switching : s.switching = false

structure QueuesConsistent (s : Sched Q) : Prop where
  onOneQueue : ∀ t c d, t ∈ (s.queue c).tqList → t ∈ (s.queue d).tqList → c = d
  onceOnIt : ∀ c, (s.queue c).tqList.Nodup
  wchan_iff : ∀ t c, (s.threads t).ktWchan = some c ↔ t ∈ (s.queue c).tqList
  size_eq : ∀ c, (s.queue c).tqSize = (s.queue c).tqList.length
  runq_run : ∀ t ∈ (s.queue .runq).tqList, (s.threads t).ktState = .run
  not_lost : ∀ t, s.started t = true → (s.threads t).ktProc ≠ pidIdle → s.exited t = false →
    t = s.curthr ∨ ∃ c, t ∈ (s.queue c).tqList

structure Placed (k : Kthread Q) : Prop where
  runq : k.ktWchan = some .runq → k.ktState = .run
  wait : ∀ q, k.ktWchan = some (.wait q) → k.ktState = .sleep ∨ k.ktState = .sleepCancellable
  cancellable : k.ktState = .sleepCancellable → ∃ q, k.ktWchan = some (.wait q)

/-- The invariant that carries `QueuesConsistent`: in addition, sleepers are marked
as such, and the thread that waits inside `sched_switch` has been parked. -/
structure Inv (s : Sched Q) : Prop where
  linked : Linked s
  placed : ∀ t, Placed (s.threads t)
  kept : ∀ t, s.started t = true → (s.threads t).ktProc ≠ pidIdle → s.exited t = false →
    t = s.curthr ∨ (s.threads t).ktWchan ≠ none
  parked : s.switching = true →
    (s.threads s.curthr).ktWchan ≠ none ∨ s.exited s.curthr = true

theorem Placed.onRunq (k : Kthread Q) : Placed (k.place (some .runq) .run) :=
  ⟨fun _ => rfl, fun q hq => by simp [Kthread.place] at hq, fun hs => by simp [Kthread.place] at hs⟩

theorem Placed.offQueue (k : Kthread Q) : Placed (k.place none .run) :=
  ⟨fun _ => rfl, fun q hq => by simp [Kthread.place] at hq, fun hs => by simp [Kthread.place] at hs⟩

variable {k : Kthread Q} {s s' : Sched Q} {t : Tid}

/-- A step that moves one thread keeps the invariant if the thread stays queued, was
on no queue before, or need not be kept. -/
theorem Inv.touch (h : Inv s) (ht : Touches s s' t k) (hproc : k.ktProc = (s.threads t).ktProc)
    (hk : Placed k) (hkeep : k.ktWchan ≠ none ∨ (s.threads t).ktWchan = none ∨
      (k.ktProc = pidIdle ∧ t ≠ s.curthr)) : Inv s' := by
  refine ⟨ht.linked, fun u => ?_, fun u hu hpu hxu => ?_, fun hsw => ?_⟩
  · by_cases hut : u = t
    · rw [hut, ht.self]
      exact hk
    · rw [ht.other hut]
      exact h.placed u
  · rw [ht.curthr]
    rw [ht.started] at hu
    rw [ht.exited] at hxu
    by_cases hut : u = t
    · subst hut
      rw [ht.self] at hpu ⊢
      rcases hkeep with hk | hold | ⟨hidle, -⟩
      · exact .inr hk
      · have := h.kept u hu (hproc ▸ hpu) hxu
        simp_all
      · exact absurd hidle hpu
    · rw [ht.other hut] at hpu ⊢
      exact h.kept u hu hpu hxu
  · rw [ht.curthr, ht.exited]
    rw [ht.switching] at hsw
    by_cases hut : s.curthr = t
    · subst hut
      rw [ht.self]
      rcases hkeep with hk | hold | ⟨-, hne⟩
      · exact .inl hk
      · have := h.parked hsw
        simp_all
      · exact absurd rfl hne
    · rw [ht.other hut]
      exact h.parked hsw

variable {q : Q} {retval : ℤ} {s1 : Sched Q}

theorem Inv.wakesOne (h : Inv s) (hw : WakesOne q s s') : Inv s' := by
  obtain ⟨t, -, ht⟩ := hw
  exact h.touch ht rfl (.onRunq _) (.inl (by simp [Kthread.place]))

theorem Inv.start (h : Inv s) (f : Tid → Bool) (hf : ∀ u, u ≠ t → f u = s.started u)
    (ht : (s.threads t).ktWchan ≠ none ∨ (s.threads t).ktProc = pidIdle) :
    Inv { s with started := f } := by
  refine ⟨linked_of_same h.linked rfl rfl, h.placed, fun u hu hpu hxu => ?_, h.parked⟩
  by_cases hut : u = t
  · subst hut
    exact .inr (ht.resolve_right hpu)
  · exact h.kept u (hf u hut ▸ hu) hpu hxu

/-- A thread that is put on the run queue, or belongs to the idle process, may be
counted as started. -/
theorem Inv.runnable (h : Inv s)
    (ht : Touches s s1 t (k.place (if k.ktProc = pidIdle then none else some .runq) .run))
    (hproc : k.ktProc = (s.threads t).ktProc)
    (hkeep : (s.threads t).ktWchan = none ∨ t ≠ s.curthr) :
    Inv { s1 with started := update s.started t true } := by
  have hf : ∀ u, u ≠ t → update s.started t true u = s1.started u := by
    intro u hu
    rw [update_of_ne hu, ht.started]
  split_ifs at ht with hidle
  · refine (h.touch ht hproc (.offQueue _) (.inr (hkeep.imp_right fun hne => ?_))).start _ hf
      (.inr ?_)
    · exact ⟨hidle, hne⟩
    · rw [ht.self]
      exact hidle
  · refine (h.touch ht hproc (.onRunq _) (.inl (by simp [Kthread.place]))).start _ hf (.inl ?_)
    rw [ht.self]
    simp [Kthread.place]

theorem Inv.exit (h : Inv s) (he : kthreadExit s retval = some s') : Inv s' := by
  obtain ⟨hw, s1, rfl, ht⟩ := h.linked.exit he
  have hplaced : Placed { s.threads s.curthr with ktRetval := retval, ktState := .exited } :=
    ⟨fun hr => by simp [hw] at hr, fun q hq => by simp [hw] at hq, fun hs => by simp at hs⟩
  have h1 := h.touch ht rfl hplaced (.inr (.inl hw))
  refine ⟨linked_of_same h1.linked rfl rfl, h1.placed, fun u hu hpu hxu => ?_,
    fun _ => .inr (by simp [ht.curthr])⟩
  by_cases hut : u = s.curthr
  · exact .inl (hut.trans ht.curthr.symm)
  · refine h1.kept u hu hpu ?_
    rw [ht.exited]
    simpa [hut] using hxu

theorem Booted.inv (h : Booted s) : Inv s := by
  refine ⟨⟨?_, ?_, ?_, ?_⟩, ?_, fun t ht _ _ => .inl (h.only_current t ht), ?_⟩
  · simp [h.queue_empty, h.wchan_none]
  · simp [h.wchan_none, h.qlink_none]
  · simp [h.queue_empty]
  · simp [h.queue_empty]
  · exact fun t => ⟨by simp [h.wchan_none], by simp [h.wchan_none],
      fun hs => absurd hs (h.awake t)⟩
  · simp [h.not_switching]

theorem Inv.consistent (h : Inv s) : QueuesConsistent s where
  onOneQueue t c d hc hd := by
    rw [h.linked.mem_iff] at hc hd
    exact some.inj (hc.symm.trans hd)
  onceOnIt := h.linked.nodup
  wchan_iff t c := (h.linked.mem_iff t c).symm
  size_eq := h.linked.size_eq
  runq_run t ht := (h.placed t).runq ((h.linked.mem_iff t _).1 ht)
  not_lost t hs hp hx := by
    refine (h.kept t hs hp hx).imp_right fun hw => ?_
    obtain ⟨c, hc⟩ := ne_none_iff_exists'.1 hw
    exact ⟨c, (h.linked.mem_iff t c).2 hc⟩

variable [DecidableEq Q]

/-- A parked caller may switch: the thread that is dispatched leaves the run queue and
is current from then on. -/
theorem Inv.switch (h : Inv s)
    (hpark : (s.threads s.curthr).ktWchan ≠ none ∨ s.exited s.curthr = true)
    (he : schedSwitch s = some s') : Inv s' := by
  obtain ⟨rfl, -⟩ | ⟨t, s1, hc, ht, rfl⟩ := h.linked.switch he
  · exact ⟨linked_of_same h.linked rfl rfl, h.placed, h.kept, fun _ => hpark⟩
  · refine ⟨linked_of_same ht.linked rfl rfl, fun u => ?_, fun u hu hpu hxu => ?_,
      fun hsw => by simp at hsw⟩
    · by_cases hut : u = t
      · simpa only [hut, ht.self] using Placed.offQueue _
      · simpa only [ht.other hut] using h.placed u
    · by_cases hut : u = t
      · exact .inl hut
      · simp only [ht.started, ht.exited, ht.other hut] at hu hpu hxu ⊢
        rcases h.kept u hu hpu hxu with rfl | hw
        · exact .inr (hpark.resolve_right (by simp [hxu]))
        · exact .inr hw

variable {st : KtState}

theorem Inv.park (h : Inv s) (hst : st = .sleep ∨ st = .sleepCancellable)
    (ht : Touches s s1 s.curthr ((s.threads s.curthr).place (some (.wait q)) st))
    (he : schedSwitch s1 = some s') : Inv s' := by
  have hplaced : Placed ((s.threads s.curthr).place (some (.wait q)) st) :=
    ⟨fun hr => by simp [Kthread.place] at hr, fun _ _ => hst, fun _ => ⟨q, rfl⟩⟩
  refine (h.touch ht rfl hplaced (.inl (by simp [Kthread.place]))).switch (.inl ?_) he
  rw [ht.curthr, ht.self]
  simp [Kthread.place]

theorem Inv.sleepOn (h : Inv s) (he : schedSleepOn s q = some s') : Inv s' := by
  obtain ⟨-, s1, ht, hsw⟩ := h.linked.sleepOn he
  exact h.park (.inl rfl) ht hsw

theorem Inv.makeRunnable (h : Inv s) (hw : (s.threads t).ktWchan = none)
    (he : schedMakeRunnable s t = some s') : Inv s' := by
  obtain ⟨s1, rfl, ht⟩ := h.linked.makeRunnable hw he
  exact h.runnable ht rfl (.inl hw)

/-- The operation enqueues on `q` or wakes its threads. -/
def Names (q : Q) : Op Q → Prop
  | .wakeupOn q' => q' = q
  | .broadcastOn q' => q' = q
  | .sleepOn q' => q' = q
  | .cancellableSleepOn q' => q' = q
  | _ => False

variable {op : Op Q}

/-- What an operation of a disciplined caller does. -/
inductive Effect (s : Sched Q) (op : Op Q) : Sched Q → Prop
  | woken {q : Q} {s' : Sched Q} : Names q op → Relation.ReflTransGen (WakesOne q) s s' →
      Effect s op s'
  | parked {q : Q} {st : KtState} {s1 s' : Sched Q} : Names q op →
      st = .sleep ∨ st = .sleepCancellable → (s.threads s.curthr).ktWchan = none →
      Touches s s1 s.curthr ((s.threads s.curthr).place (some (.wait q)) st) →
      schedSwitch s1 = some s' → Effect s op s'
  | runnable {t : Tid} {k : Kthread Q} {s1 : Sched Q} :
      Touches s s1 t (k.place (if k.ktProc = pidIdle then none else some .runq) .run) →
      k.ktProc = (s.threads t).ktProc → ((s.threads t).ktWchan = none ∨ t ≠ s.curthr ∧
        (s.threads t).ktState = .sleepCancellable ∧ ∃ retval, op = .cancel t retval) →
      Effect s op { s1 with started := update s.started t true }
  | marked {t : Tid} {s' : Sched Q} (retval : ℤ) : Touches s s' t
      { s.threads t with ktCancelled := true, ktRetval := retval } → Effect s op s'
  | exited {retval : ℤ} {s' : Sched Q} : kthreadExit s retval = some s' → Effect s op s'
  | switched {s' : Sched Q} : op = .switch ∨ s.switching = true → schedSwitch s = some s' →
      Effect s op s'

theorem Steps.effect (h : Linked s) (hd : Disciplined s op) (he : Steps s op s') :
    Effect s op s' := by
  cases op with
  | makeRunnable t =>
    obtain ⟨s1, rfl, ht⟩ := h.makeRunnable hd he
    exact .runnable ht rfl (.inl hd)
  | wakeupOn q =>
    obtain ⟨⟨r, _⟩, hr, rfl⟩ := map_eq_some_iff.1 he
    obtain ⟨-, rfl, -⟩ | ⟨t, -, hc, ht⟩ := h.wakeupOn hr
    · exact .woken (q := q) rfl .refl
    · exact .woken rfl (.single ⟨t, hc, ht⟩)
  | broadcastOn q => exact .woken rfl (h.broadcastRounds _ he)
  | sleepOn q =>
    obtain ⟨hw, s1, ht, hsw⟩ := h.sleepOn (ite_none_left_eq_some.mp he).2
    exact .parked rfl (.inl rfl) hw ht hsw
  | cancellableSleepOn q =>
    replace he := ite_none_left_eq_some.mp he
    obtain ⟨⟨r, _⟩, hr, rfl⟩ := map_eq_some_iff.1 he.2
    obtain ⟨-, -, rfl⟩ | ⟨-, -, s1, ht, hsw⟩ := h.cancellableSleepOn hd hr
    · exact .woken (q := q) rfl .refl
    · exact .parked rfl (.inr rfl) hd ht hsw
  | cancel t retval =>
    replace he := ite_none_left_eq_some.mp he
    by_cases hcur : t = s.curthr
    · exact .exited (by simpa [kthreadCancel, hcur] using he.2)
    · obtain ⟨-, ht⟩ | ⟨hst, s1, rfl, ht⟩ := h.kthreadCancel hcur he.2
      · exact .marked retval ht
      · exact .runnable ht rfl (.inr ⟨hcur, hst, retval, rfl⟩)
  | exit retval => exact .exited (ite_none_left_eq_some.mp he).2
  | switch => exact .switched (.inl rfl) (ite_none_left_eq_some.mp he).2
  | intrReturn =>
    replace he := ite_none_right_eq_some.mp he
    exact .switched (.inr he.1) he.2

theorem Inv.step (hop : Disciplined s op) (he : Steps s op s') (h : Inv s) : Inv s' := by
  cases Steps.effect h.linked hop he with
  | woken _ hwakes =>
    clear he
    induction hwakes with
    | refl => exact h
    | tail _ hw ih => exact ih.wakesOne hw
  | parked _ hst _ ht hsw => exact h.park hst ht hsw
  | runnable ht hproc hwhy => exact h.runnable ht hproc (hwhy.imp_right And.left)
  | @marked t _ retval ht =>
    have hp := h.placed t
    refine h.touch ht rfl ⟨hp.runq, hp.wait, hp.cancellable⟩ ?_
    by_cases hw : (s.threads t).ktWchan = none
    · exact .inr (.inl hw)
    · exact .inl hw
  | exited hx => exact h.exit hx
  | switched hcase hsw =>
    refine h.switch ?_ hsw
    rcases hcase with rfl | hcase
    · exact hop
    · exact h.parked hcase

/-- In every run of disciplined callers, of any length and over any queues, the queues
are consistent and no started thread is lost. -/
theorem disciplined_run_queuesConsistent {s s' : Sched Q} {ops : List (Op Q)} (hs : Booted s)
    (hrun : Run Steps Disciplined s ops s') : QueuesConsistent s' :=
  (hrun.invariant (fun _ _ _ => Inv.step) hs.inv).consistent

/-- The kernel before its first thread is started: thread `t` belongs to process `t`
and the idle thread runs. -/
def bootState : Sched Q where
  threads t := ⟨t, 0, false, none, .run, false⟩
  queue _ := ⟨[], 0⟩
  curthr := 0
  switching := false
  started _ := false
  exited _ := false

omit [DecidableEq Q] in
theorem bootState_booted : Booted (bootState : Sched Q) :=
  ⟨fun _ => rfl, fun _ => rfl, fun _ => rfl, fun _ => by simp [bootState],
    fun _ h => by simp [bootState] at h, rfl⟩

theorem queuesConsistent_after_wakeup : ∃ s' : Sched Unit, Run Steps Disciplined bootState
    [.makeRunnable 1, .sleepOn (), .wakeupOn ()] s' ∧ QueuesConsistent s' := by
  have hrun : Run Steps Disciplined (bootState : Sched Unit)
      [.makeRunnable 1, .sleepOn (), .wakeupOn ()] _ :=
    .next rfl rfl (.next trivial rfl (.next trivial rfl (.done _)))
  exact ⟨_, hrun, disciplined_run_queuesConsistent bootState_booted hrun⟩

/-- A running thread that calls `sched_switch` without being on a queue is never
dispatched again: here thread 1 gives way to thread 2. -/
theorem bare_switch_loses_thread : ∃ s' : Sched Unit, Run Steps Offered bootState
    [.makeRunnable 1, .makeRunnable 2, .sleepOn (), .switch] s' ∧ ¬QueuesConsistent s' := by
  refine ⟨_, .next rfl rfl (.next rfl rfl (.next trivial rfl (.next trivial rfl (.done _)))), ?_⟩
  intro h
  rcases h.not_lost 1 rfl (by decide) rfl with hcur | ⟨c, hc⟩
  · exact absurd hcur (by decide)
  · rw [← h.wchan_iff] at hc
    simp [Sched.setThread, Sched.setWchan, Sched.setQueue, Sched.setState, bootState] at hc

/-- The same threads sleep on `q` in both states, and in the same way. -/
structure SameSleepers (q : Q) (s s' : Sched Q) : Prop where
  wchan_iff : ∀ t, (s'.threads t).ktWchan = some (.wait q) ↔
    (s.threads t).ktWchan = some (.wait q)
  state_eq : ∀ t, (s.threads t).ktWchan = some (.wait q) →
    (s'.threads t).ktState = (s.threads t).ktState

section

omit [DecidableEq Q]

theorem SameSleepers.refl (q : Q) (s : Sched Q) : SameSleepers q s s :=
  ⟨fun _ => Iff.rfl, fun _ _ => rfl⟩

theorem SameSleepers.trans {s2 : Sched Q} (h : SameSleepers q s s1) (h' : SameSleepers q s1 s2) :
    SameSleepers q s s2 where
  wchan_iff t := (h'.wchan_iff t).trans (h.wchan_iff t)
  state_eq t ht := (h'.state_eq t ((h.wchan_iff t).2 ht)).trans (h.state_eq t ht)

theorem SameSleepers.touch (ht : Touches s s' t k) (hk : k.ktWchan ≠ some (.wait q))
    (hold : (s.threads t).ktWchan ≠ some (.wait q)) : SameSleepers q s s' := by
  refine ⟨fun u => ?_, fun u hu => ?_⟩
  · by_cases hut : u = t
    · rw [hut, ht.self]
      exact iff_of_false hk hold
    · rw [ht.other hut]
  · have hut : u ≠ t := fun heq => hold (heq ▸ hu)
    rw [ht.other hut]

theorem SameSleepers.mark (ht : Touches s s' t k) (hw : k.ktWchan = (s.threads t).ktWchan)
    (hst : k.ktState = (s.threads t).ktState) : SameSleepers q s s' := by
  refine ⟨fun u => ?_, fun u _ => ?_⟩
  · by_cases hut : u = t
    · rw [hut, ht.self, hw]
    · rw [ht.other hut]
  · by_cases hut : u = t
    · rw [hut, ht.self, hst]
    · rw [ht.other hut]

end

theorem SameSleepers.switch (h : Linked s) (he : schedSwitch s = some s') :
    SameSleepers q s s' := by
  obtain ⟨rfl, -⟩ | ⟨t, s1, hc, ht, rfl⟩ := h.switch he
  · exact ⟨fun _ => Iff.rfl, fun _ _ => rfl⟩
  · have hsame : SameSleepers q s s1 := .touch ht (by simp [Kthread.place]) (by simp [hc])
    exact ⟨hsame.wchan_iff, hsame.state_eq⟩

variable {q' : Q}

omit [DecidableEq Q] in
theorem SameSleepers.wakesOne (hq : q' ≠ q) (hw : WakesOne q' s s') : SameSleepers q s s' := by
  obtain ⟨t, hc, ht⟩ := hw
  exact .touch ht (by simp [Kthread.place]) (by simp [hc, hq])

theorem SameSleepers.park (hq : q' ≠ q) (hw : (s.threads s.curthr).ktWchan = none)
    (ht : Touches s s1 s.curthr ((s.threads s.curthr).place (some (.wait q')) st))
    (he : schedSwitch s1 = some s') : SameSleepers q s s' :=
  (SameSleepers.touch ht (by simp [Kthread.place, hq]) (by simp [hw])).trans
    (.switch ht.linked he)

omit [DecidableEq Q] in
theorem SameSleepers.exit (h : Linked s) (he : kthreadExit s retval = some s') :
    SameSleepers q s s' := by
  obtain ⟨hw, s1, rfl, ht⟩ := h.exit he
  have hsame : SameSleepers q s s1 := .touch ht (by simp [hw]) (by simp [hw])
  exact ⟨hsame.wchan_iff, hsame.state_eq⟩

/-- An operation that does not name the queue leaves its sleepers there, except for a
cancellation of one of them. -/
theorem Steps.sameSleepers (h : Linked s) (he : Steps s op s') (hd : Disciplined s op)
    (hq : ¬Names q op)
    (hcancel : ∀ t retval, op = .cancel t retval → (s.threads t).ktState = .sleepCancellable →
      (s.threads t).ktWchan ≠ some (.wait q)) : SameSleepers q s s' := by
  have hother {q' : Q} (hn : Names q' op) : q' ≠ q := fun heq => hq (heq ▸ hn)
  cases Steps.effect h hd he with
  | woken hn hwakes =>
    clear he
    induction hwakes with
    | refl => exact .refl q s
    | tail _ hw ih => exact ih.trans (.wakesOne (hother hn) hw)
  | parked hn _ hw ht hsw => exact .park (hother hn) hw ht hsw
  | @runnable t k s1 ht _ hwhy =>
    have hsame : SameSleepers q s s1 := by
      refine .touch ht ?_ ?_
      · split_ifs <;> simp [Kthread.place]
      · rcases hwhy with hw | ⟨-, hst, retval, hop⟩
        · simp [hw]
        · exact hcancel t retval hop hst
    exact ⟨hsame.wchan_iff, hsame.state_eq⟩
  | marked retval ht => exact .mark ht rfl rfl
  | exited hx => exact .exit h hx
  | switched _ hsw => exact .switch h hsw

/-- Either the current thread stays and no wait inside `sched_switch` ends, or a thread
of the run queue is dispatched. -/
def CurrentFrom (s s' : Sched Q) : Prop :=
  (s'.curthr = s.curthr ∧ (s'.switching = false → s.switching = false)) ∨
  (s'.switching = false ∧ (s.threads s'.curthr).ktWchan = some .runq)

omit [DecidableEq Q] in
theorem CurrentFrom.touch (ht : Touches s s' t k) :
    CurrentFrom s s' := .inl ⟨ht.curthr, fun hsw => ht.switching ▸ hsw⟩

theorem CurrentFrom.switch (h : Linked s) (he : schedSwitch s = some s') : CurrentFrom s s' := by
  obtain ⟨rfl, -⟩ | ⟨t, s1, hc, -, rfl⟩ := h.switch he
  · exact .inl ⟨rfl, fun hsw => by simp at hsw⟩
  · exact .inr ⟨rfl, hc⟩

theorem switch_current_off (h : Linked s) (he : schedSwitch s = some s')
    (hsw : s'.switching = false) : (s'.threads s'.curthr).ktWchan = none := by
  obtain ⟨rfl, -⟩ | ⟨t, s1, -, ht, rfl⟩ := h.switch he
  · simp at hsw
  · change (s1.threads t).ktWchan = none
    rw [ht.self]
    rfl

/-- A thread that parks itself stays current only while it waits for an interrupt;
otherwise another thread, which was runnable, takes its place. -/
theorem park_current (ht : Touches s s1 s.curthr ((s.threads s.curthr).place (some (.wait q)) st))
    (he : schedSwitch s1 = some s') : s'.switching = true ∧ s'.curthr = s.curthr ∨
    s'.switching = false ∧ s'.curthr ≠ s.curthr ∧
      (s.threads s'.curthr).ktWchan = some .runq := by
  obtain ⟨rfl, -⟩ | ⟨t, s2, hc, -, rfl⟩ := ht.linked.switch he
  · exact .inl ⟨rfl, ht.curthr⟩
  · have hne : t ≠ s.curthr := by
      intro heq
      rw [heq, ht.self] at hc
      simp [Kthread.place] at hc
    exact .inr ⟨rfl, hne, by rwa [ht.other hne] at hc⟩

theorem park_sleepers (ht : Touches s s1 s.curthr ((s.threads s.curthr).place (some (.wait q')) st))
    (he : schedSwitch s1 = some s') (t : Tid) :
    (s'.threads t).ktWchan = some (.wait q) ↔
      if t = s.curthr then q' = q else (s.threads t).ktWchan = some (.wait q) := by
  rw [(SameSleepers.switch ht.linked he).wchan_iff t]
  split_ifs with hcur
  · rw [hcur, ht.self]
    simp [Kthread.place]
  · rw [ht.other hcur]

theorem CurrentFrom.park
    (ht : Touches s s1 s.curthr ((s.threads s.curthr).place (some (.wait q)) st))
    (he : schedSwitch s1 = some s') : CurrentFrom s s' := by
  obtain ⟨hsw, hcur⟩ | ⟨hsw, -, hc⟩ := park_current ht he
  · exact .inl ⟨hcur, fun hs => by simp [hsw] at hs⟩
  · exact .inr ⟨hsw, hc⟩

theorem Steps.currentFrom (h : Linked s) (hd : Disciplined s op) (he : Steps s op s') :
    CurrentFrom s s' := by
  cases Steps.effect h hd he with
  | woken _ hwakes =>
    clear he
    refine .inl ?_
    induction hwakes with
    | refl => exact ⟨rfl, id⟩
    | tail _ hw ih =>
      obtain ⟨t, -, ht⟩ := hw
      exact ⟨ht.curthr.trans ih.1, fun hsw => ih.2 (ht.switching ▸ hsw)⟩
  | parked _ _ _ ht hsw => exact .park ht hsw
  | runnable ht => exact .inl ⟨ht.curthr, fun hsw => ht.switching ▸ hsw⟩
  | marked retval ht => exact .touch ht
  | exited hx =>
    obtain ⟨-, s1, rfl, ht⟩ := h.exit hx
    exact .inl ⟨ht.curthr, fun hsw => ht.switching ▸ hsw⟩
  | switched _ hsw => exact .switch h hsw

end SystemsProjects.SchedulerQueues
