import SystemsProjects.KmutexHandoff
import SystemsProjects.WaitingLines

/-!
# The order in which a mutex is handed over

Queues are filled at the head and emptied at the tail, so that the oldest sleeper is woken
first. The holder of a mutex and the threads on its wait queue, oldest first, are therefore a
line: `kmutex_lock` joins it at the end, and `kmutex_unlock` by the holder lets the head leave.
This needs that nothing else takes a thread off the wait queue, which holds while nobody locks
cancellably: a cancellation removes only threads that sleep cancellably.

A run is watched for one mutex: who called `kmutex_lock`, who was made `km_holder`, and to whom
`kmutex_lock` has returned, each in the order of time.
-/
namespace SystemsProjects.KmutexOrder

open Function KernelScheduler SchedulerQueues KmutexHandoff WaitingLines List Option

/-! ### Queues that an operation leaves alone -/

variable {r : Option Tid}

section Queues

variable {Q : Type} [DecidableEq Q] {s s' : Sched Q} {c d : Chan Q} {t : Tid} {q : Q}

theorem enqueue_queue (he : ktqueueEnqueue s c t = some s') : s'.queue d =
    if d = c then ⟨t::(s.queue c).tqList, (s.queue c).tqSize+1⟩ else s.queue d := by
  simp only [ktqueueEnqueue, ite_none_right_eq_some, some.injEq] at he
  obtain ⟨-, rfl⟩ := he
  exact update_apply ..

theorem dequeue_queue (he : ktqueueDequeue s c = (r, s')) :
    r = (s.queue c).tqList.getLast? ∧ (s'.queue c).tqList = (s.queue c).tqList.dropLast ∧
      ∀ d, d ≠ c → s'.queue d = s.queue d := by
  unfold ktqueueDequeue at he
  cases hl : (s.queue c).tqList.getLast? with
  | none =>
    rw [hl] at he
    cases he
    refine ⟨rfl, ?_, fun _ _ => rfl⟩
    rw [getLast?_eq_none_iff.mp hl, dropLast_nil]
  | some t =>
    rw [hl] at he
    cases he
    refine ⟨rfl, ?_, fun d hd => update_of_ne hd _ _⟩
    change (update s.queue c _ c).tqList = _
    rw [update_self]

theorem remove_queue (he : ktqueueRemove s c t = some s') (hd : d ≠ c) :
    s'.queue d = s.queue d := by
  simp only [ktqueueRemove, ite_none_right_eq_some, some.injEq] at he
  obtain ⟨-, rfl⟩ := he
  exact update_of_ne hd _ _

theorem switch_queue (he : schedSwitch s = some s') (hd : d ≠ .runq) : s'.queue d = s.queue d := by
  unfold schedSwitch at he
  split_ifs at he
  · cases he
    rfl
  · rcases hq : ktqueueDequeue s .runq with ⟨_ | t, s1⟩
    · simp [hq] at he
    · simp only [hq, some.injEq] at he
      subst he
      exact (dequeue_queue hq).2.2 d hd

theorem sleepOn_queue (he : schedSleepOn s q = some s') :
    (s'.queue (.wait q)).tqList = s.curthr::(s.queue (.wait q)).tqList ∧
      ∀ p, p ≠ q → s'.queue (.wait p) = s.queue (.wait p) := by
  simp only [schedSleepOn, bind_eq_bind, bind_eq_some_iff] at he
  obtain ⟨s1, hs1, hsw⟩ := he
  constructor
  · rw [switch_queue hsw (by simp), enqueue_queue hs1, if_pos rfl]
    rfl
  · intro p hp
    rw [switch_queue hsw (by simp), enqueue_queue hs1, if_neg (by simpa using hp)]
    rfl

theorem cancellableSleepOn_queue {r : ℤ} (he : schedCancellableSleepOn s q = some (r, s'))
    {p : Q} (hp : p ≠ q) : s'.queue (.wait p) = s.queue (.wait p) := by
  unfold schedCancellableSleepOn at he
  split_ifs at he
  · cases he
    rfl
  · simp only [Option.pure_def, Option.bind_eq_bind, Option.bind_eq_some_iff, Option.some.injEq,
      Prod.mk.injEq] at he
    obtain ⟨s1, hs1, s2, hsw, -, rfl⟩ := he
    rw [switch_queue hsw (by simp), enqueue_queue hs1, if_neg (by simpa using hp)]
    rfl

theorem wakeupOn_queue (he : schedWakeupOn s q = some (r, s')) :
    r = (s.queue (.wait q)).tqList.getLast? ∧
      (s'.queue (.wait q)).tqList = (s.queue (.wait q)).tqList.dropLast ∧
      ∀ p, p ≠ q → s'.queue (.wait p) = s.queue (.wait p) := by
  unfold schedWakeupOn at he
  rcases hd : ktqueueDequeue s (.wait q) with ⟨_ | t, s1⟩
  · simp only [hd, some.injEq, Prod.mk.injEq] at he
    obtain ⟨rfl, rfl⟩ := he
    obtain ⟨hr, hl, ho⟩ := dequeue_queue hd
    exact ⟨hr, hl, fun p hp => ho _ (by simpa using hp)⟩
  · simp only [hd, Option.pure_def, Option.bind_eq_bind, Option.ite_none_right_eq_some,
      Option.bind_eq_some_iff, Option.some.injEq, Prod.mk.injEq] at he
    obtain ⟨-, s2, hs2, rfl, rfl⟩ := he
    obtain ⟨hr, hl, ho⟩ := dequeue_queue hd
    have hsame : ∀ p, s2.queue (.wait p) = s1.queue (.wait p) := by
      intro p
      rw [enqueue_queue hs2, if_neg (by simp)]
      rfl
    refine ⟨hr, by rw [hsame, hl], fun p hp => ?_⟩
    rw [hsame, ho _ (by simpa using hp)]

theorem broadcastRounds_queue (n : ℕ) (he : broadcastRounds n s q = some s') {p : Q}
    (hp : p ≠ q) : s'.queue (.wait p) = s.queue (.wait p) := by
  induction n generalizing s with
  | zero =>
    simp only [broadcastRounds, ite_none_left_eq_some, some.injEq] at he
    rw [he.2]
  | succ n ih =>
    unfold broadcastRounds at he
    split_ifs at he
    · rcases hd : ktqueueDequeue s (.wait q) with ⟨_ | t, s1⟩
      · simp [hd] at he
      · simp only [hd, bind_eq_bind, bind_eq_some_iff] at he
        obtain ⟨s2, hs2, hrest⟩ := he
        rw [ih hrest, enqueue_queue hs2, if_neg (by simp)]
        exact (dequeue_queue hd).2.2 _ (by simpa using hp)
    · cases he
      rfl

theorem makeRunnable_queue (he : schedMakeRunnable s t = some s') :
    s'.queue (.wait q) = s.queue (.wait q) := by
  unfold schedMakeRunnable at he
  split_ifs at he
  · cases he
    rfl
  · rw [enqueue_queue he, if_neg (by simp)]
    rfl

omit [DecidableEq Q] in
theorem exit_queue {retval : ℤ} (he : kthreadExit s retval = some s') : s'.queue = s.queue := by
  simp only [kthreadExit, ite_none_right_eq_some, some.injEq] at he
  obtain ⟨-, rfl⟩ := he
  rfl

theorem kthreadCancel_queue {retval : ℤ} (he : kthreadCancel s t retval = some s')
    (hq : (s.threads t).ktState = .sleepCancellable →
      (s.threads t).ktWchan ≠ some (.wait q)) : s'.queue (.wait q) = s.queue (.wait q) := by
  unfold kthreadCancel at he
  split_ifs at he with hcur hst
  · rw [exit_queue he]
  · have hself : ∀ k, (s.setThread t k).threads t = k := fun k => update_self ..
    simp only [schedCancel, hself, hst, true_or, if_true] at he
    cases hc : (s.threads t).ktWchan with
    | none => simp [hc] at he
    | some c =>
      simp only [hc, bind_eq_bind, bind_eq_some_iff] at he
      obtain ⟨s2, hrem, hrun⟩ := he
      have hne : (.wait q : Chan Q) ≠ c := by
        rintro rfl
        exact hq hst hc
      rw [makeRunnable_queue hrun, remove_queue hrem hne]
      rfl
  · cases he
    rfl

theorem Steps.sameQueue {op : Op Q} (he : Steps s op s') (hq : ¬Names q op)
    (hcancel : ∀ t retval, op = .cancel t retval → (s.threads t).ktState = .sleepCancellable →
      (s.threads t).ktWchan ≠ some (.wait q)) : s'.queue (.wait q) = s.queue (.wait q) := by
  cases op with
  | makeRunnable t => exact makeRunnable_queue he
  | wakeupOn p =>
    obtain ⟨⟨r, _⟩, hr, rfl⟩ := map_eq_some_iff.1 he
    exact (wakeupOn_queue hr).2.2 q fun h => hq h.symm
  | broadcastOn p => exact broadcastRounds_queue _ he fun h => hq h.symm
  | sleepOn p =>
    replace he := ite_none_left_eq_some.mp he
    exact (sleepOn_queue he.2).2 q fun h => hq h.symm
  | cancellableSleepOn p =>
    replace he := ite_none_left_eq_some.mp he
    obtain ⟨⟨r, _⟩, hr, rfl⟩ := map_eq_some_iff.1 he.2
    exact cancellableSleepOn_queue hr fun h => hq h.symm
  | cancel t retval =>
    replace he := ite_none_left_eq_some.mp he
    exact kthreadCancel_queue he.2 (hcancel t retval rfl)
  | exit retval =>
    replace he := ite_none_left_eq_some.mp he
    rw [exit_queue he.2]
  | switch =>
    replace he := ite_none_left_eq_some.mp he
    exact switch_queue he.2 (by simp)
  | intrReturn =>
    replace he := ite_none_right_eq_some.mp he
    exact switch_queue he.2 (by simp)

theorem wakeupOn_returns (h : SchedulerQueues.Inv s) (q : Q) :
    ∃ r s', schedWakeupOn s q = some (r, s') := by
  unfold schedWakeupOn
  rcases hd : ktqueueDequeue s (.wait q) with ⟨_ | t, s1⟩
  · exact ⟨none, s1, rfl⟩
  · obtain ⟨hr, -⟩ | ⟨u, hu, hc, ht⟩ := h.linked.dequeue hd
    · cases hr
    · cases hu
      have hst := (h.placed t).wait q hc
      have hself := ht.self
      simp only [hself, Kthread.place]
      rw [if_pos hst]
      have hw : ((s1.setState t .run).threads t).ktWchan = none := by
        simp [Sched.setState, Sched.setThread, hself, Kthread.place]
      simp [ktqueueEnqueue, hw]

end Queues

/-! ### The line of a mutex -/

variable {M Q : Type} [DecidableEq M] [DecidableEq Q] {l l' : Locks M Q} {m : M}
  {op : LockOp M Q}

/-- The threads on the wait queue of a mutex, the oldest first. -/
def waiting (l : Locks M Q) (m : M) : List Tid := (l.sched.queue (.wait (.inl m))).tqList.reverse

/-- The holder, and behind it the threads that wait. -/
def line (l : Locks M Q) (m : M) : List Tid := (l.kmHolder m).toList++waiting l m

/-- `kmutex_lock_cancellable` is not called. -/
def Plain (_ : Locks M Q) : LockOp M Q → Prop
  | .lockCancellable _ => False
  | _ => True

/-- The invariant of the hand-over, and what plain locking adds to it: nobody waits
cancellably, a free mutex has no waiters, and its holder has returned from `kmutex_lock` or is
about to. -/
structure PlainInv (l : Locks M Q) : Prop where
  inv : KmutexHandoff.Inv l
  asleep : ∀ t m, (l.sched.threads t).ktWchan = some (.wait (.inl m)) →
    (l.sched.threads t).ktState = .sleep
  free : ∀ m, l.kmHolder m = none → waiting l m = []
  entered : ∀ t m, l.kmHolder m = some t → l.inside t m = true ∨ l.pending t = some m

section

omit [DecidableEq M] [DecidableEq Q]

theorem plainInv_initial (h : Initial l) : PlainInv l where
  inv := h.inv
  asleep t m ht := by simp [h.booted.wchan_none] at ht
  free m _ := by simp [waiting, h.booted.queue_empty]
  entered t m ht := by simp [h.holder_none] at ht

theorem PlainInv.uncancelled (h : PlainInv l) (hop : Plain l op) : Uncancelled l op := by
  cases op with
  | lock m => trivial
  | lockCancellable m => exact hop.elim
  | unlock m => trivial
  | returns => trivial
  | other op =>
    cases op with
    | cancel t retval =>
      intro hst m hw
      rw [h.asleep t m hw] at hst
      cases hst
    | _ => trivial

theorem plain_of_ne (l : Locks M Q) (h : ∀ n, op ≠ .lockCancellable n) : Plain l op := by
  cases op with
  | lockCancellable n => exact h n rfl
  | _ => trivial

end

inductive PlainStep (l : Locks M Q) : LockOp M Q → Locks M Q → Prop
  | acquired (m : M) : l.kmHolder m = none → PlainStep l (.lock m)
      ((l.setHolder m (some l.sched.curthr)).setInside l.sched.curthr m true)
  | queued (m : M) (t : Tid) (s : Sched (M ⊕ Q)) : l.kmHolder m = some t →
      l.pending l.sched.curthr = none → schedSleepOn l.sched (.inl m) = some s →
      PlainStep l (.lock m) (l.await m s)
  | handed (m : M) (r : Option Tid) (s : Sched (M ⊕ Q)) :
      l.kmHolder m = some l.sched.curthr → l.pending l.sched.curthr = none →
      l.sched.switching = false → schedWakeupOn l.sched (.inl m) = some (r, s) →
      PlainStep l (.unlock m) { (l.setHolder m r).setInside l.sched.curthr m false with sched := s }
  | left (m : M) : l.kmHolder m ≠ some l.sched.curthr →
      PlainStep l (.unlock m) (l.setInside l.sched.curthr m false)
  | returned (m : M) : l.sched.switching = false → l.pending l.sched.curthr = some m →
      PlainStep l .returns { l.setInside l.sched.curthr m true with
        pending := update l.pending l.sched.curthr none }
  | other (op : Op Q) (s : Sched (M ⊕ Q)) : Disciplined l.sched (onOther op) →
      Steps l.sched (onOther op) s → PlainStep l (.other op) { l with sched := s }

theorem plainStep_of_steps (hop : Plain l op) (he : LockSteps l op l') : PlainStep l op l' := by
  obtain ⟨he, hproper⟩ := he
  cases op with
  | lock m =>
    simp only [KmutexHandoff.step, ite_none_right_eq_some, kmutexLock, Locks.free,
      Bool.and_eq_true, isNone_iff_eq_none] at he
    obtain ⟨⟨-, hpend⟩, he⟩ := he
    split_ifs at he with hself hfree
    · cases he
      exact .acquired m hfree
    · simp only [Option.pure_def, Option.bind_eq_bind, Option.bind_eq_some_iff,
        Option.some.injEq] at he
      obtain ⟨s, hs, rfl⟩ := he
      obtain ⟨t, ht⟩ := ne_none_iff_exists'.mp hfree
      exact .queued m t s ht hpend hs
  | lockCancellable m => exact hop.elim
  | unlock m =>
    simp only [KmutexHandoff.step, ite_none_right_eq_some, kmutexUnlock, Locks.free,
      Bool.and_eq_true, isNone_iff_eq_none, Bool.not_eq_true'] at he
    obtain ⟨⟨hsw, hpend⟩, he⟩ := he
    split_ifs at he with hhold
    · simp only [Option.pure_def, Option.bind_eq_bind, Option.bind_eq_some_iff,
        Option.some.injEq] at he
      obtain ⟨⟨r, s⟩, hs, rfl⟩ := he
      exact .handed m r s hhold hpend hsw hs
    · cases he
      exact .left m hhold
  | returns =>
    simp only [KmutexHandoff.step, ite_none_left_eq_some, map_eq_some_iff] at he
    obtain ⟨hsw, m, hm, rfl⟩ := he
    exact .returned m (by simpa using hsw) hm
  | other op =>
    simp only [KmutexHandoff.step, ite_none_right_eq_some, map_eq_some_iff] at he
    obtain ⟨-, s, hs, rfl⟩ := he
    exact .other op s hproper hs

variable {s : Sched (M ⊕ Q)}

theorem PlainInv.other_queue (h : PlainInv l) {op : Op Q} (he : Steps l.sched (onOther op) s)
    (m : M) :
    s.queue (.wait (.inl m)) = l.sched.queue (.wait (.inl m)) := by
  refine Steps.sameQueue he (not_names_onOther m op) ?_
  intro t retval _ hst hw
  rw [h.asleep t m hw] at hst
  cases hst

def moveOf (m : M) (l : Locks M Q) (op : LockOp M Q) : Move Tid :=
  if op = .lock m then .joins l.sched.curthr
  else if op = .unlock m ∧ l.kmHolder m = some l.sched.curthr then .leaves
  else .stays

theorem head?_reverse_eq (l : List Tid) : l.getLast? = l.reverse.head? := head?_reverse.symm

theorem line_step (h : PlainInv l) (hs : PlainStep l op l') (m : M) :
    line l' m = (moveOf m l op).apply (line l m) := by
  have hcongr : ∀ {l' : Locks M Q}, l'.kmHolder m = l.kmHolder m →
      (l'.sched.queue (.wait (.inl m))).tqList = (l.sched.queue (.wait (.inl m))).tqList →
      line l' m = line l m := by
    intro l' hh hq
    rw [line, line, waiting, waiting, hh, hq]
  cases hs with
  | acquired n hn =>
    by_cases hm : n = m
    · subst hm
      have hw : line l n = [] := by simp [line, hn, h.free n hn]
      have hq : waiting ((l.setHolder n (some l.sched.curthr)).setInside l.sched.curthr n true) n
          = [] := h.free n hn
      rw [hw, moveOf, if_pos rfl, line, hq]
      simp [Move.apply]
    · rw [moveOf, if_neg (by simpa using hm), if_neg (by simp)]
      exact hcongr (by simp [Ne.symm hm]) rfl
  | queued n t s hn hpend hsleep =>
    obtain ⟨hq, ho⟩ := sleepOn_queue hsleep
    by_cases hm : n = m
    · subst hm
      rw [moveOf, if_pos rfl]
      simp [line, waiting, Locks.await, hq, Move.apply]
    · rw [moveOf, if_neg (by simpa using hm), if_neg (by simp)]
      exact hcongr rfl (congrArg _ (ho _ (by simpa using Ne.symm hm)))
  | handed n r s hn hpend hsw hwake =>
    obtain ⟨hr, hq, ho⟩ := wakeupOn_queue hwake
    by_cases hm : n = m
    · subst hm
      rw [moveOf, if_neg (by simp), if_pos ⟨rfl, hn⟩]
      simp only [line, waiting, setInside_kmHolder, setHolder_kmHolder, if_true, hn, hr, hq,
        toList_some, singleton_append, Move.apply, tail_cons]
      rw [head?_reverse_eq]
      cases hl : (l.sched.queue (.wait (.inl n))).tqList.reverse with
      | nil =>
        rw [reverse_eq_nil_iff] at hl
        simp [hl]
      | cons a rest =>
        have hd : (l.sched.queue (.wait (.inl n))).tqList.dropLast.reverse = rest := by
          rw [← tail_reverse, hl, tail_cons]
        simp [hd]
    · rw [moveOf, if_neg (by simp), if_neg (by simp [hm])]
      exact hcongr (by simp [Ne.symm hm]) (congrArg _ (ho _ (by simpa using Ne.symm hm)))
  | left n hn =>
    rw [moveOf, if_neg (by simp), if_neg ?_]
    · exact hcongr rfl rfl
    · rintro ⟨he, hm⟩
      cases he
      exact hn hm
  | returned n hsw hn =>
    rw [moveOf, if_neg (by simp), if_neg (by simp)]
    exact hcongr rfl rfl
  | other op s hd he =>
    rw [moveOf, if_neg (by simp), if_neg (by simp)]
    exact hcongr rfl (congrArg _ (h.other_queue he m))

variable {t : Tid}

/-- Whoever is on the queue of a mutex after a sleep was there before, or is the sleeper. -/
theorem PlainInv.asleep_sleepOn (h : PlainInv l) {n : M}
    (hs : schedSleepOn l.sched (.inl n) = some s)
    (ht : (s.threads t).ktWchan = some (.wait (.inl m))) : (s.threads t).ktState = .sleep := by
  obtain ⟨-, s1, htouch, hsw⟩ := h.inv.sched.linked.sleepOn hs
  have hsame : SameSleepers (.inl m) s1 s := .switch htouch.linked hsw
  have ht1 := (hsame.wchan_iff t).mp ht
  rw [hsame.state_eq t ht1]
  by_cases hcur : t = l.sched.curthr
  · rw [hcur, htouch.self]
    rfl
  · rw [htouch.other hcur] at ht1 ⊢
    exact h.asleep t m ht1

theorem PlainInv.asleep_wakeupOn (h : PlainInv l) {n : M}
    (hs : schedWakeupOn l.sched (.inl n) = some (r, s))
    (ht : (s.threads t).ktWchan = some (.wait (.inl m))) : (s.threads t).ktState = .sleep := by
  obtain ⟨-, rfl, -⟩ | ⟨u, -, -, htouch⟩ := h.inv.sched.linked.wakeupOn hs
  · exact h.asleep t m ht
  · by_cases hu : t = u
    · rw [hu, htouch.self] at ht
      simp [Kthread.place] at ht
    · rw [htouch.other hu] at ht ⊢
      exact h.asleep t m ht

theorem PlainInv.asleep_other (h : PlainInv l) {op : Op Q} (hd : Disciplined l.sched (onOther op))
    (hs : Steps l.sched (onOther op) s) (ht : (s.threads t).ktWchan = some (.wait (.inl m))) :
    (s.threads t).ktState = .sleep := by
  have hsame : SameSleepers (.inl m) l.sched s := by
    refine Steps.sameSleepers h.inv.sched.linked hs hd (not_names_onOther m op) ?_
    intro t retval _ hst hw
    rw [h.asleep t m hw] at hst
    cases hst
  have ht1 := (hsame.wchan_iff t).mp ht
  rw [hsame.state_eq t ht1]
  exact h.asleep t m ht1

theorem PlainInv.asleep_step (h : PlainInv l) (hs : PlainStep l op l') (t : Tid) (m : M)
    (ht : (l'.sched.threads t).ktWchan = some (.wait (.inl m))) :
    (l'.sched.threads t).ktState = .sleep := by
  cases hs with
  | acquired n hn => exact h.asleep t m ht
  | queued n u s hn hpend hsleep => exact h.asleep_sleepOn hsleep ht
  | handed n r s hn hpend hsw hwake => exact h.asleep_wakeupOn hwake ht
  | left n hn => exact h.asleep t m ht
  | returned n hsw hn => exact h.asleep t m ht
  | other op s hd he => exact h.asleep_other hd he ht

theorem PlainInv.free_step (h : PlainInv l) (hs : PlainStep l op l') (m : M)
    (hm : l'.kmHolder m = none) : waiting l' m = [] := by
  cases hs with
  | acquired n hn =>
    by_cases hnm : m = n
    · simp [hnm] at hm
    · exact h.free m (by simpa [hnm] using hm)
  | queued n u s hn hpend hsleep =>
    have hnm : m ≠ n := by
      rintro rfl
      rw [show (l.await m s).kmHolder m = l.kmHolder m from rfl, hn] at hm
      cases hm
    rw [waiting, show (l.await n s).sched = s from rfl, (sleepOn_queue hsleep).2 _ (by simpa)]
    exact h.free m hm
  | handed n r s hn hpend hsw hwake =>
    obtain ⟨hr, hq, ho⟩ := wakeupOn_queue hwake
    by_cases hnm : m = n
    · subst hnm
      have hnone : r = none := by simpa using hm
      rw [hnone, eq_comm, getLast?_eq_none_iff] at hr
      rw [waiting, hq, hr]
      rfl
    · rw [waiting, ho _ (by simpa using hnm)]
      exact h.free m (by simpa [hnm] using hm)
  | left n hn => exact h.free m hm
  | returned n hsw hn => exact h.free m hm
  | other op s hd he =>
    rw [waiting, h.other_queue he m]
    exact h.free m hm

theorem PlainInv.entered_step (h : PlainInv l) (hs : PlainStep l op l') (t : Tid) (m : M)
    (ht : l'.kmHolder m = some t) : l'.inside t m = true ∨ l'.pending t = some m := by
  cases hs with
  | acquired n hn =>
    by_cases hnm : m = n
    · subst hnm
      have hcur : l.sched.curthr = t := by simpa using ht
      exact .inl (by simp [hcur])
    · have ht' : l.kmHolder m = some t := by simpa [hnm] using ht
      simpa [hnm] using h.entered t m ht'
  | queued n u s hn hpend hsleep =>
    refine (h.entered t m ht).imp_right fun hp => ?_
    have hcur : t ≠ l.sched.curthr := by
      rintro rfl
      rw [hpend] at hp
      cases hp
    simpa [Locks.await, hcur] using hp
  | handed n r s hn hpend hsw hwake =>
    by_cases hnm : m = n
    · subst hnm
      have hr : r = some t := by simpa using ht
      subst hr
      obtain ⟨hno, -⟩ | ⟨u, hu, hc, -⟩ := h.inv.sched.linked.wakeupOn hwake
      · cases hno
      · cases hu
        exact .inr (h.inv.sleeper_pending t m hc)
    · have ht' : l.kmHolder m = some t := by simpa [hnm] using ht
      simpa [hnm] using h.entered t m ht'
  | left n hn =>
    refine (h.entered t m ht).imp_left fun hin => ?_
    have hne : ¬(t = l.sched.curthr ∧ m = n) := by
      rintro ⟨rfl, rfl⟩
      exact hn ht
    simpa [hne] using hin
  | returned n hsw hn =>
    by_cases hcur : t = l.sched.curthr
    · subst hcur
      left
      rcases h.entered _ m ht with hin | hp
      · by_cases hmn : m = n <;> simp [Locks.setInside, hmn, hin]
      · rw [hn] at hp
        cases hp
        simp [Locks.setInside]
    · refine (h.entered t m ht).imp (fun hin => ?_) fun hp => ?_
      · simpa [Locks.setInside, hcur] using hin
      · simpa [hcur] using hp
  | other op s hd he => exact h.entered t m ht

theorem PlainInv.step (hop : Plain l op) (he : LockSteps l op l') (h : PlainInv l) :
    PlainInv l' where
  inv := Inv.step (h.uncancelled hop) he h.inv
  asleep := h.asleep_step (plainStep_of_steps hop he)
  free := h.free_step (plainStep_of_steps hop he)
  entered := h.entered_step (plainStep_of_steps hop he)

omit [DecidableEq M] [DecidableEq Q] in
theorem PlainInv.head?_line (h : PlainInv l) (m : M) : (line l m).head? = l.kmHolder m := by
  cases hm : l.kmHolder m with
  | none => simp [line, hm, h.free m hm]
  | some t => simp [line, hm]

omit [DecidableEq M] [DecidableEq Q] in
theorem PlainInv.tail_line (h : PlainInv l) (m : M) : (line l m).tail = waiting l m := by
  cases hm : l.kmHolder m with
  | none => simp [line, hm, h.free m hm]
  | some t => simp [line, hm]

/-! ### Watching a run -/

/-- Who called `kmutex_lock`, who was made holder, and to whom `kmutex_lock` has returned. -/
structure Watch where
  asked : List Tid
  made : List Tid
  returned : List Tid

def asks (m : M) (l : Locks M Q) (op : LockOp M Q) : List Tid :=
  if op = .lock m then [l.sched.curthr] else []

/-- The new holder, if the holder is another one after the step. -/
def makes (m : M) (l l' : Locks M Q) : List Tid :=
  if l'.kmHolder m = l.kmHolder m then [] else (l'.kmHolder m).toList

/-- The thread that is inside after the step and was not before; only the current thread enters
and leaves. -/
def returnsTo (m : M) (l l' : Locks M Q) : List Tid :=
  if l.inside l.sched.curthr m = false ∧ l'.inside l.sched.curthr m = true then [l.sched.curthr]
  else []

inductive Watched (m : M) : Locks M Q → List (LockOp M Q) → Watch → Locks M Q → Prop
  | done (l : Locks M Q) : Watched m l [] ⟨[], [], []⟩ l
  | next {l l' l'' : Locks M Q} {op : LockOp M Q} {ops : List (LockOp M Q)} {w : Watch} :
      LockSteps l op l' → Watched m l' ops w l'' → Watched m l (op::ops)
        ⟨asks m l op++w.asked, makes m l l'++w.made, returnsTo m l l'++w.returned⟩ l''

omit [DecidableEq M] [DecidableEq Q] in
theorem PlainInv.current_not_waiting (h : PlainInv l) (hsw : l.sched.switching = false) (m : M) :
    l.sched.curthr ∉ waiting l m := by
  rw [waiting, mem_reverse, h.inv.sched.linked.mem_iff]
  exact h.inv.current_awake hsw m

theorem makes_eq_serves (h : PlainInv l) (h' : PlainInv l') (hs : PlainStep l op l') (m : M) :
    makes m l l' = (moveOf m l op).serves (line l m) := by
  have hhead := h'.head?_line m
  rw [line_step h hs m] at hhead
  rw [makes, ← hhead, ← h.head?_line m]
  by_cases hlock : op = .lock m
  · rw [moveOf, if_pos hlock]
    cases line l m with
    | nil => simp [Move.apply, Move.serves]
    | cons a rest => simp [Move.apply, Move.serves]
  by_cases hunlock : op = .unlock m ∧ l.kmHolder m = some l.sched.curthr
  · rw [moveOf, if_neg hlock, if_pos hunlock]
    -- the holder leaves, and is not among those who wait
    obtain ⟨rfl, hhold⟩ := hunlock
    have hnot : l.sched.curthr ∉ (line l m).tail := by
      rw [h.tail_line]
      cases hs with
      | handed _ r s hn hpend hsw hwake => exact h.current_not_waiting hsw m
      | left _ hn => exact absurd hhold hn
    have hne : (line l m).tail.head? ≠ (line l m).head? := by
      rw [h.head?_line, hhold]
      exact fun he => hnot (mem_of_mem_head? he)
    exact if_neg hne
  · rw [moveOf, if_neg hlock, if_neg hunlock]
    exact if_pos rfl

theorem asks_eq_brings (m : M) (l : Locks M Q) (op : LockOp M Q) :
    asks m l op = (moveOf m l op).brings := by
  unfold asks moveOf
  split_ifs <;> rfl

variable {ops : List (LockOp M Q)} {w : Watch}

/-- Over a watched run of plain locking: the holders, and then whoever waits, are the line at
the start and then whoever came, in this order. -/
theorem Watched.in_order (hw : Watched m l ops w l')
    (hops : ∀ op ∈ ops, ∀ n, op ≠ .lockCancellable n) (h : PlainInv l) :
    (line l m).head?.toList++w.made++(line l' m).tail = line l m++w.asked := by
  induction hw with
  | done l =>
    cases line l m with
    | nil => rfl
    | cons a rest => simp
  | @next l l₁ l₂ op ops w hs _ ih =>
    have hop := plain_of_ne l (fun n => hops op mem_cons_self n)
    have h₁ := h.step hop hs
    have hp := plainStep_of_steps hop hs
    have hrest := ih (fun op ho => hops op (mem_cons_of_mem _ ho)) h₁
    rw [line_step h hp m] at hrest
    rw [makes_eq_serves h h₁ hp m, asks_eq_brings]
    exact Move.in_order _ _ _ _ _ hrest

/-- The holder, if `kmutex_lock` has not returned to it yet. -/
def owed (l : Locks M Q) (m : M) : List Tid :=
  match l.kmHolder m with
  | none => []
  | some t => if l.inside t m = true then [] else [t]

omit [DecidableEq M] [DecidableEq Q] in
theorem owed_of_same (hh : l'.kmHolder m = l.kmHolder m)
    (hi : ∀ t, l'.inside t m = l.inside t m) :
    owed l m++makes m l l' = returnsTo m l l'++owed l' m := by
  have hreturns : returnsTo m l l' = [] := by
    rw [returnsTo, hi]
    exact if_neg fun hc => by simp [hc.1] at hc
  rw [hreturns, makes, if_pos hh, owed, owed, hh]
  simp only [hi, append_nil, nil_append]

/-- A thread is made holder first, and returns from `kmutex_lock` later. -/
theorem owed_step (h : PlainInv l) (hs : PlainStep l op l') (m : M) :
    owed l m++makes m l l' = returnsTo m l l'++owed l' m := by
  cases hs with
  | acquired n hn =>
    by_cases hm : m = n
    · subst hm
      have hout : l.inside l.sched.curthr m = false := by
        rw [Bool.eq_false_iff]
        intro hin
        rw [h.inv.inside_holder _ m hin] at hn
        cases hn
      simp [owed, makes, returnsTo, hn, hout]
    · exact owed_of_same (by simp [hm]) fun t => by simp [hm]
  | queued n u s hn hpend hsleep => exact owed_of_same rfl fun _ => rfl
  | handed n r s hn hpend hsw hwake =>
    by_cases hm : m = n
    · subst hm
      have hin : l.inside l.sched.curthr m = true :=
        (h.entered _ m hn).resolve_right (by simp [hpend])
      obtain ⟨rfl, rfl, -⟩ | ⟨t, rfl, hc, -⟩ := h.inv.sched.linked.wakeupOn hwake
      · simp [owed, makes, returnsTo, hn, hin]
      · have hne : t ≠ l.sched.curthr := by
          rintro rfl
          exact h.inv.current_awake hsw m hc
        have hout : l.inside t m = false := by
          rw [Bool.eq_false_iff]
          intro ht
          rw [h.inv.inside_holder t m ht] at hn
          exact hne (some.inj hn)
        simp [owed, makes, returnsTo, hn, hin, hne, hout]
    · exact owed_of_same (by simp [hm]) fun t => by simp [hm]
  | left n hn =>
    by_cases hm : m = n
    · subst hm
      have hsame : owed (l.setInside l.sched.curthr m false) m = owed l m := by
        rw [owed, owed, setInside_kmHolder]
        cases ht : l.kmHolder m with
        | none => rfl
        | some t =>
          have hne : t ≠ l.sched.curthr := fun he => hn (he ▸ ht)
          simp [hne]
      rw [hsame]
      simp [makes, returnsTo]
    · exact owed_of_same rfl fun t => by simp [hm]
  | returned n hsw hn =>
    by_cases hm : m = n
    · subst hm
      have hhold := (h.inv.pending_cases _ m hn).resolve_left (h.inv.current_awake hsw m)
      cases hin : l.inside l.sched.curthr m <;>
        simp [owed, makes, returnsTo, hhold, hin, Locks.setInside]
    · refine owed_of_same rfl fun t => ?_
      exact (setInside_inside ..).trans (by simp [hm])
  | other op s hd he => exact owed_of_same rfl fun _ => rfl

/-- Over a watched run: the threads that were made holder are those to which `kmutex_lock` has
returned, in the same order, and perhaps one more. -/
theorem Watched.returned_in_order (hw : Watched m l ops w l')
    (hops : ∀ op ∈ ops, ∀ n, op ≠ .lockCancellable n) (h : PlainInv l) :
    owed l m++w.made = w.returned++owed l' m := by
  induction hw with
  | done l => simp
  | @next l l₁ l₂ op ops w hs _ ih =>
    have hop := plain_of_ne l (fun n => hops op mem_cons_self n)
    have hrest := ih (fun op ho => hops op (mem_cons_of_mem _ ho)) (h.step hop hs)
    rw [← append_assoc, owed_step h (plainStep_of_steps hop hs) m, append_assoc, hrest,
      append_assoc]

theorem Watched.plainInv (hw : Watched m l ops w l')
    (hops : ∀ op ∈ ops, ∀ n, op ≠ .lockCancellable n) (h : PlainInv l) : PlainInv l' := by
  induction hw with
  | done l => exact h
  | @next l l₁ l₂ op ops w hs _ ih =>
    have hop := plain_of_ne l (fun n => hops op mem_cons_self n)
    exact ih (fun op ho => hops op (mem_cons_of_mem _ ho)) (h.step hop hs)

/-- The state after an unlock by the holder: the oldest waiter is the holder and can run. -/
structure HandsOver (m : M) (l l' : Locks M Q) : Prop where
  holder : l'.kmHolder m = (waiting l m).head?
  others : waiting l' m = (waiting l m).tail
  runnable : ∀ t, (waiting l m).head? = some t →
    (l'.sched.threads t).ktState = .run ∧ t ∈ (l'.sched.queue .runq).tqList

theorem PlainInv.unlock (h : PlainInv l) (hfree : l.free = true)
    (hhold : l.kmHolder m = some l.sched.curthr) :
    ∃ l', KmutexHandoff.step l (.unlock m) = some l' ∧ HandsOver m l l' := by
  obtain ⟨r, s, hwake⟩ := wakeupOn_returns h.inv.sched (.inl m)
  have hstep : KmutexHandoff.step l (.unlock m)
      = some { (l.setHolder m r).setInside l.sched.curthr m false with sched := s } := by
    simp [KmutexHandoff.step, hfree, kmutexUnlock, hhold, hwake]
  have hplain : Plain l (.unlock m) := trivial
  have hs := plainStep_of_steps hplain ⟨hstep, trivial⟩
  have h' := h.step hplain ⟨hstep, trivial⟩
  have hline := line_step h hs m
  rw [moveOf, if_neg (by simp), if_pos ⟨rfl, hhold⟩, Move.apply, h.tail_line] at hline
  refine ⟨_, hstep, ?_, ?_, ?_⟩
  · rw [← h'.head?_line, hline]
  · rw [← h'.tail_line, hline]
  · intro t ht
    obtain ⟨hr, -⟩ := wakeupOn_queue hwake
    rw [head?_reverse_eq, show (l.sched.queue (.wait (.inl m))).tqList.reverse = waiting l m
      from rfl, ht] at hr
    subst hr
    obtain ⟨hno, -⟩ | ⟨u, hu, -, htouch⟩ := h.inv.sched.linked.wakeupOn hwake
    · cases hno
    · cases hu
      have hself := htouch.self
      refine ⟨?_, ?_⟩
      · rw [show Locks.sched _ = s from rfl, hself]
        rfl
      · rw [show Locks.sched _ = s from rfl, htouch.linked.mem_iff, hself]
        rfl

/-- What holds of a mutex after a watched run. -/
structure InOrder (m : M) (w : Watch) (l : Locks M Q) : Prop where
  made : w.asked = w.made++waiting l m
  returned : w.returned <+: w.made
  free : l.kmHolder m = none → (l.sched.queue (.wait (.inl m))).tqList = []
  unlock : l.free = true → l.kmHolder m = some l.sched.curthr →
    ∃ l', KmutexHandoff.step l (.unlock m) = some l' ∧ HandsOver m l l'
  lock : ∀ l', KmutexHandoff.step l (.lock m) = some l' → l.kmHolder m ≠ none →
    l'.kmHolder m = l.kmHolder m ∧ waiting l' m = waiting l m++[l.sched.curthr]

/-- As long as `kmutex_lock_cancellable` is not used, in every interleaving the threads become
holders in the order in which they called `kmutex_lock`. -/
theorem plain_run_inOrder {ops : List (LockOp M Q)} {w : Watch} (hl : Initial l)
    (hops : ∀ op ∈ ops, ∀ n, op ≠ .lockCancellable n) (hw : Watched m l ops w l') :
    InOrder m w l' := by
  have h := plainInv_initial hl
  have h' := hw.plainInv hops h
  have hempty : line l m = [] := by
    simp [line, waiting, hl.holder_none, hl.booted.queue_empty]
  constructor
  · have horder := hw.in_order hops h
    rw [hempty, h'.tail_line] at horder
    simpa using horder.symm
  · have horder := hw.returned_in_order hops h
    rw [show owed l m = [] by simp [owed, hl.holder_none], nil_append] at horder
    exact ⟨_, horder.symm⟩
  · intro hnone
    simpa [waiting] using h'.free m hnone
  · exact fun hfree hhold => h'.unlock hfree hhold
  · intro l₂ hstep hheld
    have hplain : Plain l' (.lock m) := trivial
    have hs := plainStep_of_steps hplain ⟨hstep, trivial⟩
    have h₂ := h'.step hplain ⟨hstep, trivial⟩
    have hline := line_step h' hs m
    rw [moveOf, if_pos rfl, Move.apply] at hline
    obtain ⟨t, ht⟩ := ne_none_iff_exists'.mp hheld
    have hcons : line l' m = t::waiting l' m := by simp [line, ht]
    constructor
    · rw [← h₂.head?_line, hline, hcons, ht]
      rfl
    · rw [← h₂.tail_line, hline, hcons]
      rfl

/-- Thread 1 takes the mutex, threads 2 and 3 ask for it in this order, and it goes to 2 when 1
unlocks it. -/
def handedTwice : List (LockOp Unit Unit) :=
  [.other (.makeRunnable 1), .other (.makeRunnable 2), .other (.makeRunnable 3),
    .other (.sleepOn ()), .lock (), .other (.makeRunnable 1), .other .switch, .lock (), .lock (),
    .unlock ()]

theorem inOrder_after_handover : ∃ w l', Watched () freshLocks handedTwice w l' ∧
    w.asked = [1, 2, 3] ∧ w.made = [1, 2] ∧ waiting l' () = [3] ∧ InOrder () w l' := by
  have hw : Watched () freshLocks handedTwice _ _ :=
    .next ⟨rfl, rfl⟩ (.next ⟨rfl, rfl⟩ (.next ⟨rfl, rfl⟩ (.next ⟨rfl, trivial⟩
      (.next ⟨rfl, trivial⟩ (.next ⟨rfl, rfl⟩ (.next ⟨rfl, .inl (by decide)⟩
      (.next ⟨rfl, trivial⟩ (.next ⟨rfl, trivial⟩ (.next ⟨rfl, trivial⟩ (.done _))))))))))
  have hops : ∀ op ∈ handedTwice, op ≠ .lockCancellable () := by decide
  exact ⟨_, _, hw, rfl, rfl, rfl,
    plain_run_inOrder freshLocks_initial (fun op hop _ => hops op hop) hw⟩

end SystemsProjects.KmutexOrder
