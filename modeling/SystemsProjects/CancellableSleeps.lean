import SystemsProjects.SchedulerQueues

/-!
# What a cancellable sleep returns

`sched_cancellable_sleep_on` returns long after it was called: another thread runs
in between and may wake the sleeper, cancel it, or do both. To say what the
returned value has to be, a run of the scheduler is watched. Every call that has
not returned is kept with the queue it names, what has happened to its thread so
far, and the value that the code will return; a call returns as soon as its
thread runs. Watching a run does not change it.

The code decides on the value before the thread goes to sleep.
-/
namespace SystemsProjects.CancellableSleeps

open Function GuardedRuns KernelScheduler SchedulerQueues Option

variable {Q : Type} [DecidableEq Q]

/-- A call of `sched_cancellable_sleep_on`: whether the thread was cancelled before it,
while on its queue, and at any time inside it, whether it was woken on the queue, and
the value that is returned. -/
structure Call (Q : Type) where
  queue : Q
  before : Bool
  asleep : Bool
  inside : Bool
  woken : Bool
  value : ℤ
  deriving DecidableEq, Repr

/-- The contract for a call that has returned. -/
structure Kept (c : Call Q) : Prop where
  cancelled : c.before = true ∨ c.asleep = true → c.value = -eintr
  zero_iff : c.value = 0 ↔ c.woken = true ∧ c.before = false ∧ c.inside = false

/-- The scheduler with the calls that have not returned, and those that have. -/
structure Watched (Q : Type) where
  sched : Sched Q
  calls : Tid → Option (Call Q)
  returned : List (Tid×Call Q)

/-- The thread is current and does not wait inside `sched_switch`. -/
def Runs (s : Sched Q) (t : Tid) : Prop := s.curthr = t ∧ s.switching = false

instance (s : Sched Q) (t : Tid) : Decidable (Runs s t) :=
  inferInstanceAs (Decidable (_ ∧ _))

/-- What the operation, which has led to `s'`, means for the calls of the threads. -/
def note (w : Watched Q) (s' : Sched Q) : Op Q → Tid → Option (Call Q)
  | .cancellableSleepOn q => update w.calls w.sched.curthr
      ((schedCancellableSleepOn w.sched q).map fun r =>
        ⟨q, (w.sched.threads w.sched.curthr).ktCancelled, false, false, false, r.1⟩)
  | .cancel t _ => update w.calls t ((w.calls t).map fun c =>
      { c with
        asleep := c.asleep || (w.sched.threads t).ktWchan = some (.wait c.queue)
        inside := true })
  | .wakeupOn q | .broadcastOn q => fun t => (w.calls t).map fun c =>
      if c.queue = q ∧ (w.sched.threads t).ktWchan = some (.wait q) ∧
        (s'.threads t).ktWchan = some .runq then { c with woken := true } else c
  | _ => w.calls

/-- The call of a thread that runs has returned. -/
def resume (w : Watched Q) : Watched Q :=
  match w.calls w.sched.curthr with
  | none => w
  | some c =>
    if w.sched.switching then w
    else { w with
      calls := update w.calls w.sched.curthr none
      returned := (w.sched.curthr, c)::w.returned }

def watch (w : Watched Q) (op : Op Q) : Option (Watched Q) :=
  (step w.sched op).map fun s' => resume { w with sched := s', calls := note w s' op }

def Watches (w : Watched Q) (op : Op Q) (w' : Watched Q) : Prop := watch w op = some w'

/-- The scheduler while nobody is inside a cancellable sleep. -/
def unwatched (s : Sched Q) : Watched Q := ⟨s, fun _ => none, []⟩

omit [DecidableEq Q] in
/-- Nobody goes to sleep twice, and no thread is cancelled between its call of
`sched_cancellable_sleep_on` and the return of the call. -/
def Undisturbed (w : Watched Q) : Op Q → Prop
  | .cancellableSleepOn _ => (w.sched.threads w.sched.curthr).ktWchan = none
  | .cancel t _ => w.calls t = none
  | _ => True

/-- An undisturbed call that has not returned: its thread is on the queue of the call,
or was woken there and is on the run queue. -/
structure Waits (s : Sched Q) (t : Tid) (c : Call Q) : Prop where
  value : c.value = 0
  before : c.before = false
  asleep : c.asleep = false
  inside : c.inside = false
  place : c.woken = false ∧ (s.threads t).ktWchan = some (.wait c.queue) ∨
    c.woken = true ∧ (s.threads t).ktWchan = some .runq

/-- A call after a step and before its return is noted. -/
def Settled (s : Sched Q) (t : Tid) (c : Call Q) : Prop :=
  (Runs s t → Kept c) ∧ (¬Runs s t → Waits s t c)

structure Watching (w : Watched Q) : Prop where
  linked : Linked w.sched
  waits : ∀ t c, w.calls t = some c → Waits w.sched t c
  running : ∀ t, Runs w.sched t → w.calls t = none
  kept : ∀ r ∈ w.returned, Kept r.2

variable {c : Call Q} {s s' : Sched Q} {w : Watched Q} {t : Tid}

section

omit [DecidableEq Q]

/-- A thread of the run queue has been woken, so its call may return 0. -/
theorem Waits.kept (h : Waits s t c) (ht : (s.threads t).ktWchan = some .runq) : Kept c := by
  have hwoken : c.woken = true := by
    rcases h.place with ⟨-, hw⟩ | ⟨hw, -⟩
    · simp [ht] at hw
    · exact hw
  constructor
  · simp [h.before, h.asleep]
  · simp [h.value, hwoken, h.before, h.inside]

theorem Waits.frame (h : Waits s t c) (ht : (s'.threads t).ktWchan = (s.threads t).ktWchan) :
    Waits s' t c :=
  ⟨h.value, h.before, h.asleep, h.inside, by rw [ht]; exact h.place⟩

theorem Waits.queued (h : Waits s t c) : (s.threads t).ktWchan ≠ none := by
  rcases h.place with ⟨-, hw⟩ | ⟨-, hw⟩ <;> simp [hw]

theorem Watching.resume (hl : Linked w.sched) (hs : ∀ t c, w.calls t = some c → Settled w.sched t c)
    (hk : ∀ r ∈ w.returned, Kept r.2) : Watching (resume w) := by
  unfold CancellableSleeps.resume
  cases hc : w.calls w.sched.curthr with
  | none =>
    have hoff : ∀ t, Runs w.sched t → w.calls t = none := fun t ht => ht.1 ▸ hc
    refine ⟨hl, fun t c ht => (hs t c ht).2 fun hr => ?_, hoff, hk⟩
    simp [hoff t hr] at ht
  | some c =>
    dsimp only
    by_cases hsw : w.sched.switching = true
    · rw [if_pos hsw]
      have hoff : ∀ t, ¬Runs w.sched t := fun t ht => by simp [ht.2] at hsw
      exact ⟨hl, fun t c ht => (hs t c ht).2 (hoff t), fun t ht => absurd ht (hoff t), hk⟩
    · rw [if_neg hsw]
      have hrun : Runs w.sched w.sched.curthr := ⟨rfl, by simpa using hsw⟩
      constructor
      · exact hl
      · intro t d ht
        by_cases hcur : t = w.sched.curthr
        · simp [hcur] at ht
        · have ht : w.calls t = some d := by simpa [hcur] using ht
          exact (hs t d ht).2 fun hr => hcur hr.1.symm
      · intro t ht
        rw [← ht.1]
        exact update_self ..
      · intro r hr
        rcases List.mem_cons.1 hr with rfl | hr
        · exact (hs _ _ hc).1 hrun
        · exact hk r hr

/-- The step changes neither the thread that runs nor the place of a thread inside a
call. -/
structure Leaves (w : Watched Q) (s' : Sched Q) : Prop where
  linked : Linked s'
  curthr : s'.curthr = w.sched.curthr
  switching : s'.switching = w.sched.switching
  place : ∀ t c, w.calls t = some c → (s'.threads t).ktWchan = (w.sched.threads t).ktWchan

theorem Leaves.settled (h : Leaves w s') (hw : Watching w) (hc : w.calls t = some c) :
    Settled s' t c := by
  constructor
  · rintro ⟨hcur, hsw⟩
    have hnone := hw.running t ⟨h.curthr ▸ hcur, h.switching ▸ hsw⟩
    simp [hc] at hnone
  · intro _
    exact (hw.waits t c hc).frame (h.place t c hc)

theorem Leaves.ghost {s1 : Sched Q} (h : Leaves w s1) (ht : s'.threads = s1.threads)
    (hq : s'.queue = s1.queue) (hcur : s'.curthr = s1.curthr) (hsw : s'.switching = s1.switching) :
    Leaves w s' :=
  ⟨linked_of_same h.linked ht hq, hcur.trans h.curthr, hsw.trans h.switching,
    fun t c hc => by rw [ht, h.place t c hc]⟩

theorem Leaves.touch {k : Kthread Q} (ht : Touches w.sched s' t k)
    (hk : w.calls t = none ∨ k.ktWchan = (w.sched.threads t).ktWchan) : Leaves w s' := by
  refine ⟨ht.linked, ht.curthr, ht.switching, fun u c hu => ?_⟩
  by_cases hut : u = t
  · subst hut
    rcases hk with hk | hk
    · simp [hu] at hk
    · rw [ht.self, hk]
  · rw [ht.other hut]

theorem Leaves.exit {retval : ℤ} (hw : Watching w) (he : kthreadExit w.sched retval = some s') :
    Leaves w s' := by
  obtain ⟨-, s1, rfl, ht⟩ := hw.linked.exit he
  have hleaves : Leaves w s1 := .touch ht (.inr rfl)
  exact hleaves.ghost rfl rfl rfl rfl

theorem watching_unwatched (hs : Linked s) : Watching (unwatched s) :=
  ⟨hs, fun _ _ h => by simp [unwatched] at h, fun _ _ => rfl, fun _ h => by simp [unwatched] at h⟩

end

/-- `sched_switch` lets the call of the thread it dispatches return, and no other. -/
theorem settled_switch (h : Linked s) (he : schedSwitch s = some s') (hw : Waits s t c) :
    Settled s' t c := by
  obtain ⟨rfl, -⟩ | ⟨u, s1, hu, ht, rfl⟩ := h.switch he
  · exact ⟨fun hr => by simp [Runs] at hr, fun _ => hw.frame rfl⟩
  · constructor
    · rintro ⟨rfl, -⟩
      exact hw.kept hu
    · intro hr
      have hut : t ≠ u := fun heq => hr ⟨heq.symm, rfl⟩
      exact hw.frame (by rw [← ht.other hut])

theorem linked_switch (h : Linked s) (he : schedSwitch s = some s') : Linked s' := by
  obtain ⟨rfl, -⟩ | ⟨u, s1, -, ht, rfl⟩ := h.switch he
  · exact linked_of_same h rfl rfl
  · exact linked_of_same ht.linked rfl rfl

/-- A queued thread stays where it is when it is made runnable, or the call fails. -/
theorem Leaves.makeRunnable (hw : Watching w) (he : schedMakeRunnable w.sched t = some s') :
    Leaves w s' := by
  cases hwc : (w.sched.threads t).ktWchan with
  | none =>
    obtain ⟨s1, rfl, ht⟩ := hw.linked.makeRunnable hwc he
    have hcalls : w.calls t = none := by
      cases hc : w.calls t with
      | none => rfl
      | some c => exact absurd hwc (hw.waits t c hc).queued
    have hleaves : Leaves w s1 := .touch ht (.inl hcalls)
    exact hleaves.ghost rfl rfl rfl rfl
  | some c =>
    unfold schedMakeRunnable at he
    rw [hwc] at he
    split_ifs at he with hrunq hidle
    · obtain rfl := some.inj he
      have hset : Touches w.sched (w.sched.setState t .run) t _ := hw.linked.setThread rfl rfl
      have hleaves : Leaves w (w.sched.setState t .run) := .touch hset (.inr rfl)
      exact hleaves.ghost rfl rfl rfl rfl
    · simp [ktqueueEnqueue, Sched.setState, Sched.setThread, hwc] at he

/-- Some threads of the queue `q` have gone to the run queue. -/
structure Woke (q : Q) (s s' : Sched Q) : Prop where
  linked : Linked s'
  curthr : s'.curthr = s.curthr
  switching : s'.switching = s.switching
  moved : ∀ t, (s'.threads t).ktWchan = (s.threads t).ktWchan ∨
    (s.threads t).ktWchan = some (.wait q) ∧ (s'.threads t).ktWchan = some .runq

variable {q : Q}

omit [DecidableEq Q] in
theorem Woke.wakesOne {s1 : Sched Q} (h : Woke q s s1) (hw : WakesOne q s1 s') : Woke q s s' := by
  obtain ⟨t, hc, ht⟩ := hw
  refine ⟨ht.linked, ht.curthr.trans h.curthr, ht.switching.trans h.switching, fun u => ?_⟩
  by_cases hut : u = t
  · subst hut
    rw [ht.self]
    rcases h.moved u with heq | ⟨-, hr⟩
    · exact .inr ⟨heq ▸ hc, rfl⟩
    · simp [hc] at hr
  · rw [ht.other hut]
    exact h.moved u

omit [DecidableEq Q] in
theorem woke_of_wakes (h : Linked s) (hw : Relation.ReflTransGen (WakesOne q) s s') :
    Woke q s s' := by
  induction hw with
  | refl => exact ⟨h, rfl, rfl, fun _ => .inl rfl⟩
  | tail _ hone ih => exact ih.wakesOne hone

/-- A thread that is woken on the queue of its call is on the run queue from then on. -/
theorem Woke.settled (h : Woke q w.sched s') (hw : Watching w) (hc : w.calls t = some c) :
    Settled s' t (if c.queue = q ∧ (w.sched.threads t).ktWchan = some (.wait q) ∧
      (s'.threads t).ktWchan = some .runq then { c with woken := true } else c) := by
  have hwaits := hw.waits t c hc
  constructor
  · rintro ⟨hcur, hsw⟩
    have hnone := hw.running t ⟨h.curthr ▸ hcur, h.switching ▸ hsw⟩
    simp [hc] at hnone
  · intro _
    rcases h.moved t with hsame | ⟨hq, hrunq⟩
    · rw [if_neg (fun hif => by simp [hsame, hif.2.1] at hif)]
      exact hwaits.frame hsame
    · have hqueue : c.queue = q := by
        rcases hwaits.place with ⟨-, hp⟩ | ⟨-, hp⟩ <;> simp [hq] at hp
        exact hp.symm
      rw [if_pos ⟨hqueue, hq, hrunq⟩]
      exact ⟨hwaits.value, hwaits.before, hwaits.asleep, hwaits.inside, .inr ⟨rfl, hrunq⟩⟩

/-- After the step every call is settled and the links are kept. -/
def StepSettled (w : Watched Q) (op : Op Q) (s' : Sched Q) : Prop :=
  Linked s' ∧ ∀ t c, note w s' op t = some c → Settled s' t c

variable {op : Op Q}

theorem settled_wakes (hw : Watching w) (hop : op = .wakeupOn q ∨ op = .broadcastOn q)
    (he : Relation.ReflTransGen (WakesOne q) w.sched s') : StepSettled w op s' := by
  have hwoke := woke_of_wakes hw.linked he
  refine ⟨hwoke.linked, fun t c hc => ?_⟩
  have hmap : ∃ d, w.calls t = some d ∧
      (if d.queue = q ∧ (w.sched.threads t).ktWchan = some (.wait q) ∧
        (s'.threads t).ktWchan = some .runq then { d with woken := true } else d) = c := by
    rcases hop with rfl | rfl <;> exact map_eq_some_iff.1 hc
  obtain ⟨d, hd, rfl⟩ := hmap
  exact hwoke.settled hw hd

theorem settled_sleepOn (hw : Watching w) (he : schedSleepOn w.sched q = some s') :
    StepSettled w (.sleepOn q) s' := by
  obtain ⟨hoff, s1, ht, hsw⟩ := hw.linked.sleepOn he
  refine ⟨linked_switch ht.linked hsw, fun t c hc => settled_switch ht.linked hsw ?_⟩
  have hwaits := hw.waits t c hc
  have hne : t ≠ w.sched.curthr := fun heq => hwaits.queued (heq ▸ hoff)
  exact hwaits.frame (by rw [ht.other hne])

/-- The call that begins has returned at once, or its thread is on the queue. -/
theorem settled_cancellableSleepOn {r : ℤ} (hw : Watching w) (hrun : w.sched.switching = false)
    (hoff : (w.sched.threads w.sched.curthr).ktWchan = none)
    (he : schedCancellableSleepOn w.sched q = some (r, s')) :
    StepSettled w (.cancellableSleepOn q) s' := by
  obtain ⟨hcan, rfl, rfl⟩ | ⟨hcan, rfl, s1, ht, hsw⟩ := hw.linked.cancellableSleepOn hoff he
  · refine ⟨hw.linked, fun t c hc => ?_⟩
    by_cases hcur : t = w.sched.curthr
    · obtain rfl : _ = c := by simpa [note, hcur, he, hcan] using hc
      constructor
      · intro _
        constructor <;> simp [eintr]
      · intro hr
        exact absurd ⟨hcur.symm, hrun⟩ hr
    · have hold : w.calls t = some c := by simpa [note, hcur] using hc
      exact ⟨fun hr => absurd hr.1.symm hcur, fun _ => hw.waits t c hold⟩
  · refine ⟨linked_switch ht.linked hsw, fun t c hc => settled_switch ht.linked hsw ?_⟩
    by_cases hcur : t = w.sched.curthr
    · obtain rfl : _ = c := by simpa [note, hcur, he, hcan] using hc
      refine ⟨rfl, rfl, rfl, rfl, .inl ⟨rfl, ?_⟩⟩
      rw [hcur, ht.self]
      rfl
    · have hold : w.calls t = some c := by simpa [note, hcur] using hc
      exact (hw.waits t c hold).frame (by rw [ht.other hcur])

theorem Leaves.kthreadCancel {retval : ℤ} (hw : Watching w) (hnone : w.calls t = none)
    (he : kthreadCancel w.sched t retval = some s') : Leaves w s' := by
  by_cases hcur : t = w.sched.curthr
  · have hx : kthreadExit w.sched retval = some s' := by
      simpa [KernelScheduler.kthreadCancel, hcur] using he
    exact Leaves.exit hw hx
  · obtain ⟨-, ht⟩ | ⟨-, s1, rfl, ht⟩ := hw.linked.kthreadCancel hcur he
    · exact .touch ht (.inl hnone)
    · have hleaves : Leaves w s1 := .touch ht (.inl hnone)
      exact hleaves.ghost rfl rfl rfl rfl

theorem stepSettled (hop : Undisturbed w op) (hw : Watching w) (he : Steps w.sched op s') :
    StepSettled w op s' := by
  cases op with
  | makeRunnable t =>
    have hl := Leaves.makeRunnable hw he
    exact ⟨hl.linked, fun t c hc => hl.settled hw hc⟩
  | wakeupOn q =>
    obtain ⟨⟨r, _⟩, hr, rfl⟩ := map_eq_some_iff.1 he
    apply settled_wakes hw (.inl rfl)
    obtain ⟨-, rfl, -⟩ | ⟨t, -, hc, ht⟩ := hw.linked.wakeupOn hr
    · exact .refl
    · exact .single ⟨t, hc, ht⟩
  | broadcastOn q => exact settled_wakes hw (.inr rfl) (hw.linked.broadcastRounds _ he)
  | sleepOn q =>
    replace he := ite_none_left_eq_some.mp he
    exact settled_sleepOn hw he.2
  | cancellableSleepOn q =>
    replace he := ite_none_left_eq_some.mp he
    obtain ⟨⟨r, _⟩, hr, rfl⟩ := map_eq_some_iff.1 he.2
    exact settled_cancellableSleepOn hw (by simpa using he.1) hop hr
  | cancel t retval =>
    replace he := ite_none_left_eq_some.mp he
    have hl := Leaves.kthreadCancel hw hop he.2
    refine ⟨hl.linked, fun u c hc => hl.settled hw ?_⟩
    have hnone : w.calls t = none := hop
    rw [note, hnone, map_none, ← hnone, update_eq_self] at hc
    exact hc
  | exit retval =>
    replace he := ite_none_left_eq_some.mp he
    have hl := Leaves.exit hw he.2
    exact ⟨hl.linked, fun t c hc => hl.settled hw hc⟩
  | switch =>
    replace he := ite_none_left_eq_some.mp he
    exact ⟨linked_switch hw.linked he.2,
      fun t c hc => settled_switch hw.linked he.2 (hw.waits t c hc)⟩
  | intrReturn =>
    replace he := ite_none_right_eq_some.mp he
    exact ⟨linked_switch hw.linked he.2,
      fun t c hc => settled_switch hw.linked he.2 (hw.waits t c hc)⟩

theorem Watching.step {w' : Watched Q} (hop : Undisturbed w op) (he : Watches w op w')
    (hw : Watching w) : Watching w' := by
  obtain ⟨s', hs, rfl⟩ := map_eq_some_iff.1 he
  have hsettled := stepSettled hop hw hs
  exact .resume hsettled.1 hsettled.2 hw.kept

/-- In every run in which no thread is cancelled inside its call, every call that has
returned keeps the contract, and the thread of a call that has not returned is still on
the queue of the call or was woken there and is on the run queue. -/
theorem undisturbed_run_kept {s : Sched Q} {w : Watched Q} {ops : List (Op Q)} (hs : Linked s)
    (hrun : Run Watches Undisturbed (unwatched s) ops w) :
    (∀ r ∈ w.returned, Kept r.2) ∧ ∀ t c, w.calls t = some c → Waits w.sched t c := by
  have hw := hrun.invariant (fun _ _ _ => Watching.step) (watching_unwatched hs)
  exact ⟨hw.kept, hw.waits⟩

/-- Thread 1 sleeps, thread 2 wakes it and the idle thread, and its call returns 0 when
thread 1 runs again; thread 2 is then inside a call of its own. -/
theorem kept_after_wakeup : ∃ w : Watched Unit, Run Watches Undisturbed (unwatched bootState)
    [.makeRunnable 1, .makeRunnable 2, .sleepOn (), .cancellableSleepOn (), .broadcastOn (),
      .cancellableSleepOn (), .sleepOn ()] w ∧
    w.returned = [(1, ⟨(), false, false, false, true, 0⟩)] ∧
    (∀ r ∈ w.returned, Kept r.2) ∧ ∀ t c, w.calls t = some c → Waits w.sched t c := by
  have hrun : Run Watches Undisturbed (unwatched bootState)
      [.makeRunnable 1, .makeRunnable 2, .sleepOn (), .cancellableSleepOn (), .broadcastOn (),
        .cancellableSleepOn (), .sleepOn ()] (_ : Watched Unit) :=
    .next trivial rfl (.next trivial rfl (.next trivial rfl (.next rfl rfl
      (.next trivial rfl (.next rfl rfl (.next trivial rfl (.done _)))))))
  exact ⟨_, hrun, rfl, undisturbed_run_kept bootState_booted.inv.linked hrun⟩

/-- Thread 1 is cancelled by thread 2 while it sleeps on the queue, and nobody wakes it;
its call returns 0 nevertheless. -/
theorem cancelled_sleep_returns_zero : ∃ w : Watched Unit,
    Run Watches (fun w op => Disciplined w.sched op) (unwatched bootState)
      [.makeRunnable 1, .makeRunnable 2, .sleepOn (), .cancellableSleepOn (), .cancel 1 (-1),
        .sleepOn ()] w ∧
    w.returned = [(1, ⟨(), false, true, true, false, 0⟩)] ∧
    (w.sched.threads 1).ktCancelled = true ∧ ¬∀ r ∈ w.returned, Kept r.2 := by
  refine ⟨_, .next rfl rfl (.next rfl rfl (.next trivial rfl (.next rfl rfl
    (.next trivial rfl (.next trivial rfl (.done _)))))), rfl, rfl, ?_⟩
  intro h
  have hkept := h _ (List.mem_singleton.2 rfl)
  exact absurd (hkept.cancelled (.inr rfl)) (by decide)

end SystemsProjects.CancellableSleeps
