import SystemsProjects.GuardedRuns
import Mathlib.Logic.Function.Basic

/-!
# The memory of processes that fork

A page of a process is its own or one that it shares. A write changes what is at the place of the
page; a process that forks hands on its shared pages, and the child gets pages of its own with the
contents of those of its parent. So a page of its own has the contents it had at first, changed by
the writes of the process, and a shared page those changed by the writes of all that share it.
-/
namespace SystemsProjects.ForkedMemories

open Function GuardedRuns

variable {P N K I V : Type}

inductive Place (P N K : Type)
  | own (p : P) (n : N)
  | shared (k : K)
  deriving DecidableEq

structure Memory (P N K I V : Type) where
  place : P → N → Option (Place P N K)
  page : Place P N K → I → V

def Memory.read (m : Memory P N K I V) (p : P) (n : N) : Option (I → V) := (m.place p n).map m.page

/-- The place is that of a page of some process. -/
def Memory.Used (m : Memory P N K I V) (l : Place P N K) : Prop := ∃ p n, m.place p n = some l

inductive Label (P N I V : Type)
  | idle
  | died (p : P)
  | read (p : P) (n : N) (i : I) (v : V)
  | wrote (p : P) (n : N) (i : I) (v : V)
  | forked (p c : P)

/-- The place of the child's page, given that of the parent's. -/
def inherit (c : P) (n : N) : Place P N K → Place P N K
  | .own _ _ => .own c n
  | .shared k => .shared k

theorem inherit_eq_shared {c : P} {n : N} {k : K} {l : Place P N K}
    (h : inherit c n l = .shared k) :
    l = .shared k := by
  cases l with
  | own => cases h
  | shared => exact h

/-- Steps of the memory, up to the contents of places that are not used. -/
inductive Step [DecidableEq I] : Memory P N K I V → Label P N I V → Memory P N K I V → Prop
  | idle (m : Memory P N K I V) : Step m .idle m
  | died {m m' : Memory P N K I V} (p : P) (hp : ∀ n, m'.place p n = none)
      (ho : ∀ q, q ≠ p → m'.place q = m.place q)
      (hpage : ∀ l, m'.Used l → m'.page l = m.page l) : Step m (.died p) m'
  | read {m : Memory P N K I V} (p : P) (n : N) (i : I) {l : Place P N K}
      (hl : m.place p n = some l) : Step m (.read p n i (m.page l i)) m
  | wrote {m m' : Memory P N K I V} (p : P) (n : N) (i : I) (v : V) (l : Place P N K)
      (hl : m.place p n = some l) (hplace : m'.place = m.place)
      (hself : m'.page l = update (m.page l) i v)
      (hrest : ∀ l', m.Used l' → l' ≠ l → m'.page l' = m.page l') : Step m (.wrote p n i v) m'
  | forked {m m' : Memory P N K I V} (p c : P) (hc : ∀ n, m.place c n = none)
      (hchild : ∀ n, m'.place c n = (m.place p n).map (inherit c n))
      (ho : ∀ q, q ≠ c → m'.place q = m.place q)
      (hpage : ∀ l, m.Used l → m'.page l = m.page l)
      (hcopy : ∀ n, m.place p n = some (.own p n) → m'.page (.own c n) = m.page (.own p n)) :
      Step m (.forked p c) m'

/-- A page of its own is at the place that bears its name. -/
def Placed (m : Memory P N K I V) : Prop :=
  ∀ p n q k, m.place p n = some (.own q k) → q = p ∧ k = n

section Runs

variable [DecidableEq I] {m m' : Memory P N K I V} {p : P} {n : N} {k : K} {e : Label P N I V}
  {good : Memory P N K I V → Label P N I V → Prop} {es : List (Label P N I V)}

theorem placed_step (h : Step m e m') (hm : Placed m) : Placed m' := by
  cases h with
  | idle => exact hm
  | died p hp ho _ =>
    intro q j a b hq
    by_cases hqp : q = p
    · subst hqp
      rw [hp] at hq
      cases hq
    · rw [ho q hqp] at hq
      exact hm q j a b hq
  | read => exact hm
  | wrote _ _ _ _ _ _ hplace =>
    rw [Placed, hplace]
    exact hm
  | forked p c _ hchild ho _ _ =>
    intro q j a b hq
    by_cases hqc : q = c
    · subst hqc
      rw [hchild, Option.map_eq_some_iff] at hq
      obtain ⟨l, -, hl⟩ := hq
      cases l with
      | own =>
        cases hl
        exact ⟨rfl, rfl⟩
      | shared => cases hl
    · rw [ho q hqc] at hq
      exact hm q j a b hq

section Own

variable [DecidableEq P] [DecidableEq N]

/-- What a step does to the contents of a page that a process has for itself. -/
def written (p : P) (n : N) (b : I → V) : Label P N I V → I → V
  | .wrote q j i v => if q = p ∧ j = n then update b i v else b
  | _ => b

theorem own_step (h : Step m e m') (hm : Placed m) (hp : m.place p n = some (.own p n))
    (he : e ≠ .died p) : m'.place p n = some (.own p n) ∧
      m'.page (.own p n) = written p n (m.page (.own p n)) e := by
  cases h with
  | idle => exact ⟨hp, rfl⟩
  | died q _ ho hpage =>
    have hq : p ≠ q := fun hq => he (by rw [hq])
    have hp' : m'.place p n = some (.own p n) := by rw [ho p hq, hp]
    exact ⟨hp', hpage _ ⟨p, n, hp'⟩⟩
  | read => exact ⟨hp, rfl⟩
  | wrote q j i v l hl hplace hself hrest =>
    refine ⟨by rw [hplace, hp], ?_⟩
    by_cases hqj : q = p ∧ j = n
    · obtain ⟨rfl, rfl⟩ := hqj
      obtain rfl := Option.some.inj (hp.symm.trans hl)
      rw [hself, written, if_pos ⟨rfl, rfl⟩]
    · rw [written, if_neg hqj]
      refine hrest _ ⟨p, n, hp⟩ fun heq => hqj ?_
      obtain ⟨hpq, hnj⟩ := hm q j p n (heq ▸ hl)
      exact ⟨hpq.symm, hnj.symm⟩
  | forked q c hc _ ho hpage _ =>
    have hpc : p ≠ c := fun hpc => by
      rw [hpc, hc] at hp
      cases hp
    exact ⟨by rw [ho p hpc, hp], hpage _ ⟨p, n, hp⟩⟩

/-- A page of its own has the contents that it had, changed by the writes of its process. -/
theorem own_run (h : Run Step good m es m') (hm : Placed m)
    (hp : m.place p n = some (.own p n)) (hes : .died p ∉ es) :
    m'.read p n = some (es.foldl (written p n) (m.page (.own p n))) := by
  induction h with
  | done m => rw [Memory.read, hp, Option.map_some, List.foldl_nil]
  | @next m m1 m' e es _ hstep _ ih =>
    obtain ⟨hp1, hpage⟩ := own_step hstep hm hp fun he => hes (by simp [he])
    rw [ih (placed_step hstep hm) hp1 fun he => hes (by simp [he]), hpage, List.foldl_cons]

end Own

section Shared

def places [DecidableEq P] (f : P → N → Option (Place P N K)) :
    Label P N I V → P → N → Option (Place P N K)
  | .died p => update f p fun _ => none
  | .forked p c => update f c fun n => (f p n).map (inherit c n)
  | _ => f

theorem place_step [DecidableEq P] (h : Step m e m') : m'.place = places m.place e := by
  cases h with
  | idle => rfl
  | died p hp ho _ =>
    funext q
    by_cases hq : q = p
    · subst hq
      funext n
      rw [hp, places, update_self]
    · rw [ho q hq, places, update_of_ne hq]
  | read => rfl
  | wrote _ _ _ _ _ _ hplace => exact hplace
  | forked p c _ hchild ho _ _ =>
    funext q
    by_cases hq : q = c
    · subst hq
      funext n
      rw [hchild, places, update_self]
    · rw [ho q hq, places, update_of_ne hq]

theorem used_of_step (h : Step m e m') (hu : m'.Used (.shared k)) : m.Used (.shared k) := by
  obtain ⟨q, j, hq⟩ := hu
  cases h with
  | idle => exact ⟨q, j, hq⟩
  | died p hp ho _ =>
    by_cases hqp : q = p
    · rw [hqp, hp] at hq
      cases hq
    · exact ⟨q, j, by rw [← ho q hqp, hq]⟩
  | read => exact ⟨q, j, hq⟩
  | wrote _ _ _ _ _ _ hplace => exact ⟨q, j, by rw [← hplace, hq]⟩
  | forked p c _ hchild ho _ _ =>
    by_cases hqc : q = c
    · rw [hqc, hchild, Option.map_eq_some_iff] at hq
      obtain ⟨l, hl, heq⟩ := hq
      exact ⟨p, j, by rw [hl, inherit_eq_shared heq]⟩
    · exact ⟨q, j, by rw [← ho q hqc, hq]⟩

theorem used_of_run (h : Run Step good m es m') (hu : m'.Used (.shared k)) :
    m.Used (.shared k) := by
  induction h with
  | done m => exact hu
  | next _ hstep _ ih => exact used_of_step hstep (ih hu)

variable [DecidableEq P] [DecidableEq N] [DecidableEq K]

/-- What a step does to the contents of a shared page. -/
def writtenShared (f : P → N → Option (Place P N K)) (k : K) (b : I → V) : Label P N I V → I → V
  | .wrote q j i v => if f q j = some (.shared k) then update b i v else b
  | _ => b

theorem shared_step (h : Step m e m') (hu : m'.Used (.shared k)) :
    m'.page (.shared k) = writtenShared m.place k (m.page (.shared k)) e := by
  have hum := used_of_step h hu
  cases h with
  | idle => rfl
  | died _ _ _ hpage => exact hpage _ hu
  | read => rfl
  | wrote q j i v l hl _ hself hrest =>
    by_cases hlk : l = .shared k
    · rw [writtenShared, if_pos (by rw [hl, hlk]), ← hlk, hself]
    · rw [writtenShared, if_neg fun heq => hlk (Option.some.inj (hl.symm.trans heq))]
      exact hrest _ hum (Ne.symm hlk)
  | forked _ _ _ _ _ hpage _ => exact hpage _ hum

/-- The contents of a shared page after the writes of all processes that share it. -/
def sharedWrites (k : K) : (P → N → Option (Place P N K)) → List (Label P N I V) → (I → V) → I → V
  | _, [], b => b
  | f, e :: es, b => sharedWrites k (places f e) es (writtenShared f k b e)

/-- A shared page has the contents that it had, changed by the writes of all that share it. -/
theorem shared_run (h : Run Step good m es m') (hp : m'.place p n = some (.shared k)) :
    m'.read p n = some (sharedWrites k m.place es (m.page (.shared k))) := by
  induction h with
  | done m => rw [Memory.read, hp, Option.map_some, sharedWrites]
  | @next m m1 m' e es _ hstep hrest ih =>
    have hu := used_of_run hrest ⟨p, n, hp⟩
    rw [ih hp, sharedWrites, ← place_step hstep, shared_step hstep hu]

end Shared

end Runs

end SystemsProjects.ForkedMemories
