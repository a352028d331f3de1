import Mathlib.Data.Int.Notation
import Mathlib.Data.Nat.Notation
import Mathlib.Logic.Function.Basic
import SystemsProjects.GuardedRuns

/-!
# The pages that `pframe_get` returns

`pframe_get` returns a page that it has found, one that it has slept for, or one that it has
allocated and filled. It does not look at what `fillpage` returned, and after the sleep it does
not look whether the page still has the identity that it was asked for.

Other threads run where a call blocks: asleep on a busy page, or in an operation of the object.
What such an operation calls itself counts as calls of other threads. The lists of the cache are
those of `PframeCache`; here it is enough which frames are in the hash table. Whether a page is
dirty or pinned is left out, it decides only whether an assertion fails.
-/
namespace SystemsProjects.FilledPages

open Function GuardedRuns List

/-- The object and the number of a page. -/
abbrev Identity := UInt32×UInt32

/-- A frame, with no identity if it is free. Which call has made it busy and whether it has been
filled is not in the memory. -/
@[ext]
structure Pframe where
  identity : Option Identity
  busy : Option ℕ
  filled : Bool
deriving DecidableEq

/-- Where a call blocks: `pframe_get` in `fillpage` or asleep on a page, with what it was asked
for, or `pframe_dirty` and `pframe_clean` in the operation of the object. -/
inductive Blocked
  | fillpage (pf : ℕ) (asked : Identity)
  | getSleep (pf : ℕ) (asked : Identity)
  | operation (pf : ℕ)

structure Cache where
  resident : List ℕ
  frame : ℕ → Pframe
  calls : ℕ → Option Blocked

inductive Fault
  | assertion
  | noObject
  | slabInUse
  | notBlocked
deriving DecidableEq

/-- The cache, and the page with which a call of `pframe_get` returns 0. -/
abbrev Outcome := Except Fault (Cache×Option (ℕ×Identity))

namespace Cache

variable (s : Cache)

def setFrame (pf : ℕ) (frame : Pframe) : Cache := { s with frame := update s.frame pf frame }

def setCall (x : ℕ) (b : Option Blocked) : Cache := { s with calls := update s.calls x b }

def pframeGetResident (asked : Identity) : Option ℕ :=
  s.resident.find? fun pf => (s.frame pf).identity = some asked

/-- The memory for a new frame comes from the slab allocator. Without it -1 is returned. -/
def pframeGet (x : ℕ) (asked : Identity) (slab : Option ℕ) : Outcome :=
  match s.pframeGetResident asked, slab with
  | some pf, _ =>
    if (s.frame pf).busy.isSome then return (s.setCall x (some (.getSleep pf asked)), none)
    else return (s, some (pf, asked))
  | none, none => return (s, none)
  | none, some pf =>
    if (s.frame pf).identity ≠ none then .error .slabInUse
    else return ({ s.setFrame pf ⟨some asked, some x, false⟩ with
      resident := pf::s.resident }.setCall
      x (some (.fillpage pf asked)), none)

/-- A thread that slept looks at the same page again. -/
def woken (x : ℕ) : Outcome :=
  match s.calls x with
  | some (.getSleep pf asked) =>
    if (s.frame pf).busy.isSome then return (s, none)
    else return (s.setCall x none, some (pf, asked))
  | _ => .error .notBlocked

/-- An operation of an object returns a value, which `pframe_get` does not look at. -/
def returned (x : ℕ) (ret : ℤ) : Outcome :=
  match s.calls x with
  | some (.fillpage pf asked) =>
    return ((s.setFrame pf { s.frame pf with busy := none, filled := decide (ret = 0) }).setCall
      x none, some (pf, asked))
  | some (.operation pf) =>
    return ((s.setFrame pf { s.frame pf with busy := none }).setCall x none, none)
  | _ => .error .notBlocked

def pframeClean (x pf : ℕ) : Outcome :=
  if (s.frame pf).identity = none then .error .noObject
  else return ((s.setFrame pf { s.frame pf with busy := some x }).setCall x (some (.operation pf)),
    none)

def pframeDirty (x pf : ℕ) : Outcome :=
  if (s.frame pf).busy.isSome then .error .assertion else s.pframeClean x pf

def pframeFree (pf : ℕ) : Outcome :=
  if (s.frame pf).identity = none ∨ (s.frame pf).busy.isSome then .error .assertion
  else return ({ s.setFrame pf { s.frame pf with identity := none } with
    resident := s.resident.erase pf }, none)

/-- Where the other object has such a page, `pframe_clean` and `pframe_free` follow. -/
def pframeMigrate (pf : ℕ) (dest : UInt32) : Outcome :=
  if (s.frame pf).busy.isSome then .error .assertion
  else match (s.frame pf).identity with
    | none => .error .noObject
    | some (_, pagenum) =>
      match s.pframeGetResident (dest, pagenum) with
      | some _ => return (s, none)
      | none => return ({ s.setFrame pf { s.frame pf with identity := some (dest, pagenum) } with
        resident := pf::s.resident.erase pf }, none)

end Cache

/-- The pieces of code between the points where a call blocks. -/
inductive Event
  | get (x : ℕ) (asked : Identity) (slab : Option ℕ)
  | woken (x : ℕ)
  | returned (x : ℕ) (ret : ℤ)
  | dirty (x pf : ℕ)
  | clean (x pf : ℕ)
  | free (pf : ℕ)
  | migrate (pf : ℕ) (dest : UInt32)

/-- A call that begins is not one that blocks. -/
def next (s : Cache) : Event → Outcome
  | .get x asked slab => if (s.calls x).isSome then .error .notBlocked else s.pframeGet x asked slab
  | .woken x => s.woken x
  | .returned x ret => s.returned x ret
  | .dirty x pf => if (s.calls x).isSome then .error .notBlocked else s.pframeDirty x pf
  | .clean x pf => if (s.calls x).isSome then .error .notBlocked else s.pframeClean x pf
  | .free pf => s.pframeFree pf
  | .migrate pf dest => s.pframeMigrate pf dest

def Step (s : Cache) (e : Event) (s' : Cache) : Prop := ∃ r, next s e = .ok (s', r)

def empty : Cache := ⟨[], fun _ => ⟨none, none, false⟩, fun _ => none⟩

/-- A thread sleeps for the page in `pframe_get`, or has been woken up and not yet gone on. -/
def Waited (s : Cache) (pf : ℕ) : Prop := ∃ x asked, s.calls x = some (.getSleep pf asked)

/-- Filling succeeds, no page is taken away that a thread sleeps for, and `pframe_clean` is not
called for a busy page, which its callers check. -/
def Proper (s : Cache) : Event → Prop
  | .returned x ret => ∀ pf asked, s.calls x = some (.fillpage pf asked) → ret = 0
  | .clean _ pf => (s.frame pf).busy = none
  | .free pf => ¬Waited s pf
  | .migrate pf _ => ¬Waited s pf
  | _ => True

/-! ### Pages and calls -/

/-- A page is busy only if it is there, and unfilled only while it is busy. -/
def Pframe.Ok (frame : Pframe) (resident : Prop) : Prop :=
  (frame.identity = none → frame.busy = none) ∧ (frame.identity ≠ none → resident) ∧
    (frame.identity ≠ none → frame.busy = none → frame.filled = true)

/-- What a call that blocks can rely on. -/
def Blocked.Ok (frame : ℕ → Pframe) (x : ℕ) : Blocked → Prop
  | .fillpage pf asked => frame pf = ⟨some asked, some x, false⟩
  | .getSleep pf asked => (frame pf).identity = some asked
  | .operation pf =>
    (frame pf).identity ≠ none ∧ (frame pf).busy = some x ∧ (frame pf).filled = true

def Inv (s : Cache) : Prop :=
  (∀ x b, s.calls x = some b → b.Ok s.frame x) ∧ ∀ pf, (s.frame pf).Ok (pf ∈ s.resident)

variable {s t : Cache} {x pf : ℕ} {asked : Identity} {r : Option (ℕ×Identity)}

theorem Inv.setCall (h : Inv s) {v : Option Blocked} (hv : ∀ b, v = some b → b.Ok s.frame x) :
    Inv (s.setCall x v) := by
  refine ⟨fun y b hy => ?_, h.2⟩
  change update s.calls x v y = some b at hy
  by_cases hyx : y = x
  · rw [hyx, update_self] at hy
    exact hyx ▸ hv b hy
  · rw [update_of_ne hyx] at hy
    exact h.1 y b hy

/-- A page that no call works on may change, but for its identity if a thread sleeps for it. -/
theorem Inv.setFrame (h : Inv s) {f : Pframe} {l : List ℕ}
    (hl : ∀ p ≠ pf, p ∈ s.resident → p ∈ l) (hok : f.Ok (pf ∈ l))
    (hbusy : ∀ y, (s.frame pf).busy = some y → s.calls y = none)
    (hid : f.identity = (s.frame pf).identity ∨ ¬Waited s pf) :
    Inv ⟨l, update s.frame pf f, s.calls⟩ := by
  have hold : ∀ {p}, p ≠ pf → update s.frame pf f p = s.frame p := fun hp => update_of_ne hp _ _
  refine ⟨fun y b hy => ?_, fun p => ?_⟩
  · have hb := h.1 y b hy
    cases b with
    | fillpage p asked =>
      have hne : p ≠ pf := by
        rintro rfl
        rw [Blocked.Ok] at hb
        exact absurd ((hbusy y (by rw [hb])).symm.trans hy) nofun
      exact (hold hne).trans hb
    | getSleep p asked =>
      change (update s.frame pf f p).identity = some asked
      by_cases hp : p = pf
      · subst hp
        rcases hid with hid | hw
        · rw [update_self, hid]
          exact hb
        · exact absurd ⟨y, asked, hy⟩ hw
      · rw [hold hp]
        exact hb
    | operation p =>
      have hne : p ≠ pf := by
        rintro rfl
        exact absurd ((hbusy y hb.2.1).symm.trans hy) nofun
      dsimp only [Blocked.Ok]
      rw [hold hne]
      exact hb
  · change (update s.frame pf f p).Ok (p ∈ l)
    by_cases hp : p = pf
    · rwa [hp, update_self]
    · rw [hold hp]
      obtain ⟨hidle, hin, hfilled⟩ := h.2 p
      exact ⟨hidle, fun hn => hl p hp (hin hn), hfilled⟩

/-- The page that is returned is the one that was asked for, is not busy and has been filled. -/
def Sound : Outcome → Prop
  | .ok (s, r) => Inv s ∧ ∀ pf asked, r = some (pf, asked) → s.frame pf = ⟨some asked, none, true⟩
  | .error _ => True

theorem Inv.delivers (h : Inv s) (hi : (s.frame pf).identity = some asked)
    (hb : ¬(s.frame pf).busy.isSome) (p : ℕ) (asked' : Identity)
    (hp : some (pf, asked) = some (p, asked')) : s.frame p = ⟨some asked', none, true⟩ := by
  cases hp
  have hn := Option.not_isSome_iff_eq_none.mp hb
  exact Pframe.ext hi hn ((h.2 pf).2.2 (by simp [hi]) hn)

theorem Inv.pframeGet (h : Inv s) (slab : Option ℕ) : Sound (s.pframeGet x asked slab) := by
  unfold Cache.pframeGet
  cases hfind : s.pframeGetResident asked with
  | some pf =>
    have hi := find?_some hfind
    rw [decide_eq_true_iff] at hi
    dsimp only
    split
    · exact ⟨h.setCall fun b hb => Option.some.inj hb ▸ hi, nofun⟩
    · rename_i hb
      exact ⟨h, h.delivers hi hb⟩
  | none =>
    cases slab with
    | none => exact ⟨h, nofun⟩
    | some pf =>
      dsimp only
      split
      · trivial
      rename_i hfree
      have hnone := not_not.mp hfree
      refine ⟨Inv.setCall (h.setFrame (f := ⟨some asked, some x, false⟩)
        (fun _ _ => mem_cons_of_mem pf) ⟨nofun, fun _ => mem_cons_self, nofun⟩ ?_ ?_) ?_, nofun⟩
      · exact fun y hy => absurd (((h.2 pf).1 hnone).symm.trans hy) nofun
      · right
        rintro ⟨y, asked', hy⟩
        exact absurd (hnone.symm.trans (h.1 y _ hy)) nofun
      · rintro b ⟨⟩
        exact update_self _ _ _

theorem Inv.woken (h : Inv s) : Sound (s.woken x) := by
  unfold Cache.woken
  split
  · rename_i pf asked hx
    split
    · exact ⟨h, nofun⟩
    · rename_i hb
      exact ⟨h.setCall (v := none) nofun, h.delivers (h.1 x _ hx) hb⟩
  · trivial

theorem Inv.returned (h : Inv s) {ret : ℤ} (he : Proper s (.returned x ret)) :
    Sound (s.returned x ret) := by
  have hgone : ∀ y, some x = some y → (s.setCall x none).calls y = none := by
    rintro y ⟨⟩
    exact update_self _ _ _
  unfold Cache.returned
  split
  · rename_i pf asked hx
    have hb : s.frame pf = ⟨some asked, some x, false⟩ := h.1 x _ hx
    obtain rfl : ret = 0 := he pf asked hx
    have hin := (h.2 pf).2.1 (by simp [hb])
    rw [hb]
    refine ⟨Inv.setFrame (h.setCall (x := x) (v := none) nofun) (fun _ _ => id)
      ⟨nofun, fun _ => hin, fun _ _ => rfl⟩ (fun y hy => hgone y ?_) (.inl ?_), ?_⟩
    · exact (congrArg Pframe.busy hb).symm.trans hy
    · exact (congrArg Pframe.identity hb).symm
    · rintro pf' asked' ⟨⟩
      exact update_self _ _ _
  · rename_i pf hx
    obtain ⟨-, hb, hf⟩ := h.1 x _ hx
    exact ⟨Inv.setFrame (h.setCall (x := x) (v := none) nofun) (fun _ _ => id)
      ⟨fun _ => rfl, (h.2 pf).2.1, fun _ _ => hf⟩ (fun y hy => hgone y (hb.symm.trans hy))
      (.inl rfl), nofun⟩
  · trivial

theorem Inv.pframeClean (h : Inv s) (hb : (s.frame pf).busy = none) :
    Sound (s.pframeClean x pf) := by
  unfold Cache.pframeClean
  split
  · trivial
  rename_i hi
  refine ⟨Inv.setCall (h.setFrame (f := { s.frame pf with busy := some x })
    (fun _ _ => id) ⟨fun hn => absurd hn hi, (h.2 pf).2.1, nofun⟩
    (fun y hy => absurd (hb.symm.trans hy) nofun) (.inl rfl)) ?_, nofun⟩
  rintro b ⟨⟩
  dsimp only [Blocked.Ok]
  rw [update_self]
  exact ⟨hi, rfl, (h.2 pf).2.2 hi hb⟩

theorem Inv.pframeFree (h : Inv s) (hw : ¬Waited s pf) : Sound (s.pframeFree pf) := by
  unfold Cache.pframeFree
  split
  · trivial
  rename_i hb
  have hidle := Option.not_isSome_iff_eq_none.mp fun hn => hb (.inr hn)
  exact ⟨h.setFrame (f := { s.frame pf with identity := none })
    (fun _ hne => (mem_erase_of_ne hne).mpr)
    ⟨fun _ => hidle, fun hn => absurd rfl hn, fun hn => absurd rfl hn⟩
    (fun y hy => absurd (hidle.symm.trans hy) nofun) (.inr hw), nofun⟩

theorem Inv.pframeMigrate (h : Inv s) (hw : ¬Waited s pf) (dest : UInt32) :
    Sound (s.pframeMigrate pf dest) := by
  unfold Cache.pframeMigrate
  split
  · trivial
  rename_i hb
  have hidle := Option.not_isSome_iff_eq_none.mp hb
  cases hi : (s.frame pf).identity with
  | none => trivial
  | some old =>
    dsimp only
    split
    · exact ⟨h, nofun⟩
    · exact ⟨h.setFrame (f := { s.frame pf with identity := some (dest, old.2) })
        (fun _ hne hp => mem_cons_of_mem pf ((mem_erase_of_ne hne).mpr hp))
        ⟨nofun, fun _ => mem_cons_self, fun _ => (h.2 pf).2.2 (by simp [hi])⟩
        (fun y hy => absurd (hidle.symm.trans hy) nofun) (.inr hw), nofun⟩

variable {e : Event}

theorem Inv.next (h : Inv s) (he : Proper s e) : Sound (next s e) := by
  cases e with
  | get x asked slab =>
    rw [FilledPages.next]
    split
    · trivial
    · exact h.pframeGet slab
  | woken x => exact h.woken
  | returned x ret => exact h.returned he
  | dirty x pf =>
    rw [FilledPages.next, Cache.pframeDirty]
    split
    · trivial
    split
    · trivial
    · rename_i hb
      exact h.pframeClean (Option.not_isSome_iff_eq_none.mp hb)
  | clean x pf =>
    rw [FilledPages.next]
    split
    · trivial
    · exact h.pframeClean he
  | free pf => exact h.pframeFree he
  | migrate pf dest => exact h.pframeMigrate he dest

theorem Inv.step (h : Inv s) (he : Proper s e) (hs : FilledPages.next s e = .ok (t, r)) :
    Sound (.ok (t, r)) := hs ▸ h.next he

theorem inv_run {es : List Event} (hrun : Run Step Proper empty es s) : Inv s := by
  refine hrun.invariant (fun s e t he hs h => ?_)
    ⟨nofun, fun _ => ⟨fun _ => rfl, fun hn => ?_, fun hn => ?_⟩⟩
  · obtain ⟨r, hs⟩ := hs
    exact (h.step he hs).1
  · exact absurd rfl hn
  · exact absurd rfl hn

/-- After any run, the page with which `pframe_get` returns 0 is the one that it was asked for, is
not busy and has been filled. No other page that is not busy is unfilled. -/
theorem pframeGet_filled {es : List Event} (hrun : Run Step Proper empty es s) (he : Proper s e)
    (hs : next s e = .ok (t, r)) :
    (∀ pf asked, r = some (pf, asked) → pf ∈ t.resident ∧ t.frame pf = ⟨some asked, none, true⟩) ∧
      ∀ pf, (t.frame pf).identity ≠ none → (t.frame pf).busy = none →
        (t.frame pf).filled = true := by
  obtain ⟨hinv, hret⟩ := (inv_run hrun).step he hs
  refine ⟨fun pf asked hr => ?_, fun pf => (hinv.2 pf).2.2⟩
  have hpf := hret pf asked hr
  exact ⟨(hinv.2 pf).2.1 (by simp [hpf]), hpf⟩

/-- Call 2 sleeps for the page that call 1 fills. -/
def sleeping : List Event := [.get 1 (4096, 3) (some 100), .get 2 (4096, 3) none, .returned 1 0]

theorem slept_page_filled : ∃ s t, Run Step Proper empty sleeping s ∧
    next s (.woken 2) = .ok (t, some (100, 4096, 3)) ∧
    100 ∈ t.resident ∧ t.frame 100 = ⟨some (4096, 3), none, true⟩ := by
  have hrun : Run Step Proper empty sleeping _ := .next trivial ⟨_, rfl⟩ (.next trivial ⟨_, rfl⟩
    (.next (fun _ _ _ => rfl) ⟨_, rfl⟩ (.done _)))
  exact ⟨_, _, hrun, rfl, (pframeGet_filled hrun (e := .woken 2) trivial rfl).1 100 _ rfl⟩

/-- A page that could not be filled is returned with 0 and stays, and a thread that slept for a
page gets it after it has been freed. -/
theorem bad_pages_returned :
    (∃ s t, Run Step (fun _ _ => True) empty [.get 1 (4096, 3) (some 100)] s ∧
      next s (.returned 1 (-5)) = .ok (t, some (100, 4096, 3)) ∧
      t.frame 100 = ⟨some (4096, 3), none, false⟩) ∧
    ∃ s t, Run Step (fun _ _ => True) empty (sleeping++[.free 100]) s ∧
      next s (.woken 2) = .ok (t, some (100, 4096, 3)) ∧ (t.frame 100).identity = none := by
  refine ⟨⟨_, _, .next trivial ⟨_, rfl⟩ (.done _), rfl, rfl⟩, ?_⟩
  exact ⟨_, _, .next trivial ⟨_, rfl⟩ (.next trivial ⟨_, rfl⟩ (.next trivial ⟨_, rfl⟩
    (.next trivial ⟨_, rfl⟩ (.done _)))), rfl, rfl⟩

end SystemsProjects.FilledPages
