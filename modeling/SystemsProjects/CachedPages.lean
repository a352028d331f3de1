import SystemsProjects.FilledPages
import SystemsProjects.ResidentPages

/-!
# The two models of `pframe_get`

`PframeCache` has the lists of the cache, `FilledPages` which pages have been filled. On the
identities of the frames, their busy bits and the point where the call blocks, `pframe_get` does
in the first what it does in the second.
-/
namespace SystemsProjects.CachedPages

open Function List PframeCache

/-- What both models have of the frames. -/
structure Shows (s : Cache) (a : FilledPages.Cache) : Prop where
  identity : ∀ pf o n, (a.frame pf).identity = some (o, n) ↔
    (s.frame pf).pfObj = some o ∧ (s.frame pf).pfPagenum = n
  busy : ∀ pf, (a.frame pf).busy.isSome = (s.frame pf).busy
  resident : ∀ pf, (s.frame pf).pfObj ≠ none → pf ∈ a.resident

/-- The call of the cache that a call blocks in. -/
def callOf : FilledPages.Blocked → Call
  | .fillpage pf _ => .fillpage pf
  | .getSleep pf _ => .getSleep pf
  | .operation pf => .dirtypage pf

variable {s s' : Cache} {c : Contents} {a : FilledPages.Cache}
  {t x pf : ℕ} {o n : UInt32}

theorem shows_init : Shows pframeInit FilledPages.empty := by
  constructor <;> simp [pframeInit, FilledPages.empty]

theorem Shows.congr (hv : Shows s a) (h : s'.frame = s.frame) : Shows s' a := by
  constructor <;> rw [h]
  exacts [hv.identity, hv.busy, hv.resident]

theorem Shows.none_iff (hv : Shows s a) (pf : ℕ) :
    (a.frame pf).identity = none ↔ (s.frame pf).pfObj = none := by
  simp [Option.eq_none_iff_forall_ne_some, Prod.forall, hv.identity pf]

/-- The page is found in the hash table exactly if it is found among the resident ones. -/
theorem resident_agrees (h : Holds s c) (hv : Shows s a) (o n : UInt32) :
    (pframeGetResident s o n = .ok (s, none) ∧ a.pframeGetResident (o, n) = none ∧
      ∀ pf, (s.frame pf).pfObj = some o → (s.frame pf).pfPagenum ≠ n) ∨
    ∃ links pf, pframeGetResident s o n = .ok ({ s with links := links }, some pf) ∧
      a.pframeGetResident (o, n) = some pf := by
  rcases pframeGetResident_spec h o n with
    ⟨hnone, hnew⟩ | ⟨links, -, pf, hsome, -, hobj, hnum⟩
  · refine .inl ⟨hnone, find?_eq_none.mpr fun pf _ hpf => ?_, hnew⟩
    obtain ⟨hobj, hnum⟩ := (hv.identity pf o n).mp (of_decide_eq_true hpf)
    exact hnew pf hobj hnum
  · refine .inr ⟨links, pf, hsome, ?_⟩
    cases hfind : a.pframeGetResident (o, n) with
    | none =>
      have hid := (hv.identity pf o n).mpr ⟨hobj, hnum⟩
      simpa [hid] using find?_eq_none.mp hfind pf (hv.resident pf (by simp [hobj]))
    | some pf' =>
      have hid : (a.frame pf').identity = some (o, n) := by simpa using find?_some hfind
      obtain ⟨hobj', hnum'⟩ := (hv.identity pf' o n).mp hid
      rw [h.unique pf' pf o hobj' hobj (hnum'.trans hnum.symm)]

/-- The first piece of `pframe_get`, up to the point where it blocks or returns. -/
theorem pframeGet_agrees (h : Holds s c) (hv : Shows s a) (hx : a.calls x = none)
    {free : ℕ} {slab : Option ℕ} (hrun : pframeGet s t o n free slab = .ok s') :
    ∃ a' r, a.pframeGet x (o, n) slab = .ok (a', r) ∧ Shows s' a' ∧
      s'.stack t = ((a'.calls x).map callOf).toList++s.stack t := by
  unfold pframeGet at hrun
  unfold FilledPages.Cache.pframeGet
  rcases resident_agrees h hv o n with ⟨hnone, hnone', hnew⟩ | ⟨links, pf, hsome, hsome'⟩
  · rw [hnone, bind_ok] at hrun
    rw [hnone']
    obtain ⟨w, hwake, hw, hframe, hstack⟩ := wakeup_spec h free
    dsimp only at hrun
    rw [hwake] at hrun
    cases slab with
    | none =>
      cases hrun
      exact ⟨a, none, rfl, hv.congr hframe, by rw [hx, hstack]; rfl⟩
    | some pf =>
      have hid : (a.frame pf).identity = none ↔ (w.frame pf).pfObj = none := by
        rw [hframe, hv.none_iff]
      by_cases hfree : (w.frame pf).pfObj = none
      · obtain ⟨u, hu, -, hstack', hframe'⟩ := pframeAlloc_spec hw pf hfree
          (by rwa [hframe])
        rw [hu] at hrun
        cases hrun
        dsimp only
        rw [if_neg (not_not.mpr (hid.mpr hfree))]
        refine ⟨_, none, rfl, ?_, ?_⟩
        · have hnew' : ∀ p, ((setBusy u pf).enter t (.fillpage pf)).frame p =
              if p = pf then ⟨some o, n, true, false, 0, []⟩ else s.frame p := by
            intro p
            by_cases hp : p = pf <;>
              simp [setBusy, Cache.setFrame, Cache.enter,
                hframe', hframe, hp]
          constructor <;> intro p <;> rw [hnew'] <;> by_cases hp : p = pf <;>
            simp [FilledPages.Cache.setCall, FilledPages.Cache.setFrame, hp, hv.identity, hv.busy]
          exact hv.resident p
        · simp [Cache.enter, FilledPages.Cache.setCall, setBusy,
            Cache.setFrame, hstack', hstack, callOf]
      · unfold pframeAlloc at hrun
        dsimp only at hrun
        rw [if_pos hfree] at hrun
        cases hrun
  · rw [hsome, bind_ok] at hrun
    rw [hsome']
    dsimp only at hrun ⊢
    rw [hv.busy pf]
    split at hrun
    next hb =>
      cases hrun
      rw [if_pos hb]
      refine ⟨_, none, rfl, ?_, ?_⟩
      · constructor <;> intro p <;> by_cases hp : p = pf <;>
          simp [sleepOn, Cache.setFrame, Cache.enter,
            FilledPages.Cache.setCall, hp, hv.identity, hv.busy]
        exacts [hv.resident pf, hv.resident p]
      · simp [Cache.enter, FilledPages.Cache.setCall, sleepOn,
          Cache.setFrame, callOf]
    next hb =>
      cases hrun
      rw [if_neg hb]
      exact ⟨a, _, rfl, hv.congr rfl, by rw [hx]; rfl⟩

end SystemsProjects.CachedPages
