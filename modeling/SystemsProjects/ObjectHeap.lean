import SystemsProjects.MemoryObjects
import Mathlib.Data.List.Nodup

/-!
# The heap of memory objects

The invariant of the objects themselves: a shadow object refers to an older live
object and knows the bottom of its chain, the number of resident pages is the length
of their list, and no two pages have one frame. From it follow closed forms for the
loops that take or drop a reference to every object of a chain. Dropping the last
reference of an anonymous or shadow object frees its pages and the object; on the
way it can only clear entries of page directories.
-/
namespace SystemsProjects.ObjectHeap

open Function PageTables VmState MemoryObjects List Option

/-- A shadow object is over an older one and names the bottom of its chain; any other
object has the list of areas. -/
def WellMade (s : Vm) (o : ℕ) (ob : Mmobj) : Prop :=
  match ob.mmoShadowed with
  | none => ob.mmoOps ≠ .shadow ∧ ∃ l, ob.mmoUn = .vmas l
  | some o' => ob.mmoOps = .shadow ∧ o' < o ∧ (s.objs o').isSome ∧
      ob.mmoUn = .bottomObj (bottom s o')

variable {ob : Mmobj} {s t : Vm} {o : ℕ}

theorem WellMade.congr {ob' : Mmobj} (h : WellMade s o ob) (hb : below t = below s)
    (hl : ∀ x, (s.objs x).isSome → (t.objs x).isSome) (hs : ob'.mmoShadowed = ob.mmoShadowed)
    (hops : ob'.mmoOps = ob.mmoOps) (hun : ob'.mmoUn = ob.mmoUn) : WellMade t o ob' := by
  unfold WellMade at h ⊢
  rw [hs, hops, hun]
  cases hx : ob.mmoShadowed with
  | none => simpa only [hx] using h
  | some x =>
    simp only [hx] at h
    have hbot : bottom t x = bottom s x := by rw [bottom, bottom, hb]
    exact ⟨h.1, h.2.1, hl x h.2.2.1, by rw [hbot]; exact h.2.2.2⟩

structure Heap (s : Vm) : Prop where
  lt_next : ∀ o ob, s.objs o = some ob → o < s.nextObj
  wellMade : ∀ o ob, s.objs o = some ob → WellMade s o ob
  nres : ∀ o ob, s.objs o = some ob → ob.mmoNrespages = ob.mmoRespages.length
  nodup : ∀ o ob, s.objs o = some ob → (ob.mmoRespages.map Pframe.pfPagenum).Nodup
  frame_lt : ∀ o ob, s.objs o = some ob → ∀ pf ∈ ob.mmoRespages, pf.pfAddr < s.nextFrame
  frame_inj : ∀ o o' ob ob', s.objs o = some ob → s.objs o' = some ob' →
    ∀ pf ∈ ob.mmoRespages, ∀ pf' ∈ ob'.mmoRespages, pf.pfAddr = pf'.pfAddr →
      o = o' ∧ pf.pfPagenum = pf'.pfPagenum

def vmasAt (s : Vm) (b : ℕ) : List (ℕ × ℕ) :=
  match (s.objs b).map Mmobj.mmoUn with
  | some (.vmas l) => l
  | _ => []

theorem below_eq_some {o' : ℕ} :
    below s o = some o' ↔ ∃ ob, s.objs o = some ob ∧ ob.mmoShadowed = some o' := by
  simp [below, bind_eq_some_iff]

theorem below_of_obj (h : s.objs o = some ob) : below s o = ob.mmoShadowed := by simp [below, h]

theorem bottom_eq_getLastD (s : Vm) (o : ℕ) : bottom s o = (chain s o).getLastD o := rfl

namespace Heap

variable {s : Vm} {o x : ℕ} {ob : Mmobj}

section

variable (h : Heap s)
include h

theorem below_spec (hb : below s o = some x) :
    ∃ ob, s.objs o = some ob ∧ ob.mmoShadowed = some x ∧ ob.mmoOps = .shadow ∧ x < o ∧
      (s.objs x).isSome ∧ ob.mmoUn = .bottomObj (bottom s x) := by
  obtain ⟨ob, hob, hx⟩ := below_eq_some.mp hb
  have hw := h.wellMade o ob hob
  simp only [WellMade, hx] at hw
  exact ⟨ob, hob, hx, hw⟩

theorem decreasing : ParentChains.Decreasing (below s) := by
  intro o x hb
  obtain ⟨ob, -, -, -, hlt, -⟩ := h.below_spec hb
  exact hlt

theorem live_below (hb : below s o = some x) : (s.objs x).isSome := by
  obtain ⟨ob, -, -, -, -, hx, -⟩ := h.below_spec hb
  exact hx

theorem live_of_mem (ho : (s.objs o).isSome) (hx : x ∈ chain s o) : (s.objs x).isSome :=
  ParentChains.forall_mem_chain h.decreasing (P := fun y => (s.objs y).isSome)
    (fun _ _ _ hz => h.live_below hz) ho x hx

theorem lt_of_live (ho : (s.objs o).isSome) : o < s.nextObj := by
  obtain ⟨ob, hob⟩ := isSome_iff_exists.mp ho
  exact h.lt_next o ob hob

theorem bottom_mem (o : ℕ) : bottom s o ∈ chain s o :=
  ParentChains.root_mem_chain h.decreasing o

theorem bottom_of_mem (hx : x ∈ chain s o) : bottom s x = bottom s o :=
  ParentChains.root_of_mem h.decreasing hx

theorem fresh_none (hx : s.nextObj ≤ x) : s.objs x = none := by
  cases hob : s.objs x with
  | none => rfl
  | some ob => exact absurd (h.lt_next x ob hob) (Nat.not_lt.mpr hx)

theorem ne_next (hx : (s.objs x).isSome) : x ≠ s.nextObj := by
  rintro rfl
  rw [h.fresh_none (Nat.le_refl _)] at hx
  cases hx

theorem shadowed_none (hob : s.objs o = some ob) (hn : ob.mmoShadowed = none) :
    ob.mmoOps ≠ .shadow ∧ ∃ l, ob.mmoUn = .vmas l := by
  have hw := h.wellMade o ob hob
  simpa only [WellMade, hn] using hw

theorem bottom_eq_self (hob : s.objs o = some ob) (hn : ob.mmoOps ≠ .shadow) :
    ob.mmoShadowed = none ∧ bottom s o = o := by
  have hnone : ob.mmoShadowed = none := by
    cases hs : ob.mmoShadowed with
    | none => rfl
    | some x =>
      have hw := h.wellMade o ob hob
      simp only [WellMade, hs] at hw
      exact absurd hw.1 hn
  exact ⟨hnone, ParentChains.root_of_none ((below_of_obj hob).trans hnone)⟩

theorem shadow_un (hob : s.objs o = some ob) (hops : ob.mmoOps = .shadow) :
    ob.mmoUn = .bottomObj (bottom s o) := by
  have hw := h.wellMade o ob hob
  cases hs : ob.mmoShadowed with
  | none =>
    simp only [WellMade, hs] at hw
    exact absurd hops hw.1
  | some x =>
    simp only [WellMade, hs] at hw
    have hroot : bottom s o = bottom s x :=
      ParentChains.root_of_some h.decreasing ((below_of_obj hob).trans hs)
    rw [hw.2.2.2, hroot]

theorem bottom_spec (ho : (s.objs o).isSome) :
    ∃ ob, s.objs (bottom s o) = some ob ∧ ob.mmoShadowed = none ∧ ob.mmoOps ≠ .shadow ∧
      ob.mmoUn = .vmas (vmasAt s (bottom s o)) := by
  obtain ⟨ob, hob⟩ := isSome_iff_exists.mp (h.live_of_mem ho (h.bottom_mem o))
  have hn : ob.mmoShadowed = none := by
    rw [← below_of_obj hob]
    exact ParentChains.up_root h.decreasing o
  obtain ⟨hops, l, hl⟩ := h.shadowed_none hob hn
  refine ⟨ob, hob, hn, hops, ?_⟩
  simp [vmasAt, hob, hl]

theorem mmobjBottomObj_eq (hob : s.objs o = some ob) : mmobjBottomObj s o = .ok (bottom s o) := by
  cases hs : ob.mmoShadowed with
  | none =>
    have hb : bottom s o = o := ParentChains.root_of_none ((below_of_obj hob).trans hs)
    simp [mmobjBottomObj, getObj, hob, hs, hb]
  | some x =>
    have hbel : below s o = some x := (below_of_obj hob).trans hs
    obtain ⟨ob', hob', -, -, -, -, hun⟩ := h.below_spec hbel
    obtain rfl : ob' = ob := some.inj (hob'.symm.trans hob)
    have hb : bottom s o = bottom s x := ParentChains.root_of_some h.decreasing hbel
    simp [mmobjBottomObj, getObj, hob, hs, hun, hb]

theorem mmobjBottomVmas_eq (hob : s.objs o = some ob) :
    mmobjBottomVmas s o = .ok (vmasAt s (bottom s o)) := by
  obtain ⟨ob', hob', -, -, hun⟩ := h.bottom_spec (isSome_of_mem hob)
  simp [mmobjBottomVmas, h.mmobjBottomObj_eq hob, vmasOf, getObj, hob', hun]

end

end Heap

def addRef (ob : Mmobj) : Mmobj := { ob with mmoRefcount := ob.mmoRefcount+1 }

/-- One more reference to each of the objects. -/
def bump (s : Vm) (l : List ℕ) : Vm :=
  { s with objs := fun x => if x ∈ l then (s.objs x).map addRef else s.objs x }

theorem foldlM_mmobjRef (l : List ℕ) (s : Vm) (hnd : l.Nodup)
    (hl : ∀ x ∈ l, ∃ ob, s.objs x = some ob ∧ 0 < ob.mmoRefcount) :
    l.foldlM mmobjRef s = .ok (bump s l) := by
  induction l generalizing s with
  | nil => simp [bump]
  | cons y l ih =>
    obtain ⟨hy, hnd⟩ := nodup_cons.mp hnd
    obtain ⟨ob, hob, hpos⟩ := hl y (by simp)
    have href : mmobjRef s y = .ok (s.setObj y (some (addRef ob))) := by
      simp [mmobjRef, getObj, hob, kassert_of hpos, addRef]
    rw [foldlM_cons, href, ok_bind, ih _ hnd]
    · congr 1
      unfold bump Vm.setObj
      congr 1
      funext x
      by_cases hxy : x = y
      · subst hxy
        simp [hy, hob]
      · simp [hxy]
    · intro x hx
      have hne : x ≠ y := fun heq => hy (heq ▸ hx)
      obtain ⟨ob', hob', hpos'⟩ := hl x (by simp [hx])
      exact ⟨ob', by simp [Vm.setObj, hne, hob'], hpos'⟩

theorem refChain_eq (h : Heap s)
    (hpos : ∀ x ∈ chain s o, ∃ ob, s.objs x = some ob ∧ 0 < ob.mmoRefcount) :
    refChain s o = .ok (bump s (chain s o)) :=
  foldlM_mmobjRef _ s (ParentChains.chain_nodup h.decreasing o) hpos

/-- The processes are the same but for entries that are gone from their directories. -/
def TablesShrunk (f f' : ℕ → Option Proc) : Prop :=
  ∀ p, (f p = none ∧ f' p = none) ∨
    ∃ r pd, f p = some r ∧ f' p = some { r with pPagedir := pd } ∧ Sub pd r.pPagedir

theorem TablesShrunk.refl (f : ℕ → Option Proc) : TablesShrunk f f := by
  intro p
  cases hp : f p with
  | none => exact .inl ⟨rfl, rfl⟩
  | some r => exact .inr ⟨r, r.pPagedir, rfl, rfl, .refl _⟩

variable {f f' : ℕ → Option Proc}

theorem TablesShrunk.trans {f'' : ℕ → Option Proc} (h : TablesShrunk f f')
    (h' : TablesShrunk f' f'') : TablesShrunk f f'' := by
  intro p
  rcases h p with ⟨hn, hn'⟩ | ⟨r, pd, hr, hr', hsub⟩
  · rcases h' p with ⟨-, hn''⟩ | ⟨r, pd, hr, -⟩
    · exact .inl ⟨hn, hn''⟩
    · simp [hn'] at hr
  · rcases h' p with ⟨hn', -⟩ | ⟨r1, pd1, hr1, hr1', hsub1⟩
    · simp [hn'] at hr'
    · obtain rfl := some.inj (hr'.symm.trans hr1)
      exact .inr ⟨r, pd1, hr, hr1', hsub1.trans hsub⟩

theorem TablesShrunk.of_some (h : TablesShrunk f f') {p : ℕ} {r : Proc} (hr : f p = some r) :
    ∃ pd, f' p = some { r with pPagedir := pd } ∧ Sub pd r.pPagedir := by
  rcases h p with ⟨hn, -⟩ | ⟨r', pd, hr', hr'', hsub⟩
  · simp [hn] at hr
  · obtain rfl := some.inj (hr.symm.trans hr')
    exact ⟨pd, hr'', hsub⟩

theorem tablesShrunk_update {p : ℕ} {r : Proc} (hr : f p = some r) {pd : Pagedir}
    (hsub : Sub pd r.pPagedir) :
    TablesShrunk f (update f p (some { r with pPagedir := pd })) := by
  intro q
  by_cases hq : q = p
  · subst hq
    exact .inr ⟨r, pd, hr, by simp, hsub⟩
  · rw [update_of_ne hq]
    exact TablesShrunk.refl f q

/-- The entry of a list of areas leads to an area, which lies in user memory, and the
process that the map names is there. -/
def Resolvable (f : ℕ → Option Proc) (v : ℕ × ℕ) : Prop :=
  ∃ r map a, f v.1 = some r ∧ r.pVmmap = some map ∧
    liveArea map.vmmList v.2 = some a ∧
    userLow ≤ a.vmaStart ∧ a.vmaStart ≤ a.vmaEnd ∧ a.vmaEnd ≤ userHigh ∧
    ∀ q, map.vmmProc = some q → (f q).isSome

theorem Resolvable.shrunk {v : ℕ × ℕ} (h : Resolvable f v) (hs : TablesShrunk f f') :
    Resolvable f' v := by
  obtain ⟨r, map, a, hr, hmap, ha, hlo, hle, hhi, hq⟩ := h
  obtain ⟨pd, hr', -⟩ := hs.of_some hr
  refine ⟨_, map, a, hr', hmap, ha, hlo, hle, hhi, fun q hmq => ?_⟩
  obtain ⟨r', hr''⟩ := isSome_iff_exists.mp (hq q hmq)
  obtain ⟨pd', hr3, -⟩ := hs.of_some hr''
  simp [hr3]

variable {b : ℕ}

theorem sub32_of_le {a : ℕ} (hba : b ≤ a) (ha : a ≤ userHigh) : sub32 a b = a-b := by
  unfold sub32 word
  unfold userHigh at ha
  omega

theorem removeFromPt_spec (n : ℕ) (s : Vm) {v : ℕ × ℕ} (hv : Resolvable s.procs v) :
    ∃ f', TablesShrunk s.procs f' ∧ removeFromPt n s v = .ok (s.setProcs f') := by
  obtain ⟨r, map, a, hr, hmap, ha, hlo, hle, hhi, hq⟩ := hv
  by_cases hn : a.vmaOff ≤ n ∧ n < a.vmaOff + sub32 a.vmaEnd a.vmaStart
  · cases hmp : map.vmmProc with
    | none =>
      refine ⟨s.procs, .refl _, ?_⟩
      simp [removeFromPt, getProc, hr, getMap, hmap, ha, hmp]
    | some q =>
      obtain ⟨r', hr'⟩ := isSome_iff_exists.mp (hq q hmp)
      have hin : userLow ≤ a.vmaStart + n - a.vmaOff ∧ a.vmaStart + n - a.vmaOff < userHigh := by
        rw [sub32_of_le hle hhi] at hn
        omega
      obtain ⟨pd, hpd⟩ : ∃ pd, ptUnmap r'.pPagedir (a.vmaStart + n - a.vmaOff) = some pd :=
        ptUnmap_isSome hin.1 hin.2
      refine ⟨_, tablesShrunk_update hr' (ptUnmap_sub hpd), ?_⟩
      simp [removeFromPt, getProc, hr, getMap, hmap, ha, hmp, hn, hr', hpd, setPagedir, Vm.setProc,
        Vm.setProcs]
  · refine ⟨s.procs, .refl _, ?_⟩
    simp only [removeFromPt, getProc, hr, getMap, hmap, ha, need_some, ok_bind, if_neg hn,
      pure_eq_ok, Vm.setProcs_self]

theorem foldlM_removeFromPt (n : ℕ) (l : List (ℕ × ℕ)) (s : Vm)
    (hl : ∀ v ∈ l, Resolvable s.procs v) :
    ∃ f', TablesShrunk s.procs f' ∧ l.foldlM (removeFromPt n) s = .ok (s.setProcs f') := by
  induction l generalizing s with
  | nil => exact ⟨s.procs, .refl _, rfl⟩
  | cons v l ih =>
    obtain ⟨f1, hs1, he1⟩ := removeFromPt_spec n s (hl v (by simp))
    obtain ⟨f2, hs2, he2⟩ := ih (s.setProcs f1) fun w hw =>
      (hl w (by simp [hw])).shrunk hs1
    refine ⟨f2, hs1.trans hs2, ?_⟩
    rw [foldlM_cons, he1, ok_bind, he2, Vm.setProcs_setProcs]

/-- The objects have the same pointers to each other and to areas. -/
def SameLinks (s t : Vm) : Prop :=
  ∀ x, (t.objs x).map (fun ob => (ob.mmoShadowed, ob.mmoUn)) =
    (s.objs x).map fun ob => (ob.mmoShadowed, ob.mmoUn)

theorem SameLinks.cases (h : SameLinks s t) (x : ℕ) :
    (s.objs x = none ∧ t.objs x = none) ∨ ∃ ob ob', s.objs x = some ob ∧ t.objs x = some ob' ∧
      ob'.mmoShadowed = ob.mmoShadowed ∧ ob'.mmoUn = ob.mmoUn := by
  have hx := h x
  cases hs : s.objs x <;> cases ht : t.objs x <;> simp_all

theorem sameLinks_setObj {ob' : Mmobj} (hob : s.objs o = some ob)
    (hs : ob'.mmoShadowed = ob.mmoShadowed) (hu : ob'.mmoUn = ob.mmoUn) :
    SameLinks s (s.setObj o (some ob')) := by
  intro x
  by_cases hx : x = o
  · subst hx
    simp [Vm.setObj, hob, hs, hu]
  · simp [Vm.setObj, hx]

theorem SameLinks.bottomVmas (h : SameLinks s t) (o : ℕ) :
    mmobjBottomVmas t o = mmobjBottomVmas s o := by
  have hv : ∀ b, vmasOf t b = vmasOf s b := by
    intro b
    rcases h.cases b with ⟨hs, ht⟩ | ⟨ob, ob', hs, ht, -, hu⟩
    · simp [vmasOf, getObj, hs, ht, need]
    · simp [vmasOf, getObj, hs, ht, hu]
  have ho : mmobjBottomObj t o = mmobjBottomObj s o := by
    rcases h.cases o with ⟨hs, ht⟩ | ⟨ob, ob', hs, ht, hb, hu⟩
    · simp [mmobjBottomObj, getObj, hs, ht, need]
    · simp [mmobjBottomObj, getObj, hs, ht, hb, hu]
  simp [mmobjBottomVmas, ho, hv]

/-- An object that is on its way out, with the pages that are left of it. -/
def withPages (s : Vm) (o : ℕ) (ob : Mmobj) (l : List Pframe) (f : ℕ → Option Proc) : Vm :=
  (s.setObj o (some { ob with
    mmoRefcount := l.length+1, mmoNrespages := l.length, mmoRespages := l })).setProcs f

/-- The function drops a reference to the object that is not the last one. -/
def PutsOne (put : Vm → ℕ → Kern Vm) (o : ℕ) : Prop :=
  ∀ s ob, s.objs o = some ob → ob.mmoOps ≠ .vnode → 0 < ob.mmoRefcount →
    ob.mmoRefcount-1 ≠ ob.mmoNrespages →
    put s o = .ok (s.setObj o (some { ob with mmoRefcount := ob.mmoRefcount-1 }))

theorem putsOne_mmobjPut (d o : ℕ) : PutsOne (mmobjPut (d+1)) o := by
  intro s ob hob hops hpos hne
  simp [mmobjPut, getObj, hob, hops, kassert, hpos, hne]

variable {v : List (ℕ × ℕ)}

theorem freePage_eq {put : Vm → ℕ → Kern Vm} {pf : Pframe} {l : List Pframe} (hput : PutsOne put o)
    (hob : s.objs o = some ob) (hops : ob.mmoOps ≠ .vnode)
    (hnd : ∀ x ∈ l, x.pfPagenum ≠ pf.pfPagenum) (hv : mmobjBottomVmas s o = .ok v)
    (hres : ∀ x ∈ v, Resolvable f x) :
    ∃ f', TablesShrunk f f' ∧
      pframeFree put (editPage (withPages s o ob (pf :: l) f) o pf.pfPagenum
        fun pf => { pf with pfPincount := 0 }) o pf.pfPagenum = .ok (withPages s o ob l f') := by
  have hmap : (l.map fun x : Pframe =>
      if x.pfPagenum = pf.pfPagenum then { x with pfPincount := 0 } else x) = l := by
    conv_rhs => rw [← map_id l]
    exact map_congr_left fun x hx => by simp [hnd x hx]
  have hfilter : l.filter (fun x => !decide (x.pfPagenum = pf.pfPagenum)) = l :=
    filter_eq_self.mpr fun x hx => by simp [hnd x hx]
  set ob1 : Mmobj := { ob with
    mmoRefcount := l.length+2, mmoNrespages := l.length+1
    mmoRespages := { pf with pfPincount := 0 } :: l } with hob1
  have hedit : editPage (withPages s o ob (pf :: l) f) o pf.pfPagenum
      (fun pf => { pf with pfPincount := 0 }) = (s.setObj o (some ob1)).setProcs f := by
    simp [editPage, withPages, Vm.setObj, Vm.setProcs, hmap, hob1]
  have hlinks : SameLinks s ((s.setObj o (some ob1)).setProcs f) :=
    sameLinks_setObj hob rfl rfl
  obtain ⟨f', hsh, hfold⟩ := foldlM_removeFromPt pf.pfPagenum v
    ((s.setObj o (some ob1)).setProcs f) hres
  refine ⟨f', hsh, ?_⟩
  rw [hedit]
  have hget : pframeGetResident ((s.setObj o (some ob1)).setProcs f) o pf.pfPagenum =
      some { pf with pfPincount := 0 } := by
    simp [pframeGetResident, Vm.setObj, Vm.setProcs, pageOf, hob1]
  have hpts : pframeRemoveFromPts ((s.setObj o (some ob1)).setProcs f) o pf.pfPagenum =
      .ok ((s.setObj o (some ob1)).setProcs f') := by
    rw [pframeRemoveFromPts, hlinks.bottomVmas, hv, ok_bind, hfold, Vm.setProcs_setProcs]
  simp only [pframeFree, hget, need_some, ok_bind, kassert_of, hpts]
  set ob2 : Mmobj := { ob1 with mmoNrespages := l.length, mmoRespages := l } with hob2
  have hself : ((s.setObj o (some ob1)).setProcs f').setObj o (some ob2) =
      (s.setObj o (some ob2)).setProcs f' := by
    simp [Vm.setObj, Vm.setProcs]
  have hone := hput ((s.setObj o (some ob2)).setProcs f') ob2
    (by simp [Vm.setObj, Vm.setProcs]) hops (by simp [hob2, hob1]) (by simp [hob2, hob1])
  have hget1 : getObj ((s.setObj o (some ob1)).setProcs f') o = .ok ob1 := by
    simp [getObj, Vm.setObj, Vm.setProcs]
  rw [hget1, ok_bind]
  have hob2' : ({ ob1 with
      mmoNrespages := ob1.mmoNrespages-1
      mmoRespages := ob1.mmoRespages.filter (·.pfPagenum ≠ pf.pfPagenum) } : Mmobj) = ob2 := by
    simp [hob1, hob2, hfilter]
  rw [hob2', hself, hone]
  simp [Vm.setObj, Vm.setProcs, hob2, hob1, withPages]

theorem freePages_eq {put : Vm → ℕ → Kern Vm} (hput : PutsOne put o) (hob : s.objs o = some ob)
    (hops : ob.mmoOps ≠ .vnode) (hv : mmobjBottomVmas s o = .ok v) (l : List Pframe)
    (f : ℕ → Option Proc) (hnd : (l.map Pframe.pfPagenum).Nodup) (hres : ∀ x ∈ v, Resolvable f x) :
    ∃ f', TablesShrunk f f' ∧
      l.foldlM (fun s pf => pframeFree put (editPage s o pf.pfPagenum
        fun pf => { pf with pfPincount := 0 }) o pf.pfPagenum) (withPages s o ob l f) =
        .ok (withPages s o ob [] f') := by
  induction l generalizing f with
  | nil => exact ⟨f, .refl f, rfl⟩
  | cons pf l ih =>
    simp only [map_cons, nodup_cons, List.mem_map, not_exists, not_and] at hnd
    obtain ⟨f1, hs1, he1⟩ := freePage_eq hput hob hops hnd.1 hv hres
    obtain ⟨f2, hs2, he2⟩ := ih f1 hnd.2 fun x hx => (hres x hx).shrunk hs1
    exact ⟨f2, hs1.trans hs2, by rw [foldlM_cons, he1, ok_bind, he2]⟩

theorem eq_withPages (hob : s.objs o = some ob) (hlen : ob.mmoNrespages = ob.mmoRespages.length)
    (hlast : ob.mmoRefcount = ob.mmoNrespages+1) :
    s = withPages s o ob ob.mmoRespages s.procs := by
  have hupd : update s.objs o (some { ob with
      mmoRefcount := ob.mmoRespages.length+1, mmoNrespages := ob.mmoRespages.length
      mmoRespages := ob.mmoRespages }) = s.objs := by
    rw [← hlen, ← hlast, ← hob, update_eq_self]
  simp [withPages, Vm.setObj, Vm.setProcs, hupd]

/-- The object after one reference to it is dropped. -/
def dropRef (ob : Mmobj) : Option Mmobj :=
  if ob.mmoOps ≠ .vnode ∧ ob.mmoRefcount = ob.mmoNrespages+1 then none
  else some { ob with mmoRefcount := ob.mmoRefcount-1 }

/-- The references to an object are those of its pages and others; a vnode has two of the
others at least. -/
def Droppable (ob : Mmobj) : Prop :=
  ob.mmoNrespages < ob.mmoRefcount ∧ (ob.mmoOps = .vnode → ob.mmoNrespages+1 < ob.mmoRefcount)

theorem mmobjPut_eq (hob : s.objs o = some ob) (hlen : ob.mmoNrespages = ob.mmoRespages.length)
    (hnd : (ob.mmoRespages.map Pframe.pfPagenum).Nodup) (hdrop : Droppable ob)
    (hv : mmobjBottomVmas s o = .ok v) (hres : ∀ x ∈ v, Resolvable s.procs x) :
    ∃ f', TablesShrunk s.procs f' ∧
      mmobjPut 2 s o = .ok ((s.setObj o (dropRef ob)).setProcs f') := by
  obtain ⟨hlt, hvn⟩ := hdrop
  by_cases hops : ob.mmoOps = .vnode
  · refine ⟨s.procs, .refl _, ?_⟩
    have hne : ob.mmoRefcount - 1 ≠ ob.mmoNrespages := by
      have := hvn hops
      omega
    have hset : (s.setObj o (dropRef ob)).setProcs s.procs =
        s.setObj o (some { ob with mmoRefcount := ob.mmoRefcount-1 }) := by
      simp [dropRef, hops, Vm.setObj, Vm.setProcs]
    rw [hset]
    simp [mmobjPut, getObj, hob, hops, kassert, hlt, hne]
  · have hpos : 0 < ob.mmoRefcount := by omega
    by_cases hlast : ob.mmoRefcount = ob.mmoNrespages+1
    · have hself := eq_withPages hob hlen hlast
      obtain ⟨f', hsh, hfold⟩ := freePages_eq (putsOne_mmobjPut 0 o) hob hops hv
        ob.mmoRespages s.procs hnd hres
      rw [← hself] at hfold
      refine ⟨f', hsh, ?_⟩
      rw [mmobjPut, getObj, hob, need_some, ok_bind, if_neg hops, kassert_of hpos, ok_bind,
        if_pos (by omega), hfold]
      simp [withPages, Vm.setObj, Vm.setProcs, dropRef, hops, hlast]
    · have hne : ob.mmoRefcount - 1 ≠ ob.mmoNrespages := by omega
      refine ⟨s.procs, .refl _, ?_⟩
      have hset : (s.setObj o (dropRef ob)).setProcs s.procs =
          s.setObj o (some { ob with mmoRefcount := ob.mmoRefcount-1 }) := by
        simp [dropRef, hlast, Vm.setObj, Vm.setProcs]
      rw [hset]
      simp [mmobjPut, getObj, hob, hops, kassert, hpos, hne]

/-- One reference fewer to each of the objects. -/
def release (s : Vm) (l : List ℕ) : Vm :=
  { s with objs := fun x => if x ∈ l then (s.objs x).bind dropRef else s.objs x }

/-- An object from which a reference can be dropped. -/
structure Putable (s : Vm) (b x : ℕ) (ob : Mmobj) : Prop where
  obj : s.objs x = some ob
  nres : ob.mmoNrespages = ob.mmoRespages.length
  nodup : (ob.mmoRespages.map Pframe.pfPagenum).Nodup
  drop : Droppable ob
  bottom : mmobjBottomObj s x = .ok b

theorem Putable.congr {x : ℕ} (h : Putable s b x ob) (ht : t.objs x = s.objs x) :
    Putable t b x ob :=
  ⟨ht.trans h.obj, h.nres, h.nodup, h.drop, by
    have hb := h.bottom
    simpa only [mmobjBottomObj, getObj, ht] using hb⟩

theorem foldlM_mmobjPut (l : List ℕ) (s : Vm) (hnd : l.Nodup) (hl : ∀ x ∈ l, ∃ ob, Putable s b x ob)
    (hlast : ∀ y, l.getLast? = some y → y = b) (hv : vmasOf s b = .ok v)
    (hres : ∀ x ∈ v, Resolvable s.procs x) :
    ∃ f', TablesShrunk s.procs f' ∧
      l.foldlM (mmobjPut 2) s = .ok ((release s l).setProcs f') := by
  induction l generalizing s with
  | nil => exact ⟨s.procs, .refl _, by simp [release, Vm.setProcs]⟩
  | cons x l ih =>
    obtain ⟨hx, hnd⟩ := nodup_cons.mp hnd
    obtain ⟨ob, hob⟩ := hl x (by simp)
    have hvx : mmobjBottomVmas s x = .ok v := by
      rw [mmobjBottomVmas, hob.bottom, ok_bind, hv]
    obtain ⟨f1, hs1, he1⟩ := mmobjPut_eq hob.obj hob.nres hob.nodup hob.drop hvx hres
    have hrel : ∀ f, (release ((s.setObj x (dropRef ob)).setProcs f1) l).setProcs f =
        (release s (x :: l)).setProcs f := by
      intro f
      have hobjs : (release ((s.setObj x (dropRef ob)).setProcs f1) l).objs =
          (release s (x :: l)).objs := by
        funext y
        by_cases hyx : y = x
        · subst hyx
          simp [release, Vm.setObj, Vm.setProcs, hx, hob.obj]
        · simp [release, Vm.setObj, Vm.setProcs, hyx]
      exact Vm.ext rfl hobjs rfl rfl rfl rfl rfl rfl rfl
    cases l with
    | nil =>
      refine ⟨f1, hs1, ?_⟩
      rw [← hrel f1, foldlM_cons, he1, ok_bind]
      simp [release, Vm.setProcs]
    | cons y l =>
      have hbl : b ∈ y :: l := by
        obtain ⟨z, hz⟩ : ∃ z, (y :: l).getLast? = some z := by simp [getLast?_cons]
        have hzb : z = b := hlast z (by rw [getLast?_cons_cons, hz])
        exact hzb ▸ mem_of_getLast? hz
      have hbx : b ≠ x := fun heq => hx (heq ▸ hbl)
      have hobjs : ∀ z, z ≠ x →
          ((s.setObj x (dropRef ob)).setProcs f1).objs z = s.objs z := by
        intro z hz
        simp [Vm.setObj, Vm.setProcs, hz]
      obtain ⟨f2, hs2, he2⟩ := ih ((s.setObj x (dropRef ob)).setProcs f1) hnd
        (fun z hz => by
          obtain ⟨obz, hobz⟩ := hl z (mem_cons_of_mem x hz)
          exact ⟨obz, hobz.congr (hobjs z fun heq => hx (heq ▸ hz))⟩)
        (fun z hz => hlast z (by rw [getLast?_cons_cons, hz]))
        (by simpa only [vmasOf, getObj, hobjs b hbx] using hv)
        fun w hw => (hres w hw).shrunk hs1
      refine ⟨f2, hs1.trans hs2, ?_⟩
      rw [foldlM_cons, he1, ok_bind, he2, hrel]

theorem putChain_eq (h : Heap s) (ho : (s.objs o).isSome)
    (hdrop : ∀ x ∈ chain s o, ∀ ob, s.objs x = some ob → Droppable ob)
    (hres : ∀ v ∈ vmasAt s (bottom s o), Resolvable s.procs v) :
    ∃ f', TablesShrunk s.procs f' ∧
      putChain s o = .ok ((release s (chain s o)).setProcs f') := by
  obtain ⟨obb, hobb, -, -, hun⟩ := h.bottom_spec ho
  refine foldlM_mmobjPut (chain s o) s (ParentChains.chain_nodup h.decreasing o)
    (b := bottom s o) (fun x hx => ?_) (fun y hy => ?_) ?_ hres
  · obtain ⟨ob, hob⟩ := isSome_iff_exists.mp (h.live_of_mem ho hx)
    have hb := h.mmobjBottomObj_eq hob
    rw [h.bottom_of_mem hx] at hb
    exact ⟨ob, hob, h.nres x ob hob, h.nodup x ob hob, hdrop x hx ob hob, hb⟩
  · simp only [bottom, ParentChains.root, getLastD_eq_getLast?]
    simp only [chain] at hy
    rw [hy, getD_some]
  · simp [vmasOf, getObj, hobb, hun]

end SystemsProjects.ObjectHeap
