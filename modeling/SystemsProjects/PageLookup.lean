import SystemsProjects.ObjectHeap

/-!
# What is seen through a chain of objects

The view of a page through an object is the first resident page along its chain, or
what the bottom object would fill in. A page is brought in with exactly the view it
already had, so that making a page resident changes no view; it may change the
frame at which a view is found, and with it the entries of page directories that are
right. Lookups for reading and for writing are described by the pages they bring in.
-/
namespace SystemsProjects.PageLookup

open VmState MemoryObjects ObjectHeap List Option

def frameAt (s : Vm) (o n : ℕ) : Option ℕ := (pframeGetResident s o n).map Pframe.pfAddr

def hit (s : Vm) (o n : ℕ) : Option ℕ := (chain s o).findSome? (frameAt s · n)

def base (s : Vm) (b n : ℕ) : Page :=
  if (s.objs b).map Mmobj.mmoOps = some .vnode then s.vnData b n else zeroPage

def view (s : Vm) (o n : ℕ) : Page :=
  match hit s o n with
  | some f => s.mem f
  | none => base s (bottom s o) n

/-- Pages that an anonymous object fills are pinned. -/
def pinFor (s : Vm) (o n : ℕ) : ℕ :=
  if hit s o n = none ∧ (s.objs (bottom s o)).map Mmobj.mmoOps = some .anon then 1 else 0

def withPage (ob : Mmobj) (pf : Pframe) : Mmobj :=
  { ob with
    mmoRefcount := ob.mmoRefcount+1
    mmoNrespages := ob.mmoNrespages+1
    mmoRespages := pf :: ob.mmoRespages }

/-- The page becomes resident in the next frame, with its view as contents. -/
def addPage (s : Vm) (o n : ℕ) : Vm :=
  { s with
    objs := Function.update s.objs o
      ((s.objs o).map (withPage · ⟨n, s.nextFrame, false, pinFor s o n⟩))
    mem := Function.update s.mem s.nextFrame (view s o n)
    nextFrame := s.nextFrame+1 }

theorem findSome_congr {α β : Type} {f g : α → Option β} {l : List α}
    (h : ∀ x ∈ l, f x = g x) : l.findSome? f = l.findSome? g := by
  induction l with
  | nil => rfl
  | cons a l ih =>
    rw [findSome?_cons, findSome?_cons, h a (by simp),
      ih fun x hx => h x (mem_cons_of_mem a hx)]

variable {ob : Mmobj} {f : ℕ}

section Views

variable {s : Vm} {o x n : ℕ}

theorem hit_rec (h : Heap s) (o n : ℕ) :
    hit s o n = (frameAt s o n).or ((below s o).bind (hit s · n)) := by
  cases hb : below s o with
  | none =>
    rw [hit, chain, ParentChains.chain_of_none hb]
    cases hf : frameAt s o n <;> simp [hf]
  | some y =>
    rw [hit, chain, ParentChains.chain_of_some h.decreasing hb, findSome?_cons]
    cases hf : frameAt s o n <;> simp [hit, chain]

theorem hit_of_frameAt (h : Heap s) (hf : frameAt s o n = some f) : hit s o n = some f := by
  rw [hit_rec h, hf, some_or]

theorem hit_of_below (h : Heap s) (hf : frameAt s o n = none) (hb : below s o = some x) :
    hit s o n = hit s x n := by
  rw [hit_rec h, hf, none_or, hb, bind_some]

theorem hit_of_bottom (h : Heap s) (hb : below s o = none) : hit s o n = frameAt s o n := by
  rw [hit_rec h, hb, bind_none, or_none]

theorem view_of_frameAt (h : Heap s) (hf : frameAt s o n = some f) : view s o n = s.mem f := by
  rw [view, hit_of_frameAt h hf]

theorem view_of_below (h : Heap s) (hf : frameAt s o n = none) (hb : below s o = some x) :
    view s o n = view s x n := by
  have hbot : bottom s o = bottom s x := ParentChains.root_of_some h.decreasing hb
  rw [view, view, hit_of_below h hf hb, hbot]

theorem view_of_bottom (h : Heap s) (hf : frameAt s o n = none) (hb : below s o = none) :
    view s o n = base s o n := by
  have hbot : bottom s o = o := ParentChains.root_of_none hb
  rw [view, hit_of_bottom h hb, hf, hbot]

theorem frameAt_lt (h : Heap s) (hf : frameAt s o n = some f) : f < s.nextFrame := by
  simp only [frameAt, pframeGetResident, map_eq_some_iff, bind_eq_some_iff] at hf
  obtain ⟨pf, ⟨ob, hob, hpf⟩, rfl⟩ := hf
  exact h.frame_lt o ob hob pf (mem_of_find?_eq_some hpf)

theorem mem_of_pageOf {pf : Pframe} (h : pageOf ob n = some pf) :
    pf ∈ ob.mmoRespages ∧ pf.pfPagenum = n := by
  unfold pageOf at h
  exact ⟨mem_of_find?_eq_some h, by simpa using find?_some h⟩

theorem pageOf_eq_none : pageOf ob n = none ↔ ∀ pf ∈ ob.mmoRespages, pf.pfPagenum ≠ n := by
  simp [pageOf]

theorem frameAt_inj (h : Heap s) {m : ℕ} (hf : frameAt s o n = some f)
    (hf' : frameAt s x m = some f) : o = x ∧ n = m := by
  simp only [frameAt, pframeGetResident, map_eq_some_iff, bind_eq_some_iff] at hf hf'
  obtain ⟨pf, ⟨ob, hob, hpf⟩, rfl⟩ := hf
  obtain ⟨pf', ⟨ob', hob', hpf'⟩, heq⟩ := hf'
  obtain ⟨hmem, rfl⟩ := mem_of_pageOf hpf
  obtain ⟨hmem', rfl⟩ := mem_of_pageOf hpf'
  exact h.frame_inj o x ob ob' hob hob' pf hmem pf' hmem' heq.symm

theorem exists_of_hit (hh : hit s o n = some f) : ∃ x ∈ chain s o, frameAt s x n = some f := by
  unfold hit at hh
  exact exists_of_findSome?_eq_some hh

end Views

variable {ob' : Mmobj}

section Fetching

variable {s : Vm} {o x n m : ℕ} {ob : Mmobj}

@[simp] theorem addPage_objs_self (s : Vm) (o n : ℕ) : (addPage s o n).objs o =
    (s.objs o).map (withPage · ⟨n, s.nextFrame, false, pinFor s o n⟩) := by
  simp [addPage]

theorem addPage_objs_ne (s : Vm) (n : ℕ) (hne : x ≠ o) : (addPage s o n).objs x = s.objs x := by
  simp [addPage, hne]

@[simp] theorem below_addPage (s : Vm) (o n : ℕ) : below (addPage s o n) = below s := by
  funext x
  by_cases hx : x = o
  · subst hx
    cases hob : s.objs x <;> simp [below, hob, withPage]
  · simp [below, addPage_objs_ne s n hx]

@[simp] theorem chain_addPage (s : Vm) (o n : ℕ) : chain (addPage s o n) = chain s := by
  funext x
  simp [chain]

@[simp] theorem bottom_addPage (s : Vm) (o n : ℕ) : bottom (addPage s o n) = bottom s := by
  funext x
  simp [bottom]

theorem isSome_addPage (s : Vm) (o n x : ℕ) :
    ((addPage s o n).objs x).isSome = (s.objs x).isSome := by
  by_cases hx : x = o
  · subst hx
    simp
  · rw [addPage_objs_ne s n hx]

@[simp] theorem base_addPage (s : Vm) (o n x m : ℕ) : base (addPage s o n) x m = base s x m := by
  have hops : ((addPage s o n).objs x).map Mmobj.mmoOps = (s.objs x).map Mmobj.mmoOps := by
    by_cases hx : x = o
    · subst hx
      cases hob : s.objs x <;> simp [hob, withPage]
    · rw [addPage_objs_ne s n hx]
  rw [base, base, hops]
  rfl

theorem frameAt_addPage (hob : s.objs o = some ob) (x m : ℕ) : frameAt (addPage s o n) x m =
      if x = o ∧ m = n then some s.nextFrame else frameAt s x m := by
  by_cases hx : x = o
  · subst hx
    by_cases hm : m = n
    · subst hm
      simp [frameAt, pframeGetResident, hob, pageOf, withPage]
    · have hnm : ¬n = m := fun heq => hm heq.symm
      simp [frameAt, pframeGetResident, hob, pageOf, withPage, hm, hnm]
  · simp [frameAt, pframeGetResident, addPage_objs_ne s n hx, hx]

theorem addPage_cases (h : (addPage s o n).objs x = some ob') : ∃ ob, s.objs x = some ob ∧
      ((x = o ∧ ob' = withPage ob ⟨n, s.nextFrame, false, pinFor s o n⟩) ∨ x ≠ o ∧ ob' = ob) := by
  by_cases hx : x = o
  · subst hx
    rw [addPage_objs_self, map_eq_some_iff] at h
    obtain ⟨ob, hob, rfl⟩ := h
    exact ⟨ob, hob, .inl ⟨rfl, rfl⟩⟩
  · rw [addPage_objs_ne s n hx] at h
    exact ⟨ob', h, .inr ⟨hx, rfl⟩⟩

theorem mem_addPage (h : (addPage s o n).objs x = some ob') {pf : Pframe}
    (hpf : pf ∈ ob'.mmoRespages) :
    (x = o ∧ pf = ⟨n, s.nextFrame, false, pinFor s o n⟩) ∨
      ∃ ob, s.objs x = some ob ∧ pf ∈ ob.mmoRespages ∧ ob'.mmoOps = ob.mmoOps := by
  obtain ⟨ob, hob, ⟨rfl, rfl⟩ | ⟨-, rfl⟩⟩ := addPage_cases h
  · rcases mem_cons.mp hpf with rfl | hpf
    · exact .inl ⟨rfl, rfl⟩
    · exact .inr ⟨ob, hob, hpf, rfl⟩
  · exact .inr ⟨_, hob, hpf, rfl⟩

theorem heap_addPage (h : Heap s) (hn : frameAt s o n = none) : Heap (addPage s o n) := by
  refine ⟨?_, ?_, ?_, ?_, ?_, ?_⟩
  · intro x ob' hx
    obtain ⟨ob, hob, -⟩ := addPage_cases hx
    exact h.lt_next x ob hob
  · intro x ob' hx
    obtain ⟨ob, hob, hcase⟩ := addPage_cases hx
    have hw := h.wellMade x ob hob
    have hl : ∀ y, (s.objs y).isSome → ((addPage s o n).objs y).isSome := by
      intro y hy
      rwa [isSome_addPage]
    rcases hcase with ⟨rfl, rfl⟩ | ⟨-, rfl⟩
    · exact hw.congr (below_addPage s x n) hl rfl rfl rfl
    · exact hw.congr (below_addPage s o n) hl rfl rfl rfl
  · intro x ob' hx
    obtain ⟨ob, hob, ⟨rfl, rfl⟩ | ⟨-, rfl⟩⟩ := addPage_cases hx
    · simp [withPage, h.nres x ob hob]
    · exact h.nres x _ hob
  · intro x ob' hx
    obtain ⟨ob, hob, ⟨rfl, rfl⟩ | ⟨-, rfl⟩⟩ := addPage_cases hx
    · have hnone : pageOf ob n = none := by
        simpa [frameAt, pframeGetResident, hob] using hn
      simp only [withPage, map_cons, nodup_cons, List.mem_map, not_exists, not_and]
      exact ⟨pageOf_eq_none.mp hnone, h.nodup x ob hob⟩
    · exact h.nodup x _ hob
  · intro x ob' hx pf hpf
    rcases mem_addPage hx hpf with ⟨-, rfl⟩ | ⟨ob, hob, hpf, -⟩
    · exact Nat.lt_succ_self _
    · exact Nat.lt_succ_of_lt (h.frame_lt x ob hob pf hpf)
  · intro x y obx oby hx hy pf hpf pf' hpf' heq
    rcases mem_addPage hx hpf with ⟨rfl, rfl⟩ | ⟨ob, hob, hpf, -⟩
    · rcases mem_addPage hy hpf' with ⟨rfl, rfl⟩ | ⟨ob', hob', hpf', -⟩
      · exact ⟨rfl, rfl⟩
      · exact absurd (h.frame_lt y ob' hob' pf' hpf') (by simp [← heq])
    · rcases mem_addPage hy hpf' with ⟨rfl, rfl⟩ | ⟨ob', hob', hpf', -⟩
      · exact absurd (h.frame_lt x ob hob pf hpf) (by simp [heq])
      · exact h.frame_inj x y ob ob' hob hob' pf hpf pf' hpf' heq

theorem view_addPage (h : Heap s) (hob : s.objs o = some ob) (hn : frameAt s o n = none)
    (x m : ℕ) : view (addPage s o n) x m = view s x m := by
  have h' := heap_addPage h hn
  induction x using ParentChains.parent_induction h.decreasing with
  | h x ih =>
    have hfr := frameAt_addPage (n := n) hob x m
    by_cases hxm : x = o ∧ m = n
    · obtain ⟨rfl, rfl⟩ := hxm
      rw [if_pos ⟨rfl, rfl⟩] at hfr
      rw [view_of_frameAt h' hfr]
      simp [addPage]
    · rw [if_neg hxm] at hfr
      cases hf : frameAt s x m with
      | some f =>
        have hne : f ≠ s.nextFrame := Nat.ne_of_lt (frameAt_lt h hf)
        rw [view_of_frameAt h hf, view_of_frameAt h' (hfr.trans hf)]
        simp [addPage, hne]
      | none =>
        cases hb : below s x with
        | some y =>
          rw [view_of_below h hf hb, view_of_below h' (hfr.trans hf) (by simpa using hb), ih y hb]
        | none =>
          rw [view_of_bottom h hf hb, view_of_bottom h' (hfr.trans hf) (by simpa using hb),
            base_addPage]

end Fetching

section Filling

variable {s s1 : Vm} {o n : ℕ} {ob ob1 : Mmobj}

theorem bottomFill_eq {b : ℕ} {obb : Mmobj} (hob : s1.objs b = some obb)
    (hops : obb.mmoOps ≠ .shadow) (hvn : s1.vnData = s.vnData)
    (heq : (s.objs b).map Mmobj.mmoOps = some obb.mmoOps) :
    bottomFill s1 b n = .ok (base s b n,
      if (s.objs b).map Mmobj.mmoOps = some .anon then 1 else 0) := by
  cases hk : obb.mmoOps with
  | anon => simp [bottomFill, getObj, hob, hk, base, heq]
  | vnode => simp [bottomFill, getObj, hob, hk, base, heq, hvn]
  | shadow => exact absurd hk hops

/-- A page is filled with its view, from a state in which only its object has changed. -/
theorem fillpage_eq (h : Heap s) (hob : s.objs o = some ob) (hob1 : s1.objs o = some ob1)
    (hops : ob1.mmoOps = ob.mmoOps) (hb : below s1 = below s)
    (hobjs : ∀ x, x ≠ o → s1.objs x = s.objs x) (hmem : s1.mem = s.mem)
    (hvn : s1.vnData = s.vnData) (hn : frameAt s o n = none) :
    fillpage s1 o n = .ok (view s o n, pinFor s o n) := by
  have hbot : ∀ x, bottom s1 x = bottom s x := fun x => by rw [bottom, bottom, hb]
  cases hsh : ob.mmoShadowed with
  | none =>
    have hbel : below s o = none := (below_of_obj hob).trans hsh
    obtain ⟨hns, -⟩ := h.shadowed_none hob hsh
    have hself : bottom s o = o := ParentChains.root_of_none hbel
    have hfill := bottomFill_eq (n := n) (s := s) hob1 (by rwa [hops]) hvn (by simp [hob, hops])
    have hhit : hit s o n = none := (hit_of_bottom h hbel).trans hn
    simp only [fillpage, getObj, hob1, need_some, ok_bind, hops, if_neg hns, hfill, pinFor, hhit,
      hself, true_and, view_of_bottom h hn hbel]
  | some y =>
    have hbel : below s o = some y := (below_of_obj hob).trans hsh
    obtain ⟨ob', hob', -, hshadow, hlt, hy, -⟩ := h.below_spec hbel
    obtain rfl : ob' = ob := some.inj (hob'.symm.trans hob)
    have htail : (chain s1 o).tail = chain s y := by
      rw [chain, hb, ParentChains.chain_of_some h.decreasing hbel, tail_cons, chain]
    have hne : ∀ x ∈ chain s y, x ≠ o := fun x hx =>
      Nat.ne_of_lt (Nat.lt_of_le_of_lt (ParentChains.le_of_mem_chain h.decreasing hx) hlt)
    have hfind : (chain s y).findSome? (pframeGetResident s1 · n) =
        (chain s y).findSome? (pframeGetResident s · n) := by
      refine findSome_congr fun x hx => ?_
      simp [pframeGetResident, hobjs x (hne x hx)]
    have hhit : hit s y n =
        ((chain s y).findSome? (pframeGetResident s · n)).map Pframe.pfAddr := by
      rw [hit, map_findSome?]
      rfl
    have hview : view s o n = view s y n := view_of_below h hn hbel
    simp only [fillpage, getObj, hob1, need_some, ok_bind, hops, hshadow, if_true, shadowFill,
      htail, hfind]
    cases hr : (chain s y).findSome? (pframeGetResident s · n) with
    | some pf =>
      rw [hr] at hhit
      have hpin : pinFor s o n = 0 := by simp [pinFor, hit_of_below h hn hbel, hhit]
      rw [hpin, hview, view, hhit, hmem]
      rfl
    | none =>
      rw [hr] at hhit
      have hboty : bottom s o = bottom s y := ParentChains.root_of_some h.decreasing hbel
      obtain ⟨obb, hobb, -, hbs, -⟩ := h.bottom_spec hy
      have hobb1 : s1.objs (bottom s y) = some obb := by
        rw [hobjs _ (hne _ (h.bottom_mem y)), hobb]
      have hfill := bottomFill_eq (n := n) (s := s) hobb1 hbs hvn (by simp [hobb])
      simp only [hbot, hboty, hfill, pinFor, hit_of_below h hn hbel, hhit, map_none, true_and, view]

theorem pframeGet_absent (h : Heap s) (hob : s.objs o = some ob) (hpos : 0 < ob.mmoRefcount)
    (hn : frameAt s o n = none) :
    pframeGet s o n = .ok (⟨n, s.nextFrame, false, pinFor s o n⟩, addPage s o n) := by
  have hres : pframeGetResident s o n = none := by simpa [frameAt] using hn
  have hpage : ∀ pf ∈ ob.mmoRespages, pf.pfPagenum ≠ n :=
    pageOf_eq_none.mp (by simpa [pframeGetResident, hob] using hres)
  set s1 : Vm := { s.setObj o (some (withPage ob ⟨n, s.nextFrame, false, 0⟩)) with
    nextFrame := s.nextFrame+1 } with hs1
  have halloc : pframeAlloc s o n = .ok s1 := by
    simp [pframeAlloc, mmobjRef, getObj, hob, kassert_of hpos, Vm.setObj, hs1, withPage]
  have hbel : below s1 = below s := by
    funext x
    by_cases hx : x = o
    · subst hx
      simp [below, hs1, Vm.setObj, hob, withPage]
    · simp [below, hs1, Vm.setObj, hx]
  have hob1 : s1.objs o = some (withPage ob ⟨n, s.nextFrame, false, 0⟩) := by
    simp [hs1, Vm.setObj]
  have hfill : fillpage s1 o n = .ok (view s o n, pinFor s o n) :=
    fillpage_eq h hob hob1 rfl hbel (fun x hx => by simp [hs1, Vm.setObj, hx]) rfl rfl hn
  have hmap : (ob.mmoRespages.map fun pf : Pframe =>
      if pf.pfPagenum = n then { pf with pfPincount := pinFor s o n } else pf) =
      ob.mmoRespages := by
    conv_rhs => rw [← map_id ob.mmoRespages]
    exact map_congr_left fun pf hpf => by simp [hpage pf hpf]
  have hst : (editPage s1 o n fun pf => { pf with pfPincount := pinFor s o n }).setMem
      s.nextFrame (view s o n) = addPage s o n := by
    have hobjs : (editPage s1 o n fun pf => { pf with pfPincount := pinFor s o n }).objs =
        (addPage s o n).objs := by
      funext x
      by_cases hx : x = o
      · subst hx
        simp [editPage, hs1, Vm.setObj, hob, withPage, hmap]
      · simp [editPage, hs1, Vm.setObj, hx, addPage]
    exact Vm.ext rfl hobjs rfl rfl rfl rfl rfl rfl rfl
  simp only [pframeGet, hres, halloc, ok_bind, hfill, hst, pure_eq_ok]

end Filling

/-- The page is resident afterwards, and was before or has been brought in. -/
def Fetched (s : Vm) (o n : ℕ) (t : Vm) : Prop :=
  (t = s ∧ (frameAt s o n).isSome) ∨ (frameAt s o n = none ∧ t = addPage s o n)

def Referenced (s : Vm) : Prop := ∀ o ob, s.objs o = some ob → 0 < ob.mmoRefcount

def Beyond (s : Vm) (b n : ℕ) : Prop :=
  (s.objs b).map Mmobj.mmoOps = some .vnode ∧ s.vnLen b % word ≤ n*pageSize % word

section Lookup

variable {s t : Vm} {o n : ℕ} {ob : Mmobj}

theorem pframeGet_spec (h : Heap s) (hr : Referenced s) (hob : s.objs o = some ob) (n : ℕ) :
    ∃ pf t, pframeGet s o n = .ok (pf, t) ∧ Fetched s o n t ∧ frameAt t o n = some pf.pfAddr := by
  cases hf : pframeGetResident s o n with
  | some pf =>
    have hfr : frameAt s o n = some pf.pfAddr := by simp [frameAt, hf]
    exact ⟨pf, s, by simp [pframeGet, hf], .inl ⟨rfl, by simp [hfr]⟩, hfr⟩
  | none =>
    have hfr : frameAt s o n = none := by simp [frameAt, hf]
    refine ⟨_, _, pframeGet_absent h hob (hr o ob hob) hfr, .inr ⟨hfr, rfl⟩, ?_⟩
    rw [frameAt_addPage hob, if_pos ⟨rfl, rfl⟩]

section

variable (hf : Fetched s o n t)
include hf

theorem Fetched.heap (h : Heap s) : Heap t := by
  rcases hf with ⟨rfl, -⟩ | ⟨hn, rfl⟩
  · exact h
  · exact heap_addPage h hn

theorem Fetched.referenced (h : Referenced s) : Referenced t := by
  rcases hf with ⟨rfl, -⟩ | ⟨hn, rfl⟩
  · exact h
  · intro x ob' hx
    obtain ⟨ob, hob, ⟨rfl, rfl⟩ | ⟨-, rfl⟩⟩ := addPage_cases hx
    · exact Nat.succ_pos _
    · exact h x _ hob

theorem Fetched.isSome (x : ℕ) : (t.objs x).isSome = (s.objs x).isSome := by
  rcases hf with ⟨rfl, -⟩ | ⟨hn, rfl⟩
  · rfl
  · exact isSome_addPage s o n x

theorem Fetched.procs : t.procs = s.procs := by
  rcases hf with ⟨rfl, -⟩ | ⟨hn, rfl⟩ <;> rfl

theorem Fetched.below : below t = below s := by
  rcases hf with ⟨rfl, -⟩ | ⟨hn, rfl⟩
  · rfl
  · exact below_addPage s o n

theorem Fetched.view (h : Heap s) (ho : (s.objs o).isSome) (x m : ℕ) : view t x m = view s x m := by
  rcases hf with ⟨rfl, -⟩ | ⟨hn, rfl⟩
  · rfl
  · obtain ⟨ob, hob⟩ := isSome_iff_exists.mp ho
    exact view_addPage h hob hn x m

theorem Fetched.kept (h : Heap s) (ho : (s.objs o).isSome) {x m : ℕ} (hx : frameAt s x m = some f) :
    frameAt t x m = some f ∧ t.mem f = s.mem f := by
  rcases hf with ⟨rfl, -⟩ | ⟨hn, rfl⟩
  · exact ⟨hx, rfl⟩
  · obtain ⟨ob, hob⟩ := isSome_iff_exists.mp ho
    have hne : f ≠ s.nextFrame := Nat.ne_of_lt (frameAt_lt h hx)
    constructor
    · rw [frameAt_addPage hob, if_neg, hx]
      rintro ⟨rfl, rfl⟩
      simp [hn] at hx
    · simp [addPage, hne]

end

theorem bottomLookup_spec (h : Heap s) (hr : Referenced s) (hob : s.objs o = some ob) (n : ℕ) :
    (Beyond s o n ∧ bottomLookup s o n = .ok (.error .einval, s)) ∨
      (¬Beyond s o n ∧ ∃ pf t, bottomLookup s o n = .ok (.ok pf, t) ∧ Fetched s o n t ∧
        frameAt t o n = some pf.pfAddr) := by
  by_cases hb : Beyond s o n
  · refine .inl ⟨hb, ?_⟩
    simp only [Beyond, hob, map_some, some.injEq] at hb
    simp [bottomLookup, getObj, hob, hb]
  · obtain ⟨pf, t, hget, hf, hfr⟩ := pframeGet_spec h hr hob n
    refine .inr ⟨hb, pf, t, ?_, hf, hfr⟩
    simp only [Beyond, hob, map_some, some.injEq] at hb
    simp [bottomLookup, getObj, hob, hb, hget]

theorem chain_eq_append (s : Vm) (o : ℕ) : chain s o = (chain s o).dropLast ++ [bottom s o] := by
  have hne : chain s o ≠ [] := ne_nil_of_mem (ParentChains.mem_chain_self _ o)
  have hlast : (chain s o).getLast hne = bottom s o := by
    rw [bottom, ParentChains.root, getLastD_eq_getLast?]
    simp only [chain] at hne ⊢
    rw [getLast?_eq_getLast_of_ne_nil hne, getD_some]
  rw [← hlast, dropLast_append_getLast]

theorem hit_eq_or (s : Vm) (o n : ℕ) : hit s o n =
    (((chain s o).dropLast.findSome? (pframeGetResident s · n)).map Pframe.pfAddr).or
      (frameAt s (bottom s o) n) := by
  rw [hit, chain_eq_append s, findSome?_append, map_findSome?]
  simp only [dropLast_concat, findSome?_singleton]
  rfl

/-- A lookup for reading takes the first page above the bottom, else asks the bottom. -/
theorem lookuppage_read_eq (h : Heap s) (hob : s.objs o = some ob) : lookuppage s o n false =
      match (chain s o).dropLast.findSome? (pframeGetResident s · n) with
      | some pf => .ok (.ok pf, s)
      | none => bottomLookup s (bottom s o) n := by
  by_cases hsh : ob.mmoOps = .shadow
  · simp only [lookuppage, getObj, hob, need_some, ok_bind, if_pos hsh, shadowLookuppage]
    cases hr : (chain s o).dropLast.findSome? (pframeGetResident s · n) with
    | some pf => simp
    | none =>
      cases hb : bottomLookup s (bottom s o) n with
      | error e => simp
      | ok r =>
        obtain ⟨res, t⟩ := r
        cases res <;> simp
  · obtain ⟨hn, hself⟩ := h.bottom_eq_self hob hsh
    have hch : chain s o = [o] := ParentChains.chain_of_none ((below_of_obj hob).trans hn)
    simp [lookuppage, getObj, hob, hsh, hch, hself]

/-- What a lookup for reading returns is the first hit; it may have to bring in the page
of the bottom object. -/
theorem lookuppage_read_spec (h : Heap s) (hr : Referenced s) (hob : s.objs o = some ob)
    (n : ℕ) : ∃ res t, lookuppage s o n false = .ok (res, t) ∧
      ((∃ e, res = .error e ∧ t = s) ∨ ∃ pf, res = .ok pf ∧ hit t o n = some pf.pfAddr ∧
        (frameAt t (bottom s o) n = some pf.pfAddr → ¬Beyond s (bottom s o) n) ∧
        (t = s ∨ (hit s o n = none ∧ t = addPage s (bottom s o) n))) := by
  have hlive : (s.objs o).isSome := by simp [hob]
  obtain ⟨obb, hobb, hnb, -, -⟩ := h.bottom_spec hlive
  have hor := hit_eq_or s o n
  rw [lookuppage_read_eq h hob]
  cases hd : (chain s o).dropLast.findSome? (pframeGetResident s · n) with
  | some pf =>
    rw [hd, map_some, some_or] at hor
    refine ⟨_, s, rfl, .inr ⟨pf, rfl, hor, fun hfr => ?_, .inl rfl⟩⟩
    obtain ⟨x, hx, hxpf⟩ := exists_of_findSome?_eq_some hd
    have hxf : frameAt s x n = some pf.pfAddr := by simp [frameAt, hxpf]
    obtain ⟨rfl, -⟩ := frameAt_inj h hxf hfr
    have hnd := ParentChains.chain_nodup h.decreasing o
    change (chain s o).Nodup at hnd
    rw [chain_eq_append s o, nodup_append] at hnd
    exact absurd rfl (hnd.2.2 _ hx _ (by simp))
  | none =>
    rw [hd, map_none, none_or] at hor
    rcases bottomLookup_spec h hr hobb n with ⟨-, heq⟩ | ⟨hnb', pf, t, heq, hf, hfr⟩
    · exact ⟨_, s, heq, .inl ⟨_, rfl, rfl⟩⟩
    · refine ⟨_, t, heq, .inr ⟨pf, rfl, ?_, fun _ => hnb', ?_⟩⟩
      · rcases hf with ⟨rfl, -⟩ | ⟨hnone, rfl⟩
        · rw [hor, hfr]
        · have h' := heap_addPage h hnone
          have hort := hit_eq_or (addPage s (bottom s o) n) o n
          have hdt : (chain s o).dropLast.findSome?
              (pframeGetResident (addPage s (bottom s o) n) · n) = none := by
            rw [← hd]
            refine findSome_congr fun x hx => ?_
            have hnd := ParentChains.chain_nodup h.decreasing o
            change (chain s o).Nodup at hnd
            rw [chain_eq_append s o, nodup_append] at hnd
            have hne : x ≠ bottom s o := hnd.2.2 x hx _ (by simp)
            simp [pframeGetResident, addPage_objs_ne s n hne]
          rw [chain_addPage, hdt, map_none, none_or, bottom_addPage, hfr] at hort
          exact hort
      · rcases hf with ⟨rfl, -⟩ | ⟨hnone, rfl⟩
        · exact .inl rfl
        · exact .inr ⟨hor.trans hnone, rfl⟩

/-- A lookup for writing brings in the page of the bottom object and then its own. -/
theorem lookuppage_write_spec (h : Heap s) (hr : Referenced s) (hob : s.objs o = some ob)
    (n : ℕ) : ∃ res t, lookuppage s o n true = .ok (res, t) ∧
      (Beyond s (bottom s o) n ∧ (∃ e, res = .error e ∧ t = s) ∨
        ¬Beyond s (bottom s o) n ∧ ∃ pf t1, res = .ok pf ∧ Fetched s (bottom s o) n t1 ∧
          Fetched t1 o n t ∧ frameAt t o n = some pf.pfAddr) := by
  obtain ⟨obb, hobb, -, -, -⟩ := h.bottom_spec (o := o) (by simp [hob])
  by_cases hsh : ob.mmoOps = .shadow
  · simp only [lookuppage, getObj, hob, need_some, ok_bind, if_pos hsh, shadowLookuppage]
    rcases bottomLookup_spec h hr hobb n with ⟨hb, heq⟩ | ⟨hnb, pf, t1, heq, hf, -⟩
    · exact ⟨.error .einval, s, by simp [heq], .inl ⟨hb, _, rfl, rfl⟩⟩
    · have hlive1 : (t1.objs o).isSome := by simp [hf.isSome, hob]
      obtain ⟨ob1, hob1⟩ := isSome_iff_exists.mp hlive1
      obtain ⟨pf', t, hget, hf', hfr⟩ := pframeGet_spec (hf.heap h) (hf.referenced hr) hob1 n
      exact ⟨.ok pf', t, by simp [heq, hget], .inr ⟨hnb, pf', t1, rfl, hf, hf', hfr⟩⟩
  · obtain ⟨-, hself⟩ := h.bottom_eq_self hob hsh
    simp only [lookuppage, getObj, hob, need_some, ok_bind, if_neg hsh]
    rw [hself]
    rcases bottomLookup_spec h hr hob n with ⟨hb, heq⟩ | ⟨hnb, pf, t, heq, hf, hfr⟩
    · exact ⟨_, s, heq, .inl ⟨hb, _, rfl, rfl⟩⟩
    · exact ⟨_, t, heq, .inr ⟨hnb, pf, t, rfl, hf, .inl ⟨rfl, by simp [hfr]⟩, hfr⟩⟩

end Lookup

section Lookup

variable {s t : Vm} {o n : ℕ} {ob : Mmobj}

theorem Fetched.resident (hf : Fetched s o n t) (ho : (s.objs o).isSome) :
    (frameAt t o n).isSome := by
  rcases hf with ⟨rfl, hres⟩ | ⟨-, rfl⟩
  · exact hres
  · obtain ⟨ob, hob⟩ := isSome_iff_exists.mp ho
    rw [frameAt_addPage hob, if_pos ⟨rfl, rfl⟩]
    rfl

end Lookup

/-- Two versions of an object with the same pages over the same object. -/
structure SameObj (ob ob' : Mmobj) : Prop where
  ops : ob'.mmoOps = ob.mmoOps
  shadowed : ob'.mmoShadowed = ob.mmoShadowed
  nres : ob'.mmoNrespages = ob.mmoNrespages
  pages : ob'.mmoRespages = ob.mmoRespages

theorem SameObj.trans {ob'' : Mmobj} (h : SameObj ob ob') (h' : SameObj ob' ob'') :
    SameObj ob ob'' :=
  ⟨h'.ops.trans h.ops, h'.shadowed.trans h.shadowed, h'.nres.trans h.nres, h'.pages.trans h.pages⟩

/-- Objects that are there before and after have the same pages over the same objects. -/
def KeepsObjs (s t : Vm) : Prop :=
  ∀ x ob ob', s.objs x = some ob → t.objs x = some ob' → SameObj ob ob'

section Kept

variable {s t : Vm} {x y n : ℕ}

theorem KeepsObjs.below_eq (h : KeepsObjs s t) (hs : (s.objs x).isSome) (ht : (t.objs x).isSome) :
    below t x = below s x := by
  obtain ⟨ob, hob⟩ := isSome_iff_exists.mp hs
  obtain ⟨ob', hob'⟩ := isSome_iff_exists.mp ht
  rw [below_of_obj hob, below_of_obj hob', (h x ob ob' hob hob').shadowed]

theorem KeepsObjs.frameAt_eq (h : KeepsObjs s t) (hs : (s.objs x).isSome) (ht : (t.objs x).isSome)
    (n : ℕ) : frameAt t x n = frameAt s x n := by
  obtain ⟨ob, hob⟩ := isSome_iff_exists.mp hs
  obtain ⟨ob', hob'⟩ := isSome_iff_exists.mp ht
  simp [frameAt, pframeGetResident, hob, hob', pageOf, (h x ob ob' hob hob').pages]

theorem KeepsObjs.ops_eq (h : KeepsObjs s t) (hs : (s.objs x).isSome) (ht : (t.objs x).isSome) :
    (t.objs x).map Mmobj.mmoOps = (s.objs x).map Mmobj.mmoOps := by
  obtain ⟨ob, hob⟩ := isSome_iff_exists.mp hs
  obtain ⟨ob', hob'⟩ := isSome_iff_exists.mp ht
  simp [hob, hob', (h x ob ob' hob hob').ops]

variable (hk : KeepsObjs s t) (hs : ∀ x ∈ chain s y, (s.objs x).isSome)
  (ht : ∀ x ∈ chain s y, (t.objs x).isSome)

include hk hs ht

theorem KeepsObjs.chain_eq : chain t y = chain s y :=
  ParentChains.chain_congr fun x hx => hk.below_eq (hs x hx) (ht x hx)

theorem KeepsObjs.bottom_eq : bottom t y = bottom s y :=
  ParentChains.root_congr fun x hx => hk.below_eq (hs x hx) (ht x hx)

theorem KeepsObjs.hit_eq : hit t y n = hit s y n := by
  rw [hit, hit, hk.chain_eq hs ht]
  exact findSome_congr fun x hx => hk.frameAt_eq (hs x hx) (ht x hx) n

theorem KeepsObjs.view_eq (hb : bottom s y ∈ chain s y) (hmem : t.mem = s.mem)
    (hvn : t.vnData = s.vnData) : view t y n = view s y n := by
  rw [view, view, hk.hit_eq hs ht, hk.bottom_eq hs ht, hmem, base, base,
    hk.ops_eq (hs _ hb) (ht _ hb), hvn]

end Kept

theorem view_setMem (s : Vm) (f : ℕ) (c : Page) (x m : ℕ) :
    view (s.setMem f c) x m = if hit s x m = some f then c else view s x m := by
  have hhit : hit (s.setMem f c) = hit s := rfl
  have hbase : base (s.setMem f c) = base s := rfl
  have hbot : bottom (s.setMem f c) = bottom s := rfl
  unfold view
  rw [hhit, hbase, hbot]
  cases hx : hit s x m with
  | none => simp
  | some g =>
    by_cases hg : g = f
    · simp [hg, Vm.setMem]
    · simp [hg, Vm.setMem]

end SystemsProjects.PageLookup
