import SystemsProjects.AreaChanges

/-!
# Removing areas

The four cases of `vmmap_remove` keep the invariant and return. Dropping an area drops one
reference to every object of its chain, and an object goes exactly if no other area has it
in its chain, so that what the remaining areas see is left alone. Splitting an area takes
one more reference to every object of its chain for the new area, which is put on the list
of the bottom object; this fails for an area that is not private.
-/
namespace SystemsProjects.AreaRemoval

open Option List
open PageTables VmState MemoryObjects AddressSpaces ObjectHeap PageLookup AreaMaps AreaOrdering
  VmInvariant AreaChanges

def unlinked (v : ℕ × ℕ) (ob : Mmobj) : Mmobj := { ob with mmoUn := unlinkUn v ob.mmoUn }

/-- What is left of an object when an area that had it in its chain is gone. -/
def lessArea (s : Vm) (o : ℕ) (v : ℕ × ℕ) (x : ℕ) : Option Mmobj :=
  (if x ∈ chain s o then (s.objs x).bind dropRef else s.objs x).map (unlinked v)

structure Dropped (s t : Vm) (p : ℕ) (a : Vmarea) (o : ℕ) : Prop where
  objs : t.objs = lessArea s o (p, a.vmaId)
  edited : Edited s t p ((areas s p).filter (·.vmaId ≠ a.vmaId))
  rest : SameRest s t
  nextObj : t.nextObj = s.nextObj
  nextVma : t.nextVma = s.nextVma
  sub : ∀ q, Sub (table t q) (table s q)
  cleared : ∀ v, covers a v → ptEntry (table t p) v = none

variable {s : Vm} {a : Vmarea} {o p : ℕ}

theorem dropArea_spec (h : Sound s) (ha : a ∈ areas s p) (ho : a.vmaObj = some o) :
    ∃ t, dropArea p s a = .ok t ∧ Dropped s t p a o := by
  obtain ⟨map, hmap⟩ := mapOf_of_mem ha
  obtain ⟨f, hf, hput⟩ := putChain_eq h.heap (h.obj_live ha ho) (h.droppable ha ho)
    fun v hv => h.resolvable hv
  set s1 := (release s (chain s o)).setProcs f
  have hmaps : mapOf s1 = mapOf s := mapOf_shrunk hf
  have hareas : areas s1 = areas s := areas_shrunk hf
  have hmap1 : mapOf s1 p = some map := by rw [hmaps, hmap]
  set l := (areas s p).filter (·.vmaId ≠ a.vmaId)
  have hedit : editAreas s1 p (·.filter (·.vmaId ≠ a.vmaId)) = .ok (withAreas s1 p l) := by
    rw [editAreas_eq hmap1, hareas]
  set s3 := unlinkVma (withAreas s1 p l) (p, a.vmaId)
  have hr := (h.spaces.wf p).range a ha
  have hproc : ∀ q, (s3.procs q).isSome = (s.procs q).isSome := fun q =>
    (isSome_withAreas s1 p q l).trans (isSome_shrunk hf q)
  have htab : ∀ q, Sub (table s3 q) (table s q) := fun q => by
    have heq : table s3 = table s1 := table_withAreas s1 p l
    rw [heq]
    exact table_shrunk hf q
  have hproc3 : (s3.procs p).isSome := by rw [hproc]; exact isSome_of_mapOf hmap
  obtain ⟨pd, hpd, hun⟩ := unmapRange_eq hproc3 hr.2.1 hr.1 hr.2.2
  refine ⟨withTable s3 p pd, ?_, ?_⟩
  · simp only [dropArea, ho, need_some, ok_bind, hput, hedit]
    exact hun
  · refine ⟨?_, ?_, ⟨rfl, rfl, rfl, rfl, rfl, fun q => ?_⟩, rfl, rfl, fun q => ?_, fun v hv => ?_⟩
    · rfl
    · have hed : Edited s1 (withAreas s1 p l) p l := edited_withAreas hmap1 l
      have hsame : SameMaps (withAreas s1 p l) (withTable s3 p pd) := ⟨mapOf_withTable s3 p pd, rfl⟩
      exact (hed.sameMaps hsame).of_mapOf hmaps
    · rw [isSome_withTable, hproc]
    · exact (sub_withTable hproc3 (ptUnmapRange_sub hpd) q).trans (htab q)
    · rw [table_withTable_self hproc3]
      exact ptEntry_ptUnmapRange hpd hv.1 hv.2

variable {ob' : Mmobj} {v : ℕ × ℕ}

theorem lessArea_isSome {x : ℕ} {ob : Mmobj} (hob : s.objs x = some ob)
    (hx : x ∈ chain s o → ¬(ob.mmoOps ≠ .vnode ∧ ob.mmoRefcount = ob.mmoNrespages+1)) :
    (lessArea s o v x).isSome := by
  unfold lessArea
  split_ifs with hc
  · simp [hob, dropRef, hx hc]
  · simp [hob]

section Dropping

variable {s t : Vm} {p q o x y : ℕ} {a b : Vmarea}

theorem Dropped.obj (hd : Dropped s t p a o) (h : t.objs x = some ob') :
    ∃ ob, s.objs x = some ob ∧ SameObj ob ob' ∧ ob'.mmoUn = unlinkUn (p, a.vmaId) ob.mmoUn ∧
      (if x ∈ chain s o then ob'.mmoRefcount = ob.mmoRefcount-1 ∧
          ¬(ob.mmoOps ≠ .vnode ∧ ob.mmoRefcount = ob.mmoNrespages+1)
        else ob'.mmoRefcount = ob.mmoRefcount) := by
  rw [hd.objs, lessArea] at h
  by_cases hx : x ∈ chain s o
  · rw [if_pos hx, map_eq_some_iff] at h
    obtain ⟨ob1, h1, rfl⟩ := h
    obtain ⟨ob, hob, h1⟩ := bind_eq_some_iff.mp h1
    unfold dropRef at h1
    split_ifs at h1 with hlast
    obtain rfl := some.inj h1
    refine ⟨ob, hob, ⟨rfl, rfl, rfl, rfl⟩, rfl, ?_⟩
    rw [if_pos hx]
    exact ⟨rfl, hlast⟩
  · rw [if_neg hx, map_eq_some_iff] at h
    obtain ⟨ob, hob, rfl⟩ := h
    exact ⟨ob, hob, ⟨rfl, rfl, rfl, rfl⟩, rfl, by rw [if_neg hx]; rfl⟩

theorem Dropped.keeps (hd : Dropped s t p a o) : KeepsObjs s t := by
  intro x ob ob' hob hob'
  obtain ⟨ob1, hob1, hsame, -⟩ := hd.obj hob'
  obtain rfl := some.inj (hob.symm.trans hob1)
  exact hsame

theorem Dropped.mem_iff (hd : Dropped s t p a o) :
    b ∈ areas t q ↔ b ∈ areas s q ∧ (q, b.vmaId) ≠ (p, a.vmaId) := by
  by_cases hq : q = p
  · subst hq
    rw [hd.edited.self, mem_filter]
    simp
  · rw [hd.edited.others q hq]
    simp [hq]

theorem vmasAt_unlinked {w : ℕ × ℕ} {ob : Mmobj} (hob : s.objs x = some ob)
    (hob' : t.objs x = some ob') (hun : ob'.mmoUn = unlinkUn v ob.mmoUn) :
    w ∈ vmasAt t x ↔ w ∈ vmasAt s x ∧ w ≠ v := by
  cases hu : ob.mmoUn with
  | vmas l => simp [vmasAt, hob, hob', hun, hu, unlinkUn, mem_filter]
  | bottomObj b => simp [vmasAt, hob, hob', hun, hu, unlinkUn]

theorem vmasAt_of_none (h : s.objs x = none) : vmasAt s x = [] := by simp [vmasAt, h]

variable (h : Sound s) (ha : a ∈ areas s p) (ho : a.vmaObj = some o)
  (hd : Dropped s t p a o)
include h ha ho hd

/-- The areas that are left have the object in their chains, the dropped one apart. -/
theorem Dropped.uses_add (x : ℕ) :
    ∑ q ∈ Finset.range s.nextPid, (areas t q).countP (holds s x) +
      (if x ∈ chain s o then 1 else 0) = uses s x := by
  have hsum := sum_change (p := p) (n := s.nextPid)
    (f := fun q => (areas s q).countP (holds s x)) (g := fun q => (areas t q).countP (holds s x))
    (h.spaces.lt_of_mem ha) fun q hq => by rw [hd.edited.others q hq]
  have hperm := (perm_filter (h.spaces.wf p).ids ha).countP_eq (holds s x)
  rw [countP_cons, holds_of_obj ho] at hperm
  simp only [decide_eq_true_eq] at hperm
  rw [hd.edited.self] at hsum
  change _ = ∑ q ∈ Finset.range s.nextPid, (areas s q).countP (holds s x)
  omega

theorem Dropped.live (hb : b ∈ areas t q) (hby : b.vmaObj = some y)
    (hx : x ∈ chain s y) : (t.objs x).isSome := by
  have hbs := (hd.mem_iff.mp hb).1
  have hlive : (s.objs x).isSome := h.heap.live_of_mem (h.obj_live hbs hby) hx
  obtain ⟨ob, hob⟩ := isSome_iff_exists.mp hlive
  rw [hd.objs]
  refine lessArea_isSome hob fun hxo hlast => ?_
  have hsum := hd.uses_add h ha ho x
  rw [if_pos hxo] at hsum
  have hq : q ∈ Finset.range s.nextPid := Finset.mem_range.mpr (h.spaces.lt_of_mem hbs)
  have hc : 0 < (areas t q).countP (holds s x) :=
    countP_pos_iff.mpr ⟨b, hb, holds_iff.mpr ⟨y, hby, hx⟩⟩
  have hle := Finset.single_le_sum (f := fun q => (areas t q).countP (holds s x))
    (fun _ _ => Nat.zero_le _) hq
  have hex := (h.counts.exact x ob hob hlast.1).1
  omega

theorem Dropped.chain_eq (hb : b ∈ areas t q) (hby : b.vmaObj = some y)
    (hx : x ∈ chain s y) : chain t x = chain s x := by
  have hbs := (hd.mem_iff.mp hb).1
  have hsub : ∀ z ∈ chain s x, z ∈ chain s y := fun z hz =>
    ParentChains.mem_chain_trans h.heap.decreasing hx hz
  exact hd.keeps.chain_eq
    (fun z hz => h.heap.live_of_mem (h.obj_live hbs hby) (hsub z hz))
    fun z hz => hd.live h ha ho hb hby (hsub z hz)

theorem Dropped.uses_eq (x : ℕ) :
    uses t x + (if x ∈ chain s o then 1 else 0) = uses s x := by
  rw [← hd.uses_add h ha ho x, uses, hd.rest.nextPid]
  congr 1
  refine Finset.sum_congr rfl fun q _ => countP_congr fun b hb => ?_
  rw [holds_congr fun y hy => hd.chain_eq h ha ho hb hy (ParentChains.mem_chain_self _ y)]

/-- The object is still there exactly if it is the object of a file or is still used. -/
theorem Dropped.uses_pos (hob' : t.objs x = some ob') (hv : ob'.mmoOps ≠ .vnode) :
    0 < uses t x := by
  obtain ⟨ob, hob, hsame, -, href⟩ := hd.obj hob'
  rw [hsame.ops] at hv
  have hsum := hd.uses_eq h ha ho x
  obtain ⟨hex, hpos⟩ := h.counts.exact x ob hob hv
  split_ifs at hsum href with hx
  · have hne : ob.mmoRefcount ≠ ob.mmoNrespages+1 := fun heq => href.2 ⟨hv, heq⟩
    omega
  · omega

theorem Dropped.heap : Heap t := by
  refine heap_of_kept h.heap (fun x ob' hob' => ?_) (fun x ob' hob' => ?_) hd.nextObj
    hd.rest.nextFrame
  all_goals obtain ⟨ob, hob, hsame, hun, -⟩ := hd.obj hob'
  · exact ⟨ob, hob, hsame⟩
  · have hw := h.heap.wellMade x ob hob
    unfold WellMade at hw ⊢
    rw [hsame.shadowed, hsame.ops, hun]
    cases hs : ob.mmoShadowed with
    | none =>
      rw [hs] at hw
      obtain ⟨hops, l, hl⟩ := hw
      exact ⟨hops, l.filter (· ≠ (p, a.vmaId)), by rw [hl]; rfl⟩
    | some y =>
      rw [hs] at hw
      obtain ⟨hops, hlt, -, hbot⟩ := hw
      have hnv : ob'.mmoOps ≠ .vnode := by rw [hsame.ops, hops]; decide
      obtain ⟨q, b, hb, hold⟩ := exists_of_uses_pos (hd.uses_pos h ha ho hob' hnv)
      obtain ⟨z, hbz, hxz⟩ := holds_iff.mp hold
      rw [hd.chain_eq h ha ho hb hbz (ParentChains.mem_chain_self _ z)] at hxz
      have hyx : y ∈ chain s x :=
        (ParentChains.mem_chain h.heap.decreasing).mpr
          (.inr ⟨y, (below_of_obj hob).trans hs, ParentChains.mem_chain_self _ y⟩)
      have hyz := ParentChains.mem_chain_trans h.heap.decreasing hxz hyx
      refine ⟨hops, hlt, hd.live h ha ho hb hbz hyz, ?_⟩
      rw [hbot, bottom_eq_getLastD t, hd.chain_eq h ha ho hb hbz hyz, ← bottom_eq_getLastD]
      rfl

theorem Dropped.counts : Counts t := by
  refine ⟨fun x ob' hob' hv => ?_, fun x ob' hob' hv => ?_⟩
  · have hpos := hd.uses_pos h ha ho hob' hv
    refine ⟨?_, hpos⟩
    obtain ⟨ob, hob, hsame, -, href⟩ := hd.obj hob'
    rw [hsame.ops] at hv
    have hsum := hd.uses_eq h ha ho x
    have hex := h.counts.exact x ob hob hv
    rw [hsame.nres]
    split_ifs at hsum href <;> omega
  · obtain ⟨ob, hob, hsame, -, href⟩ := hd.obj hob'
    rw [hsame.ops] at hv
    have hsum := hd.uses_eq h ha ho x
    have hfile := h.counts.file x ob hob hv
    rw [hsame.nres]
    split_ifs at hsum href <;> omega

theorem Dropped.links : Links t := by
  have hmem : ∀ x w, w ∈ vmasAt t x ↔
      (t.objs x).isSome ∧ w ∈ vmasAt s x ∧ w ≠ (p, a.vmaId) := by
    intro x w
    cases hob' : t.objs x with
    | none => simp [vmasAt_of_none hob']
    | some ob' =>
      obtain ⟨ob, hob, -, hun, -⟩ := hd.obj hob'
      simp [vmasAt_unlinked hob hob' hun]
  have hbot : ∀ q b, b ∈ areas t q → ∀ y, b.vmaObj = some y → bottom t y = bottom s y := by
    intro q b hb y hy
    rw [bottom_eq_getLastD, bottom_eq_getLastD,
      hd.chain_eq h ha ho hb hy (ParentChains.mem_chain_self _ y)]
  refine ⟨fun x => ?_, fun x q i => ?_⟩
  · cases hob' : t.objs x with
    | none => simp [vmasAt_of_none hob']
    | some ob' =>
      have hnd := h.links.nodup x
      obtain ⟨ob, hob, -, hun, -⟩ := hd.obj hob'
      cases hu : ob.mmoUn with
      | vmas l =>
        simp only [vmasAt, hob, hob', hun, hu, unlinkUn, map_some] at hnd ⊢
        exact hnd.filter _
      | bottomObj b => simp [vmasAt, hob', hun, hu, unlinkUn]
  · rw [hmem, h.links.mem_iff]
    constructor
    · rintro ⟨-, ⟨b, hb, rfl, y, hy, hyx⟩, hne⟩
      have hbt : b ∈ areas t q := hd.mem_iff.mpr ⟨hb, hne⟩
      exact ⟨b, hbt, rfl, y, hy, (hbot q b hbt y hy).trans hyx⟩
    · rintro ⟨b, hbt, rfl, y, hy, hyx⟩
      obtain ⟨hb, hne⟩ := hd.mem_iff.mp hbt
      rw [hbot q b hbt y hy] at hyx
      refine ⟨?_, ⟨b, hb, rfl, y, hy, hyx⟩, hne⟩
      exact hd.live h ha ho hbt hy (hyx ▸ h.heap.bottom_mem y)

theorem Dropped.sound : Sound t := by
  refine ⟨hd.heap h ha ho, ?_, hd.counts h ha ho, hd.links h ha ho⟩
  refine spaces_of_edited h.spaces hd.edited hd.rest ?_ (Nat.le_of_eq hd.nextVma.symm)
    fun q b hb y hy => hd.live h ha ho hb hy (ParentChains.mem_chain_self _ y)
  rw [hd.nextVma]
  exact (h.spaces.wf p).filter _

theorem Dropped.descends : Descends s t where
  origin := fun q b hb => ⟨b, (hd.mem_iff.mp hb).1, rfl, rfl, .refl b⟩
  keeps := hd.keeps
  old := fun x hx => by
    obtain ⟨ob', hob'⟩ := isSome_iff_exists.mp hx
    obtain ⟨ob, hob, -⟩ := hd.obj hob'
    simp [hob]
  live := fun q b hb y hy x hx => hd.live h ha ho hb hy hx
  vnLen := hd.rest.vnLen
  sub := hd.sub
  home := fun q vfn he b hb hcov => by
    refine ⟨b, hd.mem_iff.mpr ⟨hb, fun heq => ?_⟩, hcov, rfl, .refl b⟩
    obtain ⟨rfl, hid⟩ := Prod.mk.inj heq
    obtain rfl := eq_of_id (h.spaces.wf q).ids hb ha hid
    exact he (hd.cleared vfn hcov)
  files := fun x ob hob hv => by
    have hsome : (t.objs x).isSome := by
      rw [hd.objs]
      exact lessArea_isSome hob fun _ hlast => hlast.1 hv
    obtain ⟨ob', hob'⟩ := isSome_iff_exists.mp hsome
    refine ⟨ob', hob', hd.keeps x ob ob' hob hob', ?_⟩
    obtain ⟨ob1, hob1, -, -, href⟩ := hd.obj hob'
    obtain rfl := some.inj (hob.symm.trans hob1)
    have huses := hd.uses_eq h ha ho x
    have hpos := h.counts.file x ob hob hv
    split_ifs at huses href <;> omega

end Dropping

variable {hi lo : ℕ}

theorem unmapRange_editAreas_spec (ha : a ∈ areas s p) (hlt : lo < hi) (hlo : userLow ≤ lo)
    (hhi : hi ≤ userHigh) (f : Vmarea → Vmarea) :
    ∃ t, (do editAreas (← unmapRange s p lo hi) p (editArea a.vmaId f)) = .ok t ∧
      Retraced s t p a f ∧ (∀ q, Sub (table t q) (table s q)) ∧
      ∀ v, lo ≤ v → v < hi → ptEntry (table t p) v = none := by
  obtain ⟨map, hmap⟩ := mapOf_of_mem ha
  have hproc := isSome_of_mapOf hmap
  obtain ⟨pd, hpd, hun⟩ := unmapRange_eq hproc hlt hlo hhi
  have hmap1 : mapOf (withTable s p pd) p = some map := by rw [mapOf_withTable, hmap]
  refine ⟨withAreas (withTable s p pd) p (editArea a.vmaId f (areas s p)),
    by rw [hun, ok_bind, editAreas_eq hmap1, areas_withTable],
    ⟨?_, rfl, ⟨rfl, rfl, rfl, rfl, rfl, fun q => ?_⟩, rfl, rfl⟩, ?_, fun v hv hv' => ?_⟩
  · exact (edited_withAreas hmap1 _).of_mapOf (mapOf_withTable s p pd)
  · rw [isSome_withAreas, isSome_withTable]
  · rw [table_withAreas]
    exact sub_withTable hproc (ptUnmapRange_sub hpd)
  · rw [table_withAreas, table_withTable_self hproc]
    exact ptEntry_ptUnmapRange hpd hv hv'

theorem cutTail_spec (h : Sound s) (ha : a ∈ areas s p) (hlo : a.vmaStart < lo)
    (hhi : lo < a.vmaEnd) :
    ∃ t, cutTail p lo s a = .ok t ∧ Sound t ∧ Descends s t ∧ SameRest s t := by
  have hr := (h.spaces.wf p).range a ha
  obtain ⟨t, ht, hret, hsub, hclear⟩ := unmapRange_editAreas_spec ha hhi (by omega) hr.2.2
    fun b => { b with vmaEnd := lo }
  refine ⟨t, ht, hret.sound h ha (fun _ => rfl) (fun _ => rfl) ?_,
    hret.descends h ha (fun _ => rfl) rfl rfl hsub fun vfn hv hcov => ⟨hcov.1, ?_⟩, hret.rest⟩
  · exact (h.spaces.wf p).shrink ha (fun _ => rfl) (fun _ => rfl) (Nat.le_refl _) hlo
      (Nat.le_of_lt hhi)
  · by_contra hle
    exact hv (hclear vfn (Nat.le_of_not_lt hle) hcov.2)

theorem cutHead_spec (h : Sound s) (ha : a ∈ areas s p) (hlo : a.vmaStart < hi)
    (hhi : hi < a.vmaEnd) :
    ∃ t, cutHead p hi s a = .ok t ∧ Sound t ∧ Descends s t ∧ SameRest s t := by
  have hr := (h.spaces.wf p).range a ha
  obtain ⟨t, ht, hret, hsub, hclear⟩ := unmapRange_editAreas_spec ha hlo hr.1 (by omega)
    fun b => { b with vmaOff := b.vmaOff + (hi-b.vmaStart), vmaStart := hi }
  refine ⟨t, ht, hret.sound h ha (fun _ => rfl) (fun _ => rfl) ?_,
    hret.descends h ha (fun _ => rfl) rfl ?_ hsub fun vfn hv hcov => ⟨?_, hcov.2⟩, hret.rest⟩
  · exact (h.spaces.wf p).shrink ha (fun _ => rfl) (fun _ => rfl) (Nat.le_of_lt hlo) hhi
      (Nat.le_refl _)
  · unfold Aligned
    dsimp only
    omega
  · by_contra hle
    exact hv (hclear vfn hcov.1 (Nat.lt_of_not_le hle))

theorem dropArea_ok (h : Sound s) (ha : a ∈ areas s p) (ho : a.vmaObj = some o) :
    ∃ t, dropArea p s a = .ok t ∧ Sound t ∧ Descends s t ∧ SameRest s t := by
  obtain ⟨t, ht, hd⟩ := dropArea_spec h ha ho
  exact ⟨t, ht, hd.sound h ha ho, hd.descends h ha ho, hd.rest⟩

structure Split (s t : Vm) (p lo hi : ℕ) (a : Vmarea) (o : ℕ) : Prop where
  objs : t.objs = moreArea true s o (p, s.nextVma)
  edited : Edited s t p (vmmapInsert
    (editArea a.vmaId (fun b => { b with vmaEnd := lo }) (areas s p)) (upperPart a s.nextVma hi))
  rest : SameRest s t
  nextObj : t.nextObj = s.nextObj
  nextVma : t.nextVma = s.nextVma+1
  sub : ∀ q, Sub (table t q) (table s q)
  cleared : ∀ v, lo ≤ v → v < hi → ptEntry (table t p) v = none

theorem splitArea_spec (h : Sound s) (ha : a ∈ areas s p) (ho : a.vmaObj = some o)
    (hsh : IsShadow s o) (hlo : a.vmaStart < lo) (hlt : lo < hi) (hhi : hi < a.vmaEnd) :
    ∃ t, splitArea p lo hi s a = .ok t ∧ Split s t p lo hi a o := by
  obtain ⟨map, hmap⟩ := mapOf_of_mem ha
  have hlive := h.obj_live ha ho
  have hr := (h.spaces.wf p).range a ha
  have href : refChain s o = .ok (bump s (chain s o)) := by
    refine refChain_eq h.heap fun x hx => ?_
    obtain ⟨ob, hob⟩ := isSome_iff_exists.mp (h.heap.live_of_mem hlive hx)
    exact ⟨ob, hob, h.referenced x ob hob⟩
  obtain ⟨ob, hob, hops⟩ := map_eq_some_iff.mp hsh
  obtain ⟨obb, hobb, -, -, hl⟩ := h.heap.bottom_spec hlive
  set s1 := bump s (chain s o) with hs1
  set l := vmmapInsert (editArea a.vmaId (fun b => { b with vmaEnd := lo }) (areas s p))
    (upperPart a s.nextVma hi)
  set s2 := withAreas { s1 with nextVma := s.nextVma+1 } p l with hs2
  have hmap1 : mapOf { s1 with nextVma := s.nextVma+1 } p = some map := hmap
  have hobjs1 : ∀ x obx, s.objs x = some obx → ∃ ob', s2.objs x = some ob' ∧
      ob'.mmoUn = obx.mmoUn := by
    intro x obx hx
    by_cases hc : x ∈ chain s o
    · exact ⟨addRef obx, by simp [hs2, hs1, withAreas, Vm.setProcs, bump, hc, hx], rfl⟩
    · exact ⟨obx, by simp [hs2, hs1, withAreas, Vm.setProcs, bump, hc, hx], rfl⟩
  have hun : ob.mmoUn = .bottomObj (bottom s o) := h.heap.shadow_un hob hops
  obtain ⟨ob', hob', hun'⟩ := hobjs1 o ob hob
  obtain ⟨obb', hobb', hunb'⟩ := hobjs1 _ obb hobb
  have hlink : linkOnBottom s2 o (p, s.nextVma) = .ok (linked s2 (bottom s o) (p, s.nextVma)) := by
    simp only [linkOnBottom, getObj, hob', need_some, ok_bind, hun', hun]
    exact linkVma_eq hobb' (hunb'.trans hl) _
  set s3 := linked s2 (bottom s o) (p, s.nextVma)
  have hproc : (s3.procs p).isSome := by
    change ((withAreas _ p l).procs p).isSome = true
    rw [isSome_withAreas]
    exact isSome_of_mapOf hmap
  obtain ⟨pd, hpd, hunmap⟩ := unmapRange_eq hproc hlt (by omega) (by omega)
  have htab : table s3 = table s := table_withAreas _ p l
  refine ⟨withTable s3 p pd, ?_, ?_⟩
  · simp only [splitArea, ho, need_some, ok_bind, href]
    change (do
      let s ← editAreas { s1 with nextVma := s.nextVma+1 } p _
      let s' ← linkOnBottom s o (p, _)
      unmapRange s' p lo hi) = _
    rw [editAreas_eq hmap1]
    exact (congrArg (· >>= fun s' => unmapRange s' p lo hi) hlink).trans hunmap
  · refine ⟨?_, ?_, ⟨rfl, rfl, rfl, rfl, rfl, fun q => ?_⟩, rfl, rfl, fun q => ?_,
      fun v hv hv' => ?_⟩
    · rw [moreArea_eq_linked]
      rfl
    · have hed : Edited s s2 p l := (edited_withAreas hmap1 l).of_mapOf rfl
      have hsame : SameMaps s2 (withTable s3 p pd) := ⟨mapOf_withTable s3 p pd, rfl⟩
      exact hed.sameMaps hsame
    · rw [isSome_withTable]
      exact isSome_withAreas { s1 with nextVma := s.nextVma+1 } p q l
    · rw [← htab]
      exact sub_withTable hproc (ptUnmapRange_sub hpd) q
    · rw [table_withTable_self hproc]
      exact ptEntry_ptUnmapRange hpd hv hv'

section Splitting

variable {s t : Vm} {p lo hi o : ℕ} {a : Vmarea} {map : Vmmap}

theorem Split.retraced (hmap : mapOf s p = some map) :
    Retraced s (withAreas s p (editArea a.vmaId (fun b => { b with vmaEnd := lo }) (areas s p)))
      p a fun b => { b with vmaEnd := lo } :=
  ⟨edited_withAreas hmap _, rfl, ⟨rfl, rfl, rfl, rfl, rfl, fun q => isSome_withAreas s p q _⟩,
    rfl, rfl⟩

variable (hsp : Split s t p lo hi a o) (h : Sound s) (ha : a ∈ areas s p) (ho : a.vmaObj = some o)
  (hlo : a.vmaStart < lo) (hlt : lo < hi) (hhi : hi < a.vmaEnd)
include hsp h ha ho hlo hlt hhi

theorem Split.gained (hmap : mapOf s p = some map) :
    Gained true (withAreas s p (editArea a.vmaId (fun b => { b with vmaEnd := lo }) (areas s p)))
      t p (vmmapInsert (editArea a.vmaId (fun b => { b with vmaEnd := lo }) (areas s p))
        (upperPart a s.nextVma hi)) (upperPart a s.nextVma hi) o := by
  set l := editArea a.vmaId (fun b => { b with vmaEnd := lo }) (areas s p)
  have hedit : Edited (withAreas s p l) t p (vmmapInsert l (upperPart a s.nextVma hi)) := by
    refine ⟨hsp.edited.self, fun q hq => ?_, fun q => ?_⟩
    · rw [hsp.edited.others q hq, areas_withAreas_ne s l hq]
    · rw [hsp.edited.owner q, (edited_withAreas hmap l).owner q]
  refine ⟨hsp.objs, hedit, ?_, ho, ?_, ⟨hsp.rest.mem, hsp.rest.vnLen, hsp.rest.vnData,
    hsp.rest.nextPid, hsp.rest.nextFrame, fun q => ?_⟩, hsp.nextObj, ?_⟩
  · rw [areas_withAreas_self hmap]
    have hperm : (vmmapInsert l (upperPart a s.nextVma hi)).Perm
        (upperPart a s.nextVma hi :: l) := IntervalLists.insertInterval_perm l _
    have hfilter := hperm.filter (·.vmaObj.isSome)
    rwa [filter_cons_of_pos (by simp [upperPart, ho])] at hfilter
  · have hround := (h.spaces.wf p).round ha hlt
    rw [roundList, roundNext, if_pos ⟨hlo, hhi⟩, if_pos ⟨hlo, hhi⟩] at hround
    rw [hsp.nextVma]
    exact hround
  · rw [hsp.rest.procs, isSome_withAreas]
  · rw [hsp.nextVma]
    exact Nat.le_succ _

theorem Split.sound_and_uses :
    Sound t ∧ ∀ x, uses t x = uses s x + if x ∈ chain s o then 1 else 0 := by
  obtain ⟨map, hmap⟩ := mapOf_of_mem ha
  have hret := @Split.retraced s p lo a map hmap
  have hg := hsp.gained h ha ho hlo hlt hhi hmap
  have hs' := hret.sound h ha (fun _ => rfl) (fun _ => rfl) ((h.spaces.wf p).shrink ha
    (fun _ => rfl) (fun _ => rfl) (Nat.le_refl _) hlo (by dsimp only; omega))
  have hp : ((withAreas s p (editArea a.vmaId (fun b => { b with vmaEnd := lo })
      (areas s p))).procs p).isSome := by
    rw [isSome_withAreas]
    exact isSome_of_mapOf hmap
  refine ⟨hg.sound hs' (h.obj_live ha ho) hp, fun x => ?_⟩
  rw [hg.uses_eq hs'.spaces hp, hret.uses_eq fun _ => rfl]
  rfl

theorem Split.descends :
    Descends s t := by
  have hrel := relabelled_of_moreArea hsp.objs
  have hself : ∀ b, b ∈ areas t p ↔ b = upperPart a s.nextVma hi ∨ b = { a with vmaEnd := lo } ∨
      (b ∈ areas s p ∧ b.vmaId ≠ a.vmaId) := by
    intro b
    rw [hsp.edited.self, vmmapInsert, IntervalLists.mem_insertInterval,
      (perm_editArea (h.spaces.wf p).ids ha _).mem_iff, mem_cons, mem_filter]
    simp
  have hal : Aligned (upperPart a s.nextVma hi) a := by
    unfold Aligned upperPart
    dsimp only
    omega
  have horigin : ∀ q, ∀ b ∈ areas t q, ∃ a ∈ areas s q, b.vmaObj = a.vmaObj ∧
      b.vmaFlags = a.vmaFlags ∧ Aligned b a := by
    intro q b hb
    by_cases hq : q = p
    · subst hq
      rcases (hself b).mp hb with rfl | rfl | ⟨hb, -⟩
      · exact ⟨a, ha, rfl, rfl, hal⟩
      · exact ⟨a, ha, rfl, rfl, rfl⟩
      · exact ⟨b, hb, rfl, rfl, .refl b⟩
    · rw [hsp.edited.others q hq] at hb
      exact ⟨b, hb, rfl, rfl, .refl b⟩
  refine ⟨horigin, hrel.same, fun x hx => by rwa [← hrel.isSome], fun q b hb y hy x hx => ?_,
    hsp.rest.vnLen, hsp.sub, fun q vfn he b hb hcov => ?_, fun x ob hob _ => ?_⟩
  · obtain ⟨c, hc, hobj, -⟩ := horigin q b hb
    rw [hrel.isSome]
    exact h.heap.live_of_mem (h.obj_live hc (hobj ▸ hy)) hx
  · by_cases hq : q = p
    · subst hq
      by_cases hid : b.vmaId = a.vmaId
      · obtain rfl := eq_of_id (h.spaces.wf q).ids hb ha hid
        by_cases hv : vfn < lo
        · exact ⟨{ b with vmaEnd := lo }, (hself _).mpr (.inr (.inl rfl)), ⟨hcov.1, hv⟩, rfl, rfl⟩
        · have hv' : hi ≤ vfn := by
            by_contra hlt'
            exact he (hsp.cleared vfn (by omega) (by omega))
          exact ⟨_, (hself _).mpr (.inl rfl), ⟨hv', hcov.2⟩, rfl, hal⟩
      · exact ⟨b, (hself b).mpr (.inr (.inr ⟨hb, hid⟩)), hcov, rfl, .refl b⟩
    · exact ⟨b, by rwa [hsp.edited.others q hq], hcov, rfl, .refl b⟩
  · obtain ⟨ob', hob'⟩ := isSome_iff_exists.mp ((hrel.isSome x).trans (by rw [hob]; rfl))
    refine ⟨ob', hob', hrel.same x ob ob' hob hob', ?_⟩
    rw [hsp.objs] at hob'
    obtain ⟨ob1, hob1, -, href, -⟩ := moreArea_eq_some hob'
    obtain rfl := some.inj (hob.symm.trans hob1)
    rw [href, (hsp.sound_and_uses h ha ho hlo hlt hhi).2]
    simp only [true_and]
    omega

end Splitting

/-- No area that is not private has the range strictly inside. -/
def SplitsPrivate (s : Vm) (p lo hi : ℕ) : Prop :=
  ∀ a ∈ areas s p, a.vmaStart < lo → hi < a.vmaEnd → hasFlag a.vmaFlags mapPrivate

theorem removeArea_ok (h : Sound s) (ha : a ∈ areas s p) (ho : a.vmaObj = some o) (hlt : lo < hi)
    (hsh : a.vmaStart < lo → hi < a.vmaEnd → IsShadow s o) :
    ∃ t, removeArea p lo hi s a = .ok t ∧ Sound t ∧ Descends s t ∧ SameRest s t := by
  unfold removeArea
  split_ifs with h1 h2 h3 h4
  · obtain ⟨t, ht, hsp⟩ := splitArea_spec h ha ho (hsh h1.1 h1.2) h1.1 hlt h1.2
    exact ⟨t, ht, (hsp.sound_and_uses h ha ho h1.1 hlt h1.2).1,
      hsp.descends h ha ho h1.1 hlt h1.2, hsp.rest⟩
  · exact cutTail_spec h ha h2.1 h2.2
  · exact cutHead_spec h ha h3.2.1 h3.1
  · exact dropArea_ok h ha ho
  · exact ⟨s, rfl, h, .refl h, .refl s⟩

theorem vmmapIsRangeEmpty_of {l : List Vmarea} {n : ℕ} (hlo : userLow ≤ lo) (hn : 0 < n)
    (hhi : lo+n ≤ userHigh) : ∃ empty, vmmapIsRangeEmpty l lo n = .ok empty := by
  have hmod : (lo+n)%word = lo+n := Nat.mod_eq_of_lt (by
    unfold userHigh at hhi
    unfold word
    omega)
  have hc : lo < lo+n ∧ userLow ≤ lo ∧ lo+n ≤ userHigh := ⟨by omega, hlo, hhi⟩
  exact ⟨_, by rw [vmmapIsRangeEmpty, hmod, kassert_of hc]; rfl⟩

/-- The state of the loop of `vmmap_remove`, for a state from which it can be left. -/
structure RemoveLoop (p lo hi : ℕ) (s : Vm) (rest : List Vmarea) (t : Vm) : Prop where
  sound : Sound t
  descends : Descends s t
  sameRest : SameRest s t
  removing : Removing p lo hi s rest t
  old : ∀ b ∈ rest, b ∈ areas s p

theorem removeLoop_start (h : Sound s) (p lo hi : ℕ) : RemoveLoop p lo hi s (areas s p) s :=
  ⟨h, .refl h, .refl s, removing_start (h.spaces.wf p), fun _ hb => hb⟩

theorem RemoveLoop.round {t : Vm} {rest : List Vmarea} (hl : RemoveLoop p lo hi s (a :: rest) t)
    (hb : Backed s) (hlt : lo < hi) (hsplit : SplitsPrivate s p lo hi) :
    ∃ t', removeArea p lo hi t a = .ok t' ∧ RemoveLoop p lo hi s rest t' := by
  have ha := hl.old a (by simp)
  have hat := hl.removing.mem a (by simp)
  obtain ⟨o, ob, ho, hob, -, hsh⟩ := hb p a ha
  obtain ⟨t', ht', hs', hd', hrest'⟩ := removeArea_ok hl.sound hat ho hlt fun h1 h2 => by
    obtain ⟨ob', hob'⟩ := isSome_iff_exists.mp
      (hl.descends.live p a hat o ho o (ParentChains.mem_chain_self _ o))
    rw [IsShadow, hob', map_some, (hl.descends.keeps o ob ob' hob hob').ops,
      hsh.mpr (hsplit a ha h1 h2)]
  exact ⟨t', ht', hs', hl.descends.trans hd', hl.sameRest.trans hrest',
    hl.removing.round hlt ht', fun b hb => hl.old b (by simp [hb])⟩

/-- A removal from a range of user memory returns, unless it has to split an area that is not
private. -/
theorem vmmapRemove_ok (h : Sound s) (hb : Backed s) {n : ℕ} {map : Vmmap}
    (hmap : mapOf s p = some map) (hlo : userLow ≤ lo) (hn : 0 < n) (hhi : lo+n ≤ userHigh)
    (hsplit : SplitsPrivate s p lo (lo+n)) : ∃ t, vmmapRemove s p lo n = .ok t ∧ Sound t ∧
      Descends s t ∧ SameRest s t ∧ Removing p lo (lo+n) s [] t := by
  have hw : lo+n < word := by
    unfold userHigh at hhi
    unfold word
    omega
  obtain ⟨empty, hempty⟩ := vmmapIsRangeEmpty_of (l := areas s p) hlo hn hhi
  have hunfold : vmmapRemove s p lo n =
      if empty = true then .ok s else (areas s p).foldlM (removeArea p lo (lo+n)) s := by
    rw [vmmapRemove_eq, readAreas_eq hmap, ok_bind, hempty, ok_bind, Nat.mod_eq_of_lt hw]
    rfl
  cases empty with
  | true =>
    rw [if_pos rfl] at hunfold
    obtain ⟨hrem, -⟩ := vmmapRemove_spec hunfold (by omega) (by omega) (h.spaces.wf p)
    exact ⟨s, hunfold, h, .refl h, .refl s, hrem⟩
  | false =>
    rw [if_neg (by decide)] at hunfold
    obtain ⟨t, ht, hl⟩ := foldlM_total (RemoveLoop p lo (lo+n) s)
      (fun a rest t hl => hl.round hb (by omega) hsplit) (areas s p) s (removeLoop_start h p _ _)
    exact ⟨t, hunfold.trans ht, hl.sound, hl.descends, hl.sameRest, hl.removing⟩

theorem areas_of_mapOf_none (h : mapOf s p = none) : areas s p = [] := by
  simp [areas, h]

/-- The state after the process has been killed. -/
structure Killed (s t : Vm) (p : ℕ) : Prop where
  ok : Ok t
  descends : Descends s t
  rest : SameRest s t
  gone : mapOf t p = none
  others : ∀ q, q ≠ p → areas t q = areas s q
  owner : ∀ q, q ≠ p → (mapOf t q).map Vmmap.vmmProc = (mapOf s q).map Vmmap.vmmProc

theorem vmmapDestroy_ok (hok : Ok s) {map : Vmmap} (hmap : mapOf s p = some map) :
    ∃ t, vmmapDestroy s p = .ok t ∧ Killed s t p := by
  have h := hok.sound
  have hsplit : SplitsPrivate s p userLow (userLow + (userHigh-userLow)) := fun a ha hlt _ =>
    absurd ((h.spaces.wf p).range a ha).1 (Nat.not_le.mpr hlt)
  obtain ⟨t, ht, hs, hd, hrest, hrem⟩ := vmmapRemove_ok h hok.backed hmap (Nat.le_refl _)
    (by decide) (by decide) hsplit
  have hnil : areas t p = [] := eq_nil_iff_forall_not_mem.mpr fun a ha => by
    have hr := hrem.wf.range a ha
    have hc := (hrem.clear a ha).resolve_right (by simp)
    unfold Clear userLow userHigh at *
    omega
  have hown := hrem.owner p
  rw [hmap, map_some] at hown
  obtain ⟨map', hmap', -⟩ := map_eq_some_iff.mp hown
  obtain ⟨r, hr, -⟩ := mapOf_eq_some.mp hmap'
  set u := t.setProc p { r with pVmmap := none } with hu
  have hself : mapOf u p = none := by simp [hu, mapOf, Vm.setProc]
  have hne : ∀ q, q ≠ p → mapOf u q = mapOf t q := fun q hq => by
    simp [hu, mapOf, Vm.setProc, hq]
  have hsome : ∀ q, (u.procs q).isSome = (t.procs q).isSome := fun q => by
    by_cases hq : q = p
    · subst hq
      simp [hu, Vm.setProc, hr]
    · simp [hu, Vm.setProc, hq]
  have hquiet : Quiet t u := by
    refine ⟨rfl, ?_, rfl, rfl, rfl, Nat.le_refl _, rfl, fun q hq => ?_, fun q m r' hm hr' => ?_,
      fun q => ?_⟩
    · funext q
      by_cases hq : q = p
      · subst hq
        rw [areas_of_mapOf_none hself, hnil]
      · rw [areas, areas, hne q hq]
    · rw [hsome] at hq
      exact hs.spaces.pid_lt q hq
    · by_cases hq : q = p
      · subst hq
        rw [hself] at hm
        cases hm
      · rw [hne q hq] at hm
        rw [hsome]
        exact hs.spaces.owner q m r' hm hr'
    · by_cases hq : q = p
      · subst hq
        simpa [hu, table, Vm.setProc, hr] using Sub.refl _
      · simpa [hu, table, Vm.setProc, hq] using Sub.refl _
  have hrest' : SameRest t u := ⟨rfl, rfl, rfl, rfl, rfl, hsome⟩
  have hdu := hd.trans (hquiet.descends hs)
  refine ⟨u, ?_, hdu.ok hok (hquiet.sound hs), hdu, hrest.trans hrest', hself, fun q hq => ?_,
    fun q hq => ?_⟩
  · simp only [vmmapDestroy, ht, ok_bind, getProc, hr, need_some]
    rfl
  · rw [hquiet.areas_eq, hrem.others q hq]
  · rw [hne q hq, hrem.owner q]

end SystemsProjects.AreaRemoval
