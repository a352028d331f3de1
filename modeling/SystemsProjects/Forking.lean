import SystemsProjects.AreaCreation

/-!
# Forking

The child of a fork gets a copy of every area of the parent, without an object at first. A
shared area then gets the object of its model; for a private area, the object of the model
goes below two fresh shadow objects, one for the parent and one for the child. In the end
the page directory of the parent is cleared. Through their new objects both processes see
what the parent saw, and no other process notices.
-/
namespace SystemsProjects.Forking

open List Option
open Function PageTables VmState MemoryObjects AddressSpaces VmSystemCalls ObjectHeap PageLookup
  AreaMaps AreaOrdering VmInvariant AreaChanges AreaCreation

def cloneArea (id : ℕ) (a : Vmarea) : Vmarea := { a with vmaId := id, vmaObj := none }

/-- The areas of the copy of a map, numbered from `id` on. -/
def clones : ℕ → List Vmarea → List Vmarea
  | _, [] => []
  | id, a :: l => cloneArea id a :: clones (id+1) l

section Clones

variable {n id : ℕ} {l : List Vmarea} {a c : Vmarea}

theorem foldl_clone (acc : List Vmarea)
    (hord : l.Pairwise fun a b => a.vmaEnd ≤ b.vmaStart) (hlt : ∀ a ∈ l, a.vmaStart < a.vmaEnd)
    (hacc : ∀ b ∈ acc, ∀ a ∈ l, b.vmaStart < a.vmaStart) :
    l.foldl (fun c a => (vmmapInsert c.1 { a with vmaId := c.2, vmaObj := none }, c.2+1))
      (acc, id) = (acc ++ clones id l, id + l.length) := by
  induction l generalizing acc id with
  | nil => simp [clones]
  | cons a l ih =>
    obtain ⟨ha, hl⟩ := pairwise_cons.mp hord
    have hself := hlt a (by simp)
    have hins : vmmapInsert acc (cloneArea id a) = acc ++ [cloneArea id a] :=
      IntervalLists.insertInterval_eq_append fun b hb => by
        have := hacc b hb a (by simp)
        change b.vmaStart < a.vmaEnd
        omega
    have hnext : ∀ b ∈ acc ++ [cloneArea id a], ∀ a' ∈ l, b.vmaStart < a'.vmaStart := by
      intro b hb a' ha'
      rcases mem_append.mp hb with hb | hb
      · exact hacc b hb a' (by simp [ha'])
      · obtain rfl := mem_singleton.mp hb
        have := ha a' ha'
        change a.vmaStart < a'.vmaStart
        omega
    rw [foldl_cons]
    change foldl _ (vmmapInsert acc (cloneArea id a), id+1) l = _
    rw [hins, ih (acc ++ [cloneArea id a]) hl (fun b hb => hlt b (by simp [hb])) hnext, clones,
      append_assoc, singleton_append, length_cons, Nat.add_assoc,
      Nat.add_comm 1 l.length]

theorem vmmapClone_eq (h : WellFormed n l) (id : ℕ) :
    vmmapClone id l = (clones id l, id + l.length) :=
  foldl_clone [] h.ordered (fun a ha => (h.range a ha).2.1) (by simp)

theorem mem_clones (hc : c ∈ clones id l) :
    ∃ a ∈ l, ∃ i, id ≤ i ∧ i < id + l.length ∧ c = cloneArea i a := by
  induction l generalizing id with
  | nil => cases hc
  | cons a l ih =>
    rcases mem_cons.mp hc with rfl | hc
    · exact ⟨a, by simp, id, Nat.le_refl _, by simp, rfl⟩
    · obtain ⟨b, hb, i, hlo, hhi, rfl⟩ := ih hc
      exact ⟨b, by simp [hb], i, by omega, by simp; omega, rfl⟩

theorem mem_zip_clones (hc : (c, a) ∈ (clones id l).zip l) :
    a ∈ l ∧ c ∈ clones id l ∧ ∃ i, c = cloneArea i a := by
  induction l generalizing id with
  | nil => cases hc
  | cons b l ih =>
    rw [clones, zip_cons_cons, mem_cons] at hc
    rcases hc with heq | hc
    · obtain ⟨rfl, rfl⟩ := Prod.mk.inj heq
      exact ⟨by simp, by simp [clones], id, rfl⟩
    · obtain ⟨ha, hcl, i, rfl⟩ := ih hc
      exact ⟨by simp [ha], by simp [clones, hcl], i, rfl⟩

theorem length_clones (id : ℕ) (l : List Vmarea) : (clones id l).length = l.length := by
  induction l generalizing id with
  | nil => rfl
  | cons a l ih => rw [clones, length_cons, length_cons, ih]

theorem exists_clone_left (ha : a ∈ l) : ∃ c, (c, a) ∈ (clones id l).zip l := by
  rw [← List.map_snd_zip (Nat.le_of_eq (length_clones id l).symm)] at ha
  obtain ⟨⟨c, _⟩, hc, rfl⟩ := mem_map.mp ha
  exact ⟨c, hc⟩

theorem exists_clone_right (hc : c ∈ clones id l) : ∃ a, (c, a) ∈ (clones id l).zip l := by
  rw [← List.map_fst_zip (Nat.le_of_eq (length_clones id l))] at hc
  obtain ⟨⟨_, a⟩, ha, rfl⟩ := mem_map.mp hc
  exact ⟨a, ha⟩

theorem clones_wellFormed (h : WellFormed n l) (id : ℕ) :
    WellFormed (id + l.length) (clones id l) := by
  induction l generalizing id with
  | nil => exact wellFormed_nil _
  | cons a l ih =>
    have ha := (pairwise_cons.mp h.ordered).1
    have hcl := ih h.tail (id+1)
    have hlen : id+1 + l.length = id + (a :: l).length := by simp; omega
    rw [hlen] at hcl
    refine ⟨pairwise_cons.mpr ⟨fun c hc => ?_, hcl.ordered⟩, fun c hc => ?_,
      nodup_cons.mpr ⟨fun hmem => ?_, hcl.ids⟩, fun c hc => ?_, fun c hc => ?_⟩
    · obtain ⟨b, hb, i, -, -, rfl⟩ := mem_clones hc
      exact ha b hb
    · rcases mem_cons.mp hc with rfl | hc
      · exact h.range a (by simp)
      · exact hcl.range c hc
    · obtain ⟨c, hc, hid⟩ := mem_map.mp hmem
      obtain ⟨b, -, i, hlo, -, rfl⟩ := mem_clones hc
      change i = id at hid
      omega
    · rcases mem_cons.mp hc with rfl | hc
      · change id < _
        simp
      · exact hcl.lt c hc
    · rcases mem_cons.mp hc with rfl | hc
      · exact h.kept a (by simp)
      · exact hcl.kept c hc

end Clones

/-- One round of the loop over the areas: the child's area has got the object `oc` and the
parent's the object `op`, both the old object or fresh shadow objects over it. -/
structure AreaForked (p child : ℕ) (c a : Vmarea) (o oc op : ℕ) (s t : Vm) : Prop where
  sound : Sound t
  rest : SameRest s t
  table_eq : table t = table s
  keeps : KeepsObjs s t
  live : ∀ x, (s.objs x).isSome → (t.objs x).isSome
  inChild : areas t child = gave oc c.vmaId (areas s child)
  inParent : areas t p = gave op a.vmaId (areas s p)
  others : ∀ q, q ≠ p → q ≠ child → areas t q = areas s q
  owner : ∀ q, (mapOf t q).map Vmmap.vmmProc = (mapOf s q).map Vmmap.vmmProc
  fresh : ∀ x ob, t.objs x = some ob → s.objs x = none →
    ob.mmoRespages = [] ∧ ob.mmoOps = .shadow ∧ ob.mmoShadowed = some o ∧ (x = oc ∨ x = op)
  kind : (oc = o ∧ op = o ∧ hasFlag a.vmaFlags mapPrivate = false) ∨
    (s.objs oc = none ∧ s.objs op = none ∧ oc ≠ op ∧ (t.objs oc).isSome ∧ (t.objs op).isSome ∧
      hasFlag a.vmaFlags mapPrivate)

variable {l : List Vmarea} {a : Vmarea}

theorem gave_self {o : ℕ} (hids : (l.map Vmarea.vmaId).Nodup) (ha : a ∈ l) (ho : a.vmaObj = some o)
    : gave o a.vmaId l = l := by
  conv_rhs => rw [← map_id l]
  refine map_congr_left fun b hb => ?_
  by_cases hid : b.vmaId = a.vmaId
  · rw [if_pos hid, eq_of_id hids hb ha hid, ← ho]
    rfl
  · rw [if_neg hid]
    rfl

theorem gave_gave (o o' id : ℕ) (l : List Vmarea) : gave o' id (gave o id l) = gave o' id l := by
  simp only [gave, editArea, List.map_map]
  refine List.map_congr_left fun b _ => ?_
  by_cases hb : b.vmaId = id <;> simp [hb]

theorem perm_gave {c : Vmarea} (hids : (l.map Vmarea.vmaId).Nodup) (hc : c ∈ l)
    (hnone : c.vmaObj = none) (o : ℕ) :
    ((gave o c.vmaId l).filter (·.vmaObj.isSome)).Perm
      ({ c with vmaObj := some o } :: l.filter (·.vmaObj.isSome)) := by
  have h1 := (perm_editArea hids hc fun b => { b with vmaObj := some o }).filter
    (·.vmaObj.isSome)
  have h2 := (perm_filter hids hc).filter (·.vmaObj.isSome)
  rw [filter_cons_of_pos (by rfl)] at h1
  rw [filter_cons_of_neg (by simp [hnone])] at h2
  exact h1.trans (h2.symm.cons _)

variable {t : Vm}

section Round

variable {s : Vm} {p child o : ℕ} {c a : Vmarea} {map : Vmmap}

theorem gained_forked (h : Sound s) (hmap : mapOf s child = some map) (hc : c ∈ areas s child)
    (hnone : c.vmaObj = none) (hobjs : t.objs = moreArea true s o (child, c.vmaId))
    (hprocs : t.procs = (withAreas s child (gave o c.vmaId (areas s child))).procs)
    (hrest : SameRest s t) (ho : t.nextObj = s.nextObj) (hv : t.nextVma = s.nextVma) :
    Gained true s t child (gave o c.vmaId (areas s child)) { c with vmaObj := some o } o := by
  have hwf := h.spaces.wf child
  have hsame : SameMaps (withAreas s child (gave o c.vmaId (areas s child))) t :=
    sameMaps_of_procs hprocs hv
  refine ⟨hobjs, (edited_withAreas hmap _).sameMaps hsame, perm_gave hwf.ids hc hnone o, rfl, ?_,
    hrest, ho, Nat.le_of_eq hv.symm⟩
  rw [hv]
  exact hwf.relabel (fun _ => rfl) (fun _ => rfl) (fun _ => rfl) fun _ => rfl

/-- A shared area: one more reference to its object, and one more area on its list. -/
theorem forkArea_shared {ob : Mmobj} (h : Sound s) (hmap : mapOf s child = some map)
    (hc : c ∈ areas s child) (hnone : c.vmaObj = none) (ha : a ∈ areas s p)
    (ho : a.vmaObj = some o) (hpc : p ≠ child) (hstart : a.vmaStart = c.vmaStart)
    (hflags : c.vmaFlags = a.vmaFlags) (hsh : hasFlag a.vmaFlags mapShared)
    (hpr : hasFlag a.vmaFlags mapPrivate = false) (hob : s.objs o = some ob)
    (hops : ob.mmoOps ≠ .shadow) :
    ∃ t, forkArea p child s (c, a) = .ok t ∧ AreaForked p child c a o o o s t := by
  have hlive : (s.objs o).isSome := by rw [hob]; rfl
  obtain ⟨hshn, hbot⟩ := h.heap.bottom_eq_self hob hops
  obtain ⟨-, l, hl⟩ := h.heap.shadowed_none hob hshn
  have hchain : chain s o = [o] := ParentChains.chain_of_none ((below_of_obj hob).trans hshn)
  set s1 := withAreas s child (gave o c.vmaId (areas s child)) with hs1
  have href : mmobjRef s1 o = .ok (bump s1 [o]) := by
    have hloop := foldlM_mmobjRef [o] s1 (nodup_singleton o) fun x hx => by
      obtain rfl := mem_singleton.mp hx
      exact ⟨ob, hob, h.referenced x ob hob⟩
    exact (bind_pure (mmobjRef s1 o)).symm.trans hloop
  have hob1 : (bump s1 [o]).objs o = some (addRef ob) := by
    simp [bump, hs1, withAreas, Vm.setProcs, hob]
  set t := linked (bump s1 [o]) o (child, c.vmaId)
  have hlink : linkVma (bump s1 [o]) o (child, c.vmaId) = .ok t := linkVma_eq hob1 hl _
  have hobjs : t.objs = moreArea true s o (child, c.vmaId) := by
    rw [moreArea_eq_linked, hchain, hbot]
    rfl
  have hg := gained_forked h hmap hc hnone hobjs rfl
    ⟨rfl, rfl, rfl, rfl, rfl, fun q => isSome_withAreas ..⟩ rfl rfl
  have hp : (s.procs child).isSome := isSome_of_mapOf hmap
  refine ⟨t, ?_, hg.sound h hlive hp, hg.rest, table_withAreas s child _, hg.relabelled.same,
    fun x hx => by rwa [hg.relabelled.isSome], hg.edited.self, ?_,
    fun q _ hq => hg.edited.others q hq, hg.edited.owner, fun x ob' hob' hnew => ?_,
    .inl ⟨rfl, rfl, hpr⟩⟩
  · have hedit : editAreas s child
        (editArea c.vmaId fun b => { b with vmaObj := some o }) = .ok s1 := editAreas_eq hmap _
    simp only [forkArea, forkAreaWith, if_pos hstart, hflags, hsh, if_true, ho, need_some,
      ok_bind, plain]
    rw [hedit, ok_bind, href, ok_bind, hlink]
  · rw [gave_self (h.spaces.wf p).ids ha ho, hg.edited.others p hpc]
  · obtain ⟨ob1, hob1', -⟩ := hg.relabelled.exists_obj hob'
    rw [hnew] at hob1'
    cases hob1'

/-- The objects after two fresh shadow objects have been put over `o`, for an area that has
been there and one that has been linked. -/
def twoShadows (s : Vm) (o : ℕ) (v : ℕ × ℕ) : ℕ → Option Mmobj :=
  update (update (moreArea true s o v) s.nextObj (some (shadowOver s o)))
    (s.nextObj+1) (some (shadowOver s o))

theorem twoShadows_of_lt {x : ℕ} {v : ℕ × ℕ} (hx : x < s.nextObj) :
    twoShadows s o v x = moreArea true s o v x := by
  rw [twoShadows, update_of_ne (by omega), update_of_ne (by omega)]

/-- What the two shadow objects mean for the counts and the links, whatever the order in
which the state was reached. -/
theorem forked_private (h : Sound s) (hmap : mapOf s child = some map) (hc : c ∈ areas s child)
    (hnone : c.vmaObj = none) (ha : a ∈ areas s p) (ho : a.vmaObj = some o) (hpc : p ≠ child)
    (hpr : hasFlag a.vmaFlags mapPrivate) (hobjs : t.objs = twoShadows s o (child, c.vmaId))
    (hprocs : t.procs = (withAreas (withAreas s p (gave (s.nextObj+1) a.vmaId (areas s p))) child
      (gave s.nextObj c.vmaId (areas s child))).procs) (hrest : SameRest s t)
    (hno : t.nextObj = s.nextObj+2) (hv : t.nextVma = s.nextVma) :
    AreaForked p child c a o s.nextObj (s.nextObj+1) s t := by
  have hlive := h.obj_live ha ho
  have hp : (s.procs child).isSome := isSome_of_mapOf hmap
  obtain ⟨mapp, hmapp⟩ := mapOf_of_mem ha
  set v := (child, c.vmaId) with hvdef
  set s1 := withAreas s p (gave (s.nextObj+1) a.vmaId (areas s p)) with hs1
  have he1 : Edited s s1 p (gave (s.nextObj+1) a.vmaId (areas s p)) := edited_withAreas hmapp _
  have hmap1 : mapOf s1 child = some map := by rw [hs1, mapOf_withAreas_ne s _ hpc.symm, hmap]
  have he2 : Edited s1 t child (gave s.nextObj c.vmaId (areas s child)) :=
    (edited_withAreas hmap1 _).sameMaps (sameMaps_of_procs hprocs hv)
  -- the child's area gets the old object, then a shadow object; then the parent's area gets one
  set u1 : Vm := { withAreas s child (gave o c.vmaId (areas s child)) with
    objs := moreArea true s o v }
  have hg : Gained true s u1 child (gave o c.vmaId (areas s child)) { c with vmaObj := some o } o :=
    gained_forked h hmap hc hnone rfl rfl ⟨rfl, rfl, rfl, rfl, rfl, fun q => isSome_withAreas ..⟩
      rfl rfl
  have hsound1 : Sound u1 := hg.sound h hlive hp
  have hover1 : shadowOver u1 o = shadowOver s o := by
    rw [shadowOver, shadowOver, hg.relabelled.bottom_eq]
  have hlt : o < s.nextObj := h.heap.lt_of_live hlive
  have hlive1 : (u1.objs o).isSome := by rwa [hg.relabelled.isSome]
  set u2 : Vm := { withAreas s child (gave s.nextObj c.vmaId (areas s child)) with
    objs := update (moreArea true s o v) s.nextObj (some (shadowOver s o))
    nextObj := s.nextObj+1 } with hu2
  have heu : Edited s u2 child (gave s.nextObj c.vmaId (areas s child)) :=
    (edited_withAreas hmap _).sameMaps (sameMaps_of_procs rfl rfl)
  have hs1' : Shadowed u1 u2 child { c with vmaObj := some o } o := by
    refine ⟨rfl, ⟨by rw [hover1]; rfl, rfl, rfl, rfl, rfl, rfl, hlt, hlive1, rfl⟩,
      ⟨?_, fun q hq => ?_, fun q => ?_⟩, ⟨rfl, rfl, rfl, rfl, rfl, fun q => ?_⟩, rfl⟩
    · rw [heu.self, hg.edited.self]
      exact (gave_gave o s.nextObj c.vmaId (areas s child)).symm
    · rw [heu.others q hq, hg.edited.others q hq]
    · rw [heu.owner, hg.edited.owner]
    · exact (isSome_withAreas s child q _).trans (isSome_withAreas s child q _).symm
  have hc1 : { c with vmaObj := some o } ∈ areas u1 child :=
    (hg.mem_iff rfl).mpr (.inr ⟨rfl, rfl⟩)
  have hsound2 : Sound u2 := hs1'.sound hsound1 hc1
  have ha2 : a ∈ areas u2 p := by rw [heu.others p hpc]; exact ha
  have hover2 : shadowOver u2 o = shadowOver s o := by
    rw [← hover1, shadowOver, shadowOver, hs1'.fresh.bottom_eq hsound1.heap hlive1]
  have hs2 : Shadowed u2 t p a o := by
    refine ⟨ho, ⟨by rw [hobjs, hover2]; rfl, hno, hrest.nextFrame, rfl, rfl, rfl,
      Nat.lt_succ_of_lt hlt,
      hs1'.fresh.isSome hsound1.heap hlive1, rfl⟩, ⟨?_, fun q hq => ?_, fun q => ?_⟩,
      ⟨hrest.mem, hrest.vnLen, hrest.vnData, hrest.nextPid, hrest.nextFrame, fun q => ?_⟩, hv⟩
    · rw [he2.others p hpc, he1.self, heu.others p hpc]
      rfl
    · by_cases hqc : q = child
      · subst hqc
        rw [he2.self, heu.self]
      · rw [he2.others q hqc, he1.others q hq, heu.others q hqc]
    · rw [he2.owner, he1.owner, heu.owner]
    · rw [hrest.procs]
      exact (isSome_withAreas s child q _).symm
  have hlives : ∀ x, (s.objs x).isSome → (u1.objs x).isSome := fun x hx => by
    rwa [hg.relabelled.isSome]
  refine ⟨hs2.sound hsound2 ha2, hrest, ?_, fun x ob ob' hob hob' => ?_,
    fun x hx => hs2.fresh.isSome hsound2.heap (hs1'.fresh.isSome hsound1.heap (hlives x hx)),
    he2.self, by rw [he2.others p hpc, he1.self],
    fun q hqp hqc => by rw [he2.others q hqc, he1.others q hqp],
    fun q => by rw [he2.owner, he1.owner], fun x ob hob hnew => ?_,
    .inr ⟨h.heap.fresh_none (Nat.le_refl _), h.heap.fresh_none (Nat.le_succ _), by omega, ?_, ?_,
      hpr⟩⟩
  · have ht : table t = table (withAreas s1 child (gave s.nextObj c.vmaId (areas s child))) := by
      funext q
      rw [table, table, hprocs]
    rw [ht, table_withAreas, hs1, table_withAreas]
  · have hx : x < s.nextObj := h.heap.lt_next x ob hob
    rw [hobjs, twoShadows_of_lt hx] at hob'
    exact hg.relabelled.same x ob ob' hob hob'
  · rw [hobjs, twoShadows] at hob
    by_cases hx1 : x = s.nextObj+1
    · subst hx1
      rw [update_self] at hob
      obtain rfl := some.inj hob
      exact ⟨rfl, rfl, rfl, .inr rfl⟩
    · rw [update_of_ne hx1] at hob
      by_cases hx : x = s.nextObj
      · subst hx
        rw [update_self] at hob
        obtain rfl := some.inj hob
        exact ⟨rfl, rfl, rfl, .inl rfl⟩
      · rw [update_of_ne hx, moreArea, hnew] at hob
        cases hob
  · exact hs2.fresh.isSome hsound2.heap 
      (isSome_iff_exists.mpr ⟨_, hs1'.fresh.objs_self⟩)
  · rw [hs2.fresh.objs_self]
    rfl

theorem forkArea_private (h : Sound s) (hmap : mapOf s child = some map)
    (hc : c ∈ areas s child) (hnone : c.vmaObj = none) (ha : a ∈ areas s p)
    (ho : a.vmaObj = some o) (hpc : p ≠ child) (hstart : a.vmaStart = c.vmaStart)
    (hflags : c.vmaFlags = a.vmaFlags) (hsh : hasFlag a.vmaFlags mapShared = false)
    (hpr : hasFlag a.vmaFlags mapPrivate) (hobj : IsShadow s o) :
    ∃ t, forkArea p child s (c, a) = .ok t ∧
      AreaForked p child c a o s.nextObj (s.nextObj+1) s t := by
  have hlive := h.obj_live ha ho
  obtain ⟨ob, hob, hops⟩ := map_eq_some_iff.mp hobj
  have hun : ob.mmoUn = .bottomObj (bottom s o) := h.heap.shadow_un hob hops
  obtain ⟨obb, hobb, -, -, hl⟩ := h.heap.bottom_spec hlive
  obtain ⟨mapp, hmapp⟩ := mapOf_of_mem ha
  set y := (shadowCreate (shadowCreate s o (bottom s o)).2 o (bottom s o)).2 with hy
  set y1 := withAreas y p (gave (s.nextObj+1) a.vmaId (areas s p)) with hy1
  set y2 := withAreas y1 child (gave s.nextObj c.vmaId (areas s child)) with hy2
  have hobjs : ∀ x, x < s.nextObj → y2.objs x = s.objs x := fun x hx => by
    have h1 : x ≠ s.nextObj+1 := by omega
    have h2 : x ≠ s.nextObj := by omega
    simp [hy2, hy1, hy, withAreas, Vm.setProcs, shadowCreate, Vm.setObj, h1, h2]
  have hlt : ∀ x ∈ chain s o, x < s.nextObj := fun x hx =>
    h.heap.lt_of_live (h.heap.live_of_mem hlive hx)
  have hbm := h.heap.bottom_mem o
  set y3 := linked y2 (bottom s o) (child, c.vmaId) with hy3
  have hobjs3 : ∀ x ob, s.objs x = some ob →
      ∃ ob', y3.objs x = some ob' ∧ SameObj ob ob' ∧ ob'.mmoRefcount = ob.mmoRefcount := by
    intro x obx hx
    refine ⟨{ obx with mmoUn := if x = bottom s o then linkUn (child, c.vmaId) obx.mmoUn
      else obx.mmoUn }, ?_, ⟨rfl, rfl, rfl, rfl⟩, rfl⟩
    simp [hy3, linked, hobjs x (h.heap.lt_next x obx hx), hx]
  have hchain : chain y3 o = chain s o := by
    refine KeepsObjs.chain_eq (fun x ob ob' hob hob' => ?_)
      (fun x hx => h.heap.live_of_mem hlive hx) fun x hx => ?_
    · obtain ⟨ob1, hob1, hsame, -⟩ := hobjs3 x ob hob
      rwa [some.inj (hob'.symm.trans hob1)]
    · obtain ⟨obx, hobx⟩ := isSome_iff_exists.mp (h.heap.live_of_mem hlive hx)
      obtain ⟨ob1, hob1, -⟩ := hobjs3 x obx hobx
      rw [hob1]
      rfl
  have href : refChain y3 o = .ok (bump y3 (chain s o)) := by
    rw [refChain, hchain]
    refine foldlM_mmobjRef _ y3 (ParentChains.chain_nodup h.heap.decreasing o) fun x hx => ?_
    obtain ⟨obx, hobx⟩ := isSome_iff_exists.mp (h.heap.live_of_mem hlive hx)
    obtain ⟨ob1, hob1, -, hr⟩ := hobjs3 x obx hobx
    exact ⟨ob1, hob1, by rw [hr]; exact h.referenced x obx hobx⟩
  have hlink : linkVma y2 (bottom s o) (child, c.vmaId) = .ok y3 :=
    linkVma_eq ((hobjs _ (hlt _ hbm)).trans hobb) hl _
  refine ⟨bump y3 (chain s o), ?_, forked_private h hmap hc hnone ha ho hpc hpr ?_ rfl
    ⟨rfl, rfl, rfl, rfl, rfl, fun q => ?_⟩ rfl rfl⟩
  · have he1 : editAreas y p (editArea a.vmaId fun b =>
        { b with vmaObj := some (s.nextObj+1) }) = .ok y1 := editAreas_eq (s := y) hmapp _
    have hmap1 : mapOf y1 child = some map := by
      rw [hy1, mapOf_withAreas_ne y _ hpc.symm]
      exact hmap
    have hareas1 : areas y1 child = areas s child := areas_withAreas_ne y _ hpc.symm
    have he2 : editAreas y1 child (editArea c.vmaId fun b =>
        { b with vmaObj := some s.nextObj }) = .ok y2 := by
      rw [editAreas_eq hmap1, hareas1]
      rfl
    simp only [forkArea, forkAreaWith, plain, if_pos hstart, hflags, hsh, hpr,
      Bool.false_eq_true, if_false, if_true, ho, need_some, ok_bind, getObj, hob, hun]
    change (do
      let s ← editAreas y p (editArea a.vmaId fun b => { b with vmaObj := some (s.nextObj+1) })
      let s' ← editAreas s child _
      let s'' ← linkVma s' _ _
      refChain s'' o) = _
    rw [he1, ok_bind]
    exact (congrArg (· >>= fun s' => linkVma s' _ _ >>= fun s'' => refChain s'' o) he2).trans
      ((congrArg (· >>= fun s'' => refChain s'' o) hlink).trans href)
  · have hnew : ∀ x, s.nextObj ≤ x → x ∉ chain s o ∧ x ≠ bottom s o := fun x hx =>
      ⟨fun hmem => absurd (hlt x hmem) (Nat.not_lt.mpr hx),
        fun heq => absurd (hlt _ hbm) (Nat.not_lt.mpr (heq ▸ hx))⟩
    funext x
    by_cases hx : x < s.nextObj
    · rw [twoShadows_of_lt hx, moreArea_eq_linked]
      by_cases hmem : x ∈ chain s o
      · simp [bump, linked, hy3, hobjs x hx, hmem, addRef, Function.comp_def]
      · simp [bump, linked, hy3, hobjs x hx, hmem]
    · obtain ⟨hmem, hbot⟩ := hnew x (Nat.le_of_not_lt hx)
      have hbump : (bump y3 (chain s o)).objs x = y2.objs x := by
        simp [bump, hmem, hy3, linked, hbot]
      rw [hbump, twoShadows, update_apply, update_apply, moreArea,
        h.heap.fresh_none (Nat.le_of_not_lt hx)]
      simp [hy2, hy1, hy, withAreas, Vm.setProcs, shadowCreate, Vm.setObj, update_apply,
        shadowOver, h.heap.fresh_none (Nat.le_of_not_lt hx)]
  · exact (isSome_withAreas y1 child q _).trans (isSome_withAreas y p q _)

end Round

/-- The area `b` is the area `a` after the fork, of the parent or of the child: over the same
object, if it is shared, and else over a fresh shadow object without pages. -/
structure Copied (s t : Vm) (a b : Vmarea) : Prop where
  same : ∃ i y, b = { a with vmaId := i, vmaObj := some y }
  obj : ∃ o y, a.vmaObj = some o ∧ b.vmaObj = some y ∧
    ((y = o ∧ hasFlag a.vmaFlags mapPrivate = false) ∨
      (s.objs y = none ∧ hasFlag a.vmaFlags mapPrivate ∧ ∃ ob, t.objs y = some ob ∧
        ob.mmoOps = .shadow ∧ ob.mmoRespages = [] ∧ ob.mmoShadowed = some o))

variable {b : Vmarea}

theorem Copied.keeps {s u : Vm} (h : Copied s t a b) (hk : KeepsObjs t u)
    (hl : ∀ x, (t.objs x).isSome → (u.objs x).isSome) : Copied s u a b := by
  obtain ⟨o, y, ho, hy, hcase⟩ := h.obj
  refine ⟨h.same, o, y, ho, hy, hcase.imp_right ?_⟩
  rintro ⟨hnew, hpr, ob, hob, hops, hpages, hsh⟩
  obtain ⟨ob', hob'⟩ := isSome_iff_exists.mp (hl y (by rw [hob]; rfl))
  have hsame := hk y ob ob' hob hob'
  exact ⟨hnew, hpr, ob', hob', hsame.ops.trans hops, hsame.pages.trans hpages,
    hsame.shadowed.trans hsh⟩

/-- The state of the loop over the areas, with the pairs of areas that are still to come. -/
structure ForkLoop (p child : ℕ) (s s0 : Vm) (rest : List (Vmarea × Vmarea)) (t : Vm) : Prop where
  sound : Sound t
  sameRest : SameRest s0 t
  table_eq : table t = table s0
  keeps : KeepsObjs s t
  live : ∀ x, (s.objs x).isSome → (t.objs x).isSome
  others : ∀ q, q ≠ p → q ≠ child → areas t q = areas s q
  length : (areas t p).length = (areas s p).length
  owner : ∀ q, (mapOf t q).map Vmmap.vmmProc = (mapOf s0 q).map Vmmap.vmmProc
  pending : ∀ c a, (c, a) ∈ rest → a ∈ areas s p ∧ a ∈ areas t p ∧ c ∈ areas t child ∧
    ∃ i, c = cloneArea i a
  childIds : (rest.map (·.1.vmaId)).Nodup
  parentIds : (rest.map (·.2.vmaId)).Nodup
  parent : ∀ b ∈ areas t p, (∃ c, (c, b) ∈ rest) ∨ ∃ a ∈ areas s p, Copied s t a b
  inChild : ∀ b ∈ areas t child, (∃ a, (b, a) ∈ rest) ∨ ∃ a ∈ areas s p, Copied s t a b
  toParent : ∀ a ∈ areas s p, (∃ c, (c, a) ∈ rest) ∨ ∃ b ∈ areas t p, Copied s t a b
  toChild : ∀ a ∈ areas s p, (∃ c, (c, a) ∈ rest) ∨ ∃ b ∈ areas t child, Copied s t a b
  fresh : ∀ x ob, t.objs x = some ob → s.objs x = none → ob.mmoRespages = [] ∧
    ∃ a ∈ areas s p, ob.mmoShadowed = a.vmaObj ∧ hasFlag a.vmaFlags mapPrivate
  distinct : ∀ q r b c y, b ∈ areas t q → c ∈ areas t r → b.vmaObj = some y → c.vmaObj = some y →
    s.objs y = none → q = r ∧ b.vmaId = c.vmaId

theorem mem_gave {o : ℕ} (hids : (l.map Vmarea.vmaId).Nodup) (ha : a ∈ l) : b ∈ gave o a.vmaId l ↔
      b = { a with vmaObj := some o } ∨ (b ∈ l ∧ b.vmaId ≠ a.vmaId) := by
  rw [gave, (perm_editArea hids ha _).mem_iff, mem_cons, mem_filter]
  simp

variable {q : ℕ}

section Loop

variable {p child : ℕ} {s s0 t u : Vm} {c a : Vmarea} {rest : List (Vmarea × Vmarea)}
  {o oc op : ℕ}

theorem AreaForked.copied (hf : AreaForked p child c a o oc op t u) (ho : a.vmaObj = some o)
    (hold : ∀ x, t.objs x = none → s.objs x = none) {i : ℕ} (hc : c = cloneArea i a) :
    Copied s u a { a with vmaObj := some op } ∧ Copied s u a { c with vmaObj := some oc } := by
  have hnew : ∀ x, t.objs x = none → (u.objs x).isSome → ∃ ob, u.objs x = some ob ∧
      ob.mmoOps = .shadow ∧ ob.mmoRespages = [] ∧ ob.mmoShadowed = some o := by
    intro x hx hu
    obtain ⟨ob, hob⟩ := isSome_iff_exists.mp hu
    obtain ⟨hpages, hops, hsh, -⟩ := hf.fresh x ob hob hx
    exact ⟨ob, hob, hops, hpages, hsh⟩
  rcases hf.kind with ⟨hoc, hop, hpr⟩ | ⟨hoc, hop, -, hlc, hlp, hpr⟩
  · exact ⟨⟨⟨a.vmaId, op, rfl⟩, o, op, ho, rfl, .inl ⟨hop, hpr⟩⟩,
      ⟨⟨i, oc, by rw [hc]; rfl⟩, o, oc, ho, rfl, .inl ⟨hoc, hpr⟩⟩⟩
  · exact ⟨⟨⟨a.vmaId, op, rfl⟩, o, op, ho, rfl, .inr ⟨hold op hop, hpr, hnew op hop hlp⟩⟩,
      ⟨⟨i, oc, by rw [hc]; rfl⟩, o, oc, ho, rfl, .inr ⟨hold oc hoc, hpr, hnew oc hoc hlc⟩⟩⟩

/-- The areas of one of the two processes, those that are still to come and the copies, when the
next one of them, `d`, gets its object. -/
theorem AreaForked.half (hf : AreaForked p child c a o oc op t u) (hs : Sound s) (ht : Sound t)
    (ha : a ∈ areas s p) {d e : Vmarea} (hd : d ∈ areas t q) (hstart : d.vmaStart = a.vmaStart)
    (hmem : ∀ b, b ∈ areas u q ↔ b = e ∨ (b ∈ areas t q ∧ b.vmaId ≠ d.vmaId))
    (hcopy : Copied s u a e) {I I' J J' : Vmarea → Prop} (hI : ∀ b, I b → b = d ∨ I' b)
    (hJ : ∀ b, J b → b = a ∨ J' b)
    (hof : ∀ b ∈ areas t q, I b ∨ ∃ a ∈ areas s p, Copied s t a b)
    (hto : ∀ a ∈ areas s p, J a ∨ ∃ b ∈ areas t q, Copied s t a b) :
    (∀ b ∈ areas u q, I' b ∨ ∃ a ∈ areas s p, Copied s u a b) ∧
      ∀ a ∈ areas s p, J' a ∨ ∃ b ∈ areas u q, Copied s u a b := by
  have hnew : ∃ b ∈ areas u q, Copied s u a b := ⟨e, (hmem e).mpr (.inl rfl), hcopy⟩
  constructor
  · intro b hb
    rcases (hmem b).mp hb with rfl | ⟨hb, hne⟩
    · exact .inr ⟨a, ha, hcopy⟩
    · rcases hof b hb with hrest | ⟨a', ha', hc⟩
      · exact .inl ((hI b hrest).resolve_left fun heq => hne (heq ▸ rfl))
      · exact .inr ⟨a', ha', hc.keeps hf.keeps hf.live⟩
  · intro a' ha'
    rcases hto a' ha' with hrest | ⟨b, hb, hc⟩
    · rcases hJ a' hrest with rfl | hrest
      · exact .inr hnew
      · exact .inl hrest
    · by_cases hid : b.vmaId = d.vmaId
      · -- the copy is at the place of the model, so this is the area that is forked now
        obtain rfl := eq_of_id (ht.spaces.wf q).ids hb hd hid
        obtain ⟨j, y, hby⟩ := hc.same
        rw [hby] at hstart
        have hr := (hs.spaces.wf p).range a ha
        have hr' := (hs.spaces.wf p).range a' ha'
        have heq : a' = a := hs.eq_of_covers ha' ha ⟨Nat.le_refl _, hr'.2.1⟩
          ⟨Nat.le_of_eq hstart.symm, Nat.lt_of_le_of_lt (Nat.le_of_eq hstart) hr.2.1⟩
        exact .inr (heq ▸ hnew)
      · exact .inr ⟨b, (hmem b).mpr (.inr ⟨hb, hid⟩), hc.keeps hf.keeps hf.live⟩

theorem ForkLoop.round (hs : Sound s) (h : ForkLoop p child s s0 ((c, a) :: rest) t)
    (hf : AreaForked p child c a o oc op t u) (ho : a.vmaObj = some o) (hpc : p ≠ child) :
    ForkLoop p child s s0 rest u := by
  obtain ⟨has, hat, hct, i, hci⟩ := h.pending c a (by simp)
  obtain ⟨hcnot, hcids⟩ := nodup_cons.mp h.childIds
  obtain ⟨hpnot, hpids⟩ := nodup_cons.mp h.parentIds
  have hold : ∀ x, t.objs x = none → s.objs x = none := fun x hx => by
    by_contra hne
    have hl := h.live x (ne_none_iff_isSome.mp hne)
    rw [hx] at hl
    cases hl
  have hos : (s.objs o).isSome := hs.obj_live has ho
  obtain ⟨hcopyP, hcopyC⟩ := hf.copied ho hold hci
  have hnew : ∀ y, s.objs y = none → y = oc ∨ y = op → t.objs y = none := by
    intro y hy hcase
    rcases hf.kind with ⟨hoc, hop, -⟩ | ⟨hoc, hop, -⟩
    · have hyo : y = o := by rcases hcase with rfl | rfl <;> assumption
      rw [← hyo, hy] at hos
      cases hos
    · rcases hcase with rfl | rfl <;> assumption
  have hleft : ∀ b, (∃ d, (d, b) ∈ (c, a) :: rest) → b = a ∨ ∃ d, (d, b) ∈ rest := by
    simp +contextual [exists_or]
  have hright : ∀ b, (∃ d, (b, d) ∈ (c, a) :: rest) → b = c ∨ ∃ d, (b, d) ∈ rest := by
    simp +contextual [exists_or]
  have hparent := fun b => hf.inParent ▸ mem_gave (b := b) (h.sound.spaces.wf p).ids hat (o := op)
  have hchild := fun b => hf.inChild ▸ mem_gave (b := b) (h.sound.spaces.wf child).ids hct (o := oc)
  obtain ⟨hofP, htoP⟩ := hf.half hs h.sound has hat rfl hparent hcopyP hleft hleft h.parent
    h.toParent
  obtain ⟨hofC, htoC⟩ := hf.half hs h.sound has hct (by rw [hci]; rfl) hchild hcopyC hright hleft
    h.inChild h.toChild
  refine ⟨hf.sound, h.sameRest.trans hf.rest, hf.table_eq.trans h.table_eq,
    fun x ob ob' hob hob' => ?_, fun x hx => hf.live x (h.live x hx),
    fun q hqp hqc => (hf.others q hqp hqc).trans (h.others q hqp hqc),
    by rw [hf.inParent, gave, editArea, length_map, h.length],
    fun q => (hf.owner q).trans (h.owner q), fun d b hdb => ?_, hcids, hpids, hofP, hofC, htoP,
    htoC, fun x ob hob hx => ?_, ?_⟩
  · obtain ⟨ob1, hob1⟩ := isSome_iff_exists.mp (h.live x (by rw [hob]; rfl))
    exact (h.keeps x ob ob1 hob hob1).trans (hf.keeps x ob1 ob' hob1 hob')
  · obtain ⟨hbs, hbt, hdt, hd⟩ := h.pending d b (by simp [hdb])
    exact ⟨hbs,
      (hparent b).mpr (.inr ⟨hbt, fun heq => hpnot (mem_map.mpr ⟨(d, b), hdb, heq⟩)⟩),
      (hchild d).mpr (.inr ⟨hdt, fun heq => hcnot (mem_map.mpr ⟨(d, b), hdb, heq⟩)⟩), hd⟩
  · cases hobt : t.objs x with
    | none =>
      obtain ⟨hpages, -, hsh, -⟩ := hf.fresh x ob hob hobt
      refine ⟨hpages, a, has, hsh.trans ho.symm, ?_⟩
      rcases hf.kind with ⟨hoc, hop, -⟩ | ⟨-, -, -, -, -, hpr⟩
      · have hto := h.live o hos
        have hxo : x = o := by
          obtain ⟨-, -, -, rfl | rfl⟩ := hf.fresh x ob hob hobt <;> assumption
        rw [← hxo, hobt] at hto
        cases hto
      · exact hpr
    | some ob1 =>
      obtain ⟨hpages, a', ha', hsh, hpr⟩ := h.fresh x ob1 hobt hx
      have hsame := hf.keeps x ob1 ob hobt hob
      exact ⟨hsame.pages.trans hpages, a', ha', hsame.shadowed.trans hsh, hpr⟩
  · intro q r b d y hb hd hby hdy hy
    have hboth : y = oc → y = op → False := by
      rintro rfl rfl
      rcases hf.kind with ⟨hoc, -⟩ | ⟨-, -, hne, -⟩
      · rw [← hoc, hy] at hos
        cases hos
      · exact hne rfl
    -- an object that is not new is found at an old area, and each new one at its own area
    have hplace : ∀ q b, b ∈ areas u q → b.vmaObj = some y →
        (b ∈ areas t q ∧ y ≠ oc ∧ y ≠ op) ∨ (q = p ∧ b.vmaId = a.vmaId ∧ y = op) ∨
          (q = child ∧ b.vmaId = c.vmaId ∧ y = oc) := by
      intro q b hb hby
      have hold : b ∈ areas t q → b ∈ areas t q ∧ y ≠ oc ∧ y ≠ op := by
        intro hb
        have hne : ¬(y = oc ∨ y = op) := fun hcase => by
          have hl := h.sound.obj_live hb hby
          rw [hnew y hy hcase] at hl
          cases hl
        exact ⟨hb, not_or.mp hne⟩
      by_cases hqp : q = p
      · subst hqp
        rcases (hparent b).mp hb with rfl | hb
        · exact .inr (.inl ⟨rfl, rfl, (some.inj hby).symm⟩)
        · exact .inl (hold hb.1)
      · by_cases hqc : q = child
        · subst hqc
          rcases (hchild b).mp hb with rfl | hb
          · exact .inr (.inr ⟨rfl, rfl, (some.inj hby).symm⟩)
          · exact .inl (hold hb.1)
        · exact .inl (hold (hf.others q hqp hqc ▸ hb))
    rcases hplace q b hb hby with ⟨hb, hbc, hbp⟩ | ⟨rfl, hid, hyb⟩ | ⟨rfl, hid, hyb⟩ <;>
      rcases hplace r d hd hdy with ⟨hd, hdc, hdp⟩ | ⟨rfl, hid', hyd⟩ | ⟨rfl, hid', hyd⟩
    · exact h.distinct q r b d y hb hd hby hdy hy
    all_goals first
      | contradiction
      | exact ⟨rfl, hid.trans hid'.symm⟩
      | exact (hboth ‹_› ‹_›).elim

end Loop

/-- The state in which the loop over the areas starts. -/
def forkStart (s : Vm) (r : Proc) (l : List Vmarea) : Vm :=
  { s.setProc s.nextPid { r with
      pVmmap := some ⟨clones s.nextVma l, none⟩, pPagedir := ptCreatePagedir } with
    nextPid := s.nextPid+1, nextVma := s.nextVma + l.length }

section Start

variable {s : Vm} {p : ℕ} {r : Proc} {map : Vmmap}

theorem mapOf_forkStart_child (s : Vm) (r : Proc) (l : List Vmarea) :
    mapOf (forkStart s r l) s.nextPid = some ⟨clones s.nextVma l, none⟩ := by
  simp [mapOf, forkStart, Vm.setProc]

theorem procs_forkStart_ne (s : Vm) (r : Proc) (l : List Vmarea) (hq : q ≠ s.nextPid) :
    (forkStart s r l).procs q = s.procs q := by
  simp [forkStart, Vm.setProc, hq]

theorem areas_forkStart_ne (s : Vm) (r : Proc) (l : List Vmarea) (hq : q ≠ s.nextPid) :
    areas (forkStart s r l) q = areas s q := by
  rw [areas, areas, mapOf, mapOf, procs_forkStart_ne s r l hq]

theorem areas_forkStart_child (s : Vm) (r : Proc) (l : List Vmarea) :
    areas (forkStart s r l) s.nextPid = clones s.nextVma l :=
  areas_of_mapOf (mapOf_forkStart_child s r l)

theorem forkStart_sound (h : Sound s) (p : ℕ) (r : Proc) : Sound (forkStart s r (areas s p)) := by
  have hwf := h.spaces.wf p
  refine sound_of_filter (s := s) rfl (fun q => ?_) rfl rfl (Nat.le_succ _) (fun q => ?_)
    (fun q hq => ?_) (fun q map' r' hm hr => ?_) h
  · by_cases hq : q = s.nextPid
    · subst hq
      rw [areas_forkStart_child, areas_of_le h.spaces (Nat.le_refl _), filter_nil,
        filter_eq_nil_iff]
      intro c hc
      obtain ⟨a, -, i, -, -, rfl⟩ := mem_clones hc
      simp [cloneArea]
    · rw [areas_forkStart_ne s r _ hq]
  · by_cases hq : q = s.nextPid
    · subst hq
      rw [areas_forkStart_child]
      exact clones_wellFormed hwf _
    · rw [areas_forkStart_ne s r _ hq]
      exact (h.spaces.wf q).mono (Nat.le_add_right _ _)
  · by_cases hqn : q = s.nextPid
    · rw [hqn]
      exact Nat.lt_succ_self _
    · rw [procs_forkStart_ne s r _ hqn] at hq
      exact Nat.lt_succ_of_lt (h.spaces.pid_lt q hq)
  · by_cases hq : q = s.nextPid
    · subst hq
      rw [mapOf_forkStart_child] at hm
      obtain rfl := some.inj hm
      cases hr
    · rw [mapOf, procs_forkStart_ne s r _ hq] at hm
      have hlive := h.spaces.owner q map' r' hm hr
      rwa [procs_forkStart_ne s r _ (Nat.ne_of_lt (h.spaces.pid_lt r' hlive))]

theorem forkLoop_start (h : Sound s) (hmap : mapOf s p = some map) (r : Proc) :
    ForkLoop p s.nextPid s (forkStart s r (areas s p))
      ((clones s.nextVma (areas s p)).zip (areas s p)) (forkStart s r (areas s p)) := by
  have hpc : p ≠ s.nextPid := Nat.ne_of_lt (h.spaces.pid_lt p (isSome_of_mapOf hmap))
  have hparent : areas (forkStart s r (areas s p)) p = areas s p := areas_forkStart_ne s r _ hpc
  have hchild := areas_forkStart_child s r (areas s p)
  have hwf := clones_wellFormed (h.spaces.wf p) s.nextVma
  have hlen : (clones s.nextVma (areas s p)).length = (areas s p).length := length_clones _ _
  refine ⟨forkStart_sound h p r, ⟨rfl, rfl, rfl, rfl, rfl, fun _ => rfl⟩, rfl,
    (Relabelled.of_objs rfl).same, fun _ hx => hx, fun q hqp hqc => areas_forkStart_ne s r _ hqc,
    by rw [hparent], fun _ => rfl, fun c a hca => ?_, ?_, ?_, fun b hb => ?_, fun b hb => ?_,
    fun a ha => .inl (exists_clone_left ha), fun a ha => .inl (exists_clone_left ha),
    fun x ob hob hx => ?_, fun q r' b d y hb _ hby _ hy => ?_⟩
  · obtain ⟨ha, hc, i, hci⟩ := mem_zip_clones hca
    exact ⟨ha, by rwa [hparent], by rwa [hchild], i, hci⟩
  · have hfst := congrArg (List.map Vmarea.vmaId) (List.map_fst_zip (Nat.le_of_eq hlen))
    rw [List.map_map] at hfst
    change (List.map (Vmarea.vmaId ∘ Prod.fst) _).Nodup
    rw [hfst]
    exact hwf.ids
  · have hsnd := congrArg (List.map Vmarea.vmaId) (List.map_snd_zip (Nat.le_of_eq hlen.symm))
    rw [List.map_map] at hsnd
    change (List.map (Vmarea.vmaId ∘ Prod.snd) _).Nodup
    rw [hsnd]
    exact (h.spaces.wf p).ids
  · rw [hparent] at hb
    exact .inl (exists_clone_left hb)
  · rw [hchild] at hb
    exact .inl (exists_clone_right hb)
  · rw [show (forkStart s r (areas s p)).objs x = s.objs x from rfl, hx] at hob
    cases hob
  · have hl := (forkStart_sound h p r).obj_live hb hby
    rw [show (forkStart s r (areas s p)).objs y = s.objs y from rfl, hy] at hl
    cases hl

/-- Every round returns, since every area has an object of the kind its flags say. -/
theorem ForkLoop.step {s0 : Vm} {child : ℕ} {ca : Vmarea × Vmarea} {rest : List (Vmarea × Vmarea)}
    (h : Sound s) (hb : Backed s) (hpc : p ≠ child) (hchild : ∃ m, mapOf s0 child = some m)
    (hl : ForkLoop p child s s0 (ca :: rest) t) :
    ∃ u, forkArea p child t ca = .ok u ∧ ForkLoop p child s s0 rest u := by
  obtain ⟨c, a⟩ := ca
  obtain ⟨has, hat, hct, i, hci⟩ := hl.pending c a (by simp)
  obtain ⟨o, ob, ho, hob, hone, hsh⟩ := hb p a has
  obtain ⟨ob', hob'⟩ := isSome_iff_exists.mp (hl.live o (by rw [hob]; rfl))
  have hops := (hl.keeps o ob ob' hob hob').ops
  obtain ⟨m0, hm0⟩ := hchild
  have hown := hl.owner child
  rw [hm0, map_some] at hown
  obtain ⟨m, hm, -⟩ := map_eq_some_iff.mp hown
  have hstart : a.vmaStart = c.vmaStart := by rw [hci]; rfl
  have hflags : c.vmaFlags = a.vmaFlags := by rw [hci]; rfl
  have hnone : c.vmaObj = none := by rw [hci]; rfl
  cases hpr : hasFlag a.vmaFlags mapPrivate with
  | false =>
    have hne : ob'.mmoOps ≠ .shadow := by
      rw [hops]
      intro heq
      rw [hsh.mp heq] at hpr
      cases hpr
    obtain ⟨u, hu, hf⟩ := forkArea_shared hl.sound hm hct hnone hat ho hpc hstart hflags
      (by rw [hone, hpr]; rfl) hpr hob' hne
    exact ⟨u, hu, hl.round h hf ho hpc⟩
  | true =>
    obtain ⟨u, hu, hf⟩ := forkArea_private hl.sound hm hct hnone hat ho hpc hstart hflags
      (by rw [hone, hpr]; rfl) hpr (by rw [IsShadow, hob', map_some, hops, hsh.mpr hpr])
    exact ⟨u, hu, hl.round h hf ho hpc⟩

end Start

/-- The state after a fork of `p`. -/
structure Forked (s t : Vm) (p : ℕ) : Prop where
  mem : t.mem = s.mem
  vnLen : t.vnLen = s.vnLen
  vnData : t.vnData = s.vnData
  nextPid : t.nextPid = s.nextPid+1
  maps : ∀ q, q = p ∨ q = s.nextPid → (mapOf t q).isSome
  length : (areas t p).length = (areas s p).length
  childTable : table t s.nextPid = ptCreatePagedir
  keeps : KeepsObjs s t
  live : ∀ x, (s.objs x).isSome → (t.objs x).isSome
  fresh : ∀ x ob, t.objs x = some ob → s.objs x = none → ob.mmoRespages = [] ∧
    ∃ a ∈ areas s p, ob.mmoShadowed = a.vmaObj ∧ hasFlag a.vmaFlags mapPrivate
  others : ∀ q, q ≠ p → q ≠ s.nextPid → areas t q = areas s q ∧ table t q = table s q
  parent : ∀ b ∈ areas t p, ∃ a ∈ areas s p, Copied s t a b
  inChild : ∀ b ∈ areas t s.nextPid, ∃ a ∈ areas s p, Copied s t a b
  toParent : ∀ a ∈ areas s p, ∃ b ∈ areas t p, Copied s t a b
  toChild : ∀ a ∈ areas s p, ∃ b ∈ areas t s.nextPid, Copied s t a b
  distinct : ∀ q r b c y, b ∈ areas t q → c ∈ areas t r → b.vmaObj = some y → c.vmaObj = some y →
    s.objs y = none → q = r ∧ b.vmaId = c.vmaId
  cleared : ∀ q, q = p ∨ q = s.nextPid → ∀ v, ptEntry (table t q) v = none

theorem doFork_spec {s : Vm} {p : ℕ} {map : Vmmap} (h : Ok s) (hmap : mapOf s p = some map) :
    ∃ t, doFork s p = .ok (s.nextPid, t) ∧ Sound t ∧ Forked s t p := by
  have hs := h.sound
  obtain ⟨r, hr, hm⟩ := mapOf_eq_some.mp hmap
  have hareas := areas_of_mapOf hmap
  have hp := isSome_of_mapOf hmap
  have hpc : p ≠ s.nextPid := Nat.ne_of_lt (hs.spaces.pid_lt p hp)
  set s0 := forkStart s r (areas s p) with hs0
  obtain ⟨t, ht, hl⟩ := foldlM_total (ForkLoop p s.nextPid s s0)
    (fun ca rest t hl => hl.step hs h.backed hpc ⟨_, mapOf_forkStart_child s r _⟩)
    ((clones s.nextVma (areas s p)).zip (areas s p)) s0 (forkLoop_start hs hmap r)
  have hpt : (t.procs p).isSome := by
    rw [hl.sameRest.procs, hs0, procs_forkStart_ne s r _ hpc]
    exact hp
  obtain ⟨pd, hpd, hun⟩ := unmapRange_eq hpt (by decide : userLow < userHigh) (Nat.le_refl _)
    (Nat.le_refl _)
  have hsame : SameMaps t (withTable t p pd) := ⟨mapOf_withTable t p pd, rfl⟩
  have hchild : table (withTable t p pd) s.nextPid = ptCreatePagedir := by
    rw [table_withTable_ne t pd hpc.symm, hl.table_eq]
    simp [hs0, table, forkStart, Vm.setProc]
  refine ⟨withTable t p pd, ?_, sound_withTable hl.sound p pd, hl.sameRest.mem,
    hl.sameRest.vnLen, hl.sameRest.vnData, hl.sameRest.nextPid, fun q hq => ?_,
    by rw [hsame.areas_eq, hl.length], hchild, hl.keeps, hl.live, hl.fresh,
    fun q hqp hqc => ⟨?_, ?_⟩, ?_, ?_, ?_, ?_, ?_, fun q hq v => ?_⟩
  · have hclone : vmmapClone s.nextVma (areas s p) =
        (clones s.nextVma (areas s p), s.nextVma + (areas s p).length) :=
      vmmapClone_eq (hs.spaces.wf p) _
    simp only [doFork, doForkWith, plain, readAreas_eq hmap, getProc, hr, need_some, ok_bind,
      hclone]
    change (do
      let s ← foldlM (forkArea p s.nextPid) s0 _
      let s' ← unmapRange s p userLow userHigh
      return (_, s')) = _
    rw [ht, ok_bind, hun]
    rfl
  · rw [hsame.1, ← isSome_map (f := Vmmap.vmmProc), hl.owner q, isSome_map]
    rcases hq with rfl | rfl
    · rw [mapOf, procs_forkStart_ne s r _ hpc, ← mapOf, hmap]
      rfl
    · rw [mapOf_forkStart_child]
      rfl
  · rw [hsame.areas_eq, hl.others q hqp hqc]
  · rw [table_withTable_ne t pd hqp, hl.table_eq, table, table, hs0, procs_forkStart_ne s r _ hqc]
  · intro b hb
    rw [hsame.areas_eq] at hb
    obtain ⟨a, ha, hc⟩ := (hl.parent b hb).resolve_left (by simp)
    exact ⟨a, ha, hc.same, hc.obj⟩
  · intro b hb
    rw [hsame.areas_eq] at hb
    obtain ⟨a, ha, hc⟩ := (hl.inChild b hb).resolve_left (by simp)
    exact ⟨a, ha, hc.same, hc.obj⟩
  · intro a ha
    rw [hsame.areas_eq]
    obtain ⟨b, hb, hc⟩ := (hl.toParent a ha).resolve_left (by simp)
    exact ⟨b, hb, hc.same, hc.obj⟩
  · intro a ha
    rw [hsame.areas_eq]
    obtain ⟨b, hb, hc⟩ := (hl.toChild a ha).resolve_left (by simp)
    exact ⟨b, hb, hc.same, hc.obj⟩
  · rw [hsame.areas_eq]
    exact hl.distinct
  · rcases hq with rfl | rfl
    · rw [table_withTable_self hpt]
      cases he : ptEntry pd v with
      | none => rfl
      | some e =>
        have htab : table t q = table s q := by
          rw [hl.table_eq, table, table, hs0, procs_forkStart_ne s r _ hpc]
        have hold := (ptUnmapRange_sub hpd).eq_some he
        rw [htab] at hold
        obtain ⟨a, ha, hcov, -⟩ := h.tables q v e hold
        have hrange := (hs.spaces.wf q).range a ha
        unfold covers at hcov
        rw [ptEntry_ptUnmapRange hpd (by omega) (by omega)] at he
        cases he
    · rw [hchild]
      exact ptEntry_ptCreatePagedir v

section Afterwards

variable {s t : Vm} {p : ℕ}

/-- An area of any process after the fork is as before, or the copy of an area of the parent. -/
theorem Forked.cases (hf : Forked s t p) (hb : b ∈ areas t q) :
    (q ≠ p ∧ q ≠ s.nextPid ∧ b ∈ areas s q) ∨
      ((q = p ∨ q = s.nextPid) ∧ ∃ a ∈ areas s p, Copied s t a b) := by
  by_cases hqp : q = p
  · subst hqp
    exact .inr ⟨.inl rfl, hf.parent b hb⟩
  · by_cases hqc : q = s.nextPid
    · subst hqc
      exact .inr ⟨.inr rfl, hf.inChild b hb⟩
    · rw [(hf.others q hqp hqc).1] at hb
      exact .inl ⟨hqp, hqc, hb⟩

theorem Forked.backed (hf : Forked s t p) (h : Backed s) : Backed t := by
  intro q b hb
  rcases hf.cases hb with ⟨-, -, hb⟩ | ⟨-, a, ha, hc⟩
  · exact backed_of_kept hf.keeps (h q b hb) fun o _ ho => hf.live o ho
  · obtain ⟨i, y', hby⟩ := hc.same
    have hflags : b.vmaFlags = a.vmaFlags := by rw [hby]
    obtain ⟨o, y, ho, hy, hcase⟩ := hc.obj
    rw [hflags]
    rcases hcase with ⟨rfl, -⟩ | ⟨-, hpr, oby, hoby, hops, -⟩
    · rw [hy, ← ho]
      exact backed_of_kept hf.keeps (h p a ha) fun o _ ho => hf.live o ho
    · obtain ⟨-, -, -, -, hone, -⟩ := h p a ha
      exact ⟨y, oby, hy, hoby, hone, by simp [hops, hpr]⟩

/-- The object of an area of the parent or the child is fresh if the area is private, and else
no shadow object. -/
theorem Copied.top (hc : Copied s t a b) (hf : Forked s t p) (h : Backed s) (ha : a ∈ areas s p)
    {y : ℕ} (hy : b.vmaObj = some y) :
    s.objs y = none ∨
      (a.vmaObj = some y ∧ ¬IsShadow t y ∧ hasFlag a.vmaFlags mapPrivate = false) := by
  obtain ⟨o, ob, ho, hob, -, hsh⟩ := h p a ha
  obtain ⟨o', y', ho', hy', hcase⟩ := hc.obj
  obtain rfl := some.inj (hy.symm.trans hy')
  obtain rfl := some.inj (ho.symm.trans ho')
  rcases hcase with ⟨rfl, hpr⟩ | ⟨hnew, -⟩
  · refine .inr ⟨ho, fun hshadow => ?_, hpr⟩
    obtain ⟨ob', hob', hops⟩ := map_eq_some_iff.mp hshadow
    rw [(hf.keeps y ob ob' hob hob').ops] at hops
    rw [hsh.mp hops] at hpr
    cases hpr
  · exact .inl hnew

theorem Forked.tops (hf : Forked s t p) (h : Ok s) (ht : Sound t) : Tops t := by
  have hs := h.sound
  have hbelow : ∀ x y, below t x = some y → below s x = some y ∨
      ∃ a ∈ areas s p, a.vmaObj = some y ∧ hasFlag a.vmaFlags mapPrivate := by
    intro x y hx
    obtain ⟨ob, hob, hsh⟩ := below_eq_some.mp hx
    cases hobs : s.objs x with
    | none =>
      obtain ⟨-, a, ha, ho, hpr⟩ := hf.fresh x ob hob hobs
      exact .inr ⟨a, ha, ho.symm.trans hsh, hpr⟩
    | some ob1 =>
      exact .inl (below_eq_some.mpr
        ⟨ob1, hobs, by rw [← (hf.keeps x ob1 ob hobs hob).shadowed, hsh]⟩)
  have hlive : ∀ x y, below t x = some y → (s.objs y).isSome := by
    intro x y hx
    rcases hbelow x y hx with hx | ⟨a, ha, ho, -⟩
    · obtain ⟨-, -, -, -, -, hl, -⟩ := hs.heap.below_spec hx
      exact hl
    · exact hs.obj_live ha ho
  have hshadow : ∀ a ∈ areas s p, ∀ y, a.vmaObj = some y → hasFlag a.vmaFlags mapPrivate →
      IsShadow s y := by
    intro a ha y hy hpr
    obtain ⟨o, ob, ho, hob, -, hsh⟩ := h.backed p a ha
    obtain rfl := some.inj (hy.symm.trans ho)
    rw [IsShadow, hob, map_some, hsh.mpr hpr]
  refine ⟨fun q b hb y hy hanon x hx => ?_, fun q r b hb c hc y hby hcy hsh => ?_⟩
  · have hyl := hlive x y hx
    have hanon' := anonymous_of_kept hf.keeps hyl hanon
    rcases hf.cases hb with ⟨hqp, -, hb⟩ | ⟨-, a, ha, hc⟩
    · rcases hbelow x y hx with hx | ⟨a, ha, ho, hpr⟩
      · exact h.tops.bare q b hb y hy hanon' x hx
      · exact hqp (h.tops.alone q p b hb a ha y hy ho (hshadow a ha y ho hpr)).1
    · rcases hc.top hf h.backed ha hy with hnew | ⟨hay, hnsh, -⟩
      · rw [hnew] at hyl
        cases hyl
      · rcases hbelow x y hx with hx | ⟨a', ha', ho', hpr'⟩
        · exact h.tops.bare p a ha y hay hanon' x hx
        · refine hnsh ?_
          have hsh := hshadow a' ha' y ho' hpr'
          unfold IsShadow at *
          rwa [hf.keeps.ops_eq hyl (hf.live y hyl)]
  · by_cases hnew : s.objs y = none
    · obtain ⟨rfl, hid⟩ := hf.distinct q r b c y hb hc hby hcy hnew
      exact ⟨rfl, by rw [eq_of_id (ht.spaces.wf q).ids hb hc hid]; exact .refl _⟩
    · have hold : ∀ q b, b ∈ areas t q → b.vmaObj = some y → b ∈ areas s q := by
        intro q b hb hy
        rcases hf.cases hb with ⟨-, -, hb⟩ | ⟨-, a, ha, hcp⟩
        · exact hb
        · rcases hcp.top hf h.backed ha hy with hn | ⟨-, hnsh, -⟩
          · exact absurd hn hnew
          · exact absurd hsh hnsh
      exact h.tops.alone q r b (hold q b hb hby) c (hold r c hc hcy) y hby hcy
        (isShadow_of_kept hf.keeps (ne_none_iff_isSome.mp hnew) hsh)

theorem Forked.tables (hf : Forked s t p) (h : Ok s) : Tables t := by
  refine tables_of_kept hf.keeps h.sound h.tables hf.live hf.vnLen fun q vfn e he => ?_
  by_cases hq : q = p ∨ q = s.nextPid
  · rw [hf.cleared q hq vfn] at he
    cases he
  · obtain ⟨hareas, htab⟩ := hf.others q (fun hp => hq (.inl hp)) fun hc => hq (.inr hc)
    rw [htab] at he
    rw [hareas]
    exact ⟨he, fun _ ha => ha⟩

theorem Forked.ok (hf : Forked s t p) (h : Ok s) (ht : Sound t) : Ok t :=
  ⟨⟨ht, hf.backed h.backed⟩, hf.tops h ht, hf.tables h⟩

end Afterwards

end SystemsProjects.Forking
