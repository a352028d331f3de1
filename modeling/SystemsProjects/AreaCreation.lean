import SystemsProjects.AreaRemoval

/-!
# Mapping memory

A new mapping is placed in a free range, or in one that is cleared first; an area there gets
a fresh anonymous object or the object of a file, and, if it is private, a shadow object of
its own over that. The areas that were there see what they saw. The references that a
mapping of a file rests on are those of the file's other users, since the `mmap` operation
takes none.
-/
namespace SystemsProjects.AreaCreation

open Option
open PageTables VmState MemoryObjects AddressSpaces VmSystemCalls ObjectHeap PageLookup AreaMaps
  AreaOrdering VmInvariant AreaChanges AreaRemoval

/-- The state with one more area, whose top object, unless it is that of a file, is new. -/
structure Added (s t : Vm) (p : ℕ) (a : Vmarea) (o : ℕ) : Prop where
  obj : a.vmaObj = some o
  mem_iff : ∀ q b, b ∈ areas t q ↔ b ∈ areas s q ∨ (q = p ∧ b = a)
  keeps : KeepsObjs s t
  live : ∀ x, (s.objs x).isSome → (t.objs x).isSome
  vnLen : t.vnLen = s.vnLen
  sub : ∀ q, Sub (table t q) (table s q)
  isNew : Anonymous t o → s.objs o = none ∧ ∀ x, below t x ≠ some o
  below_eq : ∀ x y, below t x = some y → Anonymous t y → below s x = some y ∨ s.objs y = none
  notFile : ∀ x ob, t.objs x = some ob → s.objs x = none → ob.mmoOps ≠ .vnode
  owner : ∀ q, (mapOf t q).map Vmmap.vmmProc = (mapOf s q).map Vmmap.vmmProc

variable {s t : Vm} {a : Vmarea} {o p : ℕ}

variable {ob : Mmobj}

section AddedArea

variable {s t : Vm} {p o : ℕ} {a : Vmarea}

theorem Added.backed (ha : Added s t p a o) (h : Backed s) (hob : t.objs o = some ob)
    (hflags : hasFlag a.vmaFlags mapShared = !hasFlag a.vmaFlags mapPrivate)
    (hops : ob.mmoOps = .shadow ↔ hasFlag a.vmaFlags mapPrivate) : Backed t := by
  intro q b hb
  rcases (ha.mem_iff q b).mp hb with hb | ⟨rfl, rfl⟩
  · exact backed_of_kept ha.keeps (h q b hb) fun y _ hy => ha.live y hy
  · exact ⟨o, ob, ha.obj, hob, hflags, hops⟩

theorem Added.tops (ha : Added s t p a o) (h : Sound s) (ht : Tops s) : Tops t := by
  refine ⟨fun q b hb y hy hsh x hx => ?_, fun q r b hb c hc y hby hcy hsh => ?_⟩
  · rcases (ha.mem_iff q b).mp hb with hb | ⟨rfl, rfl⟩
    · have hlive := h.obj_live hb hy
      rcases ha.below_eq x y hx hsh with hx | hnone
      · exact ht.bare q b hb y hy (anonymous_of_kept ha.keeps hlive hsh) x hx
      · rw [hnone] at hlive
        cases hlive
    · obtain rfl := some.inj (ha.obj.symm.trans hy)
      exact (ha.isNew hsh).2 x hx
  · have hnew : IsShadow t o → ∀ q', ∀ d ∈ areas s q', d.vmaObj ≠ some o := by
      intro hsho q' d hd hdo
      have := h.obj_live hd hdo
      rw [(ha.isNew (anonymous_of_isShadow hsho)).1] at this
      cases this
    rcases (ha.mem_iff q b).mp hb with hb | ⟨rfl, rfl⟩
    · rcases (ha.mem_iff r c).mp hc with hc | ⟨rfl, rfl⟩
      · exact ht.alone q r b hb c hc y hby hcy (isShadow_of_kept ha.keeps (h.obj_live hb hby) hsh)
      · obtain rfl := some.inj (ha.obj.symm.trans hcy)
        exact absurd hby (hnew hsh q b hb)
    · obtain rfl := some.inj (ha.obj.symm.trans hby)
      rcases (ha.mem_iff r c).mp hc with hc | ⟨rfl, rfl⟩
      · exact absurd hcy (hnew hsh r c hc)
      · exact ⟨rfl, .refl _⟩

theorem Added.tables (ha : Added s t p a o) (h : Sound s) (ht : Tables s) : Tables t :=
  tables_of_kept ha.keeps h ht ha.live ha.vnLen fun q _ _ he =>
    ⟨(ha.sub q).eq_some he, fun b hb => (ha.mem_iff q b).mpr (.inl hb)⟩

theorem Added.ok (ha : Added s t p a o) (h : Ok s) (hs : Sane t) : Ok t :=
  ⟨hs, ha.tops h.sound h.tops, ha.tables h.sound h.tables⟩

end AddedArea

/-- The area fits into the map of a process as a new one. -/
structure Room (s : Vm) (p : ℕ) (new : Vmarea) : Prop where
  id : new.vmaId = s.nextVma
  kept : new.vmaFreed = false
  low : userLow ≤ new.vmaStart
  lt : new.vmaStart < new.vmaEnd
  high : new.vmaEnd ≤ userHigh
  clear : ∀ b ∈ areas s p, Clear new.vmaStart new.vmaEnd b

/-- The state with the new area on the list of its map. -/
def entered (s : Vm) (p : ℕ) (new : Vmarea) : Vm :=
  withAreas { s with nextVma := s.nextVma+1 } p (vmmapInsert (areas s p) new)

/-- The areas with an object for the one with the given number. -/
def gave (o id : ℕ) (l : List Vmarea) : List Vmarea :=
  editArea id (fun b => { b with vmaObj := some o }) l

/-- The state with an object for the area with the given number, and the area on the list of
the object `b`. -/
def attached (s : Vm) (p o b id : ℕ) : Vm :=
  linked (withAreas s p (gave o id (areas s p))) b (p, id)

section Attaching

variable {s : Vm} {p o : ℕ} {map : Vmmap} {new : Vmarea} {ob : Mmobj}

theorem Room.wellFormed (hr : Room s p new) (h : WellFormed s.nextVma (areas s p)) :
    WellFormed (s.nextVma+1) (vmmapInsert (areas s p) new) :=
  h.insert hr.id hr.kept hr.low hr.lt hr.high hr.clear

theorem Room.wellFormed_gave (hr : Room s p new) (h : WellFormed s.nextVma (areas s p)) (o : ℕ) :
    WellFormed (s.nextVma+1) (gave o new.vmaId (vmmapInsert (areas s p) new)) :=
  (hr.wellFormed h).relabel (fun _ => rfl) (fun _ => rfl) (fun _ => rfl) fun _ => rfl

theorem Room.perm (hr : Room s p new) (h : WellFormed s.nextVma (areas s p)) (o : ℕ) :
    (gave o new.vmaId (vmmapInsert (areas s p) new)).Perm
      ({ new with vmaObj := some o } :: areas s p) := by
  have hins : (vmmapInsert (areas s p) new).Perm (new :: areas s p) :=
    IntervalLists.insertInterval_perm _ new
  have hmem : new ∈ vmmapInsert (areas s p) new := hins.mem_iff.mpr (by simp)
  have hids := (hr.wellFormed h).ids
  have hrest := ((perm_filter hids hmem).symm.trans hins).cons_inv
  exact (perm_editArea hids hmem _).trans (hrest.cons _)

theorem Room.perm_objs (hr : Room s p new) (h : WellFormed s.nextVma (areas s p)) (o : ℕ) :
    ((gave o new.vmaId (vmmapInsert (areas s p) new)).filter (·.vmaObj.isSome)).Perm
      ({ new with vmaObj := some o } :: (areas s p).filter (·.vmaObj.isSome)) := by
  have hperm := (hr.perm h o).filter (·.vmaObj.isSome)
  rwa [List.filter_cons_of_pos (by rfl)] at hperm

theorem areas_entered (hmap : mapOf s p = some map) (new : Vmarea) :
    areas (entered s p new) p = vmmapInsert (areas s p) new :=
  areas_withAreas_self (s := { s with nextVma := s.nextVma+1 }) hmap _

theorem mapOf_entered (hmap : mapOf s p = some map) (new : Vmarea) :
    mapOf (entered s p new) p = some { map with vmmList := vmmapInsert (areas s p) new } := by
  rw [entered, mapOf_withAreas_self]
  exact congrArg (Option.map _) hmap

theorem edited_entered (hmap : mapOf s p = some map) (new : Vmarea) :
    Edited s (entered s p new) p (vmmapInsert (areas s p) new) :=
  (edited_withAreas (s := { s with nextVma := s.nextVma+1 }) hmap _).of_mapOf rfl

theorem edited_attached (hmap : mapOf s p = some map) (o b id : ℕ) :
    Edited s (attached s p o b id) p (gave o id (areas s p)) :=
  (edited_withAreas hmap _).sameMaps (sameMaps_of_procs rfl rfl)

theorem table_entered (s : Vm) (p : ℕ) (new : Vmarea) : table (entered s p new) = table s :=
  table_withAreas { s with nextVma := s.nextVma+1 } p _

theorem table_attached (s : Vm) (p o b id : ℕ) : table (attached s p o b id) = table s :=
  table_withAreas s p _

theorem sameRest_attached (s : Vm) (p o b id : ℕ) : SameRest s (attached s p o b id) :=
  ⟨rfl, rfl, rfl, rfl, rfl, fun q => isSome_withAreas s p q _⟩

theorem sameRest_entered (s : Vm) (p : ℕ) (new : Vmarea) : SameRest s (entered s p new) :=
  ⟨rfl, rfl, rfl, rfl, rfl, fun q => isSome_withAreas { s with nextVma := s.nextVma+1 } p q _⟩

theorem founded_attached (h : Sound s) (hmap : mapOf s p = some map) (hr : Room s p new) :
    Founded s (attached (anonCreate (entered s p new)).2 p s.nextObj s.nextObj new.vmaId) p
      (gave s.nextObj new.vmaId (vmmapInsert (areas s p) new))
      { new with vmaObj := some s.nextObj } := by
  set t := (anonCreate (entered s p new)).2 with ht
  have hsame : SameMaps (entered s p new) t := sameMaps_of_procs rfl rfl
  have hareas : areas t p = vmmapInsert (areas s p) new := by
    rw [hsame.areas_eq, areas_entered hmap]
  have hmapt : mapOf t p = some { map with vmmList := vmmapInsert (areas s p) new } := by
    rw [hsame.1, mapOf_entered hmap]
  have hed := edited_attached hmapt s.nextObj s.nextObj new.vmaId
  rw [hareas] at hed
  refine ⟨rfl, ⟨?_, rfl, rfl, rfl, rfl, nofun, _, rfl⟩,
    ((edited_entered hmap new).sameMaps hsame).trans hed, hr.perm_objs (h.spaces.wf p) _,
    hr.wellFormed_gave (h.spaces.wf p) _, ?_, Nat.le_succ _⟩
  · funext x
    by_cases hx : x = s.nextObj
    · subst hx
      simp [attached, linked, ht, anonCreate, Vm.setObj, entered, withAreas, Vm.setProcs, linkUn]
    · simp [attached, linked, ht, anonCreate, Vm.setObj, entered, withAreas, Vm.setProcs, hx]
  · have hr1 : SameRest (entered s p new) t := ⟨rfl, rfl, rfl, rfl, rfl, fun _ => rfl⟩
    exact ((sameRest_entered s p new).trans hr1).trans (sameRest_attached t p _ _ _)

theorem gained_attached (h : Sound s) (hmap : mapOf s p = some map) (hr : Room s p new)
    (ho : s.objs o = some ob) (hops : ob.mmoOps ≠ .shadow) :
    Gained false s (attached (entered s p new) p o o new.vmaId) p
      (gave o new.vmaId (vmmapInsert (areas s p) new)) { new with vmaObj := some o } o := by
  have hed := edited_attached (mapOf_entered hmap new) o o new.vmaId
  rw [areas_entered hmap] at hed
  refine ⟨?_, (edited_entered hmap new).trans hed, hr.perm_objs (h.spaces.wf p) _, rfl,
    hr.wellFormed_gave (h.spaces.wf p) _,
    (sameRest_entered s p new).trans (sameRest_attached _ p _ _ _), rfl, Nat.le_succ _⟩
  funext x
  have hbot := (h.heap.bottom_eq_self ho hops).2
  simp [attached, linked, moreArea, entered, withAreas, Vm.setProcs, hbot]

/-- A shadow object is put over the object of the area while the area gets it. -/
theorem shadowed_attached {id : ℕ} (hmap : mapOf s p = some map) (ho : s.objs o = some ob)
    (hlt : o < s.nextObj) (hbot : bottom (attached s p o o id) o = o) (ha : a.vmaObj = some o)
    (hid : a.vmaId = id) :
    Shadowed (attached s p o o id) (attached (shadowCreate s o o).2 p s.nextObj o id) p a o := by
  subst hid
  set t := (shadowCreate s o o).2 with ht
  have hsame : SameMaps s t := sameMaps_of_procs rfl rfl
  have hmapt : mapOf t p = some map := by rw [hsame.1, hmap]
  have hed := edited_attached hmap o o a.vmaId
  have hed' := edited_attached hmapt s.nextObj o a.vmaId
  have hgave : gave s.nextObj a.vmaId (gave o a.vmaId (areas s p)) =
      gave s.nextObj a.vmaId (areas s p) := by
    simp only [gave, editArea, List.map_map]
    refine List.map_congr_left fun b _ => ?_
    by_cases hb : b.vmaId = a.vmaId <;> simp [hb]
  refine ⟨ha, ⟨?_, rfl, rfl, rfl, rfl, rfl, hlt, ?_, rfl⟩, ?_,
    ⟨rfl, rfl, rfl, rfl, rfl, fun q => ?_⟩, rfl⟩
  · have hne : s.nextObj ≠ o := (Nat.ne_of_lt hlt).symm
    have hnext : (attached s p o o a.vmaId).nextObj = s.nextObj := rfl
    rw [shadowOver, hbot, hnext]
    funext x
    by_cases hx : x = s.nextObj
    · subst hx
      simp [attached, linked, ht, shadowCreate, Vm.setObj, withAreas, Vm.setProcs, hne]
    · simp [attached, linked, ht, shadowCreate, Vm.setObj, withAreas, Vm.setProcs, hx]
  · simp [attached, linked, withAreas, Vm.setProcs, ho]
  · refine ⟨?_, fun q hq => ?_, fun q => ?_⟩
    · rw [hed'.self, hsame.areas_eq, hed.self]
      exact hgave.symm
    · rw [hed'.others q hq, hsame.areas_eq, hed.others q hq]
    · rw [hed'.owner, hsame.1, hed.owner]
  · rw [(sameRest_attached t p _ _ _).procs, (sameRest_attached s p _ _ _).procs]
    rfl

end Attaching

section Adding

variable {s s1 t : Vm} {p o : ℕ} {map : Vmmap} {new a : Vmarea} {ob : Mmobj}

theorem mem_attached (hr : Room s p new) (h : WellFormed s.nextVma (areas s p))
    (he : Edited s t p (gave o new.vmaId (vmmapInsert (areas s p) new))) (q : ℕ) (b : Vmarea) :
    b ∈ areas t q ↔ b ∈ areas s q ∨ (q = p ∧ b = { new with vmaObj := some o }) := by
  by_cases hq : q = p
  · subst hq
    rw [he.self, (hr.perm h o).mem_iff]
    simp [or_comm]
  · rw [he.others q hq]
    simp [hq]

theorem added_founded (h : Sound s) (hr : Room s p new)
    (hf : Founded s t p (gave s.nextObj new.vmaId (vmmapInsert (areas s p) new))
      { new with vmaObj := some s.nextObj }) (htab : table t = table s) :
    Added s t p { new with vmaObj := some s.nextObj } s.nextObj := by
  have hbelow : ∀ x y, below t x = some y → below s x = some y := fun x y hx =>
    (hf.fresh.below_cases hx).resolve_left nofun
  refine ⟨rfl, mem_attached hr (h.spaces.wf p) hf.edited, hf.fresh.keeps h.heap,
    fun x hx => hf.fresh.isSome h.heap hx, hf.rest.vnLen, fun q => by rw [htab]; exact .refl _,
    fun _ => ⟨h.heap.fresh_none (Nat.le_refl _), fun x hx => ?_⟩,
    fun x y hx _ => .inl (hbelow x y hx), fun x ob hob hnew => ?_, hf.edited.owner⟩
  · obtain ⟨-, -, -, -, -, hlive, -⟩ := h.heap.below_spec (hbelow x _ hx)
    exact h.heap.ne_next hlive rfl
  · rcases hf.fresh.cases hob with ⟨-, rfl⟩ | hob
    · exact nofun
    · rw [hnew] at hob
      cases hob

theorem added_gained (h : Sound s) (hr : Room s p new) (ho : s.objs o = some ob)
    (hops : ob.mmoOps = .vnode)
    (hg : Gained false s t p (gave o new.vmaId (vmmapInsert (areas s p) new))
      { new with vmaObj := some o } o) (htab : table t = table s) :
    Added s t p { new with vmaObj := some o } o := by
  have hrel := hg.relabelled
  refine ⟨rfl, mem_attached hr (h.spaces.wf p) hg.edited, hrel.same,
    fun x hx => by rwa [hrel.isSome], hg.rest.vnLen, fun q => by rw [htab]; exact .refl _,
    fun hanon => ?_, fun x y hx _ => .inl (by rwa [hrel.below_eq] at hx), fun x ob hob hnew => ?_,
    hg.edited.owner⟩
  · obtain ⟨ob', hob', hne⟩ := hanon
    rw [(hrel.same o ob ob' ho hob').ops] at hne
    exact absurd hops hne
  · obtain ⟨ob1, hob1, -⟩ := hrel.exists_obj hob
    rw [hnew] at hob1
    cases hob1

theorem Added.shadowed (hA : Added s s1 p a o) (hs : Shadowed s1 t p a o) (h : Sound s)
    (h1 : Sound s1) (hid : a.vmaId = s.nextVma) (hn : s.nextObj ≤ s1.nextObj)
    (htab : table t = table s1) :
    Added s t p { a with vmaObj := some s1.nextObj } s1.nextObj := by
  have ha : a ∈ areas s1 p := (hA.mem_iff p a).mpr (.inr ⟨rfl, rfl⟩)
  have ho := h1.obj_live ha hA.obj
  have hbelow : ∀ x y, below t x = some y → (s1.objs y).isSome := by
    intro x y hx
    rcases hs.fresh.below_cases hx with ⟨-, hy⟩ | hx
    · rwa [← some.inj hy]
    · obtain ⟨-, -, -, -, -, hlive, -⟩ := h1.heap.below_spec hx
      exact hlive
  refine ⟨rfl, fun q b => ?_, fun x ob ob' hob hob' => ?_,
    fun x hx => hs.fresh.isSome h1.heap (hA.live x hx), hs.rest.vnLen.trans hA.vnLen,
    fun q => by rw [htab]; exact hA.sub q,
    fun _ => ⟨h.heap.fresh_none hn, fun x hx => ?_⟩, fun x y hx hanon => ?_,
    fun x ob hob hnew => ?_, fun q => (hs.edited.owner q).trans (hA.owner q)⟩
  · have hne : b ∈ areas s q → (q, b.vmaId) ≠ (p, a.vmaId) := by
      intro hb heq
      have hlt := (h.spaces.wf q).lt b hb
      have hid' := (Prod.mk.inj heq).2
      omega
    rw [hs.mem_iff h1 ha, hA.mem_iff]
    constructor
    · rintro (⟨hb | ⟨rfl, rfl⟩, hid'⟩ | hb)
      · exact .inl hb
      · exact absurd rfl hid'
      · exact .inr hb
    · rintro (hb | hb)
      · exact .inl ⟨.inl hb, hne hb⟩
      · exact .inr hb
  · obtain ⟨ob1, hob1⟩ := isSome_iff_exists.mp (hA.live x (by rw [hob]; rfl))
    exact (hA.keeps x ob ob1 hob hob1).trans (hs.fresh.keeps h1.heap x ob1 ob' hob1 hob')
  · exact h1.heap.ne_next (hbelow x _ hx) rfl
  · have hanon1 := anonymous_of_kept (hs.fresh.keeps h1.heap) (hbelow x y hx) hanon
    rcases hs.fresh.below_cases hx with ⟨-, hy⟩ | hx
    · obtain rfl := some.inj hy
      exact .inr (hA.isNew hanon1).1
    · exact hA.below_eq x y hx hanon1
  · rcases hs.fresh.cases hob with ⟨-, rfl⟩ | hob
    · exact nofun
    · exact hA.notFile x ob hob hnew

end Adding

theorem Added.filesFrom (ha : Added s t p a o) : FilesFrom s t := by
  intro x ob' hob' hv
  cases hob : s.objs x with
  | none => exact absurd hv (ha.notFile x ob' hob' hob)
  | some ob => exact ⟨ob, rfl, (ha.keeps x ob ob' hob hob').ops.symm.trans hv⟩

/-- The object that a mapping is asked to show: none, for anonymous memory, or that of a file
with references to spare. -/
def Mappable (s : Vm) : Option VnodeMmap → Prop
  | none => True
  | some (.gives o) => ∃ ob ∈ s.objs o,
      ob.mmoOps = .vnode ∧ ob.mmoNrespages + uses s o + 1 < ob.mmoRefcount
  | some _ => False

instance (s : Vm) (file : Option VnodeMmap) : Decidable (Mappable s file) := by
  unfold Mappable
  split <;> infer_instance

variable {file : Option VnodeMmap}

theorem Mappable.descends (h : Mappable s file) (hd : Descends s t) : Mappable t file := by
  match file, h with
  | none, _ => trivial
  | some (.gives o), h =>
    obtain ⟨ob, hob, hops, hspare⟩ := h
    obtain ⟨ob', hob', hsame, href⟩ := hd.files o ob hob hops
    have hn := hsame.nres
    exact ⟨ob', hob', hsame.ops.trans hops, by omega⟩

/-- The arguments of a mapping: as asserted, with exactly one kind of sharing, a range that
does not wrap around and a file that can be mapped. -/
@[mk_iff]
structure MapArgs (s : Vm) (p : ℕ) (file : Option VnodeMmap) (lopage npages prot flags off : ℕ) :
    Prop where
  args : mapArgsOk lopage npages prot flags off
  one : hasFlag flags mapShared = !hasFlag flags mapPrivate
  fits : lopage ≠ 0 → lopage+npages ≤ userHigh
  splits : lopage ≠ 0 → SplitsPrivate s p lopage (lopage+npages)
  file : Mappable s file

section Mapping

variable {s : Vm} {p : ℕ} {map : Vmmap}

theorem placeMapping_ok (h : Sane s) (hmap : mapOf s p = some map) {lopage npages : ℕ} (dir : Dir)
    (hn : 0 < npages) (hlow : lopage ≠ 0 → userLow ≤ lopage)
    (hfits : lopage ≠ 0 → lopage+npages ≤ userHigh)
    (hsplits : lopage ≠ 0 → SplitsPrivate s p lopage (lopage+npages)) :
    ∃ res t, placeMapping s p lopage npages dir = .ok (res, t) ∧ Sound t ∧ Descends s t ∧
      ∀ q, (mapOf t q).map Vmmap.vmmProc = (mapOf s q).map Vmmap.vmmProc := by
  have hs := h.sound
  simp only [placeMapping, placeMappingWith, plain, readAreas_eq hmap, ok_bind,
    vmmapRemoveAlloc_true]
  by_cases h0 : lopage = 0
  · rw [if_pos h0]
    cases hfind : vmmapFindRange (areas s p) npages dir with
    | none => exact ⟨_, s, rfl, hs, .refl hs, fun _ => rfl⟩
    | some v =>
      dsimp only
      split_ifs
      · exact ⟨_, s, rfl, hs, .refl hs, fun _ => rfl⟩
      · exact ⟨_, s, rfl, hs, .refl hs, fun _ => rfl⟩
  · rw [if_neg h0]
    have hlo := hlow h0
    have hhi := hfits h0
    obtain ⟨empty, hempty⟩ := vmmapIsRangeEmpty_of (l := areas s p) hlo hn hhi
    rw [hempty, ok_bind]
    cases empty with
    | true => exact ⟨.ok lopage, s, rfl, hs, .refl hs, fun _ => rfl⟩
    | false =>
      obtain ⟨t, ht, hst, hd, -, hrem⟩ := vmmapRemove_ok hs h.backed hmap hlo hn hhi (hsplits h0)
      exact ⟨.ok lopage, t, by rw [if_neg (by decide), ht]; rfl, hst, hd, hrem.owner⟩

theorem attach_eq (hmap : mapOf s p = some map) {b id top : ℕ} {l : List (ℕ × ℕ)}
    (hob : s.objs b = some ob) (hl : ob.mmoUn = .vmas l) :
    (do
      let s ← editAreas s p (editArea id fun b => { b with vmaObj := some top })
      linkVma s b (p, id)) = .ok (attached s p top b id) := by
  rw [editAreas_eq hmap, ok_bind]
  exact linkVma_eq (s := withAreas s p (gave top id (areas s p))) hob hl (p, id)

/-- What the mapping does once it has an object. -/
def Attaches (s s3 : Vm) (p id flags o : ℕ) (t : Vm) : Prop :=
  mmobjBottomObj s3 o = .ok o ∧
    (do
      let s ← editAreas (mappingTop s3 flags o).2 p
        (editArea id fun b => { b with vmaObj := some (mappingTop s3 flags o).1 })
      linkVma s o (p, id)) = .ok t ∧ Ok t ∧ FilesFrom s t ∧
    ∀ q, (mapOf t q).map Vmmap.vmmProc = (mapOf s q).map Vmmap.vmmProc

/-- From a state in which the area has the bottom object to the end of the mapping. -/
theorem attaches_of {s3 : Vm} {map : Vmmap} {new : Vmarea} (h : Ok s)
    (hid : new.vmaId = s.nextVma)
    (hone : hasFlag new.vmaFlags mapShared = !hasFlag new.vmaFlags mapPrivate)
    (hA : Added s (attached s3 p o o new.vmaId) p { new with vmaObj := some o } o)
    (hs1 : Sound (attached s3 p o o new.vmaId)) (hmap : mapOf s3 p = some map)
    (hob : s3.objs o = some ob) (hsh : ob.mmoShadowed = none) (hops : ob.mmoOps ≠ .shadow)
    {l : List (ℕ × ℕ)} (hl : ob.mmoUn = .vmas l) (hlt : o < s3.nextObj)
    (hn : s.nextObj ≤ s3.nextObj) :
    ∃ t, Attaches s s3 p new.vmaId new.vmaFlags o t := by
  have hbot3 : mmobjBottomObj s3 o = .ok o := by
    simp [mmobjBottomObj, getObj, hob, hsh]
  have hob1 : (attached s3 p o o new.vmaId).objs o =
      some { ob with mmoUn := linkUn (p, new.vmaId) ob.mmoUn } := by
    simp [attached, linked, withAreas, Vm.setProcs, hob]
  cases hpriv : hasFlag new.vmaFlags mapPrivate with
  | false =>
    have hsane : Sane (attached s3 p o o new.vmaId) :=
      ⟨hs1, hA.backed h.backed hob1 hone (by simp [hops, hpriv])⟩
    refine ⟨attached s3 p o o new.vmaId, hbot3, ?_, hA.ok h hsane, hA.filesFrom, hA.owner⟩
    rw [mappingTop, if_neg (by rw [hpriv]; decide)]
    exact attach_eq hmap hob hl
  | true =>
    set t := attached (shadowCreate s3 o o).2 p s3.nextObj o new.vmaId
    have hbot : bottom (attached s3 p o o new.vmaId) o = o :=
      (hs1.heap.bottom_eq_self hob1 hops).2
    have hS : Shadowed (attached s3 p o o new.vmaId) t p { new with vmaObj := some o } o :=
      shadowed_attached hmap hob hlt hbot rfl rfl
    have ha : { new with vmaObj := some o } ∈ areas (attached s3 p o o new.vmaId) p :=
      (hA.mem_iff p _).mpr (.inr ⟨rfl, rfl⟩)
    have htab : table t = table (attached s3 p o o new.vmaId) :=
      (table_attached (shadowCreate s3 o o).2 p _ _ _).trans (table_attached s3 p _ _ _).symm
    have hA' := hA.shadowed hS h.sound hs1 hid hn htab
    have hmapt : mapOf (shadowCreate s3 o o).2 p = some map := hmap
    have hsane : Sane t := ⟨hS.sound hs1 ha,
      hA'.backed h.backed hS.fresh.objs_self hone (by simp [shadowOver, hpriv])⟩
    refine ⟨t, hbot3, ?_, hA'.ok h hsane, hA'.filesFrom, hA'.owner⟩
    rw [mappingTop, if_pos hpriv]
    refine attach_eq hmapt ?_ hl
    simp [shadowCreate, Vm.setObj, hob, Nat.ne_of_lt hlt]

theorem mappingObj_ok (h : Ok s) (hmap : mapOf s p = some map) {new : Vmarea} (hr : Room s p new)
    (hone : hasFlag new.vmaFlags mapShared = !hasFlag new.vmaFlags mapPrivate)
    (hfile : Mappable s file) :
    ∃ o s3 t, mappingObj (entered s p new) file = .ok (.ok o, s3) ∧
      Attaches s s3 p new.vmaId new.vmaFlags o t := by
  have hp := isSome_of_mapOf hmap
  rcases file with _ | _ | _ | o
  case none =>
    have hf := founded_attached h.sound hmap hr
    have hA := added_founded h.sound hr hf
      ((table_attached (anonCreate (entered s p new)).2 p _ _ _).trans (table_entered s p new))
    have hob : (anonCreate (entered s p new)).2.objs s.nextObj =
        some ⟨.anon, 1, 0, [], .vmas [], none⟩ := by
      simp [anonCreate, Vm.setObj, entered, withAreas, Vm.setProcs]
    obtain ⟨t, ht⟩ := attaches_of h hr.id hone hA (hf.sound h.sound hp)
      (mapOf_entered hmap new) hob rfl (by rintro ⟨⟩) rfl (Nat.lt_succ_self _) (Nat.le_succ _)
    exact ⟨_, _, t, rfl, ht⟩
  case some.gives =>
    obtain ⟨ob, hob, hops, hspare⟩ := hfile
    have hne : ob.mmoOps ≠ .shadow := by rw [hops]; decide
    have hg := gained_attached h.sound hmap hr hob hne
    have hA := added_gained h.sound hr hob hops hg
      ((table_attached (entered s p new) p _ _ _).trans (table_entered s p new))
    have hsh := (h.sound.heap.bottom_eq_self hob hne).1
    obtain ⟨-, l, hl⟩ := h.sound.heap.shadowed_none hob hsh
    obtain ⟨t, ht⟩ := attaches_of h hr.id hone hA (hg.sound_file h.sound hob hops hspare hp)
      (mapOf_entered hmap new) hob hsh hne hl (h.sound.heap.lt_next o ob hob) (Nat.le_refl _)
    exact ⟨o, _, t, rfl, ht⟩
  case some.null => exact hfile.elim
  case some.fails => exact hfile.elim

theorem vmmapMap_ok (h : Ok s) (hmap : mapOf s p = some map) {lopage npages prot flags off : ℕ}
    {dir : Dir} (hm : MapArgs s p file lopage npages prot flags off) :
    ∃ res t, vmmapMap s p file lopage npages prot flags off dir = .ok (res, t) ∧ Ok t ∧
      FilesFrom s t ∧
      ∀ q, (mapOf t q).map Vmmap.vmmProc = (mapOf s q).map Vmmap.vmmProc := by
  obtain ⟨res, s1, hplace, hs1, hd, hown⟩ := placeMapping_ok h.toSane hmap dir
    hm.args.1 (fun h0 => hm.args.2.2.2.1.resolve_left h0) hm.fits hm.splits
  have hownp := hown p
  rw [hmap, map_some] at hownp
  obtain ⟨map1, hmap1, -⟩ := map_eq_some_iff.mp hownp
  rw [placeMapping] at hplace
  simp only [vmmapMap, vmmapMapAlloc, vmmapMapWith, allAllocs, not_true_eq_false, if_false,
    and_false, mappingObjAlloc_true, kassert_of hm.args, ok_bind, hplace]
  cases res with
  | error e => exact ⟨_, s1, rfl, hd.ok h hs1, hd.filesFrom, hown⟩
  | ok v =>
    obtain ⟨hlow, hhigh, hclear, -⟩ := (placeMapping_spec hplace (fun h0 => by
      have := hm.fits h0
      unfold userHigh at this
      unfold word
      omega) (h.sound.spaces.wf p)).2 v rfl
    have hpos := hm.args.1
    set new : Vmarea := ⟨s1.nextVma, v, v+npages, off/pageSize, prot, flags, none, false⟩
    have hr : Room s1 p new := ⟨rfl, rfl, hlow, by dsimp only [new]; omega, hhigh, hclear⟩
    obtain ⟨o, s3, t, hobj, hbot, hattach, hok, hfiles, hown'⟩ :=
      mappingObj_ok (hd.ok h hs1) hmap1 hr hm.one (hm.file.descends hd)
    have hins : editAreas { s1 with nextVma := s1.nextVma+1 } p (vmmapInsert · new) =
        .ok (entered s1 p new) := editAreas_eq (s := { s1 with nextVma := s1.nextVma+1 }) hmap1 _
    refine ⟨.ok { new with vmaObj := some (mappingTop s3 flags o).1 }, t, ?_, hok,
      hd.filesFrom.trans hfiles, fun q => (hown' q).trans (hown q)⟩
    rw [bind_eq_ok] at hattach
    obtain ⟨s5, hs5, hlink⟩ := hattach
    simp only [new] at hins hobj hs5 hlink ⊢
    have hread : (plain true).walk s1 p = .ok (areas s1 p) := readAreas_eq hmap1
    rw [hread, ok_bind, hins, ok_bind, hobj, ok_bind]
    dsimp only
    rw [hbot, ok_bind, hs5, ok_bind]
    simp only [plain, hlink, ok_bind, pure_eq_ok]

end Mapping

theorem procCreate_quiet (h : Sound s) : Quiet s (procCreate s) := by
  have hnone : s.procs s.nextPid = none := by
    cases hp : s.procs s.nextPid with
    | none => rfl
    | some r => exact absurd (h.spaces.pid_lt s.nextPid (by rw [hp]; rfl)) (Nat.lt_irrefl _)
  have hself : mapOf (procCreate s) s.nextPid = some ⟨[], some s.nextPid⟩ := by
    simp [mapOf, procCreate, Vm.setProc]
  have hne : ∀ q, q ≠ s.nextPid → (procCreate s).procs q = s.procs q := fun q hq => by
    simp [procCreate, Vm.setProc, hq]
  have hlt : ∀ q, ((procCreate s).procs q).isSome → q < s.nextPid+1 := fun q hq => by
    by_cases hqn : q = s.nextPid
    · omega
    · rw [hne q hqn] at hq
      have := h.spaces.pid_lt q hq
      omega
  refine ⟨rfl, ?_, rfl, rfl, rfl, Nat.le_succ _, rfl, hlt, fun q map r hm hr => ?_, fun q => ?_⟩
  · funext q
    by_cases hq : q = s.nextPid
    · subst hq
      rw [areas_of_mapOf hself, areas_of_le h.spaces (Nat.le_refl _)]
    · simp only [areas, mapOf, hne q hq]
  · have hold : ∀ q, (s.procs q).isSome → ((procCreate s).procs q).isSome := fun q hq => by
      rw [hne q (Nat.ne_of_lt (h.spaces.pid_lt q hq))]
      exact hq
    by_cases hq : q = s.nextPid
    · subst hq
      obtain rfl := some.inj (hself.symm.trans hm)
      obtain rfl := some.inj hr
      simp [procCreate, Vm.setProc]
    · simp only [mapOf, hne q hq] at hm
      exact hold r (h.spaces.owner q map r hm hr)
  · by_cases hq : q = s.nextPid
    · subst hq
      simpa [table, procCreate, Vm.setProc, hnone] using Sub.refl _
    · simpa [table, hne q hq] using Sub.refl _

theorem vnodeCreate_ok (h : Ok s) {refs : ℕ} (hrefs : 0 < refs) : Ok (vnodeCreate s refs) := by
  set t := vnodeCreate s refs
  have hs := h.sound
  have hf : Fresh s t ⟨.vnode, refs, 0, [], .vmas [], none⟩ :=
    ⟨rfl, rfl, rfl, rfl, rfl, nofun, _, rfl⟩
  have huses : ∀ x, uses t x = uses s x := fun x =>
    Finset.sum_congr rfl fun q _ => List.countP_congr fun b hb => by rw [hf.holds_eq hs hb]
  have hvmas : vmasAt t = vmasAt s := by
    funext x
    by_cases hx : x = s.nextObj
    · subst hx
      rw [vmasAt_of_obj hf.objs_self rfl, vmasAt, hs.heap.fresh_none (Nat.le_refl _)]
      rfl
    · rw [vmasAt, vmasAt, hf.objs_ne hx]
  have hlive : ∀ q, ∀ b ∈ areas s q, ∀ y, b.vmaObj = some y → (s.objs y).isSome :=
    fun q b hb y hy => hs.obj_live hb hy
  have hsound : Sound t := by
    refine ⟨hf.heap hs.heap, ⟨hs.spaces.wf, hs.spaces.pid_lt, hs.spaces.owner,
      fun q b hb y hy => hf.isSome hs.heap (hlive q b hb y hy)⟩, ⟨fun x ob hob hv => ?_,
      fun x ob hob hv => ?_⟩, ⟨by rw [hvmas]; exact hs.links.nodup, fun x q i => ?_⟩⟩
    · rcases hf.cases hob with ⟨-, rfl⟩ | hob
      · exact absurd rfl hv
      · rw [huses]
        exact hs.counts.exact x ob hob hv
    · rw [huses]
      rcases hf.cases hob with ⟨rfl, rfl⟩ | hob
      · rw [uses_next hs]
        exact hrefs
      · exact hs.counts.file x ob hob hv
    · rw [hvmas, hs.links.mem_iff]
      refine exists_congr fun b => and_congr_right fun hb => and_congr_right fun _ =>
        exists_congr fun y => and_congr_right fun hy => ?_
      rw [hf.bottom_eq hs.heap (hlive q b hb y hy)]
  have hk := hf.keeps hs.heap
  have hsane : Sane t := ⟨hsound, fun q b hb =>
    backed_of_kept hk (h.backed q b hb) fun _ _ hx => hf.isSome hs.heap hx⟩
  refine ⟨hsane, ⟨fun q b hb y hy hanon x hx => ?_, ?_⟩,
    tables_of_kept hk hs h.tables (fun _ hx => hf.isSome hs.heap hx) rfl fun _ _ _ he =>
      ⟨he, fun _ ha => ha⟩⟩
  · exact h.tops.bare q b hb y hy (anonymous_of_kept hk (hlive q b hb y hy) hanon) x
      ((hf.below_cases hx).resolve_left (by simp))
  · intro q r b hb c hc y hby hcy hsh
    exact h.tops.alone q r b hb c hc y hby hcy (isShadow_of_kept hk (hlive q b hb y hby) hsh)

end SystemsProjects.AreaCreation
