import SystemsProjects.VmRuns

/-!
# Accesses to structures that have been freed

The calls on address spaces once more, with every access to an area or a memory object looked
at: an access to a structure that has gone back to its allocator is the fault `stalePointer`.
Beyond what the model of the calls checks already, a walk over the list of a map reads every
area on it, an insertion at the tail of a list of areas writes to the area that was last, the
functions that drop a reference decrement the count of the object also when they have just freed
it, and the removal of a whole area takes it off the list in its bottom object and reads its end
after both may be gone.
-/
namespace SystemsProjects.FreedStructures

open PageTables VmState MemoryObjects AddressSpaces VmSystemCalls ObjectHeap AreaMaps AreaOrdering
  VmInvariant AreaRemoval AreaCreation Forking VmRuns

/-- A walk over the list of the map of a process. -/
def walkAreas (s : Vm) (p : ℕ) : Kern (List Vmarea) := do
  let r ← getProc s p
  let map ← getMap r
  if map.vmmList.all (!·.vmaFreed) then return map.vmmList else .error .stalePointer

/-- The area of a process that a list entry leads to has not been freed. -/
def isLive (s : Vm) (v : ℕ × ℕ) : Bool := (areas s v.1).any fun a => a.vmaId = v.2 && !a.vmaFreed

/-- `list_insert_tail` of `vma_olink`, which writes to the last entry of the list. -/
def linkVmaChecked (s : Vm) (b : ℕ) (v : ℕ × ℕ) : Kern Vm := do
  let l ← vmasOf s b
  if l.getLast?.all (isLive s) then linkVma s b v else .error .stalePointer

/-- `anon_put`, `shadow_put` and `vo_vput`; the last line of the first two decrements the count
whether or not the object has been freed. -/
def mmobjPutChecked : ℕ → Vm → ℕ → Kern Vm
  | 0, _, _ => .error .depth
  | d+1, s, o => do
    let ob ← getObj s o
    if ob.mmoOps = .vnode then do
      kassert (ob.mmoNrespages < ob.mmoRefcount) .vnodePut
      if ob.mmoRefcount - 1 = ob.mmoNrespages then .error .vnodeInactive
      else return s.setObj o (some { ob with mmoRefcount := ob.mmoRefcount-1 })
    else do
      kassert (0 < ob.mmoRefcount) .mmobjPut
      let s ←
        if ob.mmoRefcount - 1 = ob.mmoNrespages then do
          let s ← ob.mmoRespages.foldlM (fun s pf => pframeFree (mmobjPutChecked d)
            (editPage s o pf.pfPagenum fun pf => { pf with pfPincount := 0 }) o pf.pfPagenum) s
          pure (s.setObj o none)
        else pure s
      let ob ← getObj s o
      return s.setObj o (some { ob with mmoRefcount := ob.mmoRefcount-1 })

def linkOnBottomChecked (s : Vm) (o : ℕ) (v : ℕ × ℕ) : Kern Vm := do
  let ob ← getObj s o
  match ob.mmoUn with
  | .vmas _ => .error .wildPointer
  | .bottomObj b => linkVmaChecked s b v

def splitAreaChecked (p lo hi : ℕ) (s : Vm) (a : Vmarea) : Kern Vm := do
  let o ← need .nullMmobj a.vmaObj
  let s ← refChain s o
  let new := upperPart a s.nextVma hi
  let _ ← walkAreas s p
  let s ← editAreas { s with nextVma := s.nextVma+1 } p fun l =>
    vmmapInsert (editArea a.vmaId (fun b => { b with vmaEnd := lo }) l) new
  let s ← linkOnBottomChecked s o (p, new.vmaId)
  unmapRange s p lo hi

/-- The area is taken off the list in its bottom object after the references have been dropped,
and its end is read after it has been freed. -/
def dropAreaChecked (p : ℕ) (s : Vm) (a : Vmarea) : Kern Vm := do
  let o ← need .wildPointer a.vmaObj
  let b := bottom s o
  let s ← (chain s o).foldlM (mmobjPutChecked 2) s
  let s ← editAreas s p (·.filter (·.vmaId ≠ a.vmaId))
  let _ ← getObj s b
  let s := unlinkVma s (p, a.vmaId)
  let l ← walkAreas s p
  let freed ← need .stalePointer (liveArea l a.vmaId)
  unmapRange s p a.vmaStart freed.vmaEnd

def removeAreaChecked (p lo hi : ℕ) (s : Vm) (a : Vmarea) : Kern Vm :=
  if a.vmaStart < lo ∧ hi < a.vmaEnd then splitAreaChecked p lo hi s a
  else if a.vmaStart < lo ∧ lo < a.vmaEnd then cutTail p lo s a
  else if hi < a.vmaEnd ∧ a.vmaStart < hi ∧ lo ≤ a.vmaStart then cutHead p hi s a
  else if a.vmaEnd ≤ hi ∧ lo ≤ a.vmaStart then dropAreaChecked p s a
  else return s

def vmmapRemoveChecked (s : Vm) (p lopage npages : ℕ) : Kern Vm := do
  let l ← walkAreas s p
  let empty ← vmmapIsRangeEmpty l lopage npages
  if empty then return s
  else l.foldlM (removeAreaChecked p lopage ((lopage+npages)%word)) s

def vmmapDestroyChecked (s : Vm) (p : ℕ) : Kern Vm := do
  let s ← vmmapRemoveChecked s p userLow (userHigh-userLow)
  let r ← getProc s p
  return s.setProc p { r with pVmmap := none }

def checked : Accesses where
  walk := walkAreas
  remove s p lopage npages := do
    let s ← vmmapRemoveChecked s p lopage npages
    return (.ok (), s)
  link := linkVmaChecked

def vmmapMapChecked (s : Vm) (p : ℕ) (file : Option VnodeMmap) (lopage npages prot flags off : ℕ)
    (dir : Dir) : Kern (Except Errno Vmarea × Vm) :=
  vmmapMapWith checked allAllocs s p file lopage npages prot flags off dir

def doExitChecked (s : Vm) (p : ℕ) : Kern (Resume × Vm) := do
  let s ← vmmapDestroyChecked s p
  return (.killed, s)

def stepChecked (s : Vm) : VmEvent → Kern Vm
  | .mapped p file lopage npages prot flags off dir =>
    (vmmapMapChecked s p file lopage npages prot flags off dir).map Prod.snd
  | .removed p lopage npages => vmmapRemoveChecked s p lopage npages
  | .destroyed p => vmmapDestroyChecked s p
  | .forked p => (doForkWith checked s p).map Prod.snd
  | .faulted p vaddr write exec =>
    (handlePagefaultWith checked doExitChecked s p vaddr write exec).map Prod.snd
  | e => stepVm s e

/-- No area of a map has been freed, and an entry of a list of areas leads to an area. -/
structure Unfreed (s : Vm) : Prop where
  kept : ∀ p, ∀ a ∈ areas s p, a.vmaFreed = false
  linked : ∀ b, ∀ v ∈ vmasAt s b, ∃ a ∈ areas s v.1, a.vmaId = v.2

theorem unfreed_of_sound {s : Vm} (h : Sound s) : Unfreed s := by
  constructor
  · exact fun p => (h.spaces.wf p).kept
  · intro b v hv
    obtain ⟨a, ha, hid, -⟩ := (h.links.mem_iff b v.1 v.2).mp hv
    exact ⟨a, ha, hid⟩

theorem bind_congr_ok {α β : Type} {x : Kern α} {f g : α → Kern β}
    (h : ∀ a, x = .ok a → f a = g a) : (x >>= f) = (x >>= g) := by
  cases x with
  | error e => rfl
  | ok a => exact h a rfl

section Walks

variable {s t : Vm} {p : ℕ} {map : Vmmap}

theorem walkAreas_eq (h : Unfreed s) (hmap : mapOf s p = some map) :
    walkAreas s p = .ok (areas s p) := by
  obtain ⟨r, hr, hm⟩ := mapOf_eq_some.mp hmap
  have hareas := areas_of_mapOf hmap
  have hall : map.vmmList.all (!·.vmaFreed) = true := by
    rw [← hareas, List.all_eq_true]
    intro a ha
    rw [h.kept p a ha]
    rfl
  simp only [walkAreas, getProc, hr, getMap, hm, need_some, ok_bind, hall, hareas]
  rfl

theorem walkAreas_none (hmap : mapOf s p = none) : walkAreas s p = .error .stalePointer := by
  cases hr : s.procs p with
  | none => simp [walkAreas, getProc, hr, need]
  | some r =>
    have hm : r.pVmmap = none := by simpa [mapOf, hr] using hmap
    simp [walkAreas, getProc, hr, getMap, hm, need]

theorem editAreas_none (hmap : mapOf s p = none) (f : List Vmarea → List Vmarea) :
    editAreas s p f = .error .stalePointer := by
  cases hr : s.procs p with
  | none => simp [editAreas, getProc, hr, need]
  | some r =>
    have hm : r.pVmmap = none := by simpa [mapOf, hr] using hmap
    simp [editAreas, getProc, hr, getMap, hm, need]

theorem walkAreas_editAreas (h : Unfreed s) (n : ℕ) (f : List Vmarea → List Vmarea) :
    (do let _ ← walkAreas s p; editAreas { s with nextVma := n } p f) =
      editAreas { s with nextVma := n } p f := by
  cases hm : mapOf s p with
  | none =>
    have hm' : mapOf { s with nextVma := n } p = none := hm
    rw [walkAreas_none hm, editAreas_none hm', error_bind]
  | some map => rw [walkAreas_eq h hm, ok_bind]

theorem linkVmaChecked_eq (h : Unfreed s) (b : ℕ) (v : ℕ × ℕ) :
    linkVmaChecked s b v = linkVma s b v := by
  cases hob : s.objs b with
  | none => simp [linkVmaChecked, linkVma, vmasOf, getObj, hob, need]
  | some ob =>
    cases hun : ob.mmoUn with
    | bottomObj c => simp [linkVmaChecked, linkVma, vmasOf, getObj, hob, hun]
    | vmas l =>
      have hl : vmasAt s b = l := by simp [vmasAt, hob, hun]
      have hlast : l.getLast?.all (isLive s) = true := by
        cases hlast : l.getLast? with
        | none => rfl
        | some w =>
          obtain ⟨a, ha, hid⟩ := h.linked b w (hl ▸ List.mem_of_getLast? hlast)
          exact List.any_eq_true.mpr ⟨a, ha, by simp [hid, h.kept w.1 a ha]⟩
      simp [linkVmaChecked, linkVma, vmasOf, getObj, hob, hun, hlast]

theorem linkOnBottomChecked_eq (h : Unfreed s) (o : ℕ) (v : ℕ × ℕ) :
    linkOnBottomChecked s o v = linkOnBottom s o v := by
  unfold linkOnBottomChecked linkOnBottom
  apply bind_congr_ok
  intro ob _
  cases ob.mmoUn with
  | vmas l => rfl
  | bottomObj b => exact linkVmaChecked_eq h b v

end Walks

namespace Unfreed

variable {s t : Vm} {p o : ℕ}

section

variable (h : Unfreed s)
include h

theorem congr (hareas : areas t = areas s) (hvmas : ∀ b, ∀ v ∈ vmasAt t b, v ∈ vmasAt s b) :
    Unfreed t := by
  constructor
  · rw [hareas]
    exact h.kept
  · intro b v hv
    rw [hareas]
    exact h.linked b v (hvmas b v hv)

theorem nextVma (n : ℕ) : Unfreed { s with nextVma := n } :=
  h.congr rfl fun _ _ hv => hv

theorem mmobjRef (ht : mmobjRef s o = .ok t) : Unfreed t := by
  simp only [MemoryObjects.mmobjRef, bind_eq_ok, getObj, need_eq_ok] at ht
  obtain ⟨ob, hob, -, -, ht⟩ := ht
  obtain rfl := Except.ok.inj ht
  refine h.congr rfl fun b v hv => ?_
  by_cases hb : b = o
  · subst hb
    simpa [vmasAt, hob, Vm.setObj] using hv
  · simpa [vmasAt, Vm.setObj, hb] using hv

theorem refChain (ht : refChain s o = .ok t) : Unfreed t :=
  foldlM_rule (fun _ t => Unfreed t) (fun _ _ _ _ hb hf => hb.mmobjRef hf) _ s t h ht

theorem editAreas {f : List Vmarea → List Vmarea} (ht : editAreas s p f = .ok t)
    (hkept : ∀ b ∈ f (areas s p), b.vmaFreed = false)
    (hids : ∀ a ∈ areas s p, ∃ b ∈ f (areas s p), b.vmaId = a.vmaId) : Unfreed t := by
  obtain ⟨he, -⟩ := editAreas_edited ht
  have hobjs : t.objs = s.objs := by
    simp only [AddressSpaces.editAreas, bind_eq_ok] at ht
    obtain ⟨r, -, map, -, ht⟩ := ht
    obtain rfl := Except.ok.inj ht
    rfl
  constructor
  · intro q b hb
    by_cases hq : q = p
    · subst hq
      exact hkept b (he.self ▸ hb)
    · rw [he.others q hq] at hb
      exact h.kept q b hb
  · intro b v hv
    rw [vmasAt, hobjs, ← vmasAt] at hv
    obtain ⟨a, ha, hid⟩ := h.linked b v hv
    by_cases hq : v.1 = p
    · rw [hq] at ha ⊢
      obtain ⟨c, hc, hcid⟩ := hids a ha
      exact ⟨c, he.self ▸ hc, hcid.trans hid⟩
    · exact ⟨a, by rwa [he.others v.1 hq], hid⟩

theorem editArea {id : ℕ} {f : Vmarea → Vmarea}
    (ht : AddressSpaces.editAreas s p (editArea id f) = .ok t)
    (hfreed : ∀ a, (f a).vmaFreed = a.vmaFreed) (hid : ∀ a, (f a).vmaId = a.vmaId) :
    Unfreed t := by
  refine h.editAreas ht (fun b hb => ?_) fun a ha => ?_
  · obtain ⟨a, ha, rfl⟩ := mem_editArea.mp hb
    have hk := h.kept p a ha
    split_ifs
    · rw [hfreed, hk]
    · exact hk
  · refine ⟨_, mem_editArea.mpr ⟨a, ha, rfl⟩, ?_⟩
    split_ifs
    · exact hid a
    · rfl

theorem insert {new : Vmarea} {id : ℕ} {f : Vmarea → Vmarea} (ht : AddressSpaces.editAreas s p
      (fun l => vmmapInsert (AddressSpaces.editArea id f l) new) = .ok t)
    (hnew : new.vmaFreed = false) (hfreed : ∀ a, (f a).vmaFreed = a.vmaFreed)
    (hid : ∀ a, (f a).vmaId = a.vmaId) : Unfreed t := by
  refine h.editAreas ht (fun b hb => ?_) fun a ha => ?_
  · rcases IntervalLists.mem_insertInterval.mp hb with rfl | hb
    · exact hnew
    · obtain ⟨a, ha, rfl⟩ := mem_editArea.mp hb
      have hk := h.kept p a ha
      split_ifs
      · rw [hfreed, hk]
      · exact hk
  · refine ⟨_, IntervalLists.mem_insertInterval.mpr (.inr (mem_editArea.mpr ⟨a, ha, rfl⟩)), ?_⟩
    split_ifs
    · exact hid a
    · rfl

theorem shadowCreate (shadowed b : ℕ) : Unfreed (shadowCreate s shadowed b).2 := by
  refine h.congr rfl fun x v hv => ?_
  by_cases hx : x = s.nextObj
  · subst hx
    simp [vmasAt, MemoryObjects.shadowCreate, Vm.setObj] at hv
  · simpa [vmasAt, MemoryObjects.shadowCreate, Vm.setObj, hx] using hv

theorem anonCreate : Unfreed (anonCreate s).2 := by
  refine h.congr rfl fun x v hv => ?_
  by_cases hx : x = s.nextObj
  · subst hx
    simp [vmasAt, MemoryObjects.anonCreate, Vm.setObj] at hv
  · simpa [vmasAt, MemoryObjects.anonCreate, Vm.setObj, hx] using hv

theorem mappingObj {file : Option VnodeMmap} {r : Except Errno ℕ}
    (ht : mappingObj s file = .ok (r, t)) : Unfreed t := by
  cases file with
  | none =>
    obtain ⟨-, rfl⟩ := ok_inj ht
    exact h.anonCreate
  | some m =>
    cases m with
    | null => cases ht
    | fails e =>
      obtain ⟨-, rfl⟩ := ok_inj ht
      exact h
    | gives o =>
      obtain ⟨-, rfl⟩ := ok_inj ht
      exact h

theorem mappingTop (flags o : ℕ) : Unfreed (mappingTop s flags o).2 := by
  unfold AddressSpaces.mappingTop
  split_ifs
  · exact h.shadowCreate o o
  · exact h

end

end Unfreed

section Removal

variable {s t : Vm} {p lo hi : ℕ} {a : Vmarea}

/-- The areas that the range does not cover as a whole. -/
def Sticks (lo hi : ℕ) (a : Vmarea) : Prop := ¬(lo ≤ a.vmaStart ∧ a.vmaEnd ≤ hi)

instance (lo hi : ℕ) (a : Vmarea) : Decidable (Sticks lo hi a) :=
  inferInstanceAs (Decidable (¬_))

theorem splitAreaChecked_eq (h : Unfreed s) (ha : a ∈ areas s p) :
    splitAreaChecked p lo hi s a = splitArea p lo hi s a := by
  simp only [splitAreaChecked, splitArea]
  apply bind_congr_ok
  intro o _
  apply bind_congr_ok
  intro s1 h1
  have hu1 := h.refChain h1
  rw [← bind_assoc, walkAreas_editAreas hu1]
  apply bind_congr_ok
  intro s2 h2
  have hu2 : Unfreed s2 :=
    (hu1.nextVma (s1.nextVma+1)).insert h2 (h.kept p a ha) (fun _ => rfl) fun _ => rfl
  rw [linkOnBottomChecked_eq hu2]

theorem removeAreaChecked_eq (h : Unfreed s) (ha : a ∈ areas s p) (hst : Sticks lo hi a) :
    removeAreaChecked p lo hi s a = removeArea p lo hi s a := by
  have hn : ¬(a.vmaEnd ≤ hi ∧ lo ≤ a.vmaStart) := fun hc => hst ⟨hc.2, hc.1⟩
  unfold removeAreaChecked removeArea
  rw [splitAreaChecked_eq h ha, if_neg hn, if_neg hn]

/-- A removal that leaves a part of every area touches no freed memory. -/
theorem vmmapRemoveChecked_eq (h : Sane s) {map : Vmmap} (hmap : mapOf s p = some map) {n : ℕ}
    (hr : RemoveArgs s p lo n) (hst : ∀ a ∈ areas s p, Sticks lo (lo+n) a) :
    vmmapRemoveChecked s p lo n = vmmapRemove s p lo n := by
  simp only [vmmapRemoveChecked, vmmapRemove_eq, walkAreas_eq (unfreed_of_sound h.sound) hmap,
    readAreas_eq hmap, ok_bind, Nat.mod_eq_of_lt hr.lt_word]
  apply bind_congr_ok
  intro empty _
  cases empty with
  | true => rfl
  | false =>
    apply foldlM_congr (RemoveLoop p lo (lo+n) s) _ _ _ (removeLoop_start h.sound p _ _)
    intro a rest t hl
    constructor
    · exact removeAreaChecked_eq (unfreed_of_sound hl.sound) (hl.removing.mem a (by simp))
        (hst a (hl.old a (by simp)))
    · intro t' ht'
      obtain ⟨u, hu, hl'⟩ := hl.round h.backed hr.lt hr.splits
      obtain rfl := Except.ok.inj (hu.symm.trans ht')
      exact hl'

end Removal

section Calls

variable {s t : Vm} {p : ℕ} {map : Vmmap}

theorem vmmapDestroyChecked_eq (h : Sane s) (hmap : mapOf s p = some map)
    (hnil : areas s p = []) : vmmapDestroyChecked s p = vmmapDestroy s p := by
  have hargs : RemoveArgs s p userLow (userHigh-userLow) := by
    refine ⟨Nat.le_refl _, by decide, by decide, ?_⟩
    intro a ha
    rw [hnil] at ha
    cases ha
  have hst : ∀ a ∈ areas s p, Sticks userLow (userLow + (userHigh-userLow)) a := by
    intro a ha
    rw [hnil] at ha
    cases ha
  simp only [vmmapDestroyChecked, vmmapDestroy, vmmapRemoveChecked_eq h hmap hargs hst]

theorem placeMappingChecked_eq (h : Sane s) (hmap : mapOf s p = some map) {lopage npages : ℕ}
    (dir : Dir) (hargs : lopage ≠ 0 → RemoveArgs s p lopage npages)
    (hst : lopage ≠ 0 → ∀ a ∈ areas s p, Sticks lopage (lopage+npages) a) :
    placeMappingWith checked s p lopage npages dir = placeMapping s p lopage npages dir := by
  simp only [placeMapping, placeMappingWith, checked, plain,
    walkAreas_eq (unfreed_of_sound h.sound) hmap, readAreas_eq hmap, ok_bind]
  by_cases h0 : lopage = 0
  · rw [if_pos h0, if_pos h0]
  · rw [if_neg h0, if_neg h0, vmmapRemoveChecked_eq h hmap (hargs h0) (hst h0),
      vmmapRemoveAlloc_true]
    rfl

theorem vmmapMapChecked_eq (h : Sane s) (hmap : mapOf s p = some map) {file : Option VnodeMmap}
    {lopage npages prot flags off : ℕ} (dir : Dir)
    (hm : MapArgs s p file lopage npages prot flags off)
    (hst : lopage ≠ 0 → ∀ a ∈ areas s p, Sticks lopage (lopage+npages) a) :
    vmmapMapChecked s p file lopage npages prot flags off dir =
      vmmapMap s p file lopage npages prot flags off dir := by
  have hlow : lopage ≠ 0 → userLow ≤ lopage := fun h0 => hm.args.2.2.2.1.resolve_left h0
  obtain ⟨res, s1, hplace, hs1, -, hown⟩ :=
    placeMapping_ok h hmap dir hm.args.1 hlow hm.fits hm.splits
  have hu1 := unfreed_of_sound hs1
  have hplace' := placeMappingChecked_eq h hmap dir
    (fun h0 => ⟨hlow h0, hm.args.1, hm.fits h0, hm.splits h0⟩) hst
  rw [hplace] at hplace'
  rw [placeMapping] at hplace
  simp only [vmmapMapChecked, vmmapMap, vmmapMapAlloc, vmmapMapWith, allAllocs, not_true_eq_false,
    if_false, and_false, mappingObjAlloc_true, kassert_of hm.args, ok_bind, hplace', hplace]
  cases res with
  | error e => rfl
  | ok v =>
    dsimp only
    set new : Vmarea := ⟨s1.nextVma, v, v+npages, off/pageSize, prot, flags, none, false⟩
    have hownp := hown p
    rw [hmap, Option.map_some] at hownp
    obtain ⟨map1, hmap1, -⟩ := Option.map_eq_some_iff.mp hownp
    have hwalk : checked.walk s1 p = .ok (areas s1 p) := walkAreas_eq hu1 hmap1
    have hread : (plain true).walk s1 p = .ok (areas s1 p) := readAreas_eq hmap1
    rw [hwalk, hread, ok_bind, ok_bind]
    apply bind_congr_ok
    intro s2 h2
    have hu2 : Unfreed s2 := by
      refine (hu1.nextVma (s1.nextVma+1)).editAreas h2 (fun b hb => ?_) fun a ha => ?_
      · rcases IntervalLists.mem_insertInterval.mp hb with rfl | hb
        · rfl
        · exact hu1.kept p b hb
      · exact ⟨a, IntervalLists.mem_insertInterval.mpr (.inr ha), rfl⟩
    apply bind_congr_ok
    rintro ⟨obj, s3⟩ h3
    have hu3 := hu2.mappingObj h3
    cases obj with
    | error e => rfl
    | ok o =>
      dsimp only
      apply bind_congr_ok
      intro b _
      apply bind_congr_ok
      intro s4 h4
      have hu4 : Unfreed s4 := (hu3.mappingTop flags o).editArea h4 (fun _ => rfl) fun _ => rfl
      have hlink : checked.link s4 b (p, s1.nextVma) = (plain true).link s4 b (p, s1.nextVma) :=
        linkVmaChecked_eq hu4 b _
      rw [hlink]

theorem forkAreaChecked_eq (h : Unfreed s) (child : ℕ) (ca : Vmarea × Vmarea) :
    forkAreaWith checked p child s ca = forkArea p child s ca := by
  obtain ⟨c, a⟩ := ca
  simp only [forkArea, forkAreaWith, checked, plain]
  split_ifs with h1 h2 h3
  · apply bind_congr_ok
    intro o _
    apply bind_congr_ok
    intro s1 hs1
    apply bind_congr_ok
    intro s2 hs2
    have hu2 := (h.editArea hs1 (fun _ => rfl) fun _ => rfl).mmobjRef hs2
    rw [linkVmaChecked_eq hu2]
  · apply bind_congr_ok
    intro old _
    apply bind_congr_ok
    intro ob _
    cases ob.mmoUn with
    | vmas l => rfl
    | bottomObj b =>
      dsimp only
      have hu := (h.shadowCreate old b).shadowCreate old b
      apply bind_congr_ok
      intro s1 hs1
      apply bind_congr_ok
      intro s2 hs2
      have hu2 := (hu.editArea hs1 (fun _ => rfl) fun _ => rfl).editArea hs2 (fun _ => rfl)
        fun _ => rfl
      rw [linkVmaChecked_eq hu2]
  · rfl
  · rfl

theorem doForkChecked_eq (h : Ok s) (hmap : mapOf s p = some map) :
    doForkWith checked s p = doFork s p := by
  obtain ⟨r, hr, -⟩ := mapOf_eq_some.mp hmap
  have hpc : p ≠ s.nextPid := Nat.ne_of_lt (h.sound.spaces.pid_lt p (isSome_of_mapOf hmap))
  have hclone : vmmapClone s.nextVma (areas s p) =
      (clones s.nextVma (areas s p), s.nextVma + (areas s p).length) :=
    vmmapClone_eq (h.sound.spaces.wf p) _
  have hwalk : checked.walk s p = .ok (areas s p) := walkAreas_eq (unfreed_of_sound h.sound) hmap
  have hread : (plain true).walk s p = .ok (areas s p) := readAreas_eq hmap
  simp only [doFork, doForkWith, hwalk, hread, getProc, hr, need_some, ok_bind, hclone]
  have hloop : ((clones s.nextVma (areas s p)).zip (areas s p)).foldlM
      (forkAreaWith checked p s.nextPid) (forkStart s r (areas s p)) =
      ((clones s.nextVma (areas s p)).zip (areas s p)).foldlM (forkArea p s.nextPid)
        (forkStart s r (areas s p)) := by
    apply foldlM_congr (ForkLoop p s.nextPid s (forkStart s r (areas s p))) _ _ _
      (forkLoop_start h.sound hmap r)
    intro ca rest t hl
    constructor
    · exact forkAreaChecked_eq (unfreed_of_sound hl.sound) _ ca
    · intro t' ht'
      obtain ⟨u, hu, hl'⟩ := hl.step h.sound h.backed hpc ⟨_, mapOf_forkStart_child s r _⟩
      obtain rfl := Except.ok.inj (hu.symm.trans ht')
      exact hl'
  exact congrArg (fun x : Kern Vm => do
    let s1 ← x
    let s2 ← unmapRange s1 p userLow userHigh
    return (s.nextPid, s2)) hloop

def Survives (s : Vm) (p vaddr : ℕ) (write exec : Bool) : Prop :=
  (handlePagefault s p vaddr write exec).toOption.any (·.1 = .resumed)

instance (s : Vm) (p vaddr : ℕ) (write exec : Bool) : Decidable (Survives s p vaddr write exec) :=
  inferInstanceAs (Decidable (_ = true))

theorem doExit_kills (s : Vm) (p : ℕ) : ¬((doExit s p).toOption.any (·.1 = .resumed)) := by
  unfold doExit
  cases vmmapDestroy s p with
  | error e => exact nofun
  | ok t => exact nofun

theorem handlePagefaultChecked_eq (h : Sane s) (hmap : mapOf s p = some map) {vaddr : ℕ}
    {write exec : Bool} (hsafe : areas s p = [] ∨ Survives s p vaddr write exec) :
    handlePagefaultWith checked doExitChecked s p vaddr write exec =
      handlePagefault s p vaddr write exec := by
  have hwalk : checked.walk s p = .ok (areas s p) := walkAreas_eq (unfreed_of_sound h.sound) hmap
  have hread : (plain true).walk s p = .ok (areas s p) := readAreas_eq hmap
  rcases hsafe with hnil | hsafe
  · simp only [handlePagefault, handlePagefaultWith, hwalk, hread, ok_bind, hnil, vmmapLookup,
      List.find?_nil, doExitChecked, doExit, vmmapDestroyChecked_eq h hmap hnil]
  · simp only [Survives, handlePagefault, handlePagefaultWith, hread, ok_bind] at hsafe
    simp only [handlePagefault, handlePagefaultWith, hwalk, hread, ok_bind]
    cases hlook : vmmapLookup (areas s p) (vaddr/pageSize) with
    | none =>
      rw [hlook] at hsafe
      exact absurd hsafe (doExit_kills s p)
    | some a =>
      rw [hlook] at hsafe
      dsimp only at hsafe ⊢
      by_cases hc : vaddr/pageSize = 0 ∨ ¬permitted a write exec
      · rw [if_pos hc] at hsafe
        exact absurd hsafe (doExit_kills s p)
      · rw [if_neg hc] at hsafe ⊢
        rw [if_neg hc]
        apply bind_congr_ok
        intro o ho
        apply bind_congr_ok
        rintro ⟨res, s1⟩ hl
        cases res with
        | ok pf => rfl
        | error e =>
          rw [ho, ok_bind, hl, ok_bind] at hsafe
          exact absurd hsafe (doExit_kills s1 p)

end Calls

/-- No area is removed as a whole: a range that is cleared leaves a part of every area it meets,
and a map that is destroyed, by its owner or because of a fault, has no areas left. -/
def KeepsAreas (s : Vm) : VmEvent → Prop
  | .created => True
  | .vnodeCreated _ => True
  | .mapped p _ lopage npages _ _ _ _ =>
    lopage ≠ 0 → ∀ a ∈ areas s p, Sticks lopage (lopage+npages) a
  | .removed p lopage npages => ∀ a ∈ areas s p, Sticks lopage (lopage+npages) a
  | .destroyed p => areas s p = []
  | .forked _ => True
  | .faulted p vaddr write exec => areas s p = [] ∨ Survives s p vaddr write exec
  | _ => False

instance (s : Vm) (e : VmEvent) : Decidable (KeepsAreas s e) := by
  rcases e with _ | _ <;> unfold KeepsAreas <;> infer_instance

theorem stepChecked_eq {s : Vm} {e : VmEvent} (h : Ok s) (hc : CallOk s e) (hk : KeepsAreas s e) :
    stepChecked s e = stepVm s e := by
  cases e with
  | mapped p file lopage npages prot flags off dir =>
    obtain ⟨map, hmap⟩ := Option.isSome_iff_exists.mp hc.1
    rw [stepChecked, vmmapMapChecked_eq h.toSane hmap dir hc.2 hk, stepVm]
  | removed p lopage npages =>
    obtain ⟨map, hmap⟩ := Option.isSome_iff_exists.mp hc.1
    rw [stepChecked, vmmapRemoveChecked_eq h.toSane hmap hc.2 hk, stepVm]
  | destroyed p =>
    obtain ⟨map, hmap⟩ := Option.isSome_iff_exists.mp hc
    rw [stepChecked, vmmapDestroyChecked_eq h.toSane hmap hk, stepVm]
  | forked p =>
    obtain ⟨map, hmap⟩ := Option.isSome_iff_exists.mp hc
    rw [stepChecked, doForkChecked_eq h hmap, stepVm]
  | faulted p vaddr write exec =>
    obtain ⟨map, hmap⟩ := Option.isSome_iff_exists.mp hc
    rw [stepChecked, handlePagefaultChecked_eq h.toSane hmap hk, stepVm]
  | created | vnodeCreated | opened | execed | loaded | stored | mmapped | munmapped | brked
    | written | copied | reclaimed => rfl

/-- The calls with arguments in order that remove no area as a whole. -/
def UnfreedCall (s : Vm) (e : VmEvent) : Prop := CallOk s e ∧ KeepsAreas s e

instance (s : Vm) (e : VmEvent) : Decidable (UnfreedCall s e) :=
  inferInstanceAs (Decidable (_ ∧ _))

/-- As long as no area is removed as a whole, every call returns without an access to a structure
that has been freed. -/
theorem unfreed_calls_return (vnLen : ℕ → ℕ) (vnData : ℕ → ℕ → Page) {es : List VmEvent} {s : Vm}
    (hrun : GuardedRuns.Run VmStep UnfreedCall (bootVm vnLen vnData) es s) {e : VmEvent}
    (he : UnfreedCall s e) : ∃ t, stepChecked s e = .ok t ∧ VmStep s e t := by
  have hok : Ok s := hrun.invariant (fun _ _ _ hc => ok_step hc.1) (ok_bootVm vnLen vnData)
  have hload : ∀ p vaddr b, e ≠ .loaded p vaddr b := by
    rintro p vaddr b rfl
    exact he.2
  obtain ⟨t, ht, -⟩ := stepVm_ok hok he.1 hload
  exact ⟨t, by rw [stepChecked_eq hok he.1 he.2, ht], vmStep_iff.mpr ht⟩

/-- Two private anonymous pages, one of which is written to after a fork, and then unmapped. -/
def forkedEvents : List VmEvent :=
  [.created, .mapped 0 none 0x400 2 3 (mapPrivate+mapAnon) 0 .lohi, .forked 0,
    .faulted 1 0x400000 true false]

theorem unfreed_calls_return_forked : ∃ s t,
    GuardedRuns.Run VmStep UnfreedCall blankVm forkedEvents s ∧
      stepChecked s (.removed 1 0x401 1) = .ok t := by
  obtain ⟨s, hrun, he⟩ := exists_run_vm UnfreedCall blankVm forkedEvents
    (P := fun s => UnfreedCall s (.removed 1 0x401 1)) (by decide +kernel)
  obtain ⟨t, ht, -⟩ := unfreed_calls_return _ _ hrun he
  exact ⟨s, t, hrun, ht⟩

def touchesFreed : Kern Vm → Bool
  | .error .stalePointer => true
  | _ => false

instance (x : Kern Vm) : Decidable (x = .error .stalePointer) :=
  decidable_of_iff (touchesFreed x = true) <| by
    unfold touchesFreed
    split
    · exact iff_of_true rfl rfl
    · exact iff_of_false nofun (by assumption)

/-- The unmapping of a whole private area decrements the count of its shadow object after that
has been freed; the unmapping of a whole shared area of a file reads the end of the area after
that has been freed; and a mapping that fails because the file cannot be mapped leaves a freed
area on the list, where the next call finds it. -/
theorem whole_area_removal_touches_freed : (∃ s, GuardedRuns.Run VmStep CallOk blankVm
      [.created, .mapped 0 none 0x400 1 3 (mapPrivate+mapAnon) 0 .lohi] s ∧
      CallOk s (.removed 0 0x400 1) ∧
      stepChecked s (.removed 0 0x400 1) = .error .stalePointer) ∧
    (∃ s, GuardedRuns.Run VmStep CallOk blankVm
      [.created, .vnodeCreated 5, .mapped 0 (some (.gives 0)) 0x400 1 3 mapShared 0 .lohi] s ∧
      CallOk s (.removed 0 0x400 1) ∧
      stepChecked s (.removed 0 0x400 1) = .error .stalePointer) ∧
    ∃ s, GuardedRuns.Run VmStep (fun _ _ => True) blankVm
      [.created, .mapped 0 (some (.fails 12)) 0x400 1 3 mapShared 0 .lohi] s ∧
      stepChecked s (.mapped 0 none 0x500 1 3 (mapPrivate+mapAnon) 0 .lohi) =
        .error .stalePointer :=
  ⟨exists_run_vm _ _ _ (by decide +kernel), exists_run_vm _ _ _ (by decide +kernel),
    exists_run_vm _ _ _ (by decide +kernel)⟩

end SystemsProjects.FreedStructures
