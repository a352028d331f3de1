import SystemsProjects.VmInvariant

/-!
# Changes of areas

The operations on address spaces are made of a few changes: the bounds of an area are
edited, an area gets an object with the references and the link that go with it, a shadow
object is put over the object of an area, an area gets a fresh object. Each keeps the
counts, the links and the order of the areas, and none changes what is seen through
another area.
-/
namespace SystemsProjects.AreaChanges

open List Option
open Function PageTables VmState MemoryObjects AddressSpaces ObjectHeap PageLookup AreaMaps
  AreaOrdering VmInvariant

/-- The parts of the state that no change of areas touches. -/
structure SameRest (s t : Vm) : Prop where
  mem : t.mem = s.mem
  vnLen : t.vnLen = s.vnLen
  vnData : t.vnData = s.vnData
  nextPid : t.nextPid = s.nextPid
  nextFrame : t.nextFrame = s.nextFrame
  procs : ∀ q, (t.procs q).isSome = (s.procs q).isSome

theorem SameRest.refl (s : Vm) : SameRest s s := ⟨rfl, rfl, rfl, rfl, rfl, fun _ => rfl⟩

variable {s t : Vm}

theorem SameRest.trans {u : Vm} (h : SameRest s t) (h' : SameRest t u) : SameRest s u :=
  ⟨h'.mem.trans h.mem, h'.vnLen.trans h.vnLen, h'.vnData.trans h.vnData,
    h'.nextPid.trans h.nextPid, h'.nextFrame.trans h.nextFrame,
    fun q => (h'.procs q).trans (h.procs q)⟩

/-- The objects are the same but for reference counts and lists of areas. -/
structure Relabelled (s t : Vm) : Prop where
  isSome : ∀ x, (t.objs x).isSome = (s.objs x).isSome
  same : KeepsObjs s t
  kind : ∀ x ob ob', s.objs x = some ob → t.objs x = some ob' →
    ob'.mmoUn = ob.mmoUn ∨ ∃ l l', ob.mmoUn = .vmas l ∧ ob'.mmoUn = .vmas l'

/-- The heap is well formed when each object was there before and the shadow links still are. -/
theorem heap_of_kept (h : Heap s)
    (hold : ∀ x ob', t.objs x = some ob' → ∃ ob, s.objs x = some ob ∧ SameObj ob ob')
    (hmade : ∀ x ob', t.objs x = some ob' → WellMade t x ob') (hn : t.nextObj = s.nextObj)
    (hf : t.nextFrame = s.nextFrame) : Heap t := by
  refine ⟨?_, hmade, ?_, ?_, ?_, ?_⟩
  · intro x ob' hob'
    obtain ⟨ob, hob, -⟩ := hold x ob' hob'
    rw [hn]
    exact h.lt_next x ob hob
  · intro x ob' hob'
    obtain ⟨ob, hob, hsame⟩ := hold x ob' hob'
    rw [hsame.nres, hsame.pages]
    exact h.nres x ob hob
  · intro x ob' hob'
    obtain ⟨ob, hob, hsame⟩ := hold x ob' hob'
    rw [hsame.pages]
    exact h.nodup x ob hob
  · intro x ob' hob'
    obtain ⟨ob, hob, hsame⟩ := hold x ob' hob'
    rw [hsame.pages, hf]
    exact h.frame_lt x ob hob
  · intro x y obx oby hx hy
    obtain ⟨ob, hob, hsame⟩ := hold x obx hx
    obtain ⟨ob1, hob1, hsame1⟩ := hold y oby hy
    rw [hsame.pages, hsame1.pages]
    exact h.frame_inj x y ob ob1 hob hob1

namespace Relabelled

variable {s t : Vm}

theorem of_objs (h : t.objs = s.objs) : Relabelled s t := by
  refine ⟨fun x => by rw [h], fun x ob ob' hob hob' => ?_, fun x ob ob' hob hob' => ?_⟩
  all_goals
    rw [h, hob] at hob'
    obtain rfl := some.inj hob'
  · exact ⟨rfl, rfl, rfl, rfl⟩
  · exact .inl rfl

theorem exists_obj (h : Relabelled s t) {x : ℕ} {ob' : Mmobj} (hob' : t.objs x = some ob') :
    ∃ ob, s.objs x = some ob ∧ SameObj ob ob' := by
  have hs : (s.objs x).isSome := by
    rw [← h.isSome, hob']
    rfl
  obtain ⟨ob, hob⟩ := isSome_iff_exists.mp hs
  exact ⟨ob, hob, h.same x ob ob' hob hob'⟩

theorem below_eq (h : Relabelled s t) : below t = below s := by
  funext x
  cases hob' : t.objs x with
  | none =>
    have hob : s.objs x = none := by
      rw [← isNone_iff_eq_none, ← not_isSome, ← h.isSome, hob']
      decide
    simp [below, hob, hob']
  | some ob' =>
    obtain ⟨ob, hob, hsame⟩ := h.exists_obj hob'
    rw [below_of_obj hob, below_of_obj hob', hsame.shadowed]

theorem chain_eq (h : Relabelled s t) : chain t = chain s := by
  funext x
  rw [chain, chain, h.below_eq]

theorem bottom_eq (h : Relabelled s t) : bottom t = bottom s := by
  funext x
  rw [bottom_eq_getLastD, bottom_eq_getLastD, h.chain_eq]

theorem heap (hr : Relabelled s t) (h : Heap s) (hn : t.nextObj = s.nextObj)
    (hf : t.nextFrame = s.nextFrame) : Heap t := by
  refine heap_of_kept h (fun _ _ => hr.exists_obj) (fun x ob' hob' => ?_) hn hf
  obtain ⟨ob, hob, hsame⟩ := hr.exists_obj hob'
  have hw := h.wellMade x ob hob
  rcases hr.kind x ob ob' hob hob' with hun | ⟨l, l', hl, hl'⟩
  · exact hw.congr hr.below_eq (fun y hy => by rwa [hr.isSome]) hsame.shadowed hsame.ops hun
  · unfold WellMade at hw ⊢
    rw [hsame.shadowed, hsame.ops]
    cases hx : ob.mmoShadowed with
    | none =>
      rw [hx] at hw
      exact ⟨hw.1, l', hl'⟩
    | some y =>
      rw [hx, hl] at hw
      simp at hw

end Relabelled

theorem vmasAt_of_objs (h : t.objs = s.objs) : vmasAt t = vmasAt s := by
  funext b
  rw [vmasAt, vmasAt, h]

/-- The areas and the objects are the same, and the tables have no new entries. -/
structure Quiet (s t : Vm) : Prop where
  objs : t.objs = s.objs
  areas_eq : areas t = areas s
  nextObj : t.nextObj = s.nextObj
  nextFrame : t.nextFrame = s.nextFrame
  nextVma : t.nextVma = s.nextVma
  nextPid : s.nextPid ≤ t.nextPid
  vnLen : t.vnLen = s.vnLen
  pid_lt : ∀ q, (t.procs q).isSome → q < t.nextPid
  owner : ∀ q map r, mapOf t q = some map → map.vmmProc = some r → (t.procs r).isSome
  sub : ∀ q, Sub (table t q) (table s q)

theorem areas_of_le (h : Spaces s) {q : ℕ} (hq : s.nextPid ≤ q) : areas s q = [] :=
  eq_nil_iff_forall_not_mem.mpr fun _ ha =>
    absurd (h.lt_of_mem ha) (Nat.not_lt.mpr hq)

theorem countP_objs {x : ℕ} (l : List Vmarea) :
    (l.filter (·.vmaObj.isSome)).countP (holds s x) = l.countP (holds s x) := by
  rw [countP_filter]
  refine countP_congr fun b _ => ?_
  cases hb : b.vmaObj <;> simp [holds, hb]

section Unchanged

variable {s t : Vm} (hobjs : t.objs = s.objs)
include hobjs

/-- With the objects, what matters is which areas have which objects. -/
theorem sound_of_objs (hn : t.nextObj = s.nextObj) (hf : t.nextFrame = s.nextFrame)
    (huses : ∀ x, uses t x = uses s x) (hspaces : Spaces t)
    (hmem : ∀ q i y, (∃ a ∈ areas t q, a.vmaId = i ∧ a.vmaObj = some y) ↔
      ∃ a ∈ areas s q, a.vmaId = i ∧ a.vmaObj = some y) (h : Sound s) : Sound t := by
  have hrel := Relabelled.of_objs hobjs
  refine ⟨hrel.heap h.heap hn hf, hspaces, ⟨?_, ?_⟩, ⟨?_, fun b q i => ?_⟩⟩
  · intro x ob hob hv
    rw [hobjs] at hob
    rw [huses]
    exact h.counts.exact x ob hob hv
  · intro x ob hob hv
    rw [hobjs] at hob
    rw [huses]
    exact h.counts.file x ob hob hv
  · rw [vmasAt_of_objs hobjs]
    exact h.links.nodup
  · rw [vmasAt_of_objs hobjs, h.links.mem_iff, hrel.bottom_eq]
    constructor
    · rintro ⟨a, ha, hid, y, hy, hbot⟩
      obtain ⟨c, hc, hid, hy⟩ := (hmem q i y).mpr ⟨a, ha, hid, hy⟩
      exact ⟨c, hc, hid, y, hy, hbot⟩
    · rintro ⟨a, ha, hid, y, hy, hbot⟩
      obtain ⟨c, hc, hid, hy⟩ := (hmem q i y).mp ⟨a, ha, hid, hy⟩
      exact ⟨c, hc, hid, y, hy, hbot⟩

variable
  (hareas : ∀ q, (areas t q).filter (·.vmaObj.isSome) = (areas s q).filter (·.vmaObj.isSome))
include hareas

theorem uses_of_filter (hpid : s.nextPid ≤ t.nextPid) (h : Spaces s) (x : ℕ) :
    uses t x = uses s x := by
  have hholds : holds t x = holds s x := funext fun b =>
    holds_congr fun y _ => congrFun (Relabelled.of_objs hobjs).chain_eq y
  have hcount : ∀ q, (areas t q).countP (holds s x) = (areas s q).countP (holds s x) := fun q => by
    rw [← countP_objs, hareas, countP_objs]
  unfold uses
  rw [hholds, Finset.sum_congr rfl fun q _ => hcount q]
  refine (Finset.sum_subset (Finset.range_mono hpid) fun q _ hq => ?_).symm
  rw [areas_of_le h (Nat.le_of_not_lt fun hlt => hq (Finset.mem_range.mpr hlt))]
  rfl

theorem sound_of_filter (hn : t.nextObj = s.nextObj) (hf : t.nextFrame = s.nextFrame)
    (hpid : s.nextPid ≤ t.nextPid) (hwf : ∀ q, WellFormed t.nextVma (areas t q))
    (hlt : ∀ q, (t.procs q).isSome → q < t.nextPid)
    (howner : ∀ q map r, mapOf t q = some map → map.vmmProc = some r → (t.procs r).isSome)
    (h : Sound s) : Sound t := by
  have hmem : ∀ q b y, b.vmaObj = some y → (b ∈ areas t q ↔ b ∈ areas s q) := by
    intro q b y hy
    have hiff := congrArg (b ∈ ·) (hareas q)
    simpa [mem_filter, hy] using hiff
  refine sound_of_objs hobjs hn hf (uses_of_filter hobjs hareas hpid h.spaces)
    ⟨hwf, hlt, howner, fun q b hb y hy => ?_⟩ (fun q i y => ?_) h
  · rw [hobjs]
    exact h.spaces.live q b ((hmem q b y hy).mp hb) y hy
  · exact exists_congr fun a => ⟨fun ⟨ha, hid, hy⟩ => ⟨(hmem q a y hy).mp ha, hid, hy⟩,
      fun ⟨ha, hid, hy⟩ => ⟨(hmem q a y hy).mpr ha, hid, hy⟩⟩

end Unchanged

/-- The entries of page directories play no part in the counts and the links. -/
theorem sound_withTable (h : Sound s) (p : ℕ) (pd : Pagedir) : Sound (withTable s p pd) := by
  refine sound_of_filter (s := s) rfl (fun q => by rw [areas_withTable]) rfl rfl (Nat.le_refl _)
    (fun q => ?_) (fun q hq => ?_) (fun q map r hm hr => ?_) h
  · rw [areas_withTable]
    exact h.spaces.wf q
  · rw [isSome_withTable] at hq
    exact h.spaces.pid_lt q hq
  · rw [mapOf_withTable] at hm
    rw [isSome_withTable]
    exact h.spaces.owner q map r hm hr

namespace Quiet

variable {s t : Vm}

theorem uses_eq (hq : Quiet s t) (h : Spaces s) (x : ℕ) : uses t x = uses s x :=
  uses_of_filter hq.objs (fun q => by rw [hq.areas_eq]) hq.nextPid h x

theorem sound (hq : Quiet s t) (h : Sound s) : Sound t := by
  refine sound_of_filter hq.objs (fun q => by rw [hq.areas_eq]) hq.nextObj hq.nextFrame hq.nextPid
    ?_ hq.pid_lt hq.owner h
  rw [hq.nextVma, hq.areas_eq]
  exact h.spaces.wf

theorem descends (hq : Quiet s t) (h : Sound s) : Descends s t where
  origin := fun q b hb => ⟨b, by rwa [← hq.areas_eq], rfl, rfl, .refl b⟩
  keeps := (Relabelled.of_objs hq.objs).same
  old := fun x hx => by rwa [hq.objs] at hx
  live := fun q b hb y hy x hx => by
    rw [hq.areas_eq] at hb
    rw [hq.objs]
    exact h.heap.live_of_mem (h.obj_live hb hy) hx
  vnLen := hq.vnLen
  sub := hq.sub
  home := fun q vfn _ a ha hcov => ⟨a, by rwa [hq.areas_eq], hcov, rfl, .refl a⟩
  files := fun x ob hob _ =>
    ⟨ob, by rw [hq.objs, hob], ⟨rfl, rfl, rfl, rfl⟩, by rw [hq.uses_eq h.spaces]⟩

theorem ok (hq : Quiet s t) (h : Ok s) : Ok t := (hq.descends h.sound).ok h (hq.sound h.sound)

end Quiet

/-- The state after the bounds of an area have been changed in place. -/
structure Retraced (s t : Vm) (p : ℕ) (a : Vmarea) (f : Vmarea → Vmarea) : Prop where
  edited : Edited s t p (editArea a.vmaId f (areas s p))
  objs : t.objs = s.objs
  rest : SameRest s t
  nextObj : t.nextObj = s.nextObj
  nextVma : t.nextVma = s.nextVma

section Retracing

variable {s t : Vm} {p q x : ℕ} {a b : Vmarea} {f : Vmarea → Vmarea}

/-- The fields of an invariant that concern processes, when objects and owners stay. -/
theorem spaces_of_edited (h : Spaces s) {l : List Vmarea} (he : Edited s t p l)
    (hr : SameRest s t) (hwf : WellFormed t.nextVma l) (hn : s.nextVma ≤ t.nextVma)
    (hlive : ∀ q, ∀ b ∈ areas t q, ∀ o, b.vmaObj = some o → (t.objs o).isSome) : Spaces t := by
  refine ⟨fun q => ?_, fun q hq => ?_, fun q map r hmap hr' => ?_, hlive⟩
  · by_cases hq : q = p
    · subst hq
      rw [he.self]
      exact hwf
    · rw [he.others q hq]
      exact (h.wf q).mono hn
  · rw [hr.procs] at hq
    rw [hr.nextPid]
    exact h.pid_lt q hq
  · have how := he.owner q
    rw [hmap, map_some, hr'] at how
    obtain ⟨map', hmap', hr''⟩ := map_eq_some_iff.mp how.symm
    rw [hr.procs]
    exact h.owner q map' r hmap' hr''

theorem mem_of_edited (he : Edited s t p (editArea a.vmaId f (areas s p))) (h : Sound s)
    (ha : a ∈ areas s p) : b ∈ areas t q ↔
      (b ∈ areas s q ∧ (q, b.vmaId) ≠ (p, a.vmaId)) ∨ (q = p ∧ b = f a) := by
  by_cases hq : q = p
  · subst hq
    rw [he.self, (perm_editArea (h.spaces.wf q).ids ha f).mem_iff, mem_cons, mem_filter]
    simp [or_comm]
  · rw [he.others q hq]
    simp [hq]

section

variable (hr : Retraced s t p a f)
include hr

theorem Retraced.uses_eq (hobj : ∀ b, (f b).vmaObj = b.vmaObj) (x : ℕ) : uses t x = uses s x := by
  have hholds : ∀ b, holds t x b = holds s x b := fun b =>
    holds_congr fun y _ => congrFun (Relabelled.of_objs hr.objs).chain_eq y
  unfold uses
  rw [hr.rest.nextPid]
  refine Finset.sum_congr rfl fun q _ => ?_
  rw [countP_congr fun b _ => by rw [hholds b]]
  by_cases hq : q = p
  · subst hq
    rw [hr.edited.self, editArea, countP_map]
    refine countP_congr fun b _ => ?_
    by_cases hid : b.vmaId = a.vmaId
    · simp [hid, holds, hobj]
    · simp [hid]
  · rw [hr.edited.others q hq]

theorem Retraced.sound (h : Sound s) (ha : a ∈ areas s p) (hid : ∀ b, (f b).vmaId = b.vmaId)
    (hobj : ∀ b, (f b).vmaObj = b.vmaObj)
    (hwf : WellFormed s.nextVma (editArea a.vmaId f (areas s p))) : Sound t := by
  have hmem := fun q b => mem_of_edited (q := q) (b := b) hr.edited h ha
  refine sound_of_objs hr.objs hr.nextObj hr.rest.nextFrame (hr.uses_eq hobj) ?_
    (fun q i y => ⟨?_, ?_⟩) h
  · refine spaces_of_edited h.spaces hr.edited hr.rest (by rw [hr.nextVma]; exact hwf)
      (Nat.le_of_eq hr.nextVma.symm) fun q b hb o ho => ?_
    rw [hr.objs]
    rcases (hmem q b).mp hb with ⟨hb, -⟩ | ⟨rfl, rfl⟩
    · exact h.spaces.live q b hb o ho
    · exact h.spaces.live q a ha o (by rwa [hobj] at ho)
  · rintro ⟨c, hc, rfl, hy⟩
    rcases (hmem q c).mp hc with ⟨hc, -⟩ | ⟨rfl, rfl⟩
    · exact ⟨c, hc, rfl, hy⟩
    · exact ⟨a, ha, (hid a).symm, by rwa [hobj] at hy⟩
  · rintro ⟨c, hc, rfl, hy⟩
    by_cases hca : (q, c.vmaId) = (p, a.vmaId)
    · obtain ⟨rfl, hid'⟩ := Prod.mk.inj hca
      obtain rfl := eq_of_id (h.spaces.wf q).ids hc ha hid'
      exact ⟨f c, (hmem q _).mpr (.inr ⟨rfl, rfl⟩), hid c, by rwa [hobj]⟩
    · exact ⟨c, (hmem q c).mpr (.inl ⟨hc, hca⟩), rfl, hy⟩

theorem Retraced.descends (h : Sound s) (ha : a ∈ areas s p) (hobj : ∀ b, (f b).vmaObj = b.vmaObj)
    (hflags : (f a).vmaFlags = a.vmaFlags) (hal : Aligned (f a) a)
    (hsub : ∀ q, Sub (table t q) (table s q))
    (hhome : ∀ vfn, ptEntry (table t p) vfn ≠ none → covers a vfn → covers (f a) vfn) :
    Descends s t where
  origin := fun q b hb => by
    rcases (mem_of_edited hr.edited h ha).mp hb with ⟨hb, -⟩ | ⟨rfl, rfl⟩
    · exact ⟨b, hb, rfl, rfl, .refl b⟩
    · exact ⟨a, ha, hobj a, hflags, hal⟩
  keeps := (Relabelled.of_objs hr.objs).same
  old := fun x hx => by rwa [hr.objs] at hx
  live := fun q b hb y hy x hx => by
    have hy' : (s.objs y).isSome := by
      rcases (mem_of_edited hr.edited h ha).mp hb with ⟨hb, -⟩ | ⟨rfl, rfl⟩
      · exact h.spaces.live q b hb y hy
      · exact h.spaces.live q a ha y (hobj a ▸ hy)
    rw [hr.objs]
    exact h.heap.live_of_mem hy' hx
  vnLen := hr.rest.vnLen
  sub := hsub
  home := fun q vfn he b hb hcov => by
    by_cases hba : (q, b.vmaId) = (p, a.vmaId)
    · obtain ⟨rfl, hid⟩ := Prod.mk.inj hba
      obtain rfl := eq_of_id (h.spaces.wf q).ids hb ha hid
      exact ⟨f b, (mem_of_edited hr.edited h ha).mpr (.inr ⟨rfl, rfl⟩), hhome vfn he hcov,
        hobj b, hal⟩
    · exact ⟨b, (mem_of_edited hr.edited h ha).mpr (.inl ⟨hb, hba⟩), hcov, rfl, .refl b⟩
  files := fun x ob hob _ =>
    ⟨ob, by rw [hr.objs, hob], ⟨rfl, rfl, rfl, rfl⟩, by rw [hr.uses_eq hobj]⟩

end

end Retracing

/-- An area is put at the end of a list of areas; the union of a shadow object has none. -/
def linkUn (v : ℕ × ℕ) : MmobjUn → MmobjUn
  | .vmas l => .vmas (l ++ [v])
  | .bottomObj b => .bottomObj b

/-- The state with the area at the end of the list of an object. -/
def linked (s : Vm) (b : ℕ) (v : ℕ × ℕ) : Vm :=
  { s with objs := fun x => (s.objs x).map fun ob =>
      { ob with mmoUn := if x = b then linkUn v ob.mmoUn else ob.mmoUn } }

variable {ob : Mmobj}

theorem linkVma_eq {b : ℕ} {l : List (ℕ × ℕ)} (hob : s.objs b = some ob) (hl : ob.mmoUn = .vmas l)
    (v : ℕ × ℕ) : linkVma s b v = .ok (linked s b v) := by
  simp only [linkVma, getObj, hob, need_some, ok_bind, hl, pure_eq_ok, Except.ok.injEq]
  refine Vm.ext rfl ?_ rfl rfl rfl rfl rfl rfl rfl
  funext x
  by_cases hx : x = b
  · subst hx
    simp [Vm.setObj, linked, hob, hl, linkUn]
  · simp [Vm.setObj, linked, hx]

/-- An object after an area has got a chain: with one more reference, if references are
taken, and with the area on its list, if it is the bottom. -/
def moreArea (r : Bool) (s : Vm) (o : ℕ) (v : ℕ × ℕ) (x : ℕ) : Option Mmobj :=
  (s.objs x).map fun ob =>
    { ob with
      mmoRefcount := ob.mmoRefcount + (if r ∧ x ∈ chain s o then 1 else 0)
      mmoUn := if x = bottom s o then linkUn v ob.mmoUn else ob.mmoUn }

/-- The state after an area has got the object `o`. The areas that have objects are the same
but for this one, whether it was there before or not. -/
structure Gained (r : Bool) (s t : Vm) (p : ℕ) (l : List Vmarea) (a : Vmarea) (o : ℕ) : Prop where
  objs : t.objs = moreArea r s o (p, a.vmaId)
  edited : Edited s t p l
  perm : (l.filter (·.vmaObj.isSome)).Perm (a :: (areas s p).filter (·.vmaObj.isSome))
  obj : a.vmaObj = some o
  wf : WellFormed t.nextVma l
  rest : SameRest s t
  nextObj : t.nextObj = s.nextObj
  nextVma : s.nextVma ≤ t.nextVma

section Gaining

variable {r : Bool} {s t : Vm} {p q o x y : ℕ} {l : List Vmarea} {a b : Vmarea}

theorem moreArea_eq_some {v : ℕ × ℕ} {ob' : Mmobj} (h : moreArea r s o v x = some ob') :
    ∃ ob, s.objs x = some ob ∧ SameObj ob ob' ∧
      ob'.mmoRefcount = ob.mmoRefcount + (if r ∧ x ∈ chain s o then 1 else 0) ∧
      ob'.mmoUn = if x = bottom s o then linkUn v ob.mmoUn else ob.mmoUn := by
  obtain ⟨ob, hob, rfl⟩ := map_eq_some_iff.mp h
  exact ⟨ob, hob, ⟨rfl, rfl, rfl, rfl⟩, rfl, rfl⟩

theorem moreArea_eq_linked (s : Vm) (o : ℕ) (v : ℕ × ℕ) :
    moreArea true s o v = (linked (bump s (chain s o)) (bottom s o) v).objs := by
  funext x
  by_cases hx : x ∈ chain s o
  · simp [moreArea, linked, bump, hx, addRef, Function.comp_def]
  · simp [moreArea, linked, bump, hx]

theorem relabelled_of_moreArea {v : ℕ × ℕ} (h : t.objs = moreArea r s o v) : Relabelled s t := by
  refine ⟨fun x => ?_, fun x ob ob' hob hob' => ?_, fun x ob ob' hob hob' => ?_⟩
  · rw [h, moreArea, isSome_map]
  all_goals
    rw [h] at hob'
    obtain ⟨ob1, hob1, hsame, -, hun⟩ := moreArea_eq_some hob'
    obtain rfl := some.inj (hob.symm.trans hob1)
  · exact hsame
  · rw [hun]
    by_cases hx : x = bottom s o
    · rw [if_pos hx]
      cases hu : ob.mmoUn with
      | vmas l => exact .inr ⟨l, _, rfl, rfl⟩
      | bottomObj b => exact .inl rfl
    · rw [if_neg hx]
      exact .inl rfl

theorem Gained.relabelled (hg : Gained r s t p l a o) : Relabelled s t :=
  relabelled_of_moreArea hg.objs

section NewArea

variable (he : Edited s t p l)
  (hperm : (l.filter (·.vmaObj.isSome)).Perm (a :: (areas s p).filter (·.vmaObj.isSome)))
include he hperm

theorem mem_of_perm (hb : b.vmaObj = some y) : b ∈ areas t q ↔ b ∈ areas s q ∨ (q = p ∧ b = a) := by
  by_cases hq : q = p
  · subst hq
    have hmem := hperm.mem_iff (a := b)
    simp only [mem_filter, mem_cons, hb, isSome_some, and_true] at hmem
    rw [he.self, hmem]
    simp [or_comm]
  · rw [he.others q hq]
    simp [hq]

variable (hobj : a.vmaObj = some o)
include hobj

theorem uses_of_perm (hn : t.nextPid = s.nextPid) (hp : p < s.nextPid)
    (hold : ∀ q, (areas s q).countP (holds t x) = (areas s q).countP (holds s x)) :
    uses t x = uses s x + if x ∈ chain t o then 1 else 0 := by
  have hself : (areas t p).countP (holds t x) =
      (areas s p).countP (holds s x) + if x ∈ chain t o then 1 else 0 := by
    rw [he.self, ← countP_objs l, hperm.countP_eq, countP_cons, countP_objs, hold,
      holds_of_obj hobj]
    simp
  have hsum := sum_change (f := fun q => (areas s q).countP (holds s x))
    (g := fun q => (areas t q).countP (holds t x)) hp fun q hq => by rw [he.others q hq, hold]
  unfold uses
  rw [hn]
  omega

theorem links_of_perm (hwf : WellFormed t.nextVma l) (h : Sound s)
    (hvmas : ∀ x, vmasAt t x = vmasAt s x ++ if x = bottom t o then [(p, a.vmaId)] else [])
    (hbot : ∀ y, (s.objs y).isSome → bottom t y = bottom s y) : Links t := by
  have hmem : ∀ q b y, b.vmaObj = some y → (b ∈ areas t q ↔ b ∈ areas s q ∨ (q = p ∧ b = a)) :=
    fun _ _ _ => mem_of_perm he hperm
  have hids : (a.vmaId :: ((areas s p).filter (·.vmaObj.isSome)).map Vmarea.vmaId).Nodup :=
    (hperm.map Vmarea.vmaId).nodup_iff.mp (hwf.ids.sublist (filter_sublist.map _))
  have hfresh : (p, a.vmaId) ∉ vmasAt s (bottom t o) := by
    intro hv
    obtain ⟨b, hb, hid, y, hy, -⟩ := (h.links.mem_iff _ p a.vmaId).mp hv
    refine (nodup_cons.mp hids).1 (mem_map.mpr ⟨b, mem_filter.mpr ⟨hb, ?_⟩, hid⟩)
    rw [hy]
    rfl
  refine ⟨fun x => ?_, fun x q i => ?_⟩
  · rw [hvmas]
    by_cases hx : x = bottom t o
    · subst hx
      rw [if_pos rfl, nodup_append]
      refine ⟨h.links.nodup _, by simp, fun v hv w hw heq => hfresh ?_⟩
      rwa [← mem_singleton.mp hw, ← heq]
    · rw [if_neg hx, append_nil]
      exact h.links.nodup x
  · have hv : (q, i) ∈ vmasAt t x ↔
        (q, i) ∈ vmasAt s x ∨ (x = bottom t o ∧ (q, i) = (p, a.vmaId)) := by
      rw [hvmas]
      by_cases hx : x = bottom t o <;> simp [hx]
    rw [hv, h.links.mem_iff]
    constructor
    · rintro (⟨b, hb, hid, y, hy, hbt⟩ | ⟨rfl, heq⟩)
      · exact ⟨b, (hmem q b y hy).mpr (.inl hb), hid, y, hy, (hbot y (h.obj_live hb hy)).trans hbt⟩
      · obtain ⟨rfl, rfl⟩ := Prod.mk.inj heq
        exact ⟨a, (hmem q a o hobj).mpr (.inr ⟨rfl, rfl⟩), rfl, o, hobj, rfl⟩
    · rintro ⟨b, hb, hid, y, hy, hbt⟩
      rcases (hmem q b y hy).mp hb with hb | ⟨rfl, rfl⟩
      · exact .inl ⟨b, hb, hid, y, hy, (hbot y (h.obj_live hb hy)).symm.trans hbt⟩
      · obtain rfl := some.inj (hy.symm.trans hobj)
        exact .inr ⟨hbt.symm, by rw [hid]⟩

end NewArea

theorem Gained.mem_iff (hg : Gained r s t p l a o) (hb : b.vmaObj = some y) :
    b ∈ areas t q ↔ b ∈ areas s q ∨ (q = p ∧ b = a) := mem_of_perm hg.edited hg.perm hb

theorem Gained.uses_eq (hg : Gained r s t p l a o) (h : Spaces s) (hp : (s.procs p).isSome)
    (x : ℕ) : uses t x = uses s x + if x ∈ chain s o then 1 else 0 := by
  have hchain := congrFun hg.relabelled.chain_eq
  rw [← hchain]
  refine uses_of_perm hg.edited hg.perm hg.obj hg.rest.nextPid (h.pid_lt p hp) fun q =>
    countP_congr fun b _ => ?_
  rw [holds_congr fun y _ => hchain y]

theorem vmasAt_of_obj {m : List (ℕ × ℕ)} (h : s.objs x = some ob) (hu : ob.mmoUn = .vmas m) :
    vmasAt s x = m := by
  simp [vmasAt, h, hu]

theorem Gained.vmasAt_eq (hg : Gained r s t p l a o) (h : Heap s) (ho : (s.objs o).isSome)
    (x : ℕ) : vmasAt t x = vmasAt s x ++ if x = bottom s o then [(p, a.vmaId)] else [] := by
  obtain ⟨ob, hob, -, -, hl⟩ := h.bottom_spec ho
  by_cases hx : x = bottom s o
  · subst hx
    rw [if_pos rfl]
    exact vmasAt_of_obj (by rw [hg.objs, moreArea, hob, map_some]) (by simp [hl, linkUn])
  · cases hob : s.objs x <;> simp [vmasAt, hg.objs, moreArea, hob, hx]

theorem Gained.links (hg : Gained r s t p l a o) (h : Sound s) (ho : (s.objs o).isSome) :
    Links t := by
  refine links_of_perm hg.edited hg.perm hg.obj hg.wf h (fun x => ?_) fun y _ => ?_
  · rw [hg.vmasAt_eq h.heap ho, hg.relabelled.bottom_eq]
  · rw [hg.relabelled.bottom_eq]

theorem Gained.spaces (hg : Gained r s t p l a o) (h : Spaces s) (ho : (s.objs o).isSome) :
    Spaces t := by
  refine spaces_of_edited h hg.edited hg.rest hg.wf hg.nextVma fun q b hb y hy => ?_
  rw [hg.relabelled.isSome]
  rcases (hg.mem_iff hy).mp hb with hb | ⟨rfl, rfl⟩
  · exact h.live q b hb y hy
  · rwa [← some.inj (hg.obj.symm.trans hy)]

theorem Gained.sound (hg : Gained true s t p l a o) (h : Sound s) (ho : (s.objs o).isSome)
    (hp : (s.procs p).isSome) : Sound t := by
  refine ⟨hg.relabelled.heap h.heap hg.nextObj hg.rest.nextFrame, hg.spaces h.spaces ho,
    ⟨fun x ob' hob' hv => ?_, fun x ob' hob' hv => ?_⟩, hg.links h ho⟩
  all_goals
    rw [hg.objs] at hob'
    obtain ⟨ob, hob, hsame, href, -⟩ := moreArea_eq_some hob'
    rw [hsame.ops] at hv
    rw [hg.uses_eq h.spaces hp, hsame.nres, href]
    simp only [true_and]
  · have hex := h.counts.exact x ob hob hv
    exact ⟨by omega, by omega⟩
  · have hf := h.counts.file x ob hob hv
    split_ifs <;> omega

theorem Gained.sound_file (hg : Gained false s t p l a o) (h : Sound s) (ho : s.objs o = some ob)
    (hops : ob.mmoOps = .vnode) (hspare : ob.mmoNrespages + uses s o + 1 < ob.mmoRefcount)
    (hp : (s.procs p).isSome) :
    Sound t := by
  have hlive : (s.objs o).isSome := by rw [ho]; rfl
  have hnone : below s o = none :=
    (below_of_obj ho).trans (h.heap.bottom_eq_self ho (by rw [hops]; decide)).1
  have hchain : chain s o = [o] := ParentChains.chain_of_none hnone
  refine ⟨hg.relabelled.heap h.heap hg.nextObj hg.rest.nextFrame, hg.spaces h.spaces hlive,
    ⟨fun x ob' hob' hv => ?_, fun x ob' hob' hv => ?_⟩, hg.links h hlive⟩
  all_goals
    rw [hg.objs] at hob'
    obtain ⟨ob1, hob1, hsame, href, -⟩ := moreArea_eq_some hob'
    rw [hsame.ops] at hv
    rw [hg.uses_eq h.spaces hp, hsame.nres, href, hchain]
    simp only [mem_singleton, Bool.false_eq_true, false_and, if_false, Nat.add_zero]
  · have hex := h.counts.exact x ob1 hob1 hv
    have hx : x ≠ o := by
      rintro rfl
      rw [some.inj (ho.symm.trans hob1)] at hops
      exact hv hops
    rw [if_neg hx]
    exact hex
  · have hf := h.counts.file x ob1 hob1 hv
    by_cases hx : x = o
    · subst hx
      obtain rfl := some.inj (ho.symm.trans hob1)
      rw [if_pos rfl]
      omega
    · rw [if_neg hx]
      omega

end Gaining

/-- The heap afterwards has one more object, without pages. -/
structure Fresh (s t : Vm) (ob : Mmobj) : Prop where
  objs : t.objs = update s.objs s.nextObj (some ob)
  nextObj : t.nextObj = s.nextObj+1
  nextFrame : t.nextFrame = s.nextFrame
  nres : ob.mmoNrespages = 0
  pages : ob.mmoRespages = []
  made : WellMade s s.nextObj ob

namespace Fresh

variable {s t : Vm} {x : ℕ} {ob ob' : Mmobj}

section

variable (hf : Fresh s t ob)
include hf

theorem objs_ne (hx : x ≠ s.nextObj) : t.objs x = s.objs x := by
  rw [hf.objs, update_of_ne hx]

theorem objs_self : t.objs s.nextObj = some ob := by
  rw [hf.objs, update_self]

theorem cases (h : t.objs x = some ob') : (x = s.nextObj ∧ ob' = ob) ∨ s.objs x = some ob' := by
  by_cases hx : x = s.nextObj
  · subst hx
    rw [hf.objs_self] at h
    exact .inl ⟨rfl, (some.inj h).symm⟩
  · rw [hf.objs_ne hx] at h
    exact .inr h

theorem below_cases {y : ℕ} (h : below t x = some y) :
    (x = s.nextObj ∧ ob.mmoShadowed = some y) ∨ below s x = some y := by
  by_cases hx : x = s.nextObj
  · subst hx
    exact .inl ⟨rfl, (below_of_obj hf.objs_self).symm.trans h⟩
  · rw [below, hf.objs_ne hx] at h
    exact .inr h

theorem keeps (h : Heap s) : KeepsObjs s t := by
  intro x ob1 ob2 hob1 hob2
  have hx : x ≠ s.nextObj := h.ne_next (by rw [hob1]; rfl)
  rw [hf.objs_ne hx, hob1] at hob2
  obtain rfl := some.inj hob2
  exact ⟨rfl, rfl, rfl, rfl⟩

theorem isSome (h : Heap s) (hx : (s.objs x).isSome) : (t.objs x).isSome := by
  rwa [hf.objs_ne (h.ne_next hx)]

theorem chain_eq (h : Heap s) (hx : (s.objs x).isSome) : chain t x = chain s x :=
  (hf.keeps h).chain_eq (fun _ hy => h.live_of_mem hx hy)
    fun _ hy => hf.isSome h (h.live_of_mem hx hy)

theorem bottom_eq (h : Heap s) (hx : (s.objs x).isSome) : bottom t x = bottom s x := by
  rw [bottom_eq_getLastD, bottom_eq_getLastD, hf.chain_eq h hx]

theorem heap (h : Heap s) : Heap t := by
  have hmade : ∀ x ob', WellMade s x ob' → WellMade t x ob' := by
    intro x ob' hw
    unfold WellMade at hw ⊢
    cases hsh : ob'.mmoShadowed with
    | none => rwa [hsh] at hw
    | some y =>
      rw [hsh] at hw
      exact ⟨hw.1, hw.2.1, hf.isSome h hw.2.2.1, by rw [hf.bottom_eq h hw.2.2.1, hw.2.2.2]⟩
  refine ⟨fun x ob' hob' => ?_, fun x ob' hob' => ?_, fun x ob' hob' => ?_,
    fun x ob' hob' => ?_, fun x ob' hob' pf hpf => ?_, fun x y obx oby hx hy pf hpf pf' hpf' => ?_⟩
  · rw [hf.nextObj]
    rcases hf.cases hob' with ⟨rfl, -⟩ | hob
    · exact Nat.lt_succ_self _
    · exact Nat.lt_succ_of_lt (h.lt_next x ob' hob)
  · rcases hf.cases hob' with ⟨rfl, rfl⟩ | hob
    · exact hmade _ _ hf.made
    · exact hmade x ob' (h.wellMade x ob' hob)
  · rcases hf.cases hob' with ⟨-, rfl⟩ | hob
    · rw [hf.nres, hf.pages]
      rfl
    · exact h.nres x ob' hob
  · rcases hf.cases hob' with ⟨-, rfl⟩ | hob
    · rw [hf.pages]
      exact nodup_nil
    · exact h.nodup x ob' hob
  · rw [hf.nextFrame]
    rcases hf.cases hob' with ⟨-, rfl⟩ | hob
    · rw [hf.pages] at hpf
      cases hpf
    · exact h.frame_lt x ob' hob pf hpf
  · rcases hf.cases hx with ⟨-, rfl⟩ | hx
    · rw [hf.pages] at hpf
      cases hpf
    · rcases hf.cases hy with ⟨-, rfl⟩ | hy
      · rw [hf.pages] at hpf'
        cases hpf'
      · exact h.frame_inj x y obx oby hx hy pf hpf pf' hpf'

theorem holds_eq (h : Sound s) {q : ℕ} {b : Vmarea} (hb : b ∈ areas s q) (x : ℕ) :
    holds t x b = holds s x b :=
  holds_congr fun y hy => hf.chain_eq h.heap (h.spaces.live q b hb y hy)

end

end Fresh

theorem uses_next (h : Sound s) : uses s s.nextObj = 0 := by
  by_contra hne
  obtain ⟨q, b, hb, hold⟩ := exists_of_uses_pos (Nat.pos_of_ne_zero hne)
  obtain ⟨y, hy, hmem⟩ := holds_iff.mp hold
  exact h.heap.ne_next (h.heap.live_of_mem (h.spaces.live q b hb y hy) hmem) rfl

/-- With one more use of the one fresh reference, the counts are right again. -/
theorem Fresh.counts (hf : Fresh s t ob) (h : Sound s) (href : ob.mmoRefcount = 1)
    (hops : ob.mmoOps ≠ .vnode) (huses : ∀ x, uses t x = uses s x + if x = s.nextObj then 1 else 0)
    : Counts t := by
  refine ⟨fun x ob' hob' hv => ?_, fun x ob' hob' hv => ?_⟩
  · rw [huses]
    rcases hf.cases hob' with ⟨rfl, rfl⟩ | hob
    · simp [uses_next h, href, hf.nres]
    · rw [if_neg (h.heap.ne_next (by rw [hob]; rfl))]
      exact h.counts.exact x ob' hob hv
  · rw [huses]
    rcases hf.cases hob' with ⟨rfl, rfl⟩ | hob
    · exact absurd hv hops
    · rw [if_neg (h.heap.ne_next (by rw [hob]; rfl))]
      exact h.counts.file x ob' hob hv

/-- A shadow object over `o`. -/
def shadowOver (s : Vm) (o : ℕ) : Mmobj :=
  ⟨.shadow, 1, 0, [], .bottomObj (bottom s o), some o⟩

/-- The state after a fresh shadow object has been put over the object `o` of an area. -/
structure Shadowed (s t : Vm) (p : ℕ) (a : Vmarea) (o : ℕ) : Prop where
  obj : a.vmaObj = some o
  fresh : Fresh s t (shadowOver s o)
  edited : Edited s t p
    (editArea a.vmaId (fun b => { b with vmaObj := some s.nextObj }) (areas s p))
  rest : SameRest s t
  nextVma : t.nextVma = s.nextVma

section Shadowing

variable {s t : Vm} {p q o x y : ℕ} {a b : Vmarea}

section

variable (hs : Shadowed s t p a o)
include hs

theorem Shadowed.mem_iff (h : Sound s) (ha : a ∈ areas s p) :
    b ∈ areas t q ↔ (b ∈ areas s q ∧ (q, b.vmaId) ≠ (p, a.vmaId)) ∨
      (q = p ∧ b = { a with vmaObj := some s.nextObj }) := mem_of_edited hs.edited h ha

theorem Shadowed.chain_next (h : Heap s) (ho : (s.objs o).isSome) :
    chain t s.nextObj = s.nextObj :: chain s o := by
  have hb : below t s.nextObj = some o := below_of_obj hs.fresh.objs_self
  rw [chain, ParentChains.chain_of_some (hs.fresh.heap h).decreasing hb, ← hs.fresh.chain_eq h ho]
  rfl

theorem Shadowed.uses_eq (h : Sound s) (ha : a ∈ areas s p) (x : ℕ) :
    uses t x = uses s x + if x = s.nextObj then 1 else 0 := by
  have ho := h.spaces.live p a ha o hs.obj
  have hnew : s.nextObj ∉ chain s o := fun hmem => h.heap.ne_next (h.heap.live_of_mem ho hmem) rfl
  set l := (areas s p).filter (·.vmaId ≠ a.vmaId) with hl
  have hrest : l.countP (holds t x) = l.countP (holds s x) :=
    countP_congr fun b hb => by rw [hs.fresh.holds_eq h (mem_of_mem_filter hb)]
  have ht : (areas t p).countP (holds t x) =
      l.countP (holds s x) + if x = s.nextObj ∨ x ∈ chain s o then 1 else 0 := by
    rw [hs.edited.self, (perm_editArea (h.spaces.wf p).ids ha _).countP_eq, countP_cons,
      hrest, holds_of_obj rfl, hs.chain_next h.heap ho]
    simp
  have hsum := sum_change (f := fun q => (areas s q).countP (holds s x))
    (g := fun q => (areas t q).countP (holds t x)) (h.spaces.lt_of_mem ha)
    fun q hq => by
      rw [hs.edited.others q hq]
      exact countP_congr fun b hb => by rw [hs.fresh.holds_eq h hb]
  have hsp : (areas s p).countP (holds s x) =
      l.countP (holds s x) + if x ∈ chain s o then 1 else 0 := by
    rw [(perm_filter (h.spaces.wf p).ids ha).countP_eq, countP_cons, holds_of_obj hs.obj, ← hl]
    simp
  simp only [ht, hsp] at hsum
  unfold uses
  rw [hs.rest.nextPid]
  by_cases hx : x = s.nextObj
  · subst hx
    simp only [hnew, or_false, if_true, if_false] at hsum ⊢
    omega
  · simp only [hx, false_or, if_false] at hsum ⊢
    omega

theorem Shadowed.vmasAt_eq (h : Heap s) : vmasAt t = vmasAt s := by
  funext x
  by_cases hx : x = s.nextObj
  · subst hx
    simp [vmasAt, hs.fresh.objs_self, h.fresh_none (Nat.le_refl _), shadowOver]
  · rw [vmasAt, vmasAt, hs.fresh.objs_ne hx]

theorem Shadowed.links (h : Sound s) (ha : a ∈ areas s p) : Links t := by
  have ho := h.spaces.live p a ha o hs.obj
  have hnext : bottom t s.nextObj = bottom s o := by
    rw [← hs.fresh.bottom_eq h.heap ho]
    exact ParentChains.root_of_some (hs.fresh.heap h.heap).decreasing
      (below_of_obj hs.fresh.objs_self)
  refine ⟨by rw [hs.vmasAt_eq h.heap]; exact h.links.nodup, fun x q i => ?_⟩
  rw [hs.vmasAt_eq h.heap, h.links.mem_iff]
  constructor
  · rintro ⟨b, hb, rfl, y, hy, hbot⟩
    by_cases hba : (q, b.vmaId) = (p, a.vmaId)
    · obtain ⟨rfl, hid⟩ := Prod.mk.inj hba
      obtain rfl := eq_of_id (h.spaces.wf q).ids hb ha hid
      obtain rfl := some.inj (hy.symm.trans hs.obj)
      exact ⟨_, (hs.mem_iff h ha).mpr (.inr ⟨rfl, rfl⟩), rfl, _, rfl, hnext.trans hbot⟩
    · refine ⟨b, (hs.mem_iff h ha).mpr (.inl ⟨hb, hba⟩), rfl, y, hy, ?_⟩
      rw [hs.fresh.bottom_eq h.heap (h.spaces.live q b hb y hy), hbot]
  · rintro ⟨b, hb, rfl, y, hy, hbot⟩
    rcases (hs.mem_iff h ha).mp hb with ⟨hb, -⟩ | ⟨rfl, rfl⟩
    · rw [hs.fresh.bottom_eq h.heap (h.spaces.live q b hb y hy)] at hbot
      exact ⟨b, hb, rfl, y, hy, hbot⟩
    · obtain rfl := some.inj hy
      exact ⟨a, ha, rfl, o, hs.obj, hnext.symm.trans hbot⟩

theorem Shadowed.sound (h : Sound s) (ha : a ∈ areas s p) : Sound t := by
  refine ⟨hs.fresh.heap h.heap, ?_, hs.fresh.counts h rfl nofun (hs.uses_eq h ha), hs.links h ha⟩
  refine spaces_of_edited h.spaces hs.edited hs.rest ?_ (Nat.le_of_eq hs.nextVma.symm) ?_
  · rw [hs.nextVma]
    exact (h.spaces.wf p).relabel (fun _ => rfl) (fun _ => rfl) (fun _ => rfl) fun _ => rfl
  · intro q b hb y hy
    rcases (hs.mem_iff h ha).mp hb with ⟨hb, -⟩ | ⟨rfl, rfl⟩
    · exact hs.fresh.isSome h.heap (h.spaces.live q b hb y hy)
    · obtain rfl := some.inj hy
      rw [hs.fresh.objs_self]
      rfl

end

end Shadowing

/-- The state after an area has got an anonymous object of its own. -/
structure Founded (s t : Vm) (p : ℕ) (l : List Vmarea) (a : Vmarea) : Prop where
  obj : a.vmaObj = some s.nextObj
  fresh : Fresh s t ⟨.anon, 1, 0, [], .vmas [(p, a.vmaId)], none⟩
  edited : Edited s t p l
  perm : (l.filter (·.vmaObj.isSome)).Perm (a :: (areas s p).filter (·.vmaObj.isSome))
  wf : WellFormed t.nextVma l
  rest : SameRest s t
  nextVma : s.nextVma ≤ t.nextVma

section Founding

variable {s t : Vm} {p q x y : ℕ} {l : List Vmarea} {a b : Vmarea}

section

variable (hf : Founded s t p l a)
include hf

theorem Founded.mem_iff (hb : b.vmaObj = some y) :
    b ∈ areas t q ↔ b ∈ areas s q ∨ (q = p ∧ b = a) := mem_of_perm hf.edited hf.perm hb

theorem Founded.chain_next : chain t s.nextObj = [s.nextObj] :=
  ParentChains.chain_of_none (below_of_obj hf.fresh.objs_self)

theorem Founded.uses_eq (h : Sound s) (hp : (s.procs p).isSome) (x : ℕ) :
    uses t x = uses s x + if x = s.nextObj then 1 else 0 := by
  rw [uses_of_perm hf.edited hf.perm hf.obj hf.rest.nextPid (h.spaces.pid_lt p hp) fun q =>
    countP_congr fun b hb => by rw [hf.fresh.holds_eq h hb], hf.chain_next]
  simp

theorem Founded.links (h : Sound s) : Links t := by
  have hnext : bottom t s.nextObj = s.nextObj :=
    ParentChains.root_of_none (below_of_obj hf.fresh.objs_self)
  refine links_of_perm hf.edited hf.perm hf.obj hf.wf h (fun x => ?_) fun y =>
    hf.fresh.bottom_eq h.heap
  rw [hnext]
  by_cases hx : x = s.nextObj
  · subst hx
    rw [if_pos rfl, vmasAt_of_obj hf.fresh.objs_self rfl, vmasAt,
      h.heap.fresh_none (Nat.le_refl _)]
    rfl
  · rw [if_neg hx, append_nil, vmasAt, vmasAt, hf.fresh.objs_ne hx]

theorem Founded.sound (h : Sound s) (hp : (s.procs p).isSome) : Sound t := by
  refine ⟨hf.fresh.heap h.heap, ?_, hf.fresh.counts h rfl nofun (hf.uses_eq h hp), hf.links h⟩
  refine spaces_of_edited h.spaces hf.edited hf.rest hf.wf hf.nextVma fun q b hb y hy => ?_
  rcases (hf.mem_iff hy).mp hb with hb | ⟨rfl, rfl⟩
  · exact hf.fresh.isSome h.heap (h.spaces.live q b hb y hy)
  · obtain rfl := some.inj (hy.symm.trans hf.obj)
    rw [hf.fresh.objs_self]
    rfl

end

end Founding

end SystemsProjects.AreaChanges
