import SystemsProjects.AreaOrdering
import Mathlib.Algebra.Order.BigOperators.Group.Finset

/-!
# The invariant of address spaces and objects

The number of references to an object is that of its resident pages and of the areas
whose chains contain it, an object of a file having at least one more; the list of areas
of a bottom object holds exactly the areas over it. The top object of an area, unless it is
the object of a file, is under no other object; the areas over a shadow object belong to one
process and show its pages at the same places. An entry of a page directory belongs to an
area and maps the frame that the walk along the chain of the area comes to first.
-/
namespace SystemsProjects.VmInvariant

open Option
open PageTables VmState MemoryObjects AddressSpaces VmSystemCalls ObjectHeap PageLookup AreaMaps
  AreaOrdering

/-- The chain of the area contains the object. -/
def holds (s : Vm) (o : ℕ) (a : Vmarea) : Bool := a.vmaObj.any fun t => decide (o ∈ chain s t)

/-- The number of areas, over all processes, whose chains contain the object. -/
def uses (s : Vm) (o : ℕ) : ℕ :=
  ∑ p ∈ Finset.range s.nextPid, (areas s p).countP (holds s o)

structure Counts (s : Vm) : Prop where
  exact : ∀ o ob, s.objs o = some ob → ob.mmoOps ≠ .vnode →
    ob.mmoRefcount = ob.mmoNrespages + uses s o ∧ 0 < uses s o
  file : ∀ o ob, s.objs o = some ob → ob.mmoOps = .vnode →
    ob.mmoNrespages + uses s o < ob.mmoRefcount

structure Spaces (s : Vm) : Prop where
  wf : ∀ p, WellFormed s.nextVma (areas s p)
  pid_lt : ∀ p, (s.procs p).isSome → p < s.nextPid
  owner : ∀ p map q, mapOf s p = some map → map.vmmProc = some q → (s.procs q).isSome
  live : ∀ p, ∀ a ∈ areas s p, ∀ o, a.vmaObj = some o → (s.objs o).isSome

structure Links (s : Vm) : Prop where
  nodup : ∀ b, (vmasAt s b).Nodup
  mem_iff : ∀ b p i, (p, i) ∈ vmasAt s b ↔
    ∃ a ∈ areas s p, a.vmaId = i ∧ ∃ o, a.vmaObj = some o ∧ bottom s o = b

structure Sound (s : Vm) : Prop where
  heap : Heap s
  spaces : Spaces s
  counts : Counts s
  links : Links s

/-- Every area has an object, a shadow object exactly if it is private. -/
def Backed (s : Vm) : Prop :=
  ∀ p, ∀ a ∈ areas s p, ∃ o ob, a.vmaObj = some o ∧ s.objs o = some ob ∧
    (hasFlag a.vmaFlags mapShared = !hasFlag a.vmaFlags mapPrivate) ∧
    (ob.mmoOps = .shadow ↔ hasFlag a.vmaFlags mapPrivate)

def IsShadow (s : Vm) (o : ℕ) : Prop := (s.objs o).map Mmobj.mmoOps = some .shadow

/-- The object is an anonymous or a shadow object. -/
def Anonymous (s : Vm) (o : ℕ) : Prop := ∃ ob, s.objs o = some ob ∧ ob.mmoOps ≠ .vnode

variable {s : Vm} {x : ℕ}

theorem anonymous_of_isShadow (h : IsShadow s x) : Anonymous s x := by
  obtain ⟨ob, hob, hops⟩ := map_eq_some_iff.mp h
  exact ⟨ob, hob, by rw [hops]; decide⟩

/-- Two areas show the pages of an object at the same places. -/
def Aligned (a b : Vmarea) : Prop := a.vmaStart + b.vmaOff = b.vmaStart + a.vmaOff

structure Tops (s : Vm) : Prop where
  bare : ∀ p, ∀ a ∈ areas s p, ∀ t, a.vmaObj = some t → Anonymous s t → ∀ o, below s o ≠ some t
  alone : ∀ p q, ∀ a ∈ areas s p, ∀ b ∈ areas s q, ∀ t, a.vmaObj = some t → b.vmaObj = some t →
    IsShadow s t → p = q ∧ Aligned a b

/-- The entry maps the first frame along the chain of an object; it allows writing only if
that frame is of the object itself. -/
structure Shows (s : Vm) (o n : ℕ) (e : Pte) : Prop where
  hit_eq : hit s o n = some e.pteFrame
  inside : frameAt s (bottom s o) n = some e.pteFrame → ¬Beyond s (bottom s o) n
  write : e.pteWrite → frameAt s o n = some e.pteFrame

/-- The entry at a page, if present, shows the page of an area that is there. -/
def EntryOk (s : Vm) (p vfn : ℕ) : Prop :=
  ∀ e, ptEntry (table s p) vfn = some e → ∃ a ∈ areas s p, covers a vfn ∧
    ∃ o, a.vmaObj = some o ∧ Shows s o (pagenum a vfn) e

def Tables (s : Vm) : Prop := ∀ p vfn, EntryOk s p vfn

section Uses

variable {s t : Vm} {o p q : ℕ} {a : Vmarea}

theorem holds_iff : holds s o a = true ↔ ∃ t, a.vmaObj = some t ∧ o ∈ chain s t := by
  cases h : a.vmaObj <;> simp [holds, h]

theorem holds_congr (h : ∀ y, a.vmaObj = some y → chain t y = chain s y) :
    holds t o a = holds s o a := by
  cases ha : a.vmaObj with
  | none => simp [holds, ha]
  | some y => simp [holds, ha, h y ha]

theorem holds_of_obj {y : ℕ} (h : a.vmaObj = some y) : holds s o a = decide (o ∈ chain s y) := by
  simp [holds, h]

theorem Spaces.lt_of_mem (h : Spaces s) (ha : a ∈ areas s p) : p < s.nextPid := by
  obtain ⟨map, hmap⟩ := mapOf_of_mem ha
  exact h.pid_lt p (isSome_of_mapOf hmap)

theorem Spaces.uses_pos (h : Spaces s) (ha : a ∈ areas s p) (ho : holds s o a = true) :
    0 < uses s o := by
  have hp : p ∈ Finset.range s.nextPid := Finset.mem_range.mpr (h.lt_of_mem ha)
  have hc : 0 < (areas s p).countP (holds s o) := List.countP_pos_iff.mpr ⟨a, ha, ho⟩
  exact lt_of_lt_of_le hc
    (Finset.single_le_sum (f := fun q => (areas s q).countP (holds s o)) (fun _ _ => Nat.zero_le _)
      hp)

theorem exists_of_uses_pos (h : 0 < uses s o) : ∃ p, ∃ a ∈ areas s p, holds s o a = true := by
  obtain ⟨p, -, hp⟩ := Finset.exists_ne_zero_of_sum_ne_zero (Nat.pos_iff_ne_zero.mp h)
  obtain ⟨a, ha, ho⟩ := List.countP_pos_iff.mp (Nat.pos_of_ne_zero hp)
  exact ⟨p, a, ha, ho⟩

theorem sum_change {f g : ℕ → ℕ} {n : ℕ} (hp : p < n) (h : ∀ q, q ≠ p → g q = f q) :
    ∑ q ∈ Finset.range n, g q + f p = ∑ q ∈ Finset.range n, f q + g p := by
  have hmem : p ∈ Finset.range n := Finset.mem_range.mpr hp
  have hrest : ∑ q ∈ (Finset.range n).erase p, g q = ∑ q ∈ (Finset.range n).erase p, f q :=
    Finset.sum_congr rfl fun q hq => h q (Finset.ne_of_mem_erase hq)
  rw [← Finset.add_sum_erase _ g hmem, ← Finset.add_sum_erase _ f hmem, hrest]
  omega

end Uses

variable {b : Vmarea}

namespace Sound

variable {s : Vm} {o p : ℕ} {a : Vmarea}

theorem referenced (h : Sound s) : Referenced s := by
  intro x ob hob
  by_cases hv : ob.mmoOps = .vnode
  · have := h.counts.file x ob hob hv
    omega
  · have := h.counts.exact x ob hob hv
    omega

theorem droppable (h : Sound s) (ha : a ∈ areas s p) (ho : a.vmaObj = some o) :
    ∀ x ∈ chain s o, ∀ ob, s.objs x = some ob → Droppable ob := by
  intro x hx ob hob
  have hpos := h.spaces.uses_pos ha (holds_iff.mpr ⟨o, ho, hx⟩)
  by_cases hv : ob.mmoOps = .vnode
  · have := h.counts.file x ob hob hv
    exact ⟨by omega, fun _ => by omega⟩
  · have := h.counts.exact x ob hob hv
    exact ⟨by omega, fun hv' => absurd hv' hv⟩

theorem liveArea_eq (h : Sound s) (ha : a ∈ areas s p) : liveArea (areas s p) a.vmaId = some a := by
  have hwf := h.spaces.wf p
  cases hf : liveArea (areas s p) a.vmaId with
  | none =>
    have hn := List.find?_eq_none.mp hf a ha
    simp [hwf.kept a ha] at hn
  | some b =>
    have hb : b ∈ areas s p := List.mem_of_find?_eq_some hf
    have hid : b.vmaId = a.vmaId := by
      have := List.find?_some hf
      simp only [Bool.and_eq_true, decide_eq_true_eq] at this
      exact this.1
    rw [eq_of_id hwf.ids hb ha hid]

theorem resolvable (h : Sound s) {b : ℕ} {v : ℕ × ℕ} (hv : v ∈ vmasAt s b) :
    Resolvable s.procs v := by
  obtain ⟨q, i⟩ := v
  obtain ⟨c, hc, rfl, -⟩ := (h.links.mem_iff b q i).mp hv
  obtain ⟨map, hmap⟩ := mapOf_of_mem hc
  obtain ⟨r, hr, hm⟩ := mapOf_eq_some.mp hmap
  have hl := h.liveArea_eq hc
  have hrange := (h.spaces.wf q).range c hc
  rw [areas_of_mapOf hmap] at hl
  exact ⟨r, map, c, hr, hm, hl, hrange.1, Nat.le_of_lt hrange.2.1, hrange.2.2,
    fun q' hq' => h.spaces.owner q map q' hmap hq'⟩

theorem eq_of_covers (h : Sound s) {vfn : ℕ} (ha : a ∈ areas s p) (hb : b ∈ areas s p)
    (hav : covers a vfn) (hbv : covers b vfn) : a = b :=
  (h.spaces.wf p).ordered.eq_of_mem ha hb hav hbv

theorem obj_live (h : Sound s) (ha : a ∈ areas s p) (ho : a.vmaObj = some o) :
    (s.objs o).isSome := h.spaces.live p a ha o ho

end Sound

theorem Shows.keeps {t : Vm} {o n : ℕ} {e : Pte} (h : Shows s o n e) (hs : Heap s)
    (hk : KeepsObjs s t) (hlive : ∀ x ∈ chain s o, (s.objs x).isSome)
    (hlive' : ∀ x ∈ chain s o, (t.objs x).isSome) (hvn : t.vnLen = s.vnLen) :
    Shows t o n e := by
  have hbot := hs.bottom_mem o
  have hself := ParentChains.mem_chain_self (below s) o
  refine ⟨?_, ?_, ?_⟩
  · rw [hk.hit_eq hlive hlive', h.hit_eq]
  · rw [hk.bottom_eq hlive hlive', hk.frameAt_eq (hlive _ hbot) (hlive' _ hbot)]
    intro hfr hbey
    refine h.inside hfr ?_
    unfold Beyond at *
    rwa [hk.ops_eq (hlive _ hbot) (hlive' _ hbot), hvn] at hbey
  · rw [hk.frameAt_eq (hlive _ hself) (hlive' _ hself)]
    exact h.write

section Kept

variable {t : Vm} (hk : KeepsObjs s t)
include hk

theorem isShadow_of_kept (hs : (s.objs x).isSome) (h : IsShadow t x) : IsShadow s x := by
  obtain ⟨ob', hob', hops⟩ := map_eq_some_iff.mp h
  obtain ⟨ob, hob⟩ := isSome_iff_exists.mp hs
  rw [IsShadow, hob, map_some, ← (hk x ob ob' hob hob').ops, hops]

theorem anonymous_of_kept (hs : (s.objs x).isSome) (h : Anonymous t x) : Anonymous s x := by
  obtain ⟨ob', hob', hops⟩ := h
  obtain ⟨ob, hob⟩ := isSome_iff_exists.mp hs
  exact ⟨ob, hob, by rwa [(hk x ob ob' hob hob').ops] at hops⟩

/-- The object of an area is still of the kind that the flags of the area ask for. -/
theorem backed_of_kept {v : Option ℕ} {P Q : Prop}
    (h : ∃ o ob, v = some o ∧ s.objs o = some ob ∧ P ∧ (ob.mmoOps = .shadow ↔ Q))
    (ht : ∀ o, v = some o → (s.objs o).isSome → (t.objs o).isSome) :
    ∃ o ob, v = some o ∧ t.objs o = some ob ∧ P ∧ (ob.mmoOps = .shadow ↔ Q) := by
  obtain ⟨o, ob, ho, hob, hP, hops⟩ := h
  obtain ⟨ob', hob'⟩ := isSome_iff_exists.mp (ht o ho (by rw [hob]; rfl))
  exact ⟨o, ob', ho, hob', hP, by rwa [(hk o ob ob' hob hob').ops]⟩

/-- No object goes, and the areas of the processes that have entries stay. -/
theorem tables_of_kept (h : Sound s) (ht : Tables s)
    (hl : ∀ x, (s.objs x).isSome → (t.objs x).isSome) (hvn : t.vnLen = s.vnLen)
    (hold : ∀ q vfn e, ptEntry (table t q) vfn = some e →
      ptEntry (table s q) vfn = some e ∧ ∀ a ∈ areas s q, a ∈ areas t q) : Tables t := by
  intro q vfn e he
  obtain ⟨he, hmem⟩ := hold q vfn e he
  obtain ⟨a, ha, hcov, o, ho, hshow⟩ := ht q vfn e he
  have hlive : ∀ x ∈ chain s o, (s.objs x).isSome := fun x hx =>
    h.heap.live_of_mem (h.obj_live ha ho) hx
  exact ⟨a, hmem a ha, hcov, o, ho,
    hshow.keeps h.heap hk hlive (fun x hx => hl x (hlive x hx)) hvn⟩

end Kept

structure Sane (s : Vm) : Prop where
  sound : Sound s
  backed : Backed s

structure Ok (s : Vm) : Prop extends Sane s where
  tops : Tops s
  tables : Tables s

theorem Aligned.refl (a : Vmarea) : Aligned a a := rfl

variable {a : Vmarea}

theorem Aligned.symm (h : Aligned a b) : Aligned b a := Eq.symm h

theorem Aligned.trans {c : Vmarea} (h : Aligned a b) (h' : Aligned b c) : Aligned a c := by
  unfold Aligned at *
  omega

theorem Aligned.pagenum_eq (h : Aligned a b) {vfn : ℕ} (ha : a.vmaStart ≤ vfn)
    (hb : b.vmaStart ≤ vfn) : pagenum a vfn = pagenum b vfn := by
  unfold Aligned at h
  unfold pagenum
  omega

theorem Aligned.vfn_eq (h : Aligned a b) {v w : ℕ} (ha : a.vmaStart ≤ v) (hb : b.vmaStart ≤ w)
    (hp : pagenum a v = pagenum b w) : v = w := by
  unfold Aligned at h
  unfold pagenum at hp
  omega

/-- The objects of files stay, with the references that are not accounted for. -/
def FilesKept (s t : Vm) : Prop :=
  ∀ x ob, s.objs x = some ob → ob.mmoOps = .vnode → ∃ ob', t.objs x = some ob' ∧
    SameObj ob ob' ∧ ob'.mmoRefcount + uses s x = ob.mmoRefcount + uses t x

/-- Objects of files are not made out of others. -/
def FilesFrom (s t : Vm) : Prop :=
  ∀ x ob', t.objs x = some ob' → ob'.mmoOps = .vnode → ∃ ob, s.objs x = some ob ∧ ob.mmoOps = .vnode

theorem FilesFrom.trans {t u : Vm} (h : FilesFrom s t) (h' : FilesFrom t u) : FilesFrom s u := by
  intro x ob hob hops
  obtain ⟨ob1, hob1, hops1⟩ := h' x ob hob hops
  exact h x ob1 hob1 hops1

/-- The areas afterwards are parts of areas before, over the same objects, and every entry
that is left has its area. -/
structure Descends (s t : Vm) : Prop where
  origin : ∀ q, ∀ b ∈ areas t q, ∃ a ∈ areas s q, b.vmaObj = a.vmaObj ∧
    b.vmaFlags = a.vmaFlags ∧ Aligned b a
  keeps : KeepsObjs s t
  old : ∀ x, (t.objs x).isSome → (s.objs x).isSome
  live : ∀ q, ∀ b ∈ areas t q, ∀ y, b.vmaObj = some y → ∀ x ∈ chain s y, (t.objs x).isSome
  vnLen : t.vnLen = s.vnLen
  sub : ∀ q, Sub (table t q) (table s q)
  home : ∀ q vfn, ptEntry (table t q) vfn ≠ none → ∀ a ∈ areas s q, covers a vfn →
    ∃ b ∈ areas t q, covers b vfn ∧ b.vmaObj = a.vmaObj ∧ Aligned b a
  files : FilesKept s t

namespace Descends

variable {s t : Vm}

section

variable (hd : Descends s t)
include hd

theorem backed (hb : Backed s) : Backed t := by
  intro q b hbt
  obtain ⟨a, ha, hobj, hfl, -⟩ := hd.origin q b hbt
  rw [hobj, hfl]
  exact backed_of_kept hd.keeps (hb q a ha) fun o ho _ =>
    hd.live q b hbt o (hobj.trans ho) o (ParentChains.mem_chain_self _ o)

theorem isShadow (hx : IsShadow t x) : IsShadow s x := by
  obtain ⟨ob, hob, -⟩ := map_eq_some_iff.mp hx
  exact isShadow_of_kept hd.keeps (hd.old x (by rw [hob]; rfl)) hx

theorem anonymous (hx : Anonymous t x) : Anonymous s x := by
  have ⟨ob, hob, _⟩ := hx
  exact anonymous_of_kept hd.keeps (hd.old x (by rw [hob]; rfl)) hx

theorem below_eq {y : ℕ} (hb : below t x = some y) : below s x = some y := by
  have hlive : (t.objs x).isSome := by
    obtain ⟨ob, hob, -⟩ := below_eq_some.mp hb
    simp [hob]
  rw [← hd.keeps.below_eq (hd.old x hlive) hlive, hb]

theorem tops (h : Tops s) : Tops t := by
  refine ⟨fun q b hb y hy hsh x hx => ?_, fun q r b hb c hc y hby hcy hsh => ?_⟩
  · obtain ⟨a, ha, hobj, -⟩ := hd.origin q b hb
    exact h.bare q a ha y (hobj ▸ hy) (hd.anonymous hsh) x (hd.below_eq hx)
  · obtain ⟨a, ha, hobj, -, hal⟩ := hd.origin q b hb
    obtain ⟨a', ha', hobj', -, hal'⟩ := hd.origin r c hc
    obtain ⟨hqr, haa⟩ := h.alone q r a ha a' ha' y (hobj ▸ hby) (hobj' ▸ hcy) (hd.isShadow hsh)
    exact ⟨hqr, (hal.trans haa).trans hal'.symm⟩

theorem tables (h : Sound s) (ht : Tables s) : Tables t := by
  intro q vfn e he
  obtain ⟨a, ha, hcov, o, ho, hshow⟩ := ht q vfn e ((hd.sub q).eq_some he)
  obtain ⟨b, hb, hcovb, hobj, hal⟩ := hd.home q vfn (by simp [he]) a ha hcov
  have hbo : b.vmaObj = some o := hobj.trans ho
  have hlive : ∀ x ∈ chain s o, (t.objs x).isSome := hd.live q b hb o hbo
  refine ⟨b, hb, hcovb, o, hbo, ?_⟩
  rw [hal.pagenum_eq hcovb.1 hcov.1]
  exact hshow.keeps h.heap hd.keeps (fun x hx => hd.old x (hlive x hx)) hlive hd.vnLen

end

theorem trans {u : Vm} (h : Descends s t) (h' : Descends t u) : Descends s u where
  origin := fun q c hc => by
    obtain ⟨b, hb, hobj, hfl, hal⟩ := h'.origin q c hc
    obtain ⟨a, ha, hobj', hfl', hal'⟩ := h.origin q b hb
    exact ⟨a, ha, hobj.trans hobj', hfl.trans hfl', hal.trans hal'⟩
  keeps := fun x ob ob' hob hob' => by
    have hlive : (t.objs x).isSome := h'.old x (by rw [hob']; rfl)
    obtain ⟨ob1, hob1⟩ := isSome_iff_exists.mp hlive
    exact (h.keeps x ob ob1 hob hob1).trans (h'.keeps x ob1 ob' hob1 hob')
  old := fun x hx => h.old x (h'.old x hx)
  live := fun q c hc y hy x hx => by
    obtain ⟨b, hb, hobj, -⟩ := h'.origin q c hc
    have hlive := h.live q b hb y (hobj ▸ hy)
    have hchain := h.keeps.chain_eq (fun z hz => h.old z (hlive z hz)) hlive
    exact h'.live q c hc y hy x (hchain ▸ hx)
  vnLen := h'.vnLen.trans h.vnLen
  sub := fun q => (h'.sub q).trans (h.sub q)
  home := fun q vfn he a ha hcov => by
    obtain ⟨e, he'⟩ := ne_none_iff_exists'.mp he
    obtain ⟨b, hb, hcovb, hobj, hal⟩ := h.home q vfn (by simp [(h'.sub q).eq_some he']) a ha hcov
    obtain ⟨c, hc, hcovc, hobj', hal'⟩ := h'.home q vfn he b hb hcovb
    exact ⟨c, hc, hcovc, hobj'.trans hobj, hal'.trans hal⟩
  files := fun x ob hob hv => by
    obtain ⟨ob1, hob1, hsame1, href1⟩ := h.files x ob hob hv
    obtain ⟨ob2, hob2, hsame2, href2⟩ := h'.files x ob1 hob1 (hsame1.ops.trans hv)
    exact ⟨ob2, hob2, hsame1.trans hsame2, by omega⟩

theorem refl (h : Sound s) : Descends s s where
  origin := fun _ a ha => ⟨a, ha, rfl, rfl, .refl a⟩
  keeps := fun _ _ _ hob hob' => by
    obtain rfl := some.inj (hob.symm.trans hob')
    exact ⟨rfl, rfl, rfl, rfl⟩
  old := fun _ hx => hx
  live := fun q _ hb y hy _ hx => h.heap.live_of_mem (h.spaces.live q _ hb y hy) hx
  vnLen := rfl
  sub := fun _ => .refl _
  home := fun _ _ _ a ha hcov => ⟨a, ha, hcov, rfl, .refl a⟩
  files := fun _ ob hob _ => ⟨ob, hob, ⟨rfl, rfl, rfl, rfl⟩, rfl⟩

theorem filesFrom (hd : Descends s t) : FilesFrom s t := by
  intro x ob' hob' hv
  obtain ⟨ob, hob⟩ := isSome_iff_exists.mp (hd.old x (by rw [hob']; rfl))
  exact ⟨ob, hob, (hd.keeps x ob ob' hob hob').ops.symm.trans hv⟩

theorem sane (hd : Descends s t) (h : Sane s) (hs : Sound t) : Sane t :=
  ⟨hs, hd.backed h.backed⟩

theorem ok (hd : Descends s t) (h : Ok s) (hs : Sound t) : Ok t :=
  ⟨hd.sane h.toSane hs, hd.tops h.tops, hd.tables h.sound h.tables⟩

end Descends

end SystemsProjects.VmInvariant
