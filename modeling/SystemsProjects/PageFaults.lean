import SystemsProjects.AreaRemoval

/-!
# Page faults

Bringing a page into an object, marking it dirty and entering it in a page directory, and
from these the whole of `handle_pagefault`. A page that is brought into a bottom object is
first along no chain on which there was a page before. A page that is brought into the top
object of a private area changes what is first along the chain of that area alone, so that
only the entry at the page of the fault can become wrong, which is then replaced.
-/
namespace SystemsProjects.PageFaults

open List
open PageTables VmState MemoryObjects AddressSpaces VmSystemCalls ObjectHeap PageLookup AreaMaps
  AreaOrdering VmInvariant AreaChanges AreaRemoval

variable {f x : ℕ}

section Adding

variable {s : Vm} {o n y m : ℕ} {ob : Mmobj} {e : Pte}

theorem ops_addPage (s : Vm) (o n x : ℕ) :
    ((addPage s o n).objs x).map Mmobj.mmoOps = (s.objs x).map Mmobj.mmoOps := by
  by_cases hx : x = o
  · subst hx
    cases hob : s.objs x <;> simp [hob, withPage]
  · rw [addPage_objs_ne s n hx]

theorem uses_addPage (s : Vm) (o n x : ℕ) : uses (addPage s o n) x = uses s x := by
  have hholds : holds (addPage s o n) x = holds s x := funext fun b =>
    holds_congr fun z _ => congrFun (chain_addPage s o n) z
  unfold uses
  rw [hholds]
  rfl

theorem sound_addPage (h : Sound s) (hn : frameAt s o n = none) : Sound (addPage s o n) := by
  have hvmas : vmasAt (addPage s o n) = vmasAt s := by
    funext x
    by_cases hx : x = o
    · subst hx
      cases hob : s.objs x <;> simp [vmasAt, hob, withPage]
    · rw [vmasAt, vmasAt, addPage_objs_ne s n hx]
  refine ⟨heap_addPage h.heap hn, ⟨h.spaces.wf, h.spaces.pid_lt, h.spaces.owner,
    fun q b hb z hz => ?_⟩, ⟨fun x ob' hob' hv => ?_, fun x ob' hob' hv => ?_⟩, ⟨?_, ?_⟩⟩
  · rw [isSome_addPage]
    exact h.spaces.live q b hb z hz
  · rw [uses_addPage]
    obtain ⟨ob, hob, ⟨rfl, rfl⟩ | ⟨-, rfl⟩⟩ := addPage_cases hob'
    · have hex := h.counts.exact x ob hob hv
      simp only [withPage]
      omega
    · exact h.counts.exact x _ hob hv
  · rw [uses_addPage]
    obtain ⟨ob, hob, ⟨rfl, rfl⟩ | ⟨-, rfl⟩⟩ := addPage_cases hob'
    · have hf := h.counts.file x ob hob hv
      simp only [withPage]
      omega
    · exact h.counts.file x _ hob hv
  · rw [hvmas]
    exact h.links.nodup
  · rw [hvmas, bottom_addPage]
    exact h.links.mem_iff

theorem isShadow_addPage : IsShadow (addPage s o n) x ↔ IsShadow s x := by
  rw [IsShadow, IsShadow, ops_addPage]

theorem anonymous_iff : Anonymous s x ↔ ∃ k, (s.objs x).map Mmobj.mmoOps = some k ∧ k ≠ .vnode := by
  constructor
  · rintro ⟨ob, hob, hops⟩
    exact ⟨ob.mmoOps, by rw [hob, Option.map_some], hops⟩
  · rintro ⟨k, hk, hne⟩
    obtain ⟨ob, hob, rfl⟩ := Option.map_eq_some_iff.mp hk
    exact ⟨ob, hob, hne⟩

theorem tops_addPage (h : Tops s) (o n : ℕ) : Tops (addPage s o n) := by
  refine ⟨fun q b hb z hz hanon x hx => ?_, fun q r b hb c hc z hbz hcz hsh => ?_⟩
  · rw [anonymous_iff, ops_addPage, ← anonymous_iff] at hanon
    rw [below_addPage] at hx
    exact h.bare q b hb z hz hanon x hx
  · exact h.alone q r b hb c hc z hbz hcz (isShadow_addPage.mp hsh)

theorem backed_congr {t : Vm} (h : Backed s) (hareas : areas t = areas s)
    (hops : ∀ z, (t.objs z).map Mmobj.mmoOps = (s.objs z).map Mmobj.mmoOps) : Backed t := by
  intro q b hb
  rw [hareas] at hb
  obtain ⟨z, obz, hz, hobz, hone, hsh⟩ := h q b hb
  have hops := hops z
  rw [hobz, Option.map_some] at hops
  obtain ⟨ob', hob', heq⟩ := Option.map_eq_some_iff.mp hops
  exact ⟨z, ob', hz, hob', hone, by rw [heq]; exact hsh⟩

theorem hit_addPage (hob : s.objs o = some ob) (y m : ℕ) (h : o ∉ chain s y ∨ m ≠ n) :
    hit (addPage s o n) y m = hit s y m := by
  rw [hit, hit, chain_addPage]
  refine findSome_congr fun x hx => ?_
  have hne : ¬(x = o ∧ m = n) := by
    rintro ⟨rfl, rfl⟩
    exact h.elim (fun hx' => hx' hx) fun hm => hm rfl
  rw [frameAt_addPage hob, if_neg hne]

theorem beyond_addPage {b : ℕ} : Beyond (addPage s o n) b m ↔ Beyond s b m := by
  rw [Beyond, Beyond, ops_addPage]
  rfl

/-- A page brought into an object off the chain, or a different page, is not noticed. -/
theorem shows_addPage_of_ne (hs : Shows s y m e) (h : Heap s) (hob : s.objs o = some ob)
    (hne : o ∉ chain s y ∨ m ≠ n) : Shows (addPage s o n) y m e := by
  have hframe : ∀ x ∈ chain s y, frameAt (addPage s o n) x m = frameAt s x m := by
    intro x hx
    have hxo : ¬(x = o ∧ m = n) := by
      rintro ⟨rfl, rfl⟩
      exact hne.elim (fun hx' => hx' hx) fun hm => hm rfl
    rw [frameAt_addPage hob, if_neg hxo]
  refine ⟨by rw [hit_addPage hob y m hne, hs.hit_eq], ?_, ?_⟩
  · rw [bottom_addPage, hframe _ (h.bottom_mem y), beyond_addPage]
    exact hs.inside
  · rw [hframe _ (ParentChains.mem_chain_self _ y)]
    exact hs.write

theorem hit_addPage_bottom (h : Heap s) (hob : s.objs o = some ob) (hb : below s o = none)
    (hn : frameAt s o n = none) (hh : hit s y m = some f) :
    hit (addPage s o n) y m = some f := by
  by_cases hc : o ∉ chain s y ∨ m ≠ n
  · rw [hit_addPage hob y m hc, hh]
  · obtain ⟨hmem, rfl⟩ := not_or.mp hc |>.imp not_not.mp not_not.mp
    have hbot : o = bottom s y := by
      rw [← h.bottom_of_mem hmem]
      exact (ParentChains.root_of_none hb).symm
    have hnd := ParentChains.chain_nodup h.decreasing y
    change (chain s y).Nodup at hnd
    rw [chain_eq_append s y, nodup_append] at hnd
    rw [hit_eq_or, ← hbot, hn, Option.or_none] at hh
    rw [hit_eq_or, chain_addPage]
    have hsame : (chain s y).dropLast.findSome? (pframeGetResident (addPage s o m) · m) =
        (chain s y).dropLast.findSome? (pframeGetResident s · m) := by
      refine findSome_congr fun x hx => ?_
      have hne : x ≠ o := hbot ▸ hnd.2.2 x hx _ (by simp)
      simp [pframeGetResident, addPage_objs_ne s m hne]
    rw [hsame, hh, Option.some_or]

theorem hit_lt (h : Heap s) (hh : hit s y m = some f) : f < s.nextFrame := by
  obtain ⟨x, -, hx⟩ := exists_of_hit hh
  exact frameAt_lt h hx

theorem shows_addPage_bottom (hs : Shows s y m e) (h : Heap s) (hob : s.objs o = some ob)
    (hb : below s o = none) (hn : frameAt s o n = none) : Shows (addPage s o n) y m e := by
  have hlt := hit_lt h hs.hit_eq
  refine ⟨hit_addPage_bottom h hob hb hn hs.hit_eq, ?_, fun hw => ?_⟩
  · rw [bottom_addPage, frameAt_addPage hob, beyond_addPage]
    split_ifs
    · intro heq
      exact absurd (Option.some.inj heq) (by omega)
    · exact hs.inside
  · have hfr := hs.write hw
    have hne : ¬(y = o ∧ m = n) := by
      rintro ⟨rfl, rfl⟩
      rw [hn] at hfr
      cases hfr
    rw [frameAt_addPage hob, if_neg hne, hfr]

/-- Everything but the entry at one page of one process. -/
def TablesBut (s : Vm) (p vfn : ℕ) : Prop := ∀ q v, (q, v) ≠ (p, vfn) → EntryOk s q v

theorem tables_addPage_bottom (h : Tables s) (hs : Heap s) (hob : s.objs o = some ob)
    (hb : below s o = none) (hn : frameAt s o n = none) : Tables (addPage s o n) := by
  intro q v e he
  obtain ⟨a, ha, hcov, z, hz, hshow⟩ := h q v e he
  exact ⟨a, ha, hcov, z, hz, shows_addPage_bottom hshow hs hob hb hn⟩

/-- A page brought into the top object of an area matters to the entry at its place alone. -/
theorem tablesBut_addPage (h : Ok s) {p vfn : ℕ} {a : Vmarea} (ha : a ∈ areas s p)
    (ho : a.vmaObj = some o) (hcov : a.vmaStart ≤ vfn) (hsh : IsShadow s o) :
    TablesBut (addPage s o (pagenum a vfn)) p vfn := by
  intro q v hne e he
  obtain ⟨b, hb, hcovb, z, hz, hshow⟩ := h.tables q v e he
  obtain ⟨ob, hob⟩ := Option.isSome_iff_exists.mp (h.sound.obj_live ha ho)
  refine ⟨b, hb, hcovb, z, hz, shows_addPage_of_ne hshow h.sound.heap hob ?_⟩
  by_contra hcon
  obtain ⟨hmem, hpage⟩ := not_or.mp hcon |>.imp not_not.mp not_not.mp
  have hzo : z = o := by
    by_contra hzo
    obtain ⟨x, -, hx⟩ := ParentChains.exists_child h.sound.heap.decreasing hmem (Ne.symm hzo)
    exact h.tops.bare p a ha o ho (anonymous_of_isShadow hsh) x hx
  subst hzo
  obtain ⟨rfl, hal⟩ := h.tops.alone q p b hb a ha z hz ho hsh
  exact hne (by rw [hal.vfn_eq hcovb.1 hcov hpage])

end Adding

/-- The numbers and the frames of a list of pages. -/
def framesOf (l : List Pframe) : List (ℕ × ℕ) := l.map fun pf => (pf.pfPagenum, pf.pfAddr)

theorem pageOf_addr (ob : Mmobj) (n : ℕ) : (pageOf ob n).map Pframe.pfAddr =
    ((framesOf ob.mmoRespages).find? (·.1 = n)).map Prod.snd := by
  rw [framesOf, find?_map, Option.map_map]
  rfl

/-- The states differ in the contents of the frames and in what is noted about the pages. -/
structure SameFrames (s t : Vm) : Prop where
  procs : t.procs = s.procs
  objs : ∀ x, (s.objs x = none ∧ t.objs x = none) ∨ ∃ ob l, s.objs x = some ob ∧
    t.objs x = some { ob with mmoRespages := l } ∧ framesOf l = framesOf ob.mmoRespages
  vnLen : t.vnLen = s.vnLen
  nextPid : t.nextPid = s.nextPid
  nextObj : t.nextObj = s.nextObj
  nextFrame : t.nextFrame = s.nextFrame
  nextVma : t.nextVma = s.nextVma

namespace SameFrames

variable {s t : Vm}

section

variable (h : SameFrames s t)
include h

theorem isSome (x : ℕ) : (t.objs x).isSome = (s.objs x).isSome := by
  rcases h.objs x with ⟨hn, hn'⟩ | ⟨ob, l, hob, hob', -⟩
  · rw [hn, hn']
  · rw [hob, hob']
    rfl

theorem ops_eq (x : ℕ) : (t.objs x).map Mmobj.mmoOps = (s.objs x).map Mmobj.mmoOps := by
  rcases h.objs x with ⟨hn, hn'⟩ | ⟨ob, l, hob, hob', -⟩
  · rw [hn, hn']
  · rw [hob, hob']
    rfl

theorem below_eq : below t = below s := by
  funext x
  rcases h.objs x with ⟨hn, hn'⟩ | ⟨ob, l, hob, hob', -⟩
  · simp [below, hn, hn']
  · simp [below, hob, hob']

theorem chain_eq : chain t = chain s := by
  funext x
  rw [chain, chain, h.below_eq]

theorem bottom_eq : bottom t = bottom s := by
  funext x
  rw [bottom, bottom, h.below_eq]

theorem frameAt_eq : frameAt t = frameAt s := by
  funext x n
  rcases h.objs x with ⟨hn, hn'⟩ | ⟨ob, l, hob, hob', hl⟩
  · simp [frameAt, pframeGetResident, hn, hn']
  · simp only [frameAt, pframeGetResident, hob, hob', Option.bind_some, pageOf_addr, hl]

theorem hit_eq : hit t = hit s := by
  funext x n
  rw [hit, hit, h.chain_eq, h.frameAt_eq]

theorem areas_eq : areas t = areas s := by
  funext q
  rw [areas, areas, mapOf, mapOf, h.procs]

theorem table_eq : table t = table s := by
  funext q
  rw [table, table, h.procs]

theorem vmasAt_eq : vmasAt t = vmasAt s := by
  funext x
  rcases h.objs x with ⟨hn, hn'⟩ | ⟨ob, l, hob, hob', -⟩
  · simp [vmasAt, hn, hn']
  · simp [vmasAt, hob, hob']

theorem uses_eq : uses t = uses s := by
  funext x
  have hholds : holds t x = holds s x := funext fun b =>
    holds_congr fun z _ => congrFun h.chain_eq z
  rw [uses, uses, hholds, h.areas_eq, h.nextPid]

theorem heap (hs : Heap s) : Heap t := by
  have hcases : ∀ x ob', t.objs x = some ob' → ∃ ob, s.objs x = some ob ∧
      ob' = { ob with mmoRespages := ob'.mmoRespages } ∧
      framesOf ob'.mmoRespages = framesOf ob.mmoRespages := by
    intro x ob' hob'
    rcases h.objs x with ⟨-, hn'⟩ | ⟨ob, l, hob, hob1, hl⟩
    · rw [hn'] at hob'
      cases hob'
    · obtain rfl := Option.some.inj (hob1.symm.trans hob')
      exact ⟨ob, hob, rfl, hl⟩
  have hpage : ∀ x ob', t.objs x = some ob' → ∀ pf ∈ ob'.mmoRespages, ∃ ob, s.objs x = some ob ∧
      ∃ pf' ∈ ob.mmoRespages, pf'.pfPagenum = pf.pfPagenum ∧ pf'.pfAddr = pf.pfAddr := by
    intro x ob' hob' pf hpf
    obtain ⟨ob, hob, -, hl⟩ := hcases x ob' hob'
    have hmem : (pf.pfPagenum, pf.pfAddr) ∈ framesOf ob.mmoRespages := by
      rw [← hl]
      exact mem_map.mpr ⟨pf, hpf, rfl⟩
    obtain ⟨pf', hpf', heq⟩ := mem_map.mp hmem
    exact ⟨ob, hob, pf', hpf', (Prod.mk.inj heq).1, (Prod.mk.inj heq).2⟩
  refine ⟨fun x ob' hob' => ?_, fun x ob' hob' => ?_, fun x ob' hob' => ?_, fun x ob' hob' => ?_,
    fun x ob' hob' pf hpf => ?_, fun x y obx oby hx hy pf hpf pf' hpf' heq => ?_⟩
  · obtain ⟨ob, hob, -⟩ := hcases x ob' hob'
    rw [h.nextObj]
    exact hs.lt_next x ob hob
  · obtain ⟨ob, hob, heq, -⟩ := hcases x ob' hob'
    rw [heq]
    exact (hs.wellMade x ob hob).congr h.below_eq (fun y hy => by rwa [h.isSome]) rfl rfl rfl
  · obtain ⟨ob, hob, heq, hl⟩ := hcases x ob' hob'
    have hlen := congrArg length hl
    rw [framesOf, framesOf, length_map, length_map] at hlen
    rw [hlen, heq]
    exact hs.nres x ob hob
  · obtain ⟨ob, hob, -, hl⟩ := hcases x ob' hob'
    have hnum := congrArg (map Prod.fst) hl
    simp only [framesOf, map_map, Function.comp_def] at hnum
    rw [show ob'.mmoRespages.map Pframe.pfPagenum = ob.mmoRespages.map Pframe.pfPagenum from hnum]
    exact hs.nodup x ob hob
  · obtain ⟨ob, hob, pf', hpf', -, haddr⟩ := hpage x ob' hob' pf hpf
    rw [h.nextFrame, ← haddr]
    exact hs.frame_lt x ob hob pf' hpf'
  · obtain ⟨ob, hob, pf1, hpf1, hnum1, haddr1⟩ := hpage x obx hx pf hpf
    obtain ⟨ob', hob', pf2, hpf2, hnum2, haddr2⟩ := hpage y oby hy pf' hpf'
    rw [← hnum1, ← hnum2]
    exact hs.frame_inj x y ob ob' hob hob' pf1 hpf1 pf2 hpf2 (by rw [haddr1, haddr2, heq])

end

theorem refl (s : Vm) : SameFrames s s := by
  refine ⟨rfl, fun x => ?_, rfl, rfl, rfl, rfl, rfl⟩
  cases hob : s.objs x with
  | none => exact .inl ⟨rfl, rfl⟩
  | some ob => exact .inr ⟨ob, ob.mmoRespages, rfl, rfl, rfl⟩

section

variable (h : SameFrames s t)
include h

theorem sound (hs : Sound s) : Sound t := by
  have hcases : ∀ x ob', t.objs x = some ob' → ∃ ob, s.objs x = some ob ∧
      ob'.mmoOps = ob.mmoOps ∧ ob'.mmoNrespages = ob.mmoNrespages ∧
      ob'.mmoRefcount = ob.mmoRefcount := by
    intro x ob' hob'
    rcases h.objs x with ⟨-, hn'⟩ | ⟨ob, l, hob, hob1, -⟩
    · rw [hn'] at hob'
      cases hob'
    · obtain rfl := Option.some.inj (hob1.symm.trans hob')
      exact ⟨ob, hob, rfl, rfl, rfl⟩
  refine ⟨h.heap hs.heap, ⟨?_, ?_, ?_, fun q b hb z hz => ?_⟩, ⟨fun x ob' hob' hv => ?_,
    fun x ob' hob' hv => ?_⟩, ⟨?_, ?_⟩⟩
  · rw [h.nextVma, h.areas_eq]
    exact hs.spaces.wf
  · rw [h.procs, h.nextPid]
    exact hs.spaces.pid_lt
  · intro q map r hm hr
    rw [mapOf, h.procs] at hm
    rw [h.procs]
    exact hs.spaces.owner q map r hm hr
  · rw [h.areas_eq] at hb
    rw [h.isSome]
    exact hs.spaces.live q b hb z hz
  · obtain ⟨ob, hob, hops, hnres, href⟩ := hcases x ob' hob'
    rw [hops] at hv
    rw [h.uses_eq, hnres, href]
    exact hs.counts.exact x ob hob hv
  · obtain ⟨ob, hob, hops, hnres, href⟩ := hcases x ob' hob'
    rw [hops] at hv
    rw [h.uses_eq, hnres, href]
    exact hs.counts.file x ob hob hv
  · rw [h.vmasAt_eq]
    exact hs.links.nodup
  · rw [h.vmasAt_eq, h.areas_eq, h.bottom_eq]
    exact hs.links.mem_iff

theorem backed (hb : Backed s) : Backed t := backed_congr hb h.areas_eq h.ops_eq

theorem tops (ht : Tops s) : Tops t := by
  refine ⟨fun q b hb z hz hanon x hx => ?_, fun q r b hb c hc z hbz hcz hsh => ?_⟩
  · rw [h.areas_eq] at hb
    rw [anonymous_iff, h.ops_eq, ← anonymous_iff] at hanon
    rw [h.below_eq] at hx
    exact ht.bare q b hb z hz hanon x hx
  · rw [h.areas_eq] at hb hc
    rw [IsShadow, h.ops_eq] at hsh
    exact ht.alone q r b hb c hc z hbz hcz hsh

theorem shows_iff {y m : ℕ} {e : Pte} : Shows t y m e ↔ Shows s y m e := by
  have hb : Beyond t (bottom s y) m ↔ Beyond s (bottom s y) m := by
    rw [Beyond, Beyond, h.ops_eq, h.vnLen]
  constructor
  · intro hs
    exact ⟨by rw [← h.hit_eq, hs.hit_eq],
      by rw [← hb, ← h.bottom_eq, ← h.frameAt_eq]; exact hs.inside,
      by rw [← h.frameAt_eq]; exact hs.write⟩
  · intro hs
    exact ⟨by rw [h.hit_eq, hs.hit_eq],
      by rw [h.bottom_eq, hb, h.frameAt_eq]; exact hs.inside,
      by rw [h.frameAt_eq]; exact hs.write⟩

theorem entryOk_iff {q v : ℕ} : EntryOk t q v ↔ EntryOk s q v := by
  unfold EntryOk
  rw [h.table_eq, h.areas_eq]
  simp only [h.shows_iff]

theorem ok (hs : Ok s) : Ok t :=
  ⟨⟨h.sound hs.sound, h.backed hs.backed⟩, h.tops hs.tops,
    fun q v => h.entryOk_iff.mpr (hs.tables q v)⟩

end

end SameFrames

theorem sameFrames_setMem (s : Vm) (f : ℕ) (c : Page) : SameFrames s (s.setMem f c) :=
  ⟨rfl, (SameFrames.refl s).objs, rfl, rfl, rfl, rfl, rfl⟩

theorem sameFrames_editPage (s : Vm) (o n : ℕ) {f : Pframe → Pframe}
    (hnum : ∀ pf, (f pf).pfPagenum = pf.pfPagenum) (haddr : ∀ pf, (f pf).pfAddr = pf.pfAddr) :
    SameFrames s (editPage s o n f) := by
  refine ⟨rfl, fun x => ?_, rfl, rfl, rfl, rfl, rfl⟩
  by_cases hx : x = o
  · subst hx
    cases hob : s.objs x with
    | none => exact .inl ⟨rfl, by simp [editPage, hob]⟩
    | some ob =>
      refine .inr ⟨ob, ob.mmoRespages.map fun pf => if pf.pfPagenum = n then f pf else pf, rfl,
        by simp [editPage, hob], ?_⟩
      rw [framesOf, framesOf, map_map]
      refine map_congr_left fun pf _ => ?_
      by_cases hpf : pf.pfPagenum = n <;> simp [hpf, hnum, haddr]
  · have hobj : (editPage s o n f).objs x = s.objs x := by simp [editPage, hx]
    rw [hobj]
    exact (SameFrames.refl s).objs x

theorem sameFrames_pframeDirty (s : Vm) (o n : ℕ) : SameFrames s (pframeDirty s o n) := by
  unfold pframeDirty
  split
  · exact sameFrames_editPage s o n (fun _ => rfl) fun _ => rfl
  · exact sameFrames_editPage s o n (fun _ => rfl) fun _ => rfl

/-- The invariant, but for the entry at one page of one process. -/
structure OkBut (s : Vm) (p vfn : ℕ) : Prop where
  sound : Sound s
  backed : Backed s
  tops : Tops s
  tables : TablesBut s p vfn

section Fetching

variable {s t : Vm} {p o n vfn : ℕ} {a : Vmarea}

theorem Ok.but (h : Ok s) (p vfn : ℕ) : OkBut s p vfn :=
  ⟨h.sound, h.backed, h.tops, fun q v _ => h.tables q v⟩

theorem ok_of_fetched_bottom (h : Ok s) (hf : Fetched s o n t) (ho : (s.objs o).isSome)
    (hb : below s o = none) : Ok t := by
  rcases hf with ⟨rfl, -⟩ | ⟨hn, rfl⟩
  · exact h
  · obtain ⟨ob, hob⟩ := Option.isSome_iff_exists.mp ho
    exact ⟨⟨sound_addPage h.sound hn, backed_congr h.backed rfl (ops_addPage s o n)⟩,
      tops_addPage h.tops o n, tables_addPage_bottom h.tables h.sound.heap hob hb hn⟩

theorem okBut_of_fetched_top (h : Ok s) (ha : a ∈ areas s p) (ho : a.vmaObj = some o)
    (hcov : a.vmaStart ≤ vfn) (hf : Fetched s o (pagenum a vfn) t) : OkBut t p vfn := by
  rcases hf with ⟨rfl, -⟩ | ⟨hn, rfl⟩
  · exact Ok.but h p vfn
  · refine ⟨sound_addPage h.sound hn, backed_congr h.backed rfl (ops_addPage _ _ _),
      tops_addPage h.tops _ _, ?_⟩
    obtain ⟨ob, hob⟩ := Option.isSome_iff_exists.mp (h.sound.obj_live ha ho)
    by_cases hsh : ob.mmoOps = .shadow
    · exact tablesBut_addPage h ha ho hcov (by rw [IsShadow, hob, Option.map_some, hsh])
    · have hb := (below_of_obj hob).trans (h.sound.heap.bottom_eq_self hob hsh).1
      exact fun q v _ => tables_addPage_bottom h.tables h.sound.heap hob hb hn q v

theorem OkBut.map (h : OkBut s p vfn) (ha : a ∈ areas s p) (ho : a.vmaObj = some o)
    (hcov : covers a vfn) {e : Pte} (hshow : Shows s o (pagenum a vfn) e) {pd : Pagedir}
    (hpd : ptMap (table s p) vfn e = some pd) : Ok (withTable s p pd) := by
  obtain ⟨map, hmap⟩ := mapOf_of_mem ha
  have hproc := isSome_of_mapOf hmap
  have hsame : SameMaps s (withTable s p pd) := ⟨mapOf_withTable s p pd, rfl⟩
  refine ⟨⟨sound_withTable h.sound p pd, ?_⟩, ?_, fun q v e' he' => ?_⟩
  · intro q b hb
    rw [hsame.areas_eq] at hb
    exact h.backed q b hb
  · refine ⟨fun q b hb => ?_, fun q r b hb c hc => ?_⟩
    · rw [hsame.areas_eq] at hb
      exact h.tops.bare q b hb
    · rw [hsame.areas_eq] at hb hc
      exact h.tops.alone q r b hb c hc
  · rw [hsame.areas_eq]
    by_cases hq : q = p
    · subst hq
      rw [table_withTable_self hproc, ptEntry_ptMap hpd] at he'
      by_cases hv : v = vfn
      · subst hv
        rw [if_pos rfl] at he'
        obtain rfl := Option.some.inj he'
        exact ⟨a, ha, hcov, o, ho, hshow.hit_eq, hshow.inside, hshow.write⟩
      · rw [if_neg hv] at he'
        obtain ⟨b, hb, hcovb, z, hz, hshow'⟩ := h.tables q v (by simp [hv]) e' he'
        exact ⟨b, hb, hcovb, z, hz, hshow'.hit_eq, hshow'.inside, hshow'.write⟩
    · rw [table_withTable_ne s pd hq] at he'
      obtain ⟨b, hb, hcovb, z, hz, hshow'⟩ := h.tables q v (by simp [hq]) e' he'
      exact ⟨b, hb, hcovb, z, hz, hshow'.hit_eq, hshow'.inside, hshow'.write⟩

end Fetching

/-- Pages have been brought in; the areas and what is seen through any object are the same. -/
structure Brought (s t : Vm) : Prop where
  mapOf_eq : mapOf t = mapOf s
  below_eq : below t = below s
  ops_eq : ∀ x, (t.objs x).map Mmobj.mmoOps = (s.objs x).map Mmobj.mmoOps
  view_eq : ∀ x m, view t x m = view s x m
  vnLen : t.vnLen = s.vnLen
  vnData : t.vnData = s.vnData
  nextPid : t.nextPid = s.nextPid

/-- The pages of anonymous and shadow objects are pinned. -/
def Pinned (s : Vm) : Prop :=
  ∀ x ob, s.objs x = some ob → ob.mmoOps ≠ .vnode → ∀ pf ∈ ob.mmoRespages, 0 < pf.pfPincount

def PinnedBut (s : Vm) (o n : ℕ) : Prop :=
  ∀ x ob, s.objs x = some ob → ob.mmoOps ≠ .vnode → ∀ pf ∈ ob.mmoRespages,
    (x, pf.pfPagenum) ≠ (o, n) → 0 < pf.pfPincount

namespace Brought

variable {s t u : Vm}

theorem refl (s : Vm) : Brought s s := ⟨rfl, rfl, fun _ => rfl, fun _ _ => rfl, rfl, rfl, rfl⟩

theorem trans (h : Brought s t) (h' : Brought t u) : Brought s u :=
  ⟨h'.mapOf_eq.trans h.mapOf_eq, h'.below_eq.trans h.below_eq,
    fun x => (h'.ops_eq x).trans (h.ops_eq x), fun x m => (h'.view_eq x m).trans (h.view_eq x m),
    h'.vnLen.trans h.vnLen, h'.vnData.trans h.vnData, h'.nextPid.trans h.nextPid⟩

theorem areas_eq (h : Brought s t) : areas t = areas s := by
  funext q
  rw [areas, areas, h.mapOf_eq]

end Brought

section Bringing

variable {s t : Vm} {o n : ℕ}

theorem brought_fetched (h : Heap s) (ho : (s.objs o).isSome) (hf : Fetched s o n t) :
    Brought s t := by
  refine ⟨?_, hf.below, fun x => ?_, hf.view h ho, ?_, ?_, ?_⟩
  · funext q
    rw [mapOf, mapOf, hf.procs]
  · rcases hf with ⟨rfl, -⟩ | ⟨-, rfl⟩
    · rfl
    · exact ops_addPage s o n x
  all_goals rcases hf with ⟨rfl, -⟩ | ⟨-, rfl⟩ <;> rfl

theorem view_of_sameFrames (hf : SameFrames s t) (hmem : t.mem = s.mem)
    (hvn : t.vnData = s.vnData) (x m : ℕ) : view t x m = view s x m := by
  have hbase : base t (bottom s x) m = base s (bottom s x) m := by
    rw [base, base, hf.ops_eq, hvn]
  rw [view, view, hf.hit_eq, hf.bottom_eq, hmem, hbase]

theorem brought_pframeDirty (s : Vm) (o n : ℕ) : Brought s (pframeDirty s o n) := by
  have hf := sameFrames_pframeDirty s o n
  have hmem : (pframeDirty s o n).mem = s.mem := by
    unfold pframeDirty
    split <;> rfl
  have hvn : (pframeDirty s o n).vnData = s.vnData := by
    unfold pframeDirty
    split <;> rfl
  exact ⟨by funext q; rw [mapOf, mapOf, hf.procs], hf.below_eq, hf.ops_eq,
    view_of_sameFrames hf hmem hvn, hf.vnLen, hvn, hf.nextPid⟩

theorem brought_withTable (s : Vm) (p : ℕ) (pd : Pagedir) : Brought s (withTable s p pd) :=
  ⟨mapOf_withTable s p pd, rfl, fun _ => rfl, fun _ _ => rfl, rfl, rfl, rfl⟩

theorem pinnedBut_fetched (h : Pinned s) (hf : Fetched s o n t) : PinnedBut t o n := by
  rcases hf with ⟨rfl, -⟩ | ⟨-, rfl⟩
  · exact fun x ob hob hv pf hpf _ => h x ob hob hv pf hpf
  · intro x ob' hob' hv pf hpf hne
    rcases mem_addPage hob' hpf with ⟨rfl, rfl⟩ | ⟨ob, hob, hpf, hops⟩
    · exact absurd rfl hne
    · exact h x ob hob (hops ▸ hv) pf hpf

/-- A page that a bottom object fills is pinned, unless the object is that of a file. -/
theorem pinned_fetched_bottom (h : Pinned s) (hs : Heap s) (ho : (s.objs o).isSome)
    (hf : Fetched s (bottom s o) n t) : Pinned t := by
  rcases hf with ⟨rfl, -⟩ | ⟨hn, rfl⟩
  · exact h
  · intro x ob' hob' hv pf hpf
    rcases mem_addPage hob' hpf with ⟨rfl, rfl⟩ | ⟨ob, hob, hpf, hops⟩
    · obtain ⟨obb, hobb, -, hnsh, -⟩ := hs.bottom_spec ho
      have hops := ops_addPage s (bottom s o) n (bottom s o)
      rw [hob', hobb, Option.map_some, Option.map_some, Option.some.injEq] at hops
      have hbel : below s (bottom s o) = none := ParentChains.up_root hs.decreasing o
      have hbb : bottom s (bottom s o) = bottom s o := ParentChains.root_of_none hbel
      have hanon : obb.mmoOps = .anon := by
        cases hk : obb.mmoOps with
        | anon => rfl
        | shadow => exact absurd hk hnsh
        | vnode => exact absurd (hops.trans hk) hv
      have hpin : pinFor s (bottom s o) n = 1 := by
        rw [pinFor, hit_of_bottom hs hbel, hn, hbb, hobb, Option.map_some, hanon]
        rfl
      simp [hpin]
    · exact h x ob hob (hops ▸ hv) pf hpf

theorem mem_editPage {f : Pframe → Pframe} {ob' : Mmobj} (h : (editPage s o n f).objs x = some ob')
    {pf : Pframe} (hpf : pf ∈ ob'.mmoRespages) :
    ∃ ob, s.objs x = some ob ∧ ob'.mmoOps = ob.mmoOps ∧ ∃ pf0 ∈ ob.mmoRespages,
      pf = if (x, pf0.pfPagenum) = (o, n) then f pf0 else pf0 := by
  by_cases hx : x = o
  · subst hx
    simp only [editPage, Function.update_self, Option.map_eq_some_iff] at h
    obtain ⟨ob, hob, rfl⟩ := h
    obtain ⟨pf0, hpf0, rfl⟩ := mem_map.mp hpf
    exact ⟨ob, hob, rfl, pf0, hpf0, by simp⟩
  · have hobj : (editPage s o n f).objs x = s.objs x := by simp [editPage, hx]
    rw [hobj] at h
    exact ⟨ob', h, rfl, pf, hpf, by simp [hx]⟩

theorem pinned_pframeDirty (h : PinnedBut s o n) : Pinned (pframeDirty s o n) := by
  intro x ob' hob' hv pf hpf
  unfold pframeDirty at hob'
  split at hob'
  · next hvnode =>
    obtain ⟨ob, hob, hops, pf0, hpf0, rfl⟩ := mem_editPage hob' hpf
    rw [hops] at hv
    have hne : (x, pf0.pfPagenum) ≠ (o, n) := by
      intro heq
      obtain ⟨rfl, -⟩ := Prod.mk.inj heq
      rw [hob, Option.map_some, Option.some.injEq] at hvnode
      exact hv hvnode
    rw [if_neg hne]
    exact h x ob hob hv pf0 hpf0 hne
  · obtain ⟨ob, hob, hops, pf0, hpf0, rfl⟩ := mem_editPage hob' hpf
    rw [hops] at hv
    by_cases heq : (x, pf0.pfPagenum) = (o, n)
    · rw [if_pos heq]
      dsimp only
      split_ifs <;> omega
    · rw [if_neg heq]
      exact h x ob hob hv pf0 hpf0 heq

end Bringing

/-- The state in which the page of a fault is ready to be entered in the page directory. -/
structure Ready (s u : Vm) (p vfn o n f : ℕ) (write : Bool) : Prop where
  okBut : OkBut u p vfn
  shows : Shows u o n ⟨f, write⟩
  brought : Brought s u
  pinned : Pinned s → Pinned u

section Fault

variable {s : Vm} {p o vfn vaddr : ℕ} {a : Vmarea} {map : Vmmap}

theorem beyond_congr {s t : Vm} {b m : ℕ}
    (hops : ∀ x, (t.objs x).map Mmobj.mmoOps = (s.objs x).map Mmobj.mmoOps)
    (hvn : t.vnLen = s.vnLen) : Beyond t b m ↔ Beyond s b m := by
  rw [Beyond, Beyond, hops, hvn]

theorem Brought.bottom_eq {s t : Vm} (h : Brought s t) : bottom t = bottom s := by
  funext x
  rw [bottom, bottom, h.below_eq]

theorem ready_read (h : Ok s) (ha : a ∈ areas s p) (ho : a.vmaObj = some o) (vfn n : ℕ) :
    ∃ res t, lookuppage s o n false = .ok (res, t) ∧ ((∃ e, res = .error e ∧ t = s) ∨
      ∃ pf, res = .ok pf ∧ Ready s t p vfn o n pf.pfAddr false ∧ t.procs = s.procs) := by
  have hs := h.sound
  have hlive := hs.obj_live ha ho
  obtain ⟨ob, hob⟩ := Option.isSome_iff_exists.mp hlive
  have hbel : below s (bottom s o) = none := ParentChains.up_root hs.heap.decreasing o
  have hliveb := hs.heap.live_of_mem hlive (hs.heap.bottom_mem o)
  obtain ⟨res, t, hlook, hcase⟩ := lookuppage_read_spec hs.heap hs.referenced hob n
  refine ⟨res, t, hlook, hcase.imp_right ?_⟩
  rintro ⟨pf, rfl, hhit, hlen, hst⟩
  have hf : t = s ∨ Fetched s (bottom s o) n t := hst.imp_right fun ⟨hnone, ht⟩ => by
    rw [hit_eq_or, Option.or_eq_none_iff] at hnone
    exact .inr ⟨hnone.2, ht⟩
  have hok : Ok t := by
    rcases hf with rfl | hf
    · exact h
    · exact ok_of_fetched_bottom h hf hliveb hbel
  have hbr : Brought s t := by
    rcases hf with rfl | hf
    · exact .refl t
    · exact brought_fetched hs.heap hliveb hf
  refine ⟨pf, rfl, ⟨Ok.but hok p vfn, ⟨hhit, ?_, nofun⟩, hbr, fun hpin => ?_⟩, ?_⟩
  · rw [hbr.bottom_eq, beyond_congr hbr.ops_eq hbr.vnLen]
    exact hlen
  · rcases hf with rfl | hf
    · exact hpin
    · exact pinned_fetched_bottom hpin hs.heap hlive hf
  · rcases hf with rfl | hf
    · rfl
    · exact hf.procs

theorem ready_write (h : Ok s) (ha : a ∈ areas s p) (ho : a.vmaObj = some o)
    (hcov : a.vmaStart ≤ vfn) :
    ∃ res t, lookuppage s o (pagenum a vfn) true = .ok (res, t) ∧
      ((∃ e, res = .error e ∧ t = s) ∨ ∃ pf, res = .ok pf ∧
        Ready s (pframeDirty t o (pagenum a vfn)) p vfn o (pagenum a vfn) pf.pfAddr true ∧
          (pframeDirty t o (pagenum a vfn)).procs = s.procs) := by
  have hs := h.sound
  have hlive := hs.obj_live ha ho
  obtain ⟨ob, hob⟩ := Option.isSome_iff_exists.mp hlive
  have hbel : below s (bottom s o) = none := ParentChains.up_root hs.heap.decreasing o
  have hliveb := hs.heap.live_of_mem hlive (hs.heap.bottom_mem o)
  obtain ⟨res, t, hlook, hcase⟩ := lookuppage_write_spec hs.heap hs.referenced hob (pagenum a vfn)
  refine ⟨res, t, hlook, hcase.imp And.right ?_⟩
  rintro ⟨hnb, pf, t1, rfl, hf1, hf2, hfr⟩
  have hok1 := ok_of_fetched_bottom h hf1 hliveb hbel
  have hbr1 := brought_fetched hs.heap hliveb hf1
  have hbr2 := brought_fetched hok1.sound.heap (by rwa [hf1.isSome]) hf2
  have ha1 : a ∈ areas t1 p := by rwa [hbr1.areas_eq]
  have hbut := okBut_of_fetched_top hok1 ha1 ho hcov hf2
  have hbr := hbr1.trans hbr2
  have hd := sameFrames_pframeDirty t o (pagenum a vfn)
  refine ⟨pf, rfl, ⟨⟨hd.sound hbut.sound, hd.backed hbut.backed, hd.tops hbut.tops,
    fun q v hne => hd.entryOk_iff.mpr (hbut.tables q v hne)⟩,
    hd.shows_iff.mpr ⟨?_, ?_, fun _ => hfr⟩,
    hbr.trans (brought_pframeDirty t o _), fun hpin => ?_⟩,
    hd.procs.trans (hf2.procs.trans hf1.procs)⟩
  · exact hit_of_frameAt hbut.sound.heap hfr
  · rw [hbr.bottom_eq, beyond_congr hbr.ops_eq hbr.vnLen]
    exact fun _ => hnb
  · exact pinned_pframeDirty (pinnedBut_fetched (pinned_fetched_bottom hpin hs.heap hlive hf1) hf2)

/-- The state after a fault that the process survives. -/
structure Resumed (s t : Vm) (p vfn : ℕ) (write exec : Bool) (a : Vmarea) (o : ℕ) (e : Pte) :
    Prop where
  ok : Ok t
  area : a ∈ areas s p
  covers : covers a vfn
  obj : a.vmaObj = some o
  permitted : permitted a write exec
  entry : ptEntry (table t p) vfn = some e
  pteWrite : e.pteWrite = write
  brought : Brought s t
  pinned : Pinned s → Pinned t

theorem doExit_ok (h : Ok s) (hmap : mapOf s p = some map) :
    ∃ t, doExit s p = .ok (.killed, t) ∧ Killed s t p := by
  obtain ⟨t, ht, hk⟩ := vmmapDestroy_ok h hmap
  exact ⟨t, by rw [doExit, ht]; rfl, hk⟩

/-- Of the page tables only that of the process has changed, by one entry. -/
def Entered (s t : Vm) (p vfn : ℕ) (e : Pte) : Prop :=
  ptMap (table s p) vfn e = some (table t p) ∧ ∀ q, q ≠ p → table t q = table s q

theorem enter_ok {u : Vm} {write : Bool} (exec : Bool) (h : Ok s) (ha : a ∈ areas s p)
    (ho : a.vmaObj = some o) (hcov : covers a vfn) (hperm : permitted a write exec)
    (hr : Ready s u p vfn o (pagenum a vfn) f write ∧ u.procs = s.procs) :
    ∃ t, (do
      let r ← getProc u p
      let pd ← need (.kassert .ptMap) (ptMap r.pPagedir vfn ⟨f, write⟩)
      return (Resume.resumed, setPagedir u p r pd)) = .ok (.resumed, t) ∧
      Resumed s t p vfn write exec a o ⟨f, write⟩ ∧ Entered s t p vfn ⟨f, write⟩ := by
  obtain ⟨hr, hprocs⟩ := hr
  have hau : a ∈ areas u p := by rwa [hr.brought.areas_eq]
  obtain ⟨map, hmap⟩ := mapOf_of_mem hau
  obtain ⟨r, hproc, -⟩ := mapOf_eq_some.mp hmap
  have htab : table u p = r.pPagedir := by simp [table, hproc]
  have hrange := (h.sound.spaces.wf p).range a ha
  unfold covers at hcov
  obtain ⟨pd, hpd⟩ : ∃ pd, ptMap r.pPagedir vfn ⟨f, write⟩ = some pd :=
    ptMap_isSome _ (by omega) (by omega)
  have hpd' := hpd
  rw [← htab] at hpd'
  have hself : table (withTable u p pd) p = pd := table_withTable_self (by rw [hproc]; rfl) pd
  have hs : table u = table s := by
    funext q
    rw [table, table, hprocs]
  refine ⟨withTable u p pd, ?_, ⟨hr.okBut.map hau ho hcov hr.shows hpd', ha, hcov, ho, hperm,
    ?_, rfl, hr.brought.trans (brought_withTable u p pd), hr.pinned⟩, ?_, fun q hq => ?_⟩
  · simp [getProc, hproc, hpd, setPagedir, Vm.setProc, withTable, Vm.setProcs]
  · rw [hself, ptEntry_ptMap hpd, if_pos rfl]
  · rw [hself, ← hs, hpd']
  · rw [table_withTable_ne u pd hq, hs]

theorem handlePagefault_ok (h : Ok s) (hmap : mapOf s p = some map) (vaddr : ℕ)
    (write exec : Bool) :
    (∃ t, handlePagefault s p vaddr write exec = .ok (.killed, t) ∧ Killed s t p) ∨
      ∃ t a o e, handlePagefault s p vaddr write exec = .ok (.resumed, t) ∧
        Resumed s t p (vaddr/pageSize) write exec a o e ∧ Entered s t p (vaddr/pageSize) e := by
  obtain ⟨r, hr, hm⟩ := mapOf_eq_some.mp hmap
  obtain ⟨tk, htk, hkill⟩ := doExit_ok h hmap
  simp only [handlePagefault, handlePagefaultWith, plain, readAreas_eq hmap, ok_bind]
  cases hlook : vmmapLookup (areas s p) (vaddr/pageSize) with
  | none => exact .inl ⟨tk, htk, hkill⟩
  | some a =>
    have ha : a ∈ areas s p := mem_of_find?_eq_some hlook
    have hcov : covers a (vaddr/pageSize) := by simpa using find?_some hlook
    dsimp only
    by_cases hc : vaddr/pageSize = 0 ∨ ¬permitted a write exec
    · rw [if_pos hc]
      exact .inl ⟨tk, htk, hkill⟩
    · rw [if_neg hc]
      have hperm : permitted a write exec := by
        by_contra hn
        exact hc (.inr hn)
      obtain ⟨o, -, ho, -⟩ := h.backed p a ha
      simp only [ho, need_some, ok_bind]
      cases write with
      | false =>
        obtain ⟨res, t, hl, ⟨e, rfl, rfl⟩ | ⟨pf, rfl, hready⟩⟩ :=
          ready_read h ha ho (vaddr/pageSize) (pagenum a (vaddr/pageSize))
        · rw [hl]
          exact .inl ⟨tk, htk, hkill⟩
        · obtain ⟨u, hu, hres⟩ := enter_ok exec h ha ho hcov hperm hready
          rw [hl]
          exact .inr ⟨u, a, o, _, hu, hres⟩
      | true =>
        obtain ⟨res, t, hl, ⟨e, rfl, rfl⟩ | ⟨pf, rfl, hready⟩⟩ := ready_write h ha ho hcov.1
        · rw [hl]
          exact .inl ⟨tk, htk, hkill⟩
        · obtain ⟨u, hu, hres⟩ := enter_ok exec h ha ho hcov hperm hready
          rw [hl]
          exact .inr ⟨u, a, o, _, hu, hres⟩

end Fault

end SystemsProjects.PageFaults
