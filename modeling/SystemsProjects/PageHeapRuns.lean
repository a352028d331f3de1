import SystemsProjects.BuddyAllocation
import Mathlib.Algebra.Order.BigOperators.Group.List

/-!
# Runs of the page allocator

Ranges are added, blocks are handed out and live blocks are given back with their own
size, in any order.

`page_freecount` exceeds the number of pages on the free lists by the pages that are
left over at the end of each range, so that it is right exactly if there are none.
-/
namespace SystemsProjects.PageHeapRuns

open GuardedRuns VmState PageAllocator BuddySystems BuddyAllocation Option
open List hiding ranges

def sized (b : ℕ × ℕ) : ℕ × ℕ := (b.1, (orderFor b.2).getD 0)

def liveBlocks (h : PageHeap) : List (ℕ × ℕ) := h.live.map sized

/-- The pages at the end of a group that are on no list. -/
def leftOver (g : PageGroup) : ℕ := (g.pgEndaddr-g.pgBaseaddr)/pageSize%2^maxOrder

def totalLeft (s : PageState) : ℕ := (s.pagegroupList.map leftOver).sum

structure HeapOk (h : PageHeap) : Prop where
  ok : PagesOk h.pages (liveBlocks h)
  orders : ∀ b ∈ h.live, (orderFor b.2).isSome = true
  stops : ∀ g ∈ h.pages.pagegroupList, g.pgEndaddr < word
  inside : ∀ g ∈ h.pages.pagegroupList, ∃ r ∈ h.given, r.1 ≤ g.pgBaseaddr ∧ g.pgEndaddr ≤ r.2
  count : h.pages.pageFreecount = totalFree h.pages+totalLeft h.pages

section Totals

variable {s s' : PageState} {g : PageGroup} {live live' : List (ℕ × ℕ)}

theorem totalLeft_of_ranges (h : ranges s' = ranges s) : totalLeft s' = totalLeft s := by
  have hsum : ∀ s, totalLeft s =
      ((ranges s).map fun r => (r.2-r.1)/pageSize%2^maxOrder).sum := fun s => by
    rw [totalLeft, ranges, List.map_map]
    rfl
  rw [hsum, hsum, h]

theorem freePages_le (h : GroupOk g live) : freePages g ≤ topCount g*2^maxOrder := by
  obtain ⟨a, bs, hrep, hacc, -, -⟩ := h.system
  have hpages := hacc.exact.pages_eq
  rw [pages_append] at hpages
  rw [hrep.freePages]
  omega

theorem total_lt (h : PagesOk s live) (hstop : ∀ g ∈ s.pagegroupList, g.pgEndaddr < word) :
    totalFree s+totalLeft s < word := by
  have hsum : totalFree s+totalLeft s ≤
      (s.pagegroupList.map fun g => g.pgEndaddr-g.pgBaseaddr).sum/pageSize := by
    rw [Nat.le_div_iff_mul_le pageSize_pos, totalFree, totalLeft, ← sum_map_add,
      ← sum_map_mul_right]
    apply sum_le_sum
    intro g hg
    have hle := freePages_le (h.groups g hg)
    have hcount := topCount_mul g
    have hdiv := Nat.div_mul_le_self (g.pgEndaddr-g.pgBaseaddr) pageSize
    have hmul : (freePages g+leftOver g)*pageSize ≤
        (g.pgEndaddr-g.pgBaseaddr)/pageSize*pageSize := by
      apply Nat.mul_le_mul_right
      unfold leftOver
      omega
    exact hmul.trans hdiv
  have hlen := IntervalLists.sum_length_le h.separate fun g hg => (hstop g hg).le
  have hdiv : (s.pagegroupList.map fun g => g.pgEndaddr-g.pgBaseaddr).sum/pageSize ≤
      word/pageSize := Nat.div_le_div_right hlen
  have hw : word/pageSize < word := by decide
  omega

theorem pagesOk_perm (h : PagesOk s live) (hp : live.Perm live') : PagesOk s live' where
  groups g hg := (h.groups g hg).perm (hp.filter _)
  separate := h.separate
  home b hb := h.home b (hp.mem_iff.mpr hb)

theorem forall_of_ranges {P : ℕ → ℕ → Prop} (h : ranges s' = ranges s)
    (hp : ∀ g ∈ s.pagegroupList, P g.pgBaseaddr g.pgEndaddr) :
    ∀ g ∈ s'.pagegroupList, P g.pgBaseaddr g.pgEndaddr := by
  intro g hg
  have hmem : (g.pgBaseaddr, g.pgEndaddr) ∈ ranges s' := mem_map.mpr ⟨g, hg, rfl⟩
  rw [h] at hmem
  obtain ⟨g', hg', heq⟩ := mem_map.mp hmem
  simp only [Prod.mk.injEq] at heq
  rw [← heq.1, ← heq.2]
  exact hp g' hg'

end Totals

section Calls

variable {h h' : PageHeap} {npages addr o : ℕ}

theorem orderFor_le (ho : orderFor npages = some o) : o ≤ maxOrder := by
  have hmem := mem_of_find?_eq_some ho
  rw [mem_range] at hmem
  omega

theorem HeapOk.alloc (hh : HeapOk h) (ho : orderFor npages = some o) :
    ∃ r s', pageAllocN h.pages npages = some (r, s') ∧
      HeapOk ⟨s', (r.map fun addr => (addr, npages)).toList++h.live, h.given⟩ ∧
      ranges s' = ranges h.pages := by
  unfold pageAllocN
  rw [ho, bind_eq_bind, bind_some]
  rcases hh.ok.allocOrder (orderFor_le ho) with hnone | ⟨addr, s', hsome, hall⟩
  · exact ⟨none, h.pages, hnone, hh, rfl⟩
  · refine ⟨some addr, s', hsome, ?_, hall.ranges_eq⟩
    have hlt := total_lt hh.ok hh.stops
    have hfree := hall.free_eq
    have hleft := totalLeft_of_ranges hall.ranges_eq
    have hcount := hh.count
    constructor
    · simpa [liveBlocks, sized, ho] using hall.ok
    · intro b hb
      rcases mem_cons.mp hb with rfl | hb
      · simp [ho]
      · exact hh.orders b hb
    · exact forall_of_ranges (P := fun _ e => e < word) hall.ranges_eq hh.stops
    · exact forall_of_ranges (P := fun b e => ∃ r ∈ h.given, r.1 ≤ b ∧ e ≤ r.2)
        hall.ranges_eq hh.inside
    · have heq := hall.count_eq
      rw [sub32_eq (by omega) (by omega)] at heq
      change s'.pageFreecount = totalFree s'+totalLeft s'
      omega

theorem HeapOk.free (hh : HeapOk h) (hb : (addr, npages) ∈ h.live) :
    ∃ s', pageFreeN h.pages addr npages = some s' ∧
      HeapOk ⟨s', h.live.erase (addr, npages), h.given⟩ ∧ ranges s' = ranges h.pages := by
  obtain ⟨o, ho⟩ := isSome_iff_exists.mp (hh.orders _ hb)
  have hsized : sized (addr, npages) = (addr, o) := by simp [sized, ho]
  have hmem : (addr, o) ∈ liveBlocks h := hsized ▸ mem_map_of_mem hb
  obtain ⟨s', hs', hfreed⟩ := hh.ok.freeOrder hmem
  refine ⟨s', by simp only [pageFreeN, ho, bind_eq_bind, bind_some, hs'], ?_,
    hfreed.ranges_eq⟩
  have hperm : ((liveBlocks h).erase (addr, o)).Perm ((h.live.erase (addr, npages)).map sized) := by
    have h1 : (liveBlocks h).Perm ((addr, o)::(h.live.erase (addr, npages)).map sized) := by
      rw [← hsized]
      exact (perm_cons_erase hb).map sized
    exact ((perm_cons_erase hmem).symm.trans h1).cons_inv
  have hok := pagesOk_perm hfreed.ok hperm
  have hstops := forall_of_ranges (P := fun _ e => e < word) hfreed.ranges_eq hh.stops
  have hlt := total_lt hok hstops
  have hfree := hfreed.free_eq
  have hleft := totalLeft_of_ranges hfreed.ranges_eq
  have hcount := hh.count
  constructor
  · exact hok
  · intro b hb
    exact hh.orders b (mem_of_mem_erase hb)
  · exact hstops
  · exact forall_of_ranges (P := fun b e => ∃ r ∈ h.given, r.1 ≤ b ∧ e ≤ r.2)
      hfreed.ranges_eq hh.inside
  · have heq := hfreed.count_eq
    change s'.pageFreecount = totalFree s'+totalLeft s'
    rw [heq, Nat.mod_eq_of_lt (by omega)]
    omega

end Calls

section Ranges

variable {h : PageHeap} {start stop : ℕ}

/-- A range either is too small for a page group or becomes one without live blocks. -/
theorem pageAddRange_cases (s : PageState) (start stop : ℕ) :
    ∃ g, pagegroupCreate (pageAlignDown start) (pageAlignDown stop) = some g ∧
      g.pgEndaddr < word ∧
      (pageAddRange s start stop = some s ∧ ¬g.pgBaseaddr < g.pgEndaddr ∨
        pageAddRange s start stop = some ⟨s.pagegroupList++[g],
          (s.pageFreecount+(g.pgEndaddr-g.pgBaseaddr)/pageSize)%word⟩ ∧
        GroupOk g [] ∧ freePages g = topCount g*2^maxOrder) := by
  obtain ⟨g, hcreate, hbase, hlt, hfresh⟩ :=
    pagegroupCreate_spec (pageAlignDown stop) (dvd_pageAlignDown start)
  refine ⟨g, hcreate, hlt, ?_⟩
  simp only [pageAddRange, hcreate, bind_eq_bind, bind_some]
  by_cases hne : g.pgBaseaddr < g.pgEndaddr
  · right
    have hg : g = freshGroup (pageAlignDown start) g.pgEndaddr := hfresh (hbase ▸ hne)
    rw [if_pos hne, sub32_eq hlt hne.le]
    refine ⟨rfl, ?_, ?_⟩
    · rw [hg]
      exact groupOk_freshGroup (dvd_pageAlignDown start) (hbase ▸ hne)
    · rw [hg]
      exact freePages_freshGroup _ _
  · left
    rw [if_neg hne]
    exact ⟨rfl, hne⟩

theorem HeapOk.addRange (hh : HeapOk h) (hnew : NewRange h start stop) :
    ∃ s', pageAddRange h.pages start stop = some s' ∧
      HeapOk ⟨s', h.live, (pageAlignDown start, pageAlignDown stop)::h.given⟩ := by
  obtain ⟨hword, hpos, hgiven⟩ := hnew
  have hinside : ∀ x ∈ h.pages.pagegroupList,
      ∃ r ∈ (pageAlignDown start, pageAlignDown stop)::h.given,
        r.1 ≤ x.pgBaseaddr ∧ x.pgEndaddr ≤ r.2 := fun x hx =>
    (hh.inside x hx).imp fun _ hr => ⟨mem_cons_of_mem _ hr.1, hr.2⟩
  obtain ⟨g, hcreate, hlt, hcases⟩ := pageAddRange_cases h.pages start stop
  obtain ⟨heq, -⟩ | ⟨heq, hok, hpages⟩ := hcases
  · exact ⟨h.pages, heq, hh.ok, hh.orders, hh.stops, hinside, hh.count⟩
  · obtain ⟨hbase, hend⟩ := pagegroupCreate_range (dvd_pageAlignDown start)
      (dvd_pageAlignDown stop) hpos ((pageAlignDown_le stop).trans_lt hword) hcreate
    have hsep : ∀ x ∈ h.pages.pagegroupList, Separate x g := fun x hx => by
      obtain ⟨r, hr, hr1, hr2⟩ := hh.inside x hx
      rcases hgiven r hr with hle | hle
      · exact .inr (hend.trans (hle.trans hr1))
      · exact .inl (hr2.trans (hle.trans hbase.ge))
    -- every live block lies in an older group
    have hlive : liveIn g (liveBlocks h) = [] := by
      unfold liveIn
      rw [filter_eq_nil_iff]
      intro b hb
      obtain ⟨x, hx, hbx⟩ := hh.ok.home b hb
      simp [separate_not_contains (hsep x hx) hbx]
    have hpagesOk : PagesOk ⟨h.pages.pagegroupList++[g],
        (h.pages.pageFreecount+(g.pgEndaddr-g.pgBaseaddr)/pageSize)%word⟩ (liveBlocks h) := by
      constructor
      · intro x hx
        rcases mem_append.mp hx with hx | hx
        · exact hh.ok.groups x hx
        · rw [mem_singleton.mp hx, hlive]
          exact hok
      · rw [pairwise_append]
        refine ⟨hh.ok.separate, pairwise_singleton _ _, fun x hx y hy => ?_⟩
        rw [mem_singleton.mp hy]
        exact hsep x hx
      · intro b hb
        obtain ⟨x, hx, hbx⟩ := hh.ok.home b hb
        exact ⟨x, mem_append_left _ hx, hbx⟩
    have hstops : ∀ x ∈ h.pages.pagegroupList++[g], x.pgEndaddr < word := by
      intro x hx
      rcases mem_append.mp hx with hx | hx
      · exact hh.stops x hx
      · rw [mem_singleton.mp hx]
        exact hlt
    refine ⟨_, heq, hpagesOk, hh.orders, hstops, fun x hx => ?_, ?_⟩
    · rcases mem_append.mp hx with hx | hx
      · exact hinside x hx
      · rw [mem_singleton.mp hx]
        exact ⟨_, mem_cons_self, hbase.ge, hend⟩
    have htotal := total_lt hpagesOk hstops
    have hcount := hh.count
    have hsum := topCount_mul g
    simp only [totalFree, totalLeft, leftOver, map_append, map_cons, map_nil,
      List.sum_append, List.sum_cons, List.sum_nil, hpages] at htotal hcount ⊢
    rw [Nat.mod_eq_of_lt (by omega)]
    omega

end Ranges

theorem heapOk_boot : HeapOk bootPages where
  ok := ⟨nofun, .nil, nofun⟩
  orders := nofun
  stops := nofun
  inside := nofun
  count := rfl

theorem HeapOk.step {h h' : PageHeap} {e : PageEvent} (hh : HeapOk h) (hs : PageSteps h e h') :
    HeapOk h' ∧ (ranges h'.pages = ranges h.pages ∨ ∃ start stop g, e = .addRange start stop ∧
        pagegroupCreate (pageAlignDown start) (pageAlignDown stop) = some g ∧
        g.pgBaseaddr < g.pgEndaddr ∧ h'.pages.pagegroupList = h.pages.pagegroupList++[g]) := by
  unfold PageSteps at hs
  cases e with
  | addRange start stop =>
    simp only [stepPages] at hs
    split at hs
    · rename_i hnew
      obtain ⟨s', hs', hok⟩ := hh.addRange hnew
      obtain ⟨g, hcreate, -, hcases⟩ := pageAddRange_cases h.pages start stop
      rw [hs', map_some, some.injEq] at hs
      refine ⟨hs ▸ hok, ?_⟩
      rw [← hs]
      rcases hcases with ⟨heq, -⟩ | ⟨heq, hgroup, -⟩
      · rw [hs', some.injEq] at heq
        exact .inl (by rw [heq])
      · rw [hs', some.injEq] at heq
        exact .inr ⟨start, stop, g, rfl, hcreate, hgroup.nonempty, by rw [heq]⟩
    · cases hs
  | alloc npages =>
    simp only [stepPages] at hs
    split at hs
    · cases ho : orderFor npages with
      | none => simp [pageAllocN, ho] at hs
      | some o =>
        obtain ⟨r, s', hs', hok, hr⟩ := hh.alloc ho
        rw [hs', map_some, some.injEq] at hs
        exact ⟨hs ▸ hok, .inl (hs ▸ hr)⟩
    · cases hs
  | free addr npages =>
    simp only [stepPages] at hs
    split at hs
    · rename_i hb
      obtain ⟨s', hs', hok, hr⟩ := hh.free hb
      rw [hs', map_some, some.injEq] at hs
      exact ⟨hs ▸ hok, .inl (hs ▸ hr)⟩
    · cases hs

/-- Every added range has a whole number of blocks of the largest order below its maps. -/
def WholeBlocks (_ : PageHeap) : PageEvent → Prop
  | .addRange start stop =>
    ∀ g ∈ pagegroupCreate (pageAlignDown start) (pageAlignDown stop),
      g.pgBaseaddr < g.pgEndaddr → leftOver g = 0
  | _ => True

instance (h : PageHeap) (e : PageEvent) : Decidable (WholeBlocks h e) := by
  cases e <;> unfold WholeBlocks <;> infer_instance

theorem totalLeft_step {h h' : PageHeap} {e : PageEvent} (hh : HeapOk h)
    (hgood : WholeBlocks h e) (hs : PageSteps h e h') (hleft : totalLeft h.pages = 0) :
    totalLeft h'.pages = 0 := by
  rcases (hh.step hs).2 with hr | ⟨start, stop, g, rfl, hcreate, hne, hlist⟩
  · rw [totalLeft_of_ranges hr, hleft]
  · have hg : leftOver g = 0 := hgood g (by simp [hcreate]) hne
    rw [totalLeft, hlist, map_append, List.sum_append, ← totalLeft, hleft]
    simp [hg]

/-- The count of free pages is right in every state that is reached. -/
theorem whole_run_freecount {es : List PageEvent} {h : PageHeap}
    (hrun : Run PageSteps WholeBlocks bootPages es h) :
    h.pages.pageFreecount = totalFree h.pages := by
  have hinv : HeapOk h ∧ totalLeft h.pages = 0 := by
    refine hrun.invariant (I := fun h => HeapOk h ∧ totalLeft h.pages = 0) ?_
      ⟨heapOk_boot, rfl⟩
    intro h e h' hgood hs hh
    exact ⟨(hh.1.step hs).1, totalLeft_step hh.1 hgood hs hh.2⟩
  rw [hinv.1.count, hinv.2, Nat.add_zero]

theorem exists_run_pages (good : PageHeap → PageEvent → Prop) [∀ h e, Decidable (good h e)]
    (h : PageHeap) (es : List PageEvent) {P : PageHeap → Prop} [DecidablePred P]
    (hexec : (exec stepPages good h es).any (fun h => decide (P h)) = true) :
    ∃ h', Run PageSteps good h es h' ∧ P h' := exists_run (fun _ _ _ hs => hs) hexec

/-- A range of 513 pages leaves four blocks of 128 pages; 3 of them are whole after two
allocations. -/
theorem freecount_after_allocations : ∃ h, Run PageSteps WholeBlocks bootPages
      [.addRange 0xc0000000 0xc0201000, .alloc 1, .alloc 5] h ∧
      h.live.length = 2 ∧ h.pages.pageFreecount = totalFree h.pages ∧
      h.pages.pageFreecount = 503 := by
  exact (exists_run_pages _ _ _ (P := fun h => h.live.length = 2 ∧ h.pages.pageFreecount = 503)
    (by decide +kernel)).imp fun h hp => ⟨hp.1, hp.2.1, whole_run_freecount hp.1, hp.2.2⟩

/-- Of a range of 200 pages one is used for the maps and 128 are put on a list, but 199 are
counted. -/
theorem left_over_pages_counted :
    ∃ h, Run PageSteps (fun _ _ => True) bootPages [.addRange 0xc0000000 0xc00c8000] h ∧
      h.pages.pageFreecount = 199 ∧ totalFree h.pages = 128 :=
  exists_run_pages _ _ _ (by decide +kernel)

/-- The blocks on the free lists of a group, as addresses with orders. -/
def freeIn (g : PageGroup) : List (ℕ × ℕ) :=
  (range (maxOrder+1)).flatMap fun o => (g.pgFreelist o).map fun addr => (addr, o)

def freeBlocks (s : PageState) : List (ℕ × ℕ) := s.pagegroupList.flatMap freeIn

def blockEnd (b : ℕ × ℕ) : ℕ := b.1+2^b.2*pageSize

def BlocksApart : ℕ × ℕ → ℕ × ℕ → Prop := IntervalLists.Apart Prod.fst blockEnd

def Inside (g : PageGroup) (b : ℕ × ℕ) : Prop := g.pgBaseaddr ≤ b.1 ∧ blockEnd b ≤ g.pgEndaddr

/-- The bit of a pair tells whether exactly one of its halves is free. -/
def BitsRight (g : PageGroup) : Prop :=
  ∀ o < maxOrder, ∀ i, g.pgMap (o+1) i =
    xor (decide (g.pgBaseaddr+2*i*2^o*pageSize ∈ g.pgFreelist o))
      (decide (g.pgBaseaddr+(2*i+1)*2^o*pageSize ∈ g.pgFreelist o))

structure BlocksOk (h : PageHeap) : Prop where
  disjoint : (liveBlocks h++freeBlocks h.pages).Pairwise BlocksApart
  inside : ∀ b ∈ liveBlocks h++freeBlocks h.pages, ∃ g ∈ h.pages.pagegroupList, Inside g b
  bits : ∀ g ∈ h.pages.pagegroupList, BitsRight g

section Blocks

variable {g : PageGroup} {s : PageState} {live : List (ℕ × ℕ)} {b c : Block} {base : ℕ}

theorem located_apart (h : b.Apart c) : BlocksApart (located base b) (located base c) := by
  have hend : ∀ b : Block, blockEnd (located base b) = place base (b.start+2^b.order) :=
    fun b => place_add _ _ _
  unfold BlocksApart IntervalLists.Apart
  rw [hend, hend]
  exact h.le.imp place_le.mpr place_le.mpr

theorem freeIn_of_rep {stop : ℕ} {a : Buddies} (h : Rep base stop g a) :
    freeIn g = (a.blocks maxOrder).map (located base) := by
  rw [freeIn, Buddies.blocks, map_flatMap]
  simp only [h.free, List.map_map]
  rfl

theorem groupOk_blocks (h : GroupOk g live) : (live++freeIn g).Pairwise BlocksApart ∧
    (∀ b ∈ live++freeIn g, Inside g b) ∧ BitsRight g := by
  obtain ⟨a, bs, hrep, hacc, -, hlive⟩ := h.system
  have hperm : (live++freeIn g).Perm
      ((a.blocks maxOrder++bs).map (located g.pgBaseaddr)) := by
    rw [freeIn_of_rep hrep, map_append]
    exact (hlive.append_right _).trans perm_append_comm
  refine ⟨?_, fun b hb => ?_, fun o ho i => ?_⟩
  · refine (hperm.pairwise_iff Or.symm).mpr ?_
    exact List.Pairwise.map _ (fun _ _ hbc => located_apart hbc) hacc.exact.pairwise
  · obtain ⟨x, hx, rfl⟩ := mem_map.mp (hperm.mem_iff.mp hb)
    have hroom := h.range.room
    have hstop : place g.pgBaseaddr (x.start+2^x.order) ≤ _ :=
      place_le.mpr (hacc.exact.stop_le hx)
    constructor
    · exact Nat.le_add_right _ _
    · unfold blockEnd located
      rw [place_add]
      exact hstop.trans hroom
  · have hmem : ∀ p, g.pgBaseaddr+p*pageSize ∈ g.pgFreelist o ↔ p ∈ a.free o :=
      fun p => hrep.mem_iff
    simp only [hrep.bit, hmem]
    exact hacc.bits o ho i

theorem live_perm {l : List PageGroup} (hl : l.Pairwise Separate)
    (hhome : ∀ b ∈ live, ∃ g ∈ l, g.contains b.1 = true) :
    live.Perm (l.flatMap fun g => liveIn g live) := by
  induction live with
  | nil => simp [liveIn]
  | cons b live ih =>
    obtain ⟨g, hg, hb⟩ := hhome b mem_cons_self
    have hih := ih fun c hc => hhome c (mem_cons_of_mem _ hc)
    obtain ⟨l₁, l₂, rfl⟩ := append_of_mem hg
    rw [pairwise_append, pairwise_cons] at hl
    have hskip : ∀ x ∈ l₁++l₂, liveIn x (b::live) = liveIn x live := by
      intro x hx
      have hsep : Separate g x := by
        rcases mem_append.mp hx with hx | hx
        · exact (hl.2.2 x hx g mem_cons_self).symm
        · exact hl.2.1.1 x hx
      rw [liveIn_cons, if_neg (by simp [separate_not_contains hsep hb])]
    simp only [flatMap_append, flatMap_cons] at hih ⊢
    rw [flatMap_congr fun x hx => hskip x (mem_append_left _ hx),
      flatMap_congr (l := l₂) fun x hx => hskip x (mem_append_right _ hx),
      liveIn_cons, if_pos hb, cons_append]
    exact (hih.cons b).trans perm_middle.symm

theorem HeapOk.blocksOk {h : PageHeap} (hh : HeapOk h) : BlocksOk h := by
  have hgroups := fun g hg => groupOk_blocks (hh.ok.groups g hg)
  have hperm : (liveBlocks h++freeBlocks h.pages).Perm
      (h.pages.pagegroupList.flatMap fun g => liveIn g (liveBlocks h)++freeIn g) := by
    refine ((live_perm hh.ok.separate hh.ok.home).append_right _).trans ?_
    exact flatMap_append_perm _ _ _
  refine ⟨?_, fun b hb => ?_, fun g hg => (hgroups g hg).2.2⟩
  · refine (hperm.pairwise_iff Or.symm).mpr (pairwise_flatMap.mpr ⟨?_, ?_⟩)
    · exact fun g hg => (hgroups g hg).1
    · refine hh.ok.separate.imp_of_mem fun {g g'} hg hg' hsep b hb c hc => ?_
      obtain ⟨hb₁, hb₂⟩ := (hgroups g hg).2.1 b hb
      obtain ⟨hc₁, hc₂⟩ := (hgroups g' hg').2.1 c hc
      exact hsep.imp (fun hle => hb₂.trans (hle.trans hc₁)) fun hle => hc₂.trans (hle.trans hb₁)
  · obtain ⟨g, hg, hbg⟩ := mem_flatMap.mp (hperm.mem_iff.mp hb)
    exact ⟨g, hg, (hgroups g hg).2.1 b hbg⟩

end Blocks

/-- The same groups, with the same blocks on each free list. -/
def SameLists (s s' : PageState) : Prop :=
  ranges s' = ranges s ∧ ∀ (i : ℕ) (g g' : PageGroup),
    s.pagegroupList[i]? = some g → s'.pagegroupList[i]? = some g' →
      ∀ o ≤ maxOrder, (g'.pgFreelist o).Perm (g.pgFreelist o)

def OnlyRanges (_ : PageHeap) : PageEvent → Prop
  | .addRange _ _ => True
  | _ => False

def NoRanges (_ : PageHeap) : PageEvent → Prop
  | .addRange _ _ => False
  | _ => True

instance (h : PageHeap) (e : PageEvent) : Decidable (OnlyRanges h e) := by
  cases e <;> unfold OnlyRanges <;> infer_instance

instance (h : PageHeap) (e : PageEvent) : Decidable (NoRanges h e) := by
  cases e <;> unfold NoRanges <;> infer_instance

section Coalescing

variable {g : PageGroup} {h h' : PageHeap} {es : List PageEvent}

theorem freelist_perm_fresh (hg : GroupOk g []) {o : ℕ} (ho : o ≤ maxOrder) :
    (g.pgFreelist o).Perm ((freshGroup g.pgBaseaddr g.pgEndaddr).pgFreelist o) := by
  obtain ⟨a, bs, hrep, hacc, hco, hlive⟩ := hg.system
  obtain rfl : bs = [] := map_eq_nil_iff.mp hlive.symm.eq_nil
  rw [hrep.free]
  refine List.Perm.map _ ?_
  rcases Nat.lt_or_eq_of_le ho with hlt | rfl
  · rw [hacc.free_eq_nil hco ⟨topCount g, mul_comm _ _⟩ hlt]
    simp [freshBuddies, hlt.ne]
  · refine (hacc.free_perm_tops hco).trans ?_
    exact (unsplit_freshBuddies (topCount g)).top.symm

theorem sameLists_of_nothing_live (hh : HeapOk h) (hh' : HeapOk h') (hl : h.live = [])
    (hl' : h'.live = []) (hr : ranges h'.pages = ranges h.pages) :
    SameLists h.pages h'.pages := by
  refine ⟨hr, fun i g g' hi hi' o ho => ?_⟩
  have hg : GroupOk g [] := by
    have hok := hh.ok.groups g (mem_of_getElem? hi)
    rwa [liveBlocks, hl] at hok
  have hg' : GroupOk g' [] := by
    have hok := hh'.ok.groups g' (mem_of_getElem? hi')
    rwa [liveBlocks, hl'] at hok
  have hrange : (g'.pgBaseaddr, g'.pgEndaddr) = (g.pgBaseaddr, g.pgEndaddr) := by
    have hget := congrArg (·[i]?) hr
    simpa [ranges, hi, hi'] using hget
  rw [Prod.mk.injEq] at hrange
  have hfresh := freelist_perm_fresh hg' ho
  rw [hrange.1, hrange.2] at hfresh
  exact hfresh.trans (freelist_perm_fresh hg ho).symm

theorem HeapOk.free_all {order : List (ℕ × ℕ)} (hh : HeapOk h) (hp : order.Perm h.live) :
    ∃ h', Run PageSteps NoRanges h (order.map fun b => .free b.1 b.2) h' ∧ h'.live = [] ∧
      HeapOk h' ∧ ranges h'.pages = ranges h.pages := by
  induction order generalizing h with
  | nil => exact ⟨h, .done h, hp.symm.eq_nil, hh, rfl⟩
  | cons b order ih =>
    have hb : (b.1, b.2) ∈ h.live := hp.mem_iff.mp mem_cons_self
    obtain ⟨s', hs', hok, hr⟩ := hh.free hb
    have hstep : PageSteps h (.free b.1 b.2) ⟨s', h.live.erase b, h.given⟩ := by
      simp only [PageSteps, stepPages, if_pos hb, hs', map_some]
    obtain ⟨h', hrun, hlive, hh', hr'⟩ := ih hok
      (hp.trans (perm_cons_erase hb)).cons_inv
    exact ⟨h', .next trivial hstep hrun, hlive, hh', hr'.trans hr⟩

theorem live_of_onlyRanges (hrun : Run PageSteps OnlyRanges h es h') : h'.live = h.live := by
  induction hrun with
  | done h => rfl
  | @next h h₁ h₂ e es hgood hs hrest ih =>
    rw [ih]
    cases e with
    | addRange start stop =>
      simp only [PageSteps, stepPages] at hs
      split at hs
      · obtain ⟨s', -, rfl⟩ := map_eq_some_iff.mp hs
        rfl
      · cases hs
    | alloc npages => exact hgood.elim
    | free addr npages => exact hgood.elim

theorem ranges_of_noRanges (hh : HeapOk h) (hrun : Run PageSteps NoRanges h es h') :
    HeapOk h' ∧ ranges h'.pages = ranges h.pages := by
  induction hrun with
  | done h => exact ⟨hh, rfl⟩
  | next hgood hs _ ih =>
    obtain ⟨hok, hr | ⟨start, stop, g, rfl, -⟩⟩ := hh.step hs
    · obtain ⟨hok', hr'⟩ := ih hok
      exact ⟨hok', hr'.trans hr⟩
    · exact hgood.elim

/-- Blocks never overlap, the bits are right, calls with a permitted size return, and giving
everything back restores the lists. -/
theorem buddy_run_blocksOk {es₀ : List PageEvent} {h₀ : PageHeap}
    (hranges : Run PageSteps OnlyRanges bootPages es₀ h₀) (hrun : Run PageSteps NoRanges h₀ es h) :
    BlocksOk h ∧
      (∀ npages, (orderFor npages).isSome = true → (pageAllocN h.pages npages).isSome = true) ∧
      ∀ order : List (ℕ × ℕ), order.Perm h.live →
        ∃ h', Run PageSteps NoRanges h (order.map fun b => .free b.1 b.2) h' ∧ h'.live = [] ∧
          SameLists h₀.pages h'.pages := by
  have h₀ok : HeapOk h₀ := hranges.invariant (fun _ _ _ _ hs hh => (hh.step hs).1) heapOk_boot
  obtain ⟨hok, hr⟩ := ranges_of_noRanges h₀ok hrun
  refine ⟨hok.blocksOk, fun npages hn => ?_, fun order hp => ?_⟩
  · obtain ⟨o, ho⟩ := isSome_iff_exists.mp hn
    obtain ⟨r, s', hs', -⟩ := hok.alloc ho
    rw [hs', isSome_some]
  · obtain ⟨h', hfree, hlive, hok', hr'⟩ := hok.free_all hp
    refine ⟨h', hfree, hlive, ?_⟩
    exact sameLists_of_nothing_live h₀ok hok' (live_of_onlyRanges hranges) hlive (hr'.trans hr)

end Coalescing

/-- Three blocks of one group are live, and freeing them in any order joins everything. -/
theorem blocksOk_after_allocations : ∃ h₀ h,
    Run PageSteps OnlyRanges bootPages [.addRange 0xc0000000 0xc0201000] h₀ ∧
    Run PageSteps NoRanges h₀ [.alloc 1, .alloc 5, .alloc 128, .free 0xc01ff000 1, .alloc 2] h ∧
    h.live.length = 3 ∧ BlocksOk h ∧
    ∀ order : List (ℕ × ℕ), order.Perm h.live →
      ∃ h', Run PageSteps NoRanges h (order.map fun b => .free b.1 b.2) h' ∧ h'.live = [] ∧
        SameLists h₀.pages h'.pages := by
  obtain ⟨h₀, hranges, hp₀⟩ := exists_run_pages OnlyRanges bootPages
    [.addRange 0xc0000000 0xc0201000] (P := fun h₀ => (exec stepPages NoRanges h₀
      [.alloc 1, .alloc 5, .alloc 128, .free 0xc01ff000 1, .alloc 2]).any
        fun h => decide (h.live.length = 3)) (by decide +kernel)
  obtain ⟨h, hrun, hp⟩ := exists_run_pages NoRanges _ _ hp₀
  obtain ⟨hblocks, -, hfree⟩ := buddy_run_blocksOk hranges hrun
  exact ⟨h₀, h, hranges, hrun, hp, hblocks, hfree⟩

end SystemsProjects.PageHeapRuns
