import SystemsProjects.PageAllocator
import SystemsProjects.BuddySystems
import SystemsProjects.IntervalLists

/-!
# The page allocator as a buddy system

A page group keeps a buddy system whose pages are counted from the base address of
the group. Each function of the allocator does to the group what the corresponding
operation does to the buddy system, and none of its assertions fails while the
account of free and live blocks is exact.
-/
namespace SystemsProjects.BuddyAllocation

open VmState PageAllocator BuddySystems List

def place (base p : ℕ) : ℕ := base+p*pageSize

/-- The group keeps the buddy system `a` between two addresses. -/
structure Rep (base stop : ℕ) (g : PageGroup) (a : Buddies) : Prop where
  base_eq : g.pgBaseaddr = base
  stop_eq : g.pgEndaddr = stop
  free : ∀ o, g.pgFreelist o = (a.free o).map (place base)
  bit : g.pgMap = a.bit

/-- A range of whole pages that has room for `N` of them. -/
structure Range (base stop N : ℕ) : Prop where
  aligned : base%pageSize = 0
  room : place base N ≤ stop

variable {g : PageGroup}

section Addresses

variable {base stop N p q o : ℕ}

theorem pageSize_pos : 0 < pageSize := by decide

theorem place_inj : place base p = place base q ↔ p = q := by
  rw [place, place, Nat.add_left_cancel_iff, Nat.mul_left_inj pageSize_pos.ne']

theorem place_injective (base : ℕ) : Function.Injective (place base) := fun _ _ => place_inj.mp

theorem place_sub (base p : ℕ) : place base p-base = p*pageSize := Nat.add_sub_cancel_left ..

theorem place_add (base p q : ℕ) : place base p+q*pageSize = place base (p+q) := by
  rw [place, place, Nat.add_mul, Nat.add_assoc]

theorem place_le : place base p ≤ place base q ↔ p ≤ q := by
  rw [place, place, Nat.add_le_add_iff_left, Nat.mul_le_mul_right_iff pageSize_pos]

theorem place_min : min (place base p) (place base q) = place base (min p q) := by
  rcases Nat.le_total p q with h | h
  · rw [Nat.min_eq_left h, Nat.min_eq_left (place_le.mpr h)]
  · rw [Nat.min_eq_right h, Nat.min_eq_right (place_le.mpr h)]

theorem Range.contains {a : Buddies} (hr : Range base stop N) (h : Rep base stop g a) (hp : p < N) :
    g.contains (place base p) = true := by
  have hle : place base (p+1) ≤ place base N := place_le.mpr hp
  have hsucc : place base (p+1) = place base p+pageSize := by
    rw [← place_add, one_mul]
  have := hr.room
  have := pageSize_pos
  have hbase : base ≤ place base p := Nat.le_add_right _ _
  simp only [PageGroup.contains, h.base_eq, h.stop_eq, Bool.and_eq_true, decide_eq_true_eq]
  omega

theorem calculateIndex_eq (hb : g.pgBaseaddr%pageSize = 0) (ho : o ≤ maxOrder)
    (hc : g.contains (place g.pgBaseaddr p) = true) :
    calculateIndex g o (place g.pgBaseaddr p) = some (p/2^o) := by
  have hdvd : 2^o ∣ pageSize := by
    have : pageSize = 2^12 := rfl
    rw [this]
    exact pow_dvd_pow 2 (by unfold maxOrder at ho; omega)
  have halign : place g.pgBaseaddr p%pageSize = 0 := by
    rw [place, Nat.add_mul_mod_self_right, hb]
  have hmod : (place g.pgBaseaddr p-g.pgBaseaddr)%2^o = 0 := by
    rw [place_sub]
    exact Nat.mod_eq_zero_of_dvd (hdvd.mul_left p)
  rw [calculateIndex, if_pos ⟨halign, ho, hc, hmod⟩, place_sub, Nat.div_div_eq_div_mul,
    Nat.mul_div_mul_right _ _ pageSize_pos]

theorem buddyAddr_eq : buddyAddr g o (place g.pgBaseaddr p) = place g.pgBaseaddr (buddy o p) := by
  rw [buddyAddr, place_sub, Nat.mul_div_cancel _ pageSize_pos, buddy]
  split
  · rename_i hodd
    have hle : 2^o ≤ p := by
      by_contra hlt
      rw [Nat.div_eq_of_lt (by omega)] at hodd
      omega
    refine Nat.sub_eq_of_eq_add ?_
    rw [place_add, Nat.sub_add_cancel hle]
  · exact place_add _ _ _

end Addresses

variable {rest : List ℕ} {k : ℕ}

section Groups

variable {base stop N p o : ℕ} {g : PageGroup} {a : Buddies} {live : List Block}

theorem Rep.setList (h : Rep base stop g a) (l : List ℕ) :
    Rep base stop (g.setList o (l.map (place base)))
      { a with free := Function.update a.free o l } where
  base_eq := h.base_eq
  stop_eq := h.stop_eq
  free r := by
    by_cases hr : r = o
    · subst hr
      simp [PageGroup.setList]
    · simp [PageGroup.setList, hr, h.free]
  bit := h.bit

theorem Rep.insert (h : Rep base stop g a) :
    Rep base stop (g.setList o (place base p :: g.pgFreelist o)) (a.insert o p) := by
  rw [h.free o, ← map_cons]
  exact h.setList _

theorem Rep.calculateIndex (h : Rep base stop g a) (hr : Range base stop N) (hp : p < N)
    (ho : o ≤ maxOrder) : calculateIndex g o (place base p) = some (p/2^o) := by
  have hc := hr.contains h hp
  rw [← h.base_eq] at hc ⊢
  exact calculateIndex_eq (h.base_eq ▸ hr.aligned) ho hc

theorem Rep.flipAbove (h : Rep base stop g a) (hr : Range base stop N) (hp : p < N) :
    ∃ g', g.flipAbove o (place base p) = some g' ∧ Rep base stop g' (a.mark maxOrder o p) := by
  unfold PageGroup.flipAbove Buddies.mark
  by_cases ho : o < maxOrder
  · rw [if_pos ho, if_pos ho, h.calculateIndex hr hp ho, Option.map_some]
    refine ⟨_, rfl, h.base_eq, h.stop_eq, h.free, ?_⟩
    simp only [PageGroup.bitFlip, Buddies.flip, h.bit]
  · rw [if_neg ho, if_neg ho]
    exact ⟨g, rfl, h⟩

theorem remove_head (hp : a.free o = p :: rest) :
    a.remove o p = { a with free := Function.update a.free o rest } := by
  rw [Buddies.remove, hp, erase_cons_head]

theorem Rep.splitOnce (h : Rep base stop g a) (hr : Range base stop N)
    (hacc : Account maxOrder N a live) (ho : o < maxOrder) (hp : a.free (o+1) = p :: rest) :
    ∃ g', pageSplitOnce g o = some g' ∧ Rep base stop g' (a.split maxOrder o p) := by
  have hmem : p ∈ a.free (o+1) := hp ▸ mem_cons_self
  have hpN := hacc.start_lt ho hmem
  have hrest := h.setList (o := o+1) rest
  rw [← remove_head hp] at hrest
  obtain ⟨g1, hflip, h1⟩ := hrest.flipAbove (o := o+1) hr hpN
  have hidx := h1.calculateIndex hr hpN ho
  have hbit : g1.pgMap (o+1) (p/2^(o+1)) = false := by
    rw [h1.bit, bit_mark, if_neg (by omega), bit_remove]
    exact hacc.bit_halves ho hmem
  have hlist : g.pgFreelist (o+1) = place base p :: rest.map (place base) := by
    rw [h.free, hp, map_cons]
  simp only [pageSplitOnce, hlist, if_pos (show o+1 ≤ maxOrder from ho), hflip, Option.bind_eq_bind,
    Option.bind_some, hidx, hbit]
  refine ⟨_, rfl, ?_⟩
  have h2 := (h1.insert (o := o) (p := p)).insert (o := o) (p := p+2^o)
  simpa [PageGroup.setList, place_add, Buddies.split, Buddies.take] using h2

theorem splitDown_spec (hr : Range base stop N) (h : Rep base stop g a)
    (hacc : Account maxOrder N a live) (hk : o+k ≤ maxOrder) (hp : a.free (o+k) = p :: rest)
    (hc : CoalescedBut maxOrder a (o+k) p) :
    ∃ g' a' p' rest', splitDown o k g = some g' ∧ Rep base stop g' a' ∧
      Account maxOrder N a' live ∧ a'.free o = p' :: rest' ∧
      CoalescedBut maxOrder a' o p' ∧
      pages (a'.blocks maxOrder) = pages (a.blocks maxOrder) := by
  induction k generalizing g a p rest with
  | zero => exact ⟨g, a, p, rest, rfl, h, hacc, hp, hc, rfl⟩
  | succ k ih =>
    have ho : o+k < maxOrder := by omega
    have hmem : p ∈ a.free (o+k+1) := hp ▸ mem_cons_self
    obtain ⟨g1, hsplit, h1⟩ := h.splitOnce hr hacc ho hp
    have hhead : (a.split maxOrder (o+k) p).free (o+k) =
        (p+2^(o+k)) :: p :: (a.take maxOrder (o+k+1) p).free (o+k) := by
      simp [Buddies.split]
    obtain ⟨g', a', p', rest', hdown, hrest⟩ := ih h1 (hacc.split ho hmem) ho.le hhead
      (hc.split hacc ho hmem)
    refine ⟨g', a', p', rest', ?_, ?_⟩
    · simp only [splitDown, hsplit, Option.bind_eq_bind, Option.bind_some, hdown]
    · rwa [hacc.pages_split ho hmem] at hrest

theorem Rep.mem_iff (h : Rep base stop g a) : place base p ∈ g.pgFreelist o ↔ p ∈ a.free o := by
  rw [h.free, mem_map_of_injective (place_injective base)]

theorem Rep.remove (h : Rep base stop g a) :
    Rep base stop (g.setList o ((g.pgFreelist o).erase (place base p))) (a.remove o p) := by
  rw [h.free, ← map_erase (place_injective base)]
  exact h.setList _

theorem setList_above (g : PageGroup) (o : ℕ) (l : List ℕ) :
    (g.setList o l).pgFreelist (o+1) = g.pgFreelist (o+1) := by
  simp [PageGroup.setList]

theorem Rep.merge (h : Rep base stop g a) (hr : Range base stop N)
    (hacc : Account maxOrder N a live) (ho : o < maxOrder) (hp : p ∈ a.free o) :
    ∃ g', ((g.setList o (((g.pgFreelist o).erase (place base p)).erase
        (place base (buddy o p)))).setList (o+1)
          (place base (min p (buddy o p)) :: g.pgFreelist (o+1))).flipAbove (o+1)
        (place base (min p (buddy o p))) = some g' ∧
      Rep base stop g' (a.merge maxOrder o p) := by
  have h2 := (h.remove (o := o) (p := p)).remove (o := o) (p := buddy o p)
  have h3 := h2.insert (o := o+1) (p := min p (buddy o p))
  have hmin : min p (buddy o p) < N :=
    (Nat.min_le_left _ _).trans_lt (hacc.start_lt ho.le hp)
  have hgroup : ((g.setList o ((g.pgFreelist o).erase (place base p))).setList o
      (((g.setList o ((g.pgFreelist o).erase (place base p))).pgFreelist o).erase
        (place base (buddy o p)))) =
      g.setList o (((g.pgFreelist o).erase (place base p)).erase (place base (buddy o p))) := by
    simp [PageGroup.setList]
  rw [hgroup, setList_above] at h3
  exact h3.flipAbove hr hmin

theorem Rep.join (hr : Range base stop N) (h : Rep base stop g a) (hacc : Account maxOrder N a live)
    (hc : CoalescedBut maxOrder a o p) (hp : p ∈ a.free o) (hk : o+k = maxOrder) :
    ∃ g', pageJoin k g o (place base p) = some g' ∧
      Rep base stop g' (a.join maxOrder k o p) := by
  induction k generalizing g a o p with
  | zero => exact ⟨g, rfl, h⟩
  | succ k ih =>
    have ho : o < maxOrder := by omega
    have halign := hacc.aligned ho.le hp
    have hidx := h.calculateIndex hr (hacc.start_lt ho.le hp) (show o+1 ≤ maxOrder from ho)
    simp only [pageJoin, hidx, Option.bind_eq_bind, Option.bind_some, Buddies.join, h.bit]
    by_cases hbit : a.bit (o+1) (p/2^(o+1)) = true
    · rw [if_pos hbit, if_pos hbit]
      exact ⟨g, rfl, h⟩
    · have hq := (hacc.bit_iff ho hp).mp (by simpa using hbit)
      have hmod : ¬(place base p-g.pgBaseaddr)%2^o ≠ 0 := by
        rw [h.base_eq, place_sub, not_not]
        exact Nat.mod_eq_zero_of_dvd (halign.mul_right _)
      have hbuddy : buddyAddr g o (place base p) = place base (buddy o p) := by
        rw [← h.base_eq]
        exact buddyAddr_eq
      obtain ⟨g1, hflip, h1⟩ := h.merge hr hacc ho hp
      have hmem : min p (buddy o p) ∈ (a.merge maxOrder o p).free (o+1) := by
        simp [Buddies.merge, Buddies.give]
      obtain ⟨g', hjoin, h'⟩ := ih h1 (hacc.merge ho hp hq) (hc.merge hacc ho) hmem
        (by omega)
      rw [if_neg hbit, if_neg hbit, hbuddy, if_neg, setList_above, place_min, hflip]
      · exact ⟨g', hjoin, h'⟩
      · rw [h.mem_iff, h.mem_iff]
        simp only [hp, hq, not_true, or_false]
        exact hmod

end Groups

/-- The number of whole blocks of the largest order in a group. -/
def topCount (g : PageGroup) : ℕ := (g.pgEndaddr-g.pgBaseaddr)/pageSize/2^maxOrder

/-- The pages in the blocks on the free lists of a group. -/
def freePages (g : PageGroup) : ℕ :=
  ((range (maxOrder+1)).map fun o => 2^o*(g.pgFreelist o).length).sum

/-- A block of a group, as an address and an order. -/
def located (base : ℕ) (b : Block) : ℕ × ℕ := (place base b.start, b.order)

/-- The group keeps a buddy system in which exactly the given blocks are live. -/
structure GroupOk (g : PageGroup) (live : List (ℕ × ℕ)) : Prop where
  aligned : g.pgBaseaddr%pageSize = 0
  nonempty : g.pgBaseaddr < g.pgEndaddr
  system : ∃ a bs, Rep g.pgBaseaddr g.pgEndaddr g a ∧
    Account maxOrder (topCount g*2^maxOrder) a bs ∧ Coalesced maxOrder a ∧
    live.Perm (bs.map (located g.pgBaseaddr))

section GroupOk

variable {g : PageGroup} {live : List (ℕ × ℕ)} {addr o k : ℕ}

theorem topCount_mul (g : PageGroup) :
    topCount g*2^maxOrder+(g.pgEndaddr-g.pgBaseaddr)/pageSize%2^maxOrder =
      (g.pgEndaddr-g.pgBaseaddr)/pageSize :=
  Nat.div_add_mod' _ _

theorem GroupOk.range (h : GroupOk g live) :
    Range g.pgBaseaddr g.pgEndaddr (topCount g*2^maxOrder) where
  aligned := h.aligned
  room := by
    have h1 := topCount_mul g
    have h2 := Nat.div_mul_le_self (g.pgEndaddr-g.pgBaseaddr) pageSize
    have h3 : topCount g*2^maxOrder*pageSize ≤ (g.pgEndaddr-g.pgBaseaddr)/pageSize*pageSize :=
      Nat.mul_le_mul_right _ (by omega)
    have := h.nonempty
    unfold place
    omega

theorem GroupOk.perm {live' : List (ℕ × ℕ)} (h : GroupOk g live) (hp : live.Perm live') :
    GroupOk g live' := by
  obtain ⟨a, bs, hrep, hacc, hco, hlive⟩ := h.system
  exact ⟨h.aligned, h.nonempty, a, bs, hrep, hacc, hco, hp.symm.trans hlive⟩

theorem Rep.freePages {base stop : ℕ} {a : Buddies} (h : Rep base stop g a) :
    freePages g = pages (a.blocks maxOrder) := by
  rw [pages_blocks, BuddyAllocation.freePages]
  simp only [h.free, length_map]

theorem GroupOk.of_rep {live' : List (ℕ × ℕ)} {g' : PageGroup} {a : Buddies} {bs : List Block}
    (h : GroupOk g live) (hrep : Rep g.pgBaseaddr g.pgEndaddr g' a)
    (hacc : Account maxOrder (topCount g*2^maxOrder) a bs) (hco : Coalesced maxOrder a)
    (hlive : live'.Perm (bs.map (located g.pgBaseaddr))) : GroupOk g' live' := by
  have hcount : topCount g' = topCount g := by
    rw [topCount, topCount, hrep.base_eq, hrep.stop_eq]
  refine ⟨hrep.base_eq ▸ h.aligned, ?_, a, bs, ?_, hcount ▸ hacc, hco, hrep.base_eq ▸ hlive⟩
  · rw [hrep.base_eq, hrep.stop_eq]
    exact h.nonempty
  · rw [hrep.base_eq, hrep.stop_eq]
    exact hrep

theorem GroupOk.alloc (h : GroupOk g live) (hk : o+k ≤ maxOrder)
    (hne : g.pgFreelist (o+k) ≠ []) :
    ∃ g1 addr g2, splitDown o k g = some g1 ∧ (g1.pgFreelist o).head? = some addr ∧
      (g1.setList o (g1.pgFreelist o).tail).flipAbove o addr = some g2 ∧
      GroupOk g2 ((addr,o)::live) ∧ g.contains addr = true ∧
      g2.pgBaseaddr = g.pgBaseaddr ∧ g2.pgEndaddr = g.pgEndaddr ∧
      freePages g = 2^o+freePages g2 := by
  obtain ⟨a, bs, hrep, hacc, hco, hlive⟩ := h.system
  obtain ⟨p, rest, hp⟩ : ∃ p rest, a.free (o+k) = p :: rest := by
    cases hfree : a.free (o+k) with
    | nil => simp [hrep.free, hfree] at hne
    | cons p rest => exact ⟨p, rest, rfl⟩
  have hbut : CoalescedBut maxOrder a (o+k) p := fun r hr s hs hbs =>
    absurd hbs (hco r hr s hs)
  obtain ⟨g1, a1, q, rest1, hdown, hrep1, hacc1, hq, hbut1, hpages⟩ :=
    splitDown_spec h.range hrep hacc hk hp hbut
  have ho : o ≤ maxOrder := by omega
  have hmem : q ∈ a1.free o := hq ▸ mem_cons_self
  have hqN := hacc1.start_lt ho hmem
  have hlist : g1.pgFreelist o = place g.pgBaseaddr q :: rest1.map (place g.pgBaseaddr) := by
    rw [hrep1.free, hq, map_cons]
  have htail := hrep1.setList (o := o) rest1
  rw [← remove_head hq] at htail
  obtain ⟨g2, hflip, hrep2⟩ := htail.flipAbove (o := o) h.range hqN
  refine ⟨g1, place g.pgBaseaddr q, g2, hdown, by rw [hlist]; rfl, ?_, ?_,
    h.range.contains hrep hqN, hrep2.base_eq, hrep2.stop_eq, ?_⟩
  · rw [hlist]
    exact hflip
  · exact h.of_rep hrep2 (hacc1.take ho hmem) (hbut1.take (hacc1.free_nodup ho)) (hlive.cons _)
  · rw [hrep.freePages, hrep2.freePages, ← hpages, pages_take ho hmem]
    rfl

theorem GroupOk.free (h : GroupOk g ((addr,o)::live)) :
    ∃ g2 g', (g.setList o (addr :: g.pgFreelist o)).flipAbove o addr = some g2 ∧
      pageJoin (maxOrder-o) g2 o addr = some g' ∧ GroupOk g' live ∧
      g'.pgBaseaddr = g.pgBaseaddr ∧ g'.pgEndaddr = g.pgEndaddr ∧
      freePages g' = 2^o+freePages g ∧ o ≤ maxOrder := by
  obtain ⟨a, bs, hrep, hacc, hco, hlive⟩ := h.system
  obtain ⟨⟨o', p⟩, hb, hloc⟩ := mem_map.mp (hlive.mem_iff.mp mem_cons_self)
  simp only [located, Prod.mk.injEq] at hloc
  obtain ⟨rfl, rfl⟩ := hloc
  have hbs := perm_cons_erase hb
  have hacc1 : Account maxOrder (topCount g*2^maxOrder) a (⟨o',p⟩::bs.erase ⟨o',p⟩) :=
    hacc.of_perm (hbs.symm.append_left _) hacc.bits
  have ho : o' ≤ maxOrder := (hacc1.fits ⟨o',p⟩ (by simp)).1
  have hpN : p < topCount g*2^maxOrder :=
    hacc1.exact.lt (b := ⟨o',p⟩) (by simp) (Block.covers_start _)
  obtain ⟨g2, hflip, hrep2⟩ := (hrep.insert (o := o') (p := p)).flipAbove (o := o') h.range hpN
  change Rep _ _ g2 (a.give maxOrder o' p) at hrep2
  have hgive := hacc1.give
  have hmem : p ∈ (a.give maxOrder o' p).free o' := by simp [Buddies.give]
  have hk : o'+(maxOrder-o') = maxOrder := by omega
  obtain ⟨g', hjoin, hrep'⟩ := Rep.join h.range hrep2 hgive hco.give hmem hk
  obtain ⟨hacc', hco', hpages⟩ := hgive.join hco.give hmem hk
  refine ⟨g2, g', hflip, hjoin, ?_, hrep'.base_eq, hrep'.stop_eq, ?_, ho⟩
  · refine h.of_rep hrep' hacc' hco' (List.Perm.cons_inv (a := (place g.pgBaseaddr p, o')) ?_)
    exact hlive.trans (hbs.map (located g.pgBaseaddr))
  · rw [hrep'.freePages, hrep.freePages, hpages, pages_give ho]

end GroupOk

def Separate : PageGroup → PageGroup → Prop :=
  IntervalLists.Apart PageGroup.pgBaseaddr PageGroup.pgEndaddr

def liveIn (g : PageGroup) (live : List (ℕ × ℕ)) : List (ℕ × ℕ) :=
  live.filter fun b => g.contains b.1

/-- Every group is a buddy system for the live blocks that lie in it. -/
structure PagesOk (s : PageState) (live : List (ℕ × ℕ)) : Prop where
  groups : ∀ g ∈ s.pagegroupList, GroupOk g (liveIn g live)
  separate : s.pagegroupList.Pairwise Separate
  home : ∀ b ∈ live, ∃ g ∈ s.pagegroupList, g.contains b.1 = true

def ranges (s : PageState) : List (ℕ × ℕ) :=
  s.pagegroupList.map fun g => (g.pgBaseaddr, g.pgEndaddr)

def totalFree (s : PageState) : ℕ := (s.pagegroupList.map freePages).sum

/-- One group takes the place of another with the same range. -/
structure Replaced (s : PageState) (g g' : PageGroup) (s' : PageState) : Prop where
  split : ∃ l₁ l₂, s.pagegroupList = l₁++g::l₂ ∧ s'.pagegroupList = l₁++g'::l₂
  base_eq : g'.pgBaseaddr = g.pgBaseaddr
  stop_eq : g'.pgEndaddr = g.pgEndaddr

section States

variable {s s' : PageState} {live live' : List (ℕ × ℕ)} {g g' : PageGroup} {i addr o : ℕ}

theorem replaced_setGroup (hi : s.pagegroupList[i]? = some g)
    (hb : g'.pgBaseaddr = g.pgBaseaddr) (hs : g'.pgEndaddr = g.pgEndaddr) :
    Replaced s g g' (setGroup s i g') := by
  obtain ⟨hlt, hget⟩ := List.getElem?_eq_some_iff.mp hi
  refine ⟨⟨s.pagegroupList.take i, s.pagegroupList.drop (i+1), ?_, ?_⟩, hb, hs⟩
  · rw [← hget, getElem_cons_drop, take_append_drop]
  · exact set_eq_take_append_cons_drop.trans (if_pos hlt)

theorem Replaced.ranges_eq (h : Replaced s g g' s') : ranges s' = ranges s := by
  obtain ⟨l₁, l₂, hs, hs'⟩ := h.split
  simp [ranges, hs, hs', h.base_eq, h.stop_eq]

theorem Replaced.totalFree (h : Replaced s g g' s') :
    totalFree s'+freePages g = totalFree s+freePages g' := by
  obtain ⟨l₁, l₂, hs, hs'⟩ := h.split
  simp only [BuddyAllocation.totalFree, hs, hs', map_append, map_cons, sum_append, sum_cons]
  omega

theorem Replaced.contains_eq (h : Replaced s g g' s') : g'.contains = g.contains := by
  funext x
  simp only [PageGroup.contains, h.base_eq, h.stop_eq]

theorem Replaced.liveIn_eq (h : Replaced s g g' s') (live : List (ℕ × ℕ)) :
    liveIn g' live = liveIn g live := by
  rw [liveIn, h.contains_eq, liveIn]

theorem separate_not_contains (h : Separate g g') (hx : g.contains addr = true) :
    g'.contains addr = false := by
  simp only [PageGroup.contains, Bool.and_eq_true, decide_eq_true_eq, Bool.and_eq_false_iff,
    decide_eq_false_iff_not] at hx ⊢
  unfold Separate IntervalLists.Apart at h
  omega

theorem Separate.symm (h : Separate g g') : Separate g' g := Or.symm h

/-- A change of the blocks of one group leaves the other groups as they are. -/
theorem PagesOk.replace (h : PagesOk s live) (hr : Replaced s g g' s')
    (hg : GroupOk g' (liveIn g' live'))
    (hlive : ∀ g₁, g₁.contains addr = false → (liveIn g₁ live).Perm (liveIn g₁ live'))
    (hhere : g.contains addr = true)
    (hhome : ∀ b ∈ live', b ∈ live ∨ b.1 = addr) : PagesOk s' live' := by
  obtain ⟨l₁, l₂, hs, hs'⟩ := hr.split
  have hsep := h.separate
  rw [hs, pairwise_append, pairwise_cons] at hsep
  obtain ⟨h₁, ⟨hg₂, h₂⟩, h₁₂⟩ := hsep
  have hranges : ∀ x, Separate g' x ↔ Separate g x := fun x => by
    simp only [Separate, IntervalLists.Apart, hr.base_eq, hr.stop_eq]
  have hother : ∀ x ∈ l₁++l₂, Separate g x := by
    intro x hx
    rcases mem_append.mp hx with hx | hx
    · exact (h₁₂ x hx g mem_cons_self).symm
    · exact hg₂ x hx
  have hkept : ∀ x ∈ l₁++l₂, GroupOk x (liveIn x live') := fun x hx =>
    (h.groups x (hs ▸ by simp_all [or_left_comm])).perm
      (hlive x (separate_not_contains (hother x hx) hhere))
  refine ⟨fun x hx => ?_, ?_, fun b hb => ?_⟩
  · rw [hs'] at hx
    simp only [mem_append, mem_cons] at hx
    rcases hx with hx | rfl | hx
    · exact hkept x (by simp [hx])
    · exact hg
    · exact hkept x (by simp [hx])
  · rw [hs', pairwise_append, pairwise_cons]
    refine ⟨h₁, ⟨fun x hx => (hranges x).mpr (hg₂ x hx), h₂⟩, fun x hx y hy => ?_⟩
    rcases mem_cons.mp hy with rfl | hy
    · exact ((hranges x).mpr (hother x (by simp [hx]))).symm
    · exact h₁₂ x hx y (mem_cons_of_mem _ hy)
  · rcases hhome b hb with hb | rfl
    · obtain ⟨x, hx, hxb⟩ := h.home b hb
      rw [hs] at hx
      simp only [mem_append, mem_cons] at hx
      rcases hx with hx | rfl | hx
      · exact ⟨x, by simp [hs', hx], hxb⟩
      · exact ⟨g', by simp [hs'], by rw [hr.contains_eq]; exact hxb⟩
      · exact ⟨x, by simp [hs', hx], hxb⟩
    · exact ⟨g', by simp [hs'], by rw [hr.contains_eq]; exact hhere⟩

theorem liveIn_cons (g : PageGroup) (b : ℕ × ℕ) (live : List (ℕ × ℕ)) :
    liveIn g (b::live) = if g.contains b.1 then b :: liveIn g live else liveIn g live :=
  filter_cons

/-- A block of order `o` has been handed out. -/
structure Allocated (s : PageState) (live : List (ℕ × ℕ)) (o addr : ℕ) (s' : PageState) :
    Prop where
  ok : PagesOk s' ((addr,o)::live)
  ranges_eq : ranges s' = ranges s
  free_eq : totalFree s = 2^o+totalFree s'
  count_eq : s'.pageFreecount = sub32 s.pageFreecount (2^o)

/-- `s₁` is `s` after the splitting of a block of the group `i`, if one was needed. -/
theorem PagesOk.takeFrom (h : PagesOk s live) (hi : s.pagegroupList[i]? = some g)
    (hk : o+k ≤ maxOrder) (hne : g.pgFreelist (o+k) ≠ []) :
    ∃ g₁, splitDown o k g = some g₁ ∧ g₁.pgFreelist o ≠ [] ∧
      ∀ s₁, s₁.pagegroupList[i]? = some g₁ → (∀ x, setGroup s₁ i x = setGroup s i x) →
        ∃ addr s', takeFrom s₁ i o = some (some addr, s') ∧ Allocated s live o addr s' := by
  obtain ⟨g₁, addr, g₂, hdown, hhead, hflip, hok, hin, hb, hs, hfree⟩ :=
    (h.groups g (mem_of_getElem? hi)).alloc hk hne
  refine ⟨g₁, hdown, fun hnil => by simp [hnil] at hhead, fun s₁ hi₁ hset => ?_⟩
  have hr : Replaced s g g₂ (setGroup s i g₂) := replaced_setGroup hi hb hs
  have hcount : s₁.pageFreecount = s.pageFreecount := by
    have heq := congrArg PageState.pageFreecount (hset g₂)
    exact heq
  refine ⟨addr, { setGroup s i g₂ with pageFreecount := sub32 s.pageFreecount (2^o) }, ?_, ?_⟩
  · simp only [PageAllocator.takeFrom, hi₁, hhead, hflip, Option.bind_eq_bind, Option.bind_some,
      hset, hcount]
    rfl
  · have hr' : Replaced s g g₂
        { setGroup s i g₂ with pageFreecount := sub32 s.pageFreecount (2^o) } :=
      ⟨hr.split, hb, hs⟩
    refine ⟨h.replace hr' ?_ (fun x hx => ?_) hin fun b hb => ?_, hr'.ranges_eq, ?_, rfl⟩
    · rw [liveIn_cons, if_pos (by rw [hr.contains_eq]; exact hin)]
      rwa [hr.liveIn_eq]
    · rw [liveIn_cons, if_neg (by simp [hx])]
    · rcases mem_cons.mp hb with rfl | hb
      · exact .inr rfl
      · exact .inl hb
    · have := hr'.totalFree
      omega

theorem groupWith_some (h : groupWith s o = some i) :
    ∃ g, s.pagegroupList[i]? = some g ∧ g.pgFreelist o ≠ [] := by
  obtain ⟨hlt, hp, -⟩ := findIdx?_eq_some_iff_getElem.mp h
  exact ⟨s.pagegroupList[i], getElem?_eq_getElem hlt, by simpa using hp⟩

theorem largerBlock_some (h : largerBlock s o = some (k, i)) :
    o+k ≤ maxOrder ∧ groupWith s (o+k) = some i := by
  obtain ⟨k', hk', hsome⟩ := exists_of_findSome?_eq_some h
  obtain ⟨i', hi', heq⟩ := Option.map_eq_some_iff.mp hsome
  simp only [Prod.mk.injEq] at heq
  obtain ⟨rfl, rfl⟩ := heq
  have := mem_range.mp hk'
  exact ⟨by omega, hi'⟩

theorem PagesOk.allocOrder (h : PagesOk s live) (ho : o ≤ maxOrder) :
    pageAllocOrder s o = some (none, s) ∨
      ∃ addr s', pageAllocOrder s o = some (some addr, s') ∧ Allocated s live o addr s' := by
  unfold pageAllocOrder
  cases hw : groupWith s o with
  | some i =>
    obtain ⟨g, hi, hne⟩ := groupWith_some hw
    obtain ⟨g₁, hdown, -, htake⟩ := h.takeFrom hi (k := 0) ho hne
    cases hdown
    obtain ⟨addr, s', hret, hall⟩ := htake s hi fun _ => rfl
    exact .inr ⟨addr, s', hret, hall⟩
  | none =>
    unfold pageSplit
    cases hl : largerBlock s o with
    | none => exact .inl rfl
    | some ki =>
      obtain ⟨k, i⟩ := ki
      obtain ⟨hk, hw'⟩ := largerBlock_some hl
      obtain ⟨g, hi, hne⟩ := groupWith_some hw'
      obtain ⟨g₁, hdown, hne₁, htake⟩ := h.takeFrom hi hk hne
      have hlt := (List.getElem?_eq_some_iff.mp hi).1
      obtain ⟨addr, s', hret, hall⟩ := htake (setGroup s i g₁)
        (by simp [setGroup, hlt]) fun x => by simp [setGroup]
      refine .inr ⟨addr, s', ?_, hall⟩
      simp only [hi, hdown, if_neg hne₁, Option.bind_eq_bind, Option.bind_some, hret]

structure Freed (s : PageState) (live : List (ℕ × ℕ)) (o addr : ℕ) (s' : PageState) :
    Prop where
  ok : PagesOk s' (live.erase (addr,o))
  ranges_eq : ranges s' = ranges s
  free_eq : totalFree s' = 2^o+totalFree s
  count_eq : s'.pageFreecount = (s.pageFreecount+2^o)%word

theorem PagesOk.freeOrder (h : PagesOk s live) (hb : (addr,o) ∈ live) :
    ∃ s', pageFreeOrder s addr o = some s' ∧ Freed s live o addr s' := by
  obtain ⟨i, hfind⟩ : ∃ i, s.pagegroupList.findIdx? (·.contains addr) = some i := by
    obtain ⟨g, hg, hc⟩ := h.home _ hb
    cases hf : s.pagegroupList.findIdx? (·.contains addr) with
    | none => simp [findIdx?_eq_none_iff.mp hf g hg] at hc
    | some i => exact ⟨i, rfl⟩
  obtain ⟨hlt, hin, -⟩ := findIdx?_eq_some_iff_getElem.mp hfind
  have hi := getElem?_eq_getElem hlt
  set g := s.pagegroupList[i]
  have hperm : live.Perm ((addr,o)::live.erase (addr,o)) := perm_cons_erase hb
  have hgroup : GroupOk g ((addr,o)::liveIn g (live.erase (addr,o))) := by
    refine (h.groups g (mem_of_getElem? hi)).perm ?_
    refine (hperm.filter _).trans ?_
    rw [filter_cons, if_pos hin]
    rfl
  obtain ⟨g₂, g', hflip, hjoin, hok, hbase, hstop, hfree, ho⟩ := hgroup.free
  have hr : Replaced s g g'
      (setGroup { s with pageFreecount := (s.pageFreecount+2^o)%word } i g') := by
    obtain ⟨hsplit, hb', hs'⟩ := replaced_setGroup hi hbase hstop
    exact ⟨hsplit, hb', hs'⟩
  refine ⟨_, ?_, h.replace hr ?_ (fun x hx => ?_) hin fun b hb => .inl (mem_of_mem_erase hb),
    hr.ranges_eq, ?_, rfl⟩
  · simp only [pageFreeOrder, hfind, hi, Option.bind_eq_bind, Option.bind_some]
    by_cases hlt' : o < maxOrder
    · rw [if_pos hlt', hflip, Option.bind_some, hjoin, Option.bind_some]
      rfl
    · -- a block of the largest order has no buddy, and nothing is joined
      obtain rfl : o = maxOrder := by omega
      rw [PageGroup.flipAbove, if_neg hlt'] at hflip
      rw [Nat.sub_self, pageJoin] at hjoin
      rw [if_neg hlt', Option.some.inj hflip, Option.some.inj hjoin]
      rfl
  · rwa [hr.liveIn_eq]
  · refine (hperm.filter _).trans ?_
    rw [filter_cons, if_neg (by simp [hx])]
    rfl
  · have := hr.totalFree
    omega

end States

section Creation

variable {start stop base e n k : ℕ}

theorem sub32_eq {a b : ℕ} (ha : a < word) (hb : b ≤ a) : sub32 a b = a-b := by
  unfold sub32
  unfold word at *
  omega

theorem sub32_lt (a b : ℕ) : sub32 a b < word := Nat.mod_lt _ (by decide)

theorem dvd_sub32 {a b : ℕ} (ha : pageSize ∣ a) (hb : pageSize ∣ b) : pageSize ∣ sub32 a b := by
  have hw : pageSize ∣ word := by decide
  refine (Nat.dvd_mod_iff hw).mpr ((Nat.dvd_add_right ha).mpr ?_)
  exact Nat.dvd_sub hw ((Nat.dvd_mod_iff hw).mpr hb)

/-- The pages that do not fill a block of the largest order are taken off one power of two
at a time. -/
theorem trim_eq (he : e < word) (hn : n%2^maxOrder*pageSize ≤ e) :
    trim n e = e-n%2^maxOrder*pageSize := by
  have hfold : ∀ k, n%2^k*pageSize ≤ e → (range k).foldl
      (fun e order => if n.testBit order then sub32 e (2^order*pageSize) else e) e =
        e-n%2^k*pageSize := by
    intro k
    induction k with
    | zero => simp [Nat.mod_one]
    | succ k ih =>
      intro hle
      rw [Nat.mod_pow_succ, Nat.add_mul] at hle ⊢
      rw [range_succ, foldl_append, ih (by omega)]
      simp only [foldl_cons, foldl_nil, Nat.testBit_eq_decide_div_mod_eq]
      rcases Nat.mod_two_eq_zero_or_one (n/2^k) with hbit | hbit
      · simp [hbit]
      · rw [hbit, mul_one] at hle ⊢
        rw [decide_eq_true rfl, if_pos rfl, sub32_eq (by omega) (by omega)]
        omega
  exact hfold maxOrder hn

theorem dvd_trim (he : pageSize ∣ e) : pageSize ∣ trim n e := by
  unfold trim
  refine foldlRecOn (motive := fun e => pageSize ∣ e) _ _ he fun e he order _ => ?_
  split
  · exact dvd_sub32 he (Dvd.intro_left _ rfl)
  · exact he

theorem dvd_pageAlignDown (x : ℕ) : pageSize ∣ pageAlignDown x := Dvd.intro_left _ rfl

theorem pageAlignDown_le (x : ℕ) : pageAlignDown x ≤ x := Nat.div_mul_le_self x pageSize

theorem topBlocks_eq (start k : ℕ) :
    topBlocks start (start+k*topSize) = (tops maxOrder k).reverse.map (place start) := by
  have hcount : (start+k*topSize-start+(topSize-1))/topSize = k := by
    have hpos : 0 < topSize := by decide
    rw [Nat.add_sub_cancel_left, Nat.div_eq_iff hpos]
    omega
  have hmap : ∀ i, start+i*topSize = place start (i*2^maxOrder) := fun i => by
    rw [place, topSize, Nat.mul_assoc]
  rw [topBlocks, hcount, tops, map_reverse, map_map]
  simp only [hmap, Function.comp_def]

/-- The buddy system of a group that has just been created. -/
def freshBuddies (k : ℕ) : Buddies :=
  ⟨fun o => if o = maxOrder then (tops maxOrder k).reverse else [], fun _ _ => false⟩

theorem unsplit_freshBuddies (k : ℕ) : Unsplit maxOrder k (freshBuddies k) where
  top := by
    simp only [freshBuddies, if_true]
    exact reverse_perm _
  low o ho := by simp [freshBuddies, ho.ne]
  bit _ _ := rfl

/-- The group of a range in which nothing has been allocated. -/
def freshGroup (start stop : ℕ) : PageGroup where
  pgFreelist o := ((freshBuddies ((stop-start)/pageSize/2^maxOrder)).free o).map (place start)
  pgMap _ _ := false
  pgBaseaddr := start
  pgEndaddr := stop

theorem rep_freshGroup (start stop : ℕ) :
    Rep start stop (freshGroup start stop) (freshBuddies (topCount (freshGroup start stop))) :=
  ⟨rfl, rfl, fun _ => rfl, rfl⟩

theorem groupOk_freshGroup (hstart : pageSize ∣ start) (hlt : start < stop) :
    GroupOk (freshGroup start stop) [] := by
  have hunsplit := unsplit_freshBuddies (topCount (freshGroup start stop))
  exact ⟨Nat.mod_eq_zero_of_dvd hstart, hlt, _, [], rep_freshGroup start stop,
    hunsplit.account, hunsplit.coalesced, .refl _⟩

theorem freePages_freshGroup (start stop : ℕ) : freePages (freshGroup start stop) =
    topCount (freshGroup start stop)*2^maxOrder := by
  rw [(rep_freshGroup start stop).freePages,
    pages_perm (unsplit_freshBuddies _).blocks_perm, pages_tops]

/-- What is left after the pages over are taken off is a whole number of large blocks. -/
theorem trim_range (hstart : pageSize ∣ start) (hstop : pageSize ∣ stop) (hlt : start < stop)
    (hword : stop < word) : trim (sub32 stop start/pageSize) stop =
      start+(stop-start)/pageSize/2^maxOrder*topSize := by
  have hsize : (stop-start)/pageSize*pageSize = stop-start :=
    Nat.div_mul_cancel (Nat.dvd_sub hstop hstart)
  have hsum := Nat.div_add_mod' ((stop-start)/pageSize) (2^maxOrder)
  have hmul := congrArg (·*pageSize) hsum
  simp only [Nat.add_mul, hsize, Nat.mul_assoc] at hmul
  rw [sub32_eq hword hlt.le, trim_eq hword (by omega), topSize]
  omega

theorem mapsStart_lt (npages stop : ℕ) : mapsStart npages stop < word := by
  unfold mapsStart
  refine foldlRecOn (motive := fun e => e < word) _ _ (sub32_lt _ _) fun e _ i _ => ?_
  exact sub32_lt _ _

theorem mapBytes_le (hn : n < word) (order : ℕ) : mapBytes n order ≤ n := by
  have hle := Nat.div_le_self n (2^order)
  unfold mapBytes
  rcases Nat.eq_zero_or_pos (n/2^order) with h0 | hpos
  · rw [h0, show (sub32 0 1/8*8+8)%word/8 = 0 from rfl]
    exact Nat.zero_le n
  · have hmod := Nat.mod_le ((n/2^order-1)/8*8+8) word
    have hone : 1 ≤ n/2^order := hpos
    rw [sub32_eq (hle.trans_lt hn) hone]
    omega

theorem foldl_sub32_le {f : ℕ → ℕ} (hf : ∀ i, f i ≤ n) (he : e < word) (hle : k*n ≤ e) :
    (range k).foldl (fun e i => sub32 e (f i)) e ≤ e ∧
      e ≤ (range k).foldl (fun e i => sub32 e (f i)) e+k*n := by
  induction k with
  | zero => exact ⟨le_rfl, by simp⟩
  | succ k ih =>
    rw [Nat.succ_mul] at hle ⊢
    have hbytes := hf k
    obtain ⟨h1, h2⟩ := ih (by omega)
    rw [range_succ, foldl_append]
    simp only [foldl_cons, foldl_nil]
    rw [sub32_eq (by omega) (by omega)]
    omega

/-- The maps lie below the end of a range that has a page: they take less than it. -/
theorem mapsStart_le (hn : 0 < n) (hsize : n*pageSize ≤ stop) (hstop : stop < word) :
    mapsStart n stop ≤ stop := by
  have hgroup : sizeofPagegroup+maxOrder*n ≤ stop := by
    have hle : n*(sizeofPagegroup+maxOrder) ≤ n*pageSize := Nat.mul_le_mul_left n (by decide)
    have hone : sizeofPagegroup ≤ n*sizeofPagegroup := Nat.le_mul_of_pos_left _ hn
    rw [Nat.mul_add, Nat.mul_comm n maxOrder] at hle
    omega
  have hn : n < word := (Nat.le_mul_of_pos_right n pageSize_pos).trans_lt (hsize.trans_lt hstop)
  have hlt : stop-sizeofPagegroup < word := (Nat.sub_le _ _).trans_lt hstop
  unfold mapsStart
  rw [sub32_eq hstop (by omega)]
  have hfold := foldl_sub32_le (fun i => mapBytes_le hn (i+1)) hlt (Nat.le_sub_of_add_le' hgroup)
  exact hfold.1.trans (Nat.sub_le _ _)

theorem pagegroupCreate_range {g : PageGroup} (hstart : pageSize ∣ start) (hstop : pageSize ∣ stop)
    (hlt : start < stop) (hword : stop < word) (hg : pagegroupCreate start stop = some g) :
    g.pgBaseaddr = start ∧ g.pgEndaddr ≤ stop := by
  have hsize : (stop-start)/pageSize*pageSize = stop-start :=
    Nat.div_mul_cancel (Nat.dvd_sub hstop hstart)
  have hpos : 0 < (stop-start)/pageSize := Nat.pos_of_ne_zero fun h0 => by
    rw [h0] at hsize
    omega
  have hmaps := mapsStart_le hpos (by omega) hword
  simp only [pagegroupCreate, sub32_eq hword hlt.le] at hg
  split at hg
  · obtain rfl := Option.some.inj hg
    exact ⟨rfl, (pageAlignDown_le _).trans hmaps⟩
  · cases hg

theorem pagegroupCreate_spec (stop : ℕ) (hstart : pageSize ∣ start) :
    ∃ g, pagegroupCreate start stop = some g ∧ g.pgBaseaddr = start ∧ g.pgEndaddr < word ∧
      (start < g.pgEndaddr → g = freshGroup start g.pgEndaddr) := by
  unfold pagegroupCreate
  have hmaps := mapsStart_lt (sub32 stop start/pageSize) stop
  generalize mapsStart (sub32 stop start/pageSize) stop = maps at hmaps ⊢
  have hdvd := dvd_pageAlignDown maps
  have hlt := (pageAlignDown_le maps).trans_lt hmaps
  have hmod : sub32 (trim (sub32 (pageAlignDown maps) start/pageSize) (pageAlignDown maps))
      start%2^maxOrder = 0 := by
    have h128 : 2^maxOrder ∣ pageSize := by decide
    exact Nat.mod_eq_zero_of_dvd (h128.trans (dvd_sub32 (dvd_trim hdvd) hstart))
  refine ⟨_, if_pos hmod, rfl, hlt, fun hne => ?_⟩
  dsimp only at hne
  simp only [freshGroup, PageGroup.mk.injEq, and_true]
  funext o
  rw [trim_range hstart hdvd hne hlt, topBlocks_eq]
  by_cases ho : o = maxOrder <;> simp [freshBuddies, ho]

end Creation

end SystemsProjects.BuddyAllocation
