import SystemsProjects.AreaMaps

/-!
# Order of the areas of a process

The calls that edit an address space keep its list of areas ordered, disjoint and
within user memory, and leave what the pages outside of their range show. What a call does
to the lists is stated for calls that return, and without regard to the objects behind the
areas.
-/
namespace SystemsProjects.AreaOrdering

open PageTables VmState MemoryObjects AddressSpaces VmSystemCalls ObjectHeap AreaMaps List

/-- A list of areas in order, each allocated and with a number below `n`. -/
structure WellFormed (n : ℕ) (l : List Vmarea) : Prop where
  ordered : IntervalLists.Ordered Vmarea.vmaStart Vmarea.vmaEnd l
  range : ∀ a ∈ l, userLow ≤ a.vmaStart ∧ a.vmaStart < a.vmaEnd ∧ a.vmaEnd ≤ userHigh
  ids : (l.map Vmarea.vmaId).Nodup
  lt : ∀ a ∈ l, a.vmaId < n
  kept : ∀ a ∈ l, a.vmaFreed = false

def Clear (lo hi : ℕ) (a : Vmarea) : Prop := a.vmaEnd ≤ lo ∨ hi ≤ a.vmaStart

/-- What a round of `vmmap_remove` makes of the list; `id` is the number for a new area. -/
def roundList (lo hi id : ℕ) (a : Vmarea) (l : List Vmarea) : List Vmarea :=
  if a.vmaStart < lo ∧ hi < a.vmaEnd then
    vmmapInsert (editArea a.vmaId (fun b => { b with vmaEnd := lo }) l) (upperPart a id hi)
  else if a.vmaStart < lo ∧ lo < a.vmaEnd then
    editArea a.vmaId (fun b => { b with vmaEnd := lo }) l
  else if hi < a.vmaEnd ∧ a.vmaStart < hi ∧ lo ≤ a.vmaStart then
    editArea a.vmaId
      (fun b => { b with vmaOff := b.vmaOff + (hi-b.vmaStart), vmaStart := hi }) l
  else if a.vmaEnd ≤ hi ∧ lo ≤ a.vmaStart then l.filter (·.vmaId ≠ a.vmaId)
  else l

/-- The next number for an area after a round. -/
def roundNext (lo hi n : ℕ) (a : Vmarea) : ℕ :=
  if a.vmaStart < lo ∧ hi < a.vmaEnd then n+1 else n

/-- The difference of two words, if it does not wrap around. -/
def subExact (a b : ℕ) : Option ℕ := if b ≤ a then some (a-b) else none

/-- The search from low to high with differences that must not wrap around. -/
def findLohiExact (npages : ℕ) : ℕ → List Vmarea → Option (Option ℕ)
  | prevEnd, [] => do
    let gap ← subExact userHigh prevEnd
    return if npages ≤ gap then some prevEnd else none
  | prevEnd, a::as => do
    let gap ← subExact a.vmaStart prevEnd
    if npages ≤ gap then return some prevEnd else findLohiExact npages a.vmaEnd as

/-- The search from high to low with differences that must not wrap around. -/
def findHiloExact (npages : ℕ) : ℕ → List Vmarea → Option (Option ℕ)
  | prevEnd, [] => do
    let gap ← subExact prevEnd userLow
    if npages ≤ gap then return some (← subExact prevEnd npages) else return none
  | prevEnd, a::as => do
    let gap ← subExact prevEnd a.vmaEnd
    if npages ≤ gap then return some (← subExact prevEnd npages)
    else findHiloExact npages a.vmaStart as

/-- `vmmap_find_range` with differences that must not wrap around; there is no result if one
does. -/
def vmmapFindRangeExact (l : List Vmarea) (npages : ℕ) : Dir → Option (Option ℕ)
  | .lohi => findLohiExact npages userLow l
  | .hilo => findHiloExact npages userHigh l.reverse

/-- The object, the page of the object, the protection and the flags. -/
def shown (a : Vmarea) (vfn : ℕ) : Option ℕ×ℕ×ℕ×ℕ :=
  (a.vmaObj, pagenum a vfn, a.vmaProt, a.vmaFlags)

def resolve (l : List Vmarea) (vfn : ℕ) : Option (Option ℕ×ℕ×ℕ×ℕ) :=
  (vmmapLookup l vfn).map (shown · vfn)

/-- What is left of an area after a range has been removed. -/
def pieces (lo hi id : ℕ) (a : Vmarea) : List Vmarea :=
  if a.vmaStart < lo ∧ hi < a.vmaEnd then [{ a with vmaEnd := lo }, upperPart a id hi]
  else if a.vmaStart < lo ∧ lo < a.vmaEnd then [{ a with vmaEnd := lo }]
  else if hi < a.vmaEnd ∧ a.vmaStart < hi ∧ lo ≤ a.vmaStart then
    [{ a with vmaOff := a.vmaOff+(hi-a.vmaStart), vmaStart := hi }]
  else if a.vmaEnd ≤ hi ∧ lo ≤ a.vmaStart then []
  else [a]

variable {dir : Dir} {lopage npages nvfn ovfn v : ℕ}

section Lists

variable {n lo hi vfn : ℕ} {l l' : List Vmarea} {a b : Vmarea}

theorem wellFormed_nil (n : ℕ) : WellFormed n [] :=
  ⟨List.Pairwise.nil, by simp, by simp, by simp, by simp⟩

theorem WellFormed.mono (h : WellFormed n l) {m : ℕ} (hnm : n ≤ m) : WellFormed m l :=
  ⟨h.ordered, h.range, h.ids, fun a ha => Nat.lt_of_lt_of_le (h.lt a ha) hnm, h.kept⟩

theorem WellFormed.tail (h : WellFormed n (a :: l)) : WellFormed n l where
  ordered := (pairwise_cons.mp h.ordered).2
  range := fun b hb => h.range b (mem_cons_of_mem _ hb)
  ids := (nodup_cons.mp h.ids).2
  lt := fun b hb => h.lt b (mem_cons_of_mem _ hb)
  kept := fun b hb => h.kept b (mem_cons_of_mem _ hb)

section

variable (h : WellFormed n l)
include h

theorem WellFormed.filter (c : Vmarea → Bool) : WellFormed n (l.filter c) where
  ordered := List.Pairwise.filter c h.ordered
  range := fun a ha => h.range a (mem_of_mem_filter ha)
  ids := h.ids.sublist (filter_sublist.map _)
  lt := fun a ha => h.lt a (mem_of_mem_filter ha)
  kept := fun a ha => h.kept a (mem_of_mem_filter ha)

theorem WellFormed.edit {id : ℕ} {f : Vmarea → Vmarea} (hid : ∀ b, (f b).vmaId = b.vmaId)
    (hfreed : ∀ b, (f b).vmaFreed = b.vmaFreed)
    (hord : IntervalLists.Ordered Vmarea.vmaStart Vmarea.vmaEnd (editArea id f l))
    (hrange : ∀ b ∈ l, b.vmaId = id →
      userLow ≤ (f b).vmaStart ∧ (f b).vmaStart < (f b).vmaEnd ∧ (f b).vmaEnd ≤ userHigh) :
    WellFormed n (editArea id f l) := by
  refine ⟨hord, fun b hb => ?_, by rw [map_id_editArea hid]; exact h.ids, fun b hb => ?_,
    fun b hb => ?_⟩
  all_goals
    obtain ⟨c, hc, rfl⟩ := mem_editArea.mp hb
    split_ifs with hcid
  · exact hrange c hc hcid
  · exact h.range c hc
  · rw [hid]
    exact h.lt c hc
  · exact h.lt c hc
  · rw [hfreed]
    exact h.kept c hc
  · exact h.kept c hc

theorem WellFormed.shrink (ha : a ∈ l) {f : Vmarea → Vmarea} (hid : ∀ b, (f b).vmaId = b.vmaId)
    (hfreed : ∀ b, (f b).vmaFreed = b.vmaFreed) (hlo : a.vmaStart ≤ (f a).vmaStart)
    (hlt : (f a).vmaStart < (f a).vmaEnd) (hhi : (f a).vmaEnd ≤ a.vmaEnd) :
    WellFormed n (editArea a.vmaId f l) := by
  have hself : ∀ b ∈ l, b.vmaId = a.vmaId → b = a := fun b hb => eq_of_id h.ids hb ha
  refine h.edit hid hfreed (h.ordered.map fun b hb => ?_) fun b hb hba => ?_
  · by_cases hba : b.vmaId = a.vmaId
    · rw [if_pos hba, hself b hb hba]
      exact ⟨hlo, hhi⟩
    · rw [if_neg hba]
      exact ⟨Nat.le_refl _, Nat.le_refl _⟩
  · have hr := h.range a ha
    rw [hself b hb hba]
    omega

theorem WellFormed.relabel {id : ℕ} {f : Vmarea → Vmarea} (hid : ∀ b, (f b).vmaId = b.vmaId)
    (hfreed : ∀ b, (f b).vmaFreed = b.vmaFreed) (hlo : ∀ b, (f b).vmaStart = b.vmaStart)
    (hhi : ∀ b, (f b).vmaEnd = b.vmaEnd) :
    WellFormed n (editArea id f l) := by
  refine h.edit hid hfreed (h.ordered.map fun b _ => ?_) fun b hb _ => ?_
  · split_ifs <;> simp [hlo, hhi]
  · rw [hlo, hhi]
    exact h.range b hb

theorem WellFormed.insert (hid : a.vmaId = n) (hfreed : a.vmaFreed = false)
    (hlo : userLow ≤ a.vmaStart) (hlt : a.vmaStart < a.vmaEnd) (hhi : a.vmaEnd ≤ userHigh)
    (hclear : ∀ b ∈ l, Clear a.vmaStart a.vmaEnd b) : WellFormed (n+1) (vmmapInsert l a) := by
  have hperm : (vmmapInsert l a).Perm (a :: l) := IntervalLists.insertInterval_perm l a
  have hmem : ∀ b ∈ vmmapInsert l a, b = a ∨ b ∈ l := fun b hb =>
    IntervalLists.mem_insertInterval.mp hb
  refine ⟨h.ordered.insertInterval (fun b hb => (h.range b hb).2.1)
    fun b hb => (hclear b hb).symm, ?_, ?_, ?_, ?_⟩
  · intro b hb
    rcases hmem b hb with rfl | hb
    · exact ⟨hlo, hlt, hhi⟩
    · exact h.range b hb
  · refine (hperm.map _).nodup_iff.mpr (nodup_cons.mpr ⟨?_, h.ids⟩)
    simp only [mem_map, not_exists, not_and]
    intro b hb heq
    exact Nat.ne_of_lt (h.lt b hb) (heq.trans hid)
  · intro b hb
    rcases hmem b hb with rfl | hb
    · rw [hid]
      exact Nat.lt_succ_self n
    · exact Nat.lt_succ_of_lt (h.lt b hb)
  · intro b hb
    rcases hmem b hb with rfl | hb
    · exact hfreed
    · exact h.kept b hb

theorem WellFormed.grow (ha : a ∈ l) (hlt : ovfn < nvfn) (hhi : nvfn ≤ userHigh)
    (hstart : a.vmaStart < ovfn) (hend : ovfn ≤ a.vmaEnd) (hclear : ∀ b ∈ l, Clear ovfn nvfn b) :
    WellFormed n (editArea a.vmaId (fun b => { b with vmaEnd := nvfn }) l) := by
  have hself : ∀ b ∈ l, b.vmaId = a.vmaId → b = a := fun b hb => eq_of_id h.ids hb ha
  have hra := h.range a ha
  refine h.edit (fun _ => rfl) (fun _ => rfl) ?_ fun b hb hba => ?_
  · refine pairwise_map.mpr (List.Pairwise.imp_of_mem (fun {b c} hb hc hbc => ?_) h.ordered)
    have hrc := h.range c hc
    have hcc := hclear c hc
    unfold Clear at hcc
    have hstart : (if c.vmaId = a.vmaId then { c with vmaEnd := nvfn } else c).vmaStart =
        c.vmaStart := by split_ifs <;> rfl
    rw [hstart]
    by_cases hba : b.vmaId = a.vmaId
    · rw [if_pos hba]
      rw [hself b hb hba] at hbc
      change nvfn ≤ c.vmaStart
      omega
    · rw [if_neg hba]
      exact hbc
  · rw [hself b hb hba]
    refine ⟨hra.1, ?_, hhi⟩
    change a.vmaStart < nvfn
    omega

theorem WellFormed.round (ha : a ∈ l) (hlt : lo < hi) :
    WellFormed (roundNext lo hi n a) (roundList lo hi n a l) := by
  have hr := h.range a ha
  unfold roundList roundNext
  split_ifs with h1 h2 h3 h4
  · have hs : WellFormed n (editArea a.vmaId (fun b => { b with vmaEnd := lo }) l) :=
      h.shrink ha (fun _ => rfl) (fun _ => rfl) (Nat.le_refl _) h1.1 (by dsimp only; omega)
    refine hs.insert rfl (h.kept a ha) ?_ h1.2 hr.2.2 fun b hb => ?_
    · change userLow ≤ hi
      omega
    · obtain ⟨c, hc, rfl⟩ := mem_editArea.mp hb
      by_cases hca : c.vmaId = a.vmaId
      · rw [if_pos hca]
        exact .inl (Nat.le_of_lt hlt)
      · rw [if_neg hca]
        have hne : a ≠ c := fun heq => hca (heq ▸ rfl)
        have happ : a.vmaEnd ≤ c.vmaStart ∨ c.vmaEnd ≤ a.vmaStart :=
          (h.ordered.eq_or_apart ha hc).resolve_left hne
        change c.vmaEnd ≤ hi ∨ a.vmaEnd ≤ c.vmaStart
        omega
  · exact h.shrink ha (fun _ => rfl) (fun _ => rfl) (Nat.le_refl _) h2.1 (Nat.le_of_lt h2.2)
  · exact h.shrink ha (fun _ => rfl) (fun _ => rfl) (Nat.le_of_lt h3.2.1) h3.1 (Nat.le_refl _)
  · exact h.filter _
  · exact h

/-- The other areas stay, and the area makes way for its pieces. -/
theorem mem_roundList_iff (ha : a ∈ l) :
    b ∈ roundList lo hi n a l ↔ (b ∈ l ∧ b ≠ a) ∨ b ∈ pieces lo hi n a := by
  have hid : ∀ c ∈ l, c.vmaId = a.vmaId ↔ c = a :=
    fun c hc => ⟨eq_of_id h.ids hc ha, fun heq => heq ▸ rfl⟩
  have hedit : ∀ f : Vmarea → Vmarea, b ∈ editArea a.vmaId f l ↔ (b ∈ l ∧ b ≠ a) ∨ b = f a := by
    intro f
    rw [mem_editArea]
    constructor
    · rintro ⟨c, hc, rfl⟩
      by_cases hca : c = a
      · rw [if_pos ((hid c hc).mpr hca), hca]
        exact .inr rfl
      · rw [if_neg fun heq => hca ((hid c hc).mp heq)]
        exact .inl ⟨hc, hca⟩
    · rintro (⟨hb, hba⟩ | rfl)
      · exact ⟨b, hb, by rw [if_neg fun heq => hba ((hid b hb).mp heq)]⟩
      · exact ⟨a, ha, by rw [if_pos rfl]⟩
  unfold roundList pieces
  split_ifs with h1 h2 h3 h4
  · rw [vmmapInsert, IntervalLists.mem_insertInterval, hedit]
    simp only [mem_cons, not_mem_nil, or_false]
    tauto
  · rw [hedit, mem_singleton]
  · rw [hedit, mem_singleton]
  · rw [mem_filter, decide_eq_true_eq]
    constructor
    · rintro ⟨hb, hne⟩
      exact .inl ⟨hb, fun heq => hne (heq ▸ rfl)⟩
    · rintro (⟨hb, hne⟩ | hb)
      · exact ⟨hb, fun heq => hne ((hid b hb).mp heq)⟩
      · exact absurd hb not_mem_nil
  · rw [mem_singleton]
    constructor
    · intro hb
      by_cases hba : b = a
      · exact .inr hba
      · exact .inl ⟨hb, hba⟩
    · rintro (⟨hb, _⟩ | rfl)
      · exact hb
      · exact ha

end

theorem clear_of_piece (hlt : lo < hi) (hb : b ∈ pieces lo hi n a) :
    Clear lo hi b ∧ a.vmaStart ≤ b.vmaStart ∧ b.vmaEnd ≤ a.vmaEnd := by
  unfold pieces at hb
  unfold Clear
  split_ifs at hb with h1 h2 h3 h4
  · simp only [mem_cons, not_mem_nil, or_false] at hb
    rcases hb with rfl | rfl
    · dsimp only
      omega
    · simp only [upperPart]
      omega
  · obtain rfl := mem_singleton.mp hb
    dsimp only
    omega
  · obtain rfl := mem_singleton.mp hb
    dsimp only
    omega
  · exact absurd hb not_mem_nil
  · obtain rfl := mem_singleton.mp hb
    omega

theorem exists_piece (hlt : lo < hi) (hc : covers a vfn) (hout : ¬(lo ≤ vfn ∧ vfn < hi)) :
    ∃ b ∈ pieces lo hi n a, covers b vfn ∧ shown b vfn = shown a vfn := by
  unfold covers at hc
  unfold pieces
  split_ifs with h1 h2 h3 h4
  · by_cases hv : vfn < lo
    · exact ⟨_, mem_cons_self, ⟨hc.1, hv⟩, rfl⟩
    · refine ⟨upperPart a n hi, by simp, ⟨?_, hc.2⟩, ?_⟩
      · change hi ≤ vfn
        omega
      · simp only [shown, pagenum, upperPart, Prod.mk.injEq, true_and, and_true]
        omega
  · exact ⟨_, mem_cons_self, ⟨hc.1, show vfn < lo by omega⟩, rfl⟩
  · refine ⟨_, mem_cons_self, ⟨show hi ≤ vfn by omega, hc.2⟩, ?_⟩
    simp only [shown, pagenum, Prod.mk.injEq, true_and, and_true]
    omega
  · omega
  · exact ⟨a, mem_cons_self, hc, rfl⟩

theorem vmmapLookup_eq_none : vmmapLookup l vfn = none ↔ ∀ a ∈ l, ¬covers a vfn := by
  simp [vmmapLookup]

theorem vmmapLookup_eq_some (h : WellFormed n l) :
    vmmapLookup l vfn = some a ↔ a ∈ l ∧ covers a vfn := by
  constructor
  · intro hl
    exact ⟨mem_of_find?_eq_some hl, by simpa using find?_some hl⟩
  · rintro ⟨ha, hc⟩
    exact h.ordered.find_eq ha hc

theorem resolve_congr (h : WellFormed n l) {m : ℕ} (h' : WellFormed m l')
    (hto : ∀ a ∈ l, covers a vfn → ∃ b ∈ l', covers b vfn ∧ shown b vfn = shown a vfn)
    (hfrom : ∀ b ∈ l', covers b vfn → ∃ a ∈ l, covers a vfn) :
    resolve l' vfn = resolve l vfn := by
  unfold resolve
  cases hl : vmmapLookup l vfn with
  | none =>
    rw [vmmapLookup_eq_none] at hl
    have hl' : vmmapLookup l' vfn = none := by
      rw [vmmapLookup_eq_none]
      intro b hb hc
      obtain ⟨a, ha, hca⟩ := hfrom b hb hc
      exact hl a ha hca
    rw [hl']
  | some a =>
    obtain ⟨ha, hc⟩ := (vmmapLookup_eq_some h).mp hl
    obtain ⟨b, hb, hcb, hshown⟩ := hto a ha hc
    rw [(vmmapLookup_eq_some h').mpr ⟨hb, hcb⟩]
    exact congrArg some hshown

theorem resolve_round (h : WellFormed n l) (ha : a ∈ l) (hlt : lo < hi)
    (hout : ¬(lo ≤ vfn ∧ vfn < hi)) : resolve (roundList lo hi n a l) vfn = resolve l vfn := by
  apply resolve_congr h (h.round ha hlt)
  · intro b hb hc
    by_cases hba : b = a
    · subst hba
      obtain ⟨c, hc, hcover, hshown⟩ := exists_piece (n := n) hlt hc hout
      exact ⟨c, (mem_roundList_iff h ha).mpr (.inr hc), hcover, hshown⟩
    · exact ⟨b, (mem_roundList_iff h ha).mpr (.inl ⟨hb, hba⟩), hc, rfl⟩
  · intro b hb hc
    rcases (mem_roundList_iff h ha).mp hb with ⟨hb, _⟩ | hb
    · exact ⟨b, hb, hc⟩
    · obtain ⟨-, hstart, hend⟩ := clear_of_piece hlt hb
      exact ⟨a, ha, Nat.le_trans hstart hc.1, Nat.lt_of_lt_of_le hc.2 hend⟩

theorem subExact_eq {a b : ℕ} (h : b ≤ a) : subExact a b = some (a-b) := if_pos h

/-- No difference wraps around, what is found is free, and no free range is lower. -/
theorem findLohi_best (npages prev : ℕ) (l : List Vmarea) (hl : WellFormed n l)
    (hlo : userLow ≤ prev) (hhi : prev ≤ userHigh) (hprev : ∀ a ∈ l, prev ≤ a.vmaStart) :
    findLohiExact npages prev l = some (findLohi npages prev l) ∧
    (∀ v, findLohi npages prev l = some v →
      prev ≤ v ∧ v+npages ≤ userHigh ∧ ∀ a ∈ l, Clear v (v+npages) a) ∧
    ∀ w, (prev ≤ w ∧ w+npages ≤ userHigh ∧ ∀ a ∈ l, Clear w (w+npages) a) →
      ∃ v, findLohi npages prev l = some v ∧ v ≤ w := by
  induction l generalizing prev with
  | nil =>
    rw [findLohiExact, findLohi, sub32_of_le hhi (Nat.le_refl _), subExact_eq hhi]
    refine ⟨rfl, fun v hv => ?_, fun w hw => ⟨prev, if_pos (by omega), hw.1⟩⟩
    simp only [Option.ite_none_right_eq_some, Option.some.injEq] at hv
    exact ⟨by omega, by omega, by simp⟩
  | cons a l ih =>
    have ha := hl.range a mem_cons_self
    have hpa := hprev a mem_cons_self
    obtain ⟨hal, -⟩ := pairwise_cons.mp hl.ordered
    obtain ⟨hexact, hfree, hbest⟩ := ih a.vmaEnd hl.tail (by omega) ha.2.2 hal
    rw [findLohiExact, findLohi, sub32_of_le hpa (by omega), subExact_eq hpa, hexact]
    refine ⟨(apply_ite some _ _ _).symm, ?_⟩
    by_cases hgap : npages ≤ a.vmaStart-prev
    · rw [if_pos hgap]
      refine ⟨fun v hv => ?_, fun w hw => ⟨prev, rfl, hw.1⟩⟩
      obtain rfl := Option.some.inj hv
      refine ⟨Nat.le_refl _, by omega, fun b hb => .inr ?_⟩
      rcases mem_cons.mp hb with rfl | hb
      · omega
      · have := hal b hb
        omega
    · rw [if_neg hgap]
      refine ⟨fun v hv => ?_, fun w ⟨hw, hfit, hclear⟩ => ?_⟩
      · obtain ⟨h1, h2, h3⟩ := hfree v hv
        exact ⟨by omega, h2, forall_mem_cons.mpr ⟨.inl h1, h3⟩⟩
      · obtain ⟨hca, hcl⟩ := forall_mem_cons.mp hclear
        unfold Clear at hca
        exact hbest w ⟨by omega, hfit, hcl⟩

theorem findHilo_best (npages prev : ℕ) (l : List Vmarea)
    (hord : l.Pairwise fun a b => b.vmaEnd ≤ a.vmaStart)
    (hrange : ∀ a ∈ l, userLow ≤ a.vmaStart ∧ a.vmaStart < a.vmaEnd) (hlo : userLow ≤ prev)
    (hhi : prev ≤ userHigh) (hprev : ∀ a ∈ l, a.vmaEnd ≤ prev) :
    findHiloExact npages prev l = some (findHilo npages prev l) ∧
    (∀ v, findHilo npages prev l = some v →
      userLow ≤ v ∧ v+npages ≤ prev ∧ ∀ a ∈ l, Clear v (v+npages) a) ∧
    ∀ w, (userLow ≤ w ∧ w+npages ≤ prev ∧ ∀ a ∈ l, Clear w (w+npages) a) →
      ∃ v, findHilo npages prev l = some v ∧ w ≤ v := by
  induction l generalizing prev with
  | nil =>
    rw [findHiloExact, findHilo, sub32_of_le hlo hhi, subExact_eq hlo]
    by_cases hgap : npages ≤ prev-userLow
    · rw [if_pos hgap, sub32_of_le (by omega) hhi, subExact_eq (by omega)]
      refine ⟨if_pos hgap, fun v hv => ?_, fun w hw => ⟨_, rfl, by omega⟩⟩
      obtain rfl := Option.some.inj hv
      exact ⟨by omega, by omega, by simp⟩
    · rw [if_neg hgap]
      exact ⟨if_neg hgap, by simp, fun w hw => by omega⟩
  | cons a l ih =>
    have ha := hrange a mem_cons_self
    have hpa := hprev a mem_cons_self
    obtain ⟨hal, hord⟩ := pairwise_cons.mp hord
    obtain ⟨hexact, hfree, hbest⟩ := ih a.vmaStart hord
      (fun b hb => hrange b (mem_cons_of_mem _ hb)) ha.1 (by omega) hal
    rw [findHiloExact, findHilo, sub32_of_le hpa hhi, subExact_eq hpa, hexact]
    by_cases hgap : npages ≤ prev-a.vmaEnd
    · rw [if_pos hgap, sub32_of_le (by omega) hhi, subExact_eq (by omega)]
      refine ⟨if_pos hgap, fun v hv => ?_, fun w hw => ⟨_, rfl, by omega⟩⟩
      obtain rfl := Option.some.inj hv
      refine ⟨by omega, by omega, fun b hb => .inl ?_⟩
      rcases mem_cons.mp hb with rfl | hb
      · omega
      · have := hal b hb
        omega
    · rw [if_neg hgap]
      refine ⟨if_neg hgap, fun v hv => ?_, fun w ⟨hw, hfit, hclear⟩ => ?_⟩
      · obtain ⟨h1, h2, h3⟩ := hfree v hv
        exact ⟨h1, by omega, forall_mem_cons.mpr ⟨.inr h2, h3⟩⟩
      · obtain ⟨hca, hcl⟩ := forall_mem_cons.mp hclear
        unfold Clear at hca
        exact hbest w ⟨hw, by omega, hcl⟩

/-- What is found is free, and lies at least as far as any free range towards the end where the
search starts. -/
theorem vmmapFindRange_best (npages : ℕ) (h : WellFormed n l) (dir : Dir) :
    vmmapFindRangeExact l npages dir = some (vmmapFindRange l npages dir) ∧
    (∀ v, vmmapFindRange l npages dir = some v →
      userLow ≤ v ∧ v+npages ≤ userHigh ∧ ∀ a ∈ l, Clear v (v+npages) a) ∧
    ∀ w, (userLow ≤ w ∧ w+npages ≤ userHigh ∧ ∀ a ∈ l, Clear w (w+npages) a) →
      ∃ v, vmmapFindRange l npages dir = some v ∧
        (dir = .lohi → v ≤ w) ∧ (dir = .hilo → w ≤ v) := by
  cases dir with
  | lohi =>
    obtain ⟨hexact, hfree, hbest⟩ := findLohi_best npages userLow l h (Nat.le_refl _) (by decide)
      fun a ha => (h.range a ha).1
    refine ⟨hexact, hfree, fun w hw => ?_⟩
    obtain ⟨v, hv, hle⟩ := hbest w hw
    exact ⟨v, hv, fun _ => hle, by simp⟩
  | hilo =>
    have hbest := findHilo_best npages userHigh l.reverse (pairwise_reverse.mpr h.ordered)
      (fun a ha => ⟨(h.range a (mem_reverse.mp ha)).1, (h.range a (mem_reverse.mp ha)).2.1⟩)
      (by decide) (Nat.le_refl _) fun a ha => (h.range a (mem_reverse.mp ha)).2.2
    simp only [mem_reverse] at hbest
    refine ⟨hbest.1, hbest.2.1, fun w hw => ?_⟩
    obtain ⟨v, hv, hle⟩ := hbest.2.2 w hw
    exact ⟨v, hv, by simp, fun _ => hle⟩

theorem vmmapFindRange_spec (h : WellFormed n l) (hf : vmmapFindRange l npages dir = some v) :
    userLow ≤ v ∧ v+npages ≤ userHigh ∧ ∀ a ∈ l, Clear v (v+npages) a :=
  (vmmapFindRange_best npages h dir).2.1 v hf

/-- The range of pages is in order and in user memory, and no area has a page of it. -/
theorem vmmapIsRangeEmpty_eq_ok {empty : Bool} (hlo : lopage < word) (hn : npages < word)
    (h : vmmapIsRangeEmpty l lopage npages = .ok empty) :
    userLow ≤ lopage ∧ 0 < npages ∧ lopage+npages ≤ userHigh ∧
      (empty = true ↔ ∀ a ∈ l, Clear lopage (lopage+npages) a) := by
  simp only [vmmapIsRangeEmpty, bind_eq_ok, kassert] at h
  obtain ⟨u, hk, hr⟩ := h
  split_ifs at hk with hc
  have hsum : lopage+npages < word := by
    unfold word at *
    omega
  rw [Nat.mod_eq_of_lt hsum] at hc hr
  refine ⟨hc.2.1, by omega, hc.2.2, ?_⟩
  obtain rfl := Except.ok.inj hr
  rw [all_eq_true]
  refine forall₂_congr fun a ha => ?_
  rw [decide_eq_true_iff, Clear]
  omega

end Lists

def SameMaps (s t : Vm) : Prop := mapOf t = mapOf s ∧ t.nextVma = s.nextVma

theorem SameMaps.refl (s : Vm) : SameMaps s s := ⟨rfl, rfl⟩

variable {s t u : Vm}

theorem SameMaps.trans (h : SameMaps s t) (h' : SameMaps t u) : SameMaps s u :=
  ⟨h'.1.trans h.1, h'.2.trans h.2⟩

theorem SameMaps.areas_eq (h : SameMaps s t) : areas t = areas s := by
  funext p
  rw [areas, areas, h.1]

theorem sameMaps_of_procs (h : t.procs = s.procs) (hn : t.nextVma = s.nextVma) :
    SameMaps s t := ⟨by funext p; rw [mapOf, mapOf, h], hn⟩

theorem sameMaps_foldlM {α : Type} {f : Vm → α → Kern Vm}
    (hf : ∀ s a t, f s a = .ok t → SameMaps s t) (l : List α) (s t : Vm)
    (h : l.foldlM f s = .ok t) : SameMaps s t :=
  foldlM_rule (fun _ t => SameMaps s t) (fun a _ b b' hb hab => hb.trans (hf b a b' hab)) l s t
    (.refl s) h

variable {r : Proc} {hi lo p : ℕ}

section Frames

variable {s t : Vm} {o n : ℕ}

theorem sameMaps_setPagedir (hr : s.procs p = some r) (pd : Pagedir) :
    SameMaps s (setPagedir s p r pd) := by
  refine ⟨?_, rfl⟩
  have heq : setPagedir s p r pd = withTable s p pd := by
    simp [setPagedir, Vm.setProc, withTable, Vm.setProcs, hr]
  rw [heq, mapOf_withTable]

/-- No process changes. -/
structure SameProcs (s t : Vm) : Prop where
  procs : t.procs = s.procs
  nextVma : t.nextVma = s.nextVma

theorem SameProcs.sameMaps (h : SameProcs s t) : SameMaps s t :=
  sameMaps_of_procs h.procs h.nextVma

theorem mmobjRef_procs (h : mmobjRef s o = .ok t) : SameProcs s t := by
  simp only [mmobjRef, bind_eq_ok] at h
  obtain ⟨ob, -, u, -, h⟩ := h
  obtain rfl := Except.ok.inj h
  exact ⟨rfl, rfl⟩

theorem linkVma_procs {v : ℕ × ℕ} (h : linkVma s o v = .ok t) : SameProcs s t := by
  simp only [linkVma, bind_eq_ok] at h
  obtain ⟨ob, -, h⟩ := h
  split at h
  · obtain rfl := Except.ok.inj h
    exact ⟨rfl, rfl⟩
  · simp at h

theorem linkOnBottom_procs {v : ℕ × ℕ} (h : linkOnBottom s o v = .ok t) : SameProcs s t := by
  simp only [linkOnBottom, bind_eq_ok] at h
  obtain ⟨ob, -, h⟩ := h
  split at h
  · cases h
  · exact linkVma_procs h

theorem unmapRange_sameMaps (h : unmapRange s p lo hi = .ok t) : SameMaps s t := by
  simp only [unmapRange, bind_eq_ok, getProc, need_eq_ok] at h
  obtain ⟨r, hr, pd, -, h⟩ := h
  obtain rfl := Except.ok.inj h
  exact sameMaps_setPagedir hr pd

theorem removeFromPt_sameMaps {v : ℕ × ℕ} (h : removeFromPt n s v = .ok t) : SameMaps s t := by
  simp only [removeFromPt, bind_eq_ok] at h
  obtain ⟨r, -, map, -, a, -, h⟩ := h
  split_ifs at h with hc
  · split at h
    · obtain rfl := Except.ok.inj h
      exact .refl s
    · simp only [bind_eq_ok, getProc, need_eq_ok] at h
      obtain ⟨r', hr', pd, -, h⟩ := h
      obtain rfl := Except.ok.inj h
      exact sameMaps_setPagedir hr' pd
  · obtain rfl := Except.ok.inj h
    exact .refl s

/-- A relation between the states before and after a release: what a release does to the objects
and to single page tables is in it. -/
structure Releasing (R : Vm → Vm → Prop) : Prop where
  trans : ∀ {s t u}, R s t → R t u → R s u
  objs : ∀ {s t}, t.procs = s.procs → t.nextVma = s.nextVma → R s t
  entry : ∀ {s n v t}, removeFromPt n s v = .ok t → R s t

section Releasing

variable {R : Vm → Vm → Prop}

theorem Releasing.foldlM (hR : Releasing R) {α : Type} {f : Vm → α → Kern Vm}
    (hf : ∀ s a t, f s a = .ok t → R s t) (l : List α) (h : l.foldlM f s = .ok t) : R s t :=
  foldlM_rule (fun _ t => R s t) (fun a _ b b' hb hab => hR.trans hb (hf b a b' hab)) l s t
    (hR.objs rfl rfl) h

theorem Releasing.pframeFree (hR : Releasing R) {put : Vm → ℕ → Kern Vm}
    (hput : ∀ s o t, put s o = .ok t → R s t) (h : pframeFree put s o n = .ok t) : R s t := by
  simp only [MemoryObjects.pframeFree, pframeRemoveFromPts, bind_eq_ok] at h
  obtain ⟨pf, -, u, -, s1, ⟨l, -, h1⟩, ob, -, h⟩ := h
  have hpts : R s s1 := hR.foldlM (fun _ _ _ => hR.entry) l h1
  have hput' := hput _ _ _ h
  exact hR.trans (hR.trans hpts (hR.objs (t := s1.setObj o _) rfl rfl)) hput'

theorem Releasing.mmobjPut (hR : Releasing R) (d : ℕ) (h : mmobjPut d s o = .ok t) : R s t := by
  induction d generalizing s t o with
  | zero => simp [MemoryObjects.mmobjPut] at h
  | succ d ih =>
    simp only [MemoryObjects.mmobjPut, bind_eq_ok] at h
    obtain ⟨ob, -, h⟩ := h
    split_ifs at h with hops hlast hlast
    · simp only [bind_eq_ok] at h
      obtain ⟨u, -, h⟩ := h
      cases h
    · simp only [bind_eq_ok] at h
      obtain ⟨u, -, h⟩ := h
      obtain rfl := Except.ok.inj h
      exact hR.objs rfl rfl
    · simp only [bind_eq_ok] at h
      obtain ⟨u, -, s1, h1, h⟩ := h
      obtain rfl := Except.ok.inj h
      refine hR.trans (hR.foldlM (fun x pf y hy => ?_) _ h1) (hR.objs rfl rfl)
      have hfree := hR.pframeFree (fun _ _ _ => ih) hy
      exact hR.trans (hR.objs (t := editPage x o _ _) rfl rfl) hfree
    · simp only [bind_eq_ok] at h
      obtain ⟨u, -, h⟩ := h
      obtain rfl := Except.ok.inj h
      exact hR.objs rfl rfl

end Releasing

theorem releasing_sameMaps : Releasing SameMaps where
  trans := .trans
  objs := sameMaps_of_procs
  entry := removeFromPt_sameMaps

theorem mmobjPut_sameMaps (d : ℕ) (h : mmobjPut d s o = .ok t) : SameMaps s t :=
  releasing_sameMaps.mmobjPut d h

theorem pframeGet_procs {pf : Pframe} (h : pframeGet s o n = .ok (pf, t)) : SameProcs s t := by
  unfold pframeGet at h
  split at h
  · obtain ⟨-, rfl⟩ := ok_inj h
    exact ⟨rfl, rfl⟩
  · simp only [bind_eq_ok, pframeAlloc] at h
    obtain ⟨s1, ⟨s0, h0, ob, -, h1⟩, c, -, h⟩ := h
    obtain rfl := Except.ok.inj h1
    obtain ⟨-, rfl⟩ := ok_inj h
    exact ⟨(mmobjRef_procs h0).procs, (mmobjRef_procs h0).nextVma⟩

end Frames

/-- The list of one process is replaced, and no map changes hands. -/
structure Edited (s t : Vm) (p : ℕ) (l : List Vmarea) : Prop where
  self : areas t p = l
  others : ∀ q, q ≠ p → areas t q = areas s q
  owner : ∀ q, (mapOf t q).map Vmmap.vmmProc = (mapOf s q).map Vmmap.vmmProc

variable {l : List Vmarea}

theorem Edited.sameMaps (h : Edited s t p l) (h' : SameMaps t u) : Edited s u p l :=
  ⟨by rw [h'.areas_eq, h.self], fun q hq => by rw [h'.areas_eq, h.others q hq],
    fun q => by rw [h'.1, h.owner]⟩

theorem Edited.of_mapOf (h' : Edited t u p l) (h : mapOf t = mapOf s) : Edited s u p l :=
  ⟨h'.self, fun q hq => by rw [h'.others q hq, areas, areas, h], fun q => by rw [h'.owner, h]⟩

theorem Edited.trans {l' : List Vmarea} (h : Edited s t p l) (h' : Edited t u p l') :
    Edited s u p l' :=
  ⟨h'.self, fun q hq => by rw [h'.others q hq, h.others q hq],
    fun q => by rw [h'.owner, h.owner]⟩

theorem SameMaps.self (h : SameMaps s t) (p : ℕ) : Edited s t p (areas s p) :=
  ⟨by rw [h.areas_eq], fun q _ => by rw [h.areas_eq], fun q => by rw [h.1]⟩

theorem edited_withAreas {map : Vmmap} (h : mapOf s p = some map) (l : List Vmarea) :
    Edited s (withAreas s p l) p l := by
  refine ⟨areas_withAreas_self h l, fun q hq => areas_withAreas_ne s l hq, fun q => ?_⟩
  by_cases hq : q = p
  · subst hq
    simp [mapOf_withAreas_self, h]
  · rw [mapOf_withAreas_ne s l hq]

theorem editAreas_edited {f : List Vmarea → List Vmarea} (h : editAreas s p f = .ok t) :
    Edited s t p (f (areas s p)) ∧ t.nextVma = s.nextVma := by
  have hmap : ∃ map, mapOf s p = some map := by
    simp only [editAreas, bind_eq_ok, getProc, getMap, need_eq_ok] at h
    obtain ⟨r, hr, map, hm, -⟩ := h
    exact ⟨map, mapOf_eq_some.mpr ⟨r, hr, hm⟩⟩
  obtain ⟨map, hmap⟩ := hmap
  rw [editAreas_eq hmap] at h
  obtain rfl := Except.ok.inj h
  exact ⟨edited_withAreas hmap _, rfl⟩

variable {a : Vmarea}

theorem splitArea_edited (h : splitArea p lo hi s a = .ok t) :
    Edited s t p (vmmapInsert (editArea a.vmaId (fun b => { b with vmaEnd := lo }) (areas s p))
      (upperPart a s.nextVma hi)) ∧ t.nextVma = s.nextVma+1 := by
  simp only [splitArea, bind_eq_ok] at h
  obtain ⟨o, -, s1, h1, s2, h2, s3, h3, h4⟩ := h
  have hm1 : SameMaps s s1 := sameMaps_foldlM (fun _ _ _ h => (mmobjRef_procs h).sameMaps) _ s s1 h1
  obtain ⟨he2, hn2⟩ := editAreas_edited h2
  have hm4 := (linkOnBottom_procs h3).sameMaps.trans (unmapRange_sameMaps h4)
  refine ⟨?_, by rw [hm4.2, hn2]; simp [hm1.2]⟩
  have hareas : areas { s1 with nextVma := s1.nextVma+1 } = areas s := hm1.areas_eq
  rw [hareas, hm1.2] at he2
  exact (he2.of_mapOf hm1.1).sameMaps hm4

theorem unmapped_edited {f : List Vmarea → List Vmarea}
    (h : (do editAreas (← unmapRange s p lo hi) p f) = .ok t) :
    Edited s t p (f (areas s p)) ∧ t.nextVma = s.nextVma := by
  obtain ⟨s1, hs1, h⟩ := bind_eq_ok.mp h
  have hm := unmapRange_sameMaps hs1
  obtain ⟨he, hn⟩ := editAreas_edited h
  rw [hm.areas_eq] at he
  exact ⟨he.of_mapOf hm.1, hn.trans hm.2⟩

theorem removeArea_edited (h : removeArea p lo hi s a = .ok t) :
    Edited s t p (roundList lo hi s.nextVma a (areas s p)) ∧
      t.nextVma = roundNext lo hi s.nextVma a := by
  unfold removeArea at h
  unfold roundList roundNext
  split_ifs at h ⊢ with h1 h2 h3 h4
  · exact splitArea_edited h
  · exact unmapped_edited h
  · exact unmapped_edited h
  · simp only [dropArea, bind_eq_ok] at h
    obtain ⟨o, -, s1, hs1, s2, hs2, h⟩ := h
    have hm1 : SameMaps s s1 := sameMaps_foldlM (fun _ _ _ => mmobjPut_sameMaps 2) _ s s1 hs1
    obtain ⟨he, hn⟩ := editAreas_edited hs2
    have hu := unmapRange_sameMaps h
    have hm2 : SameMaps s2 t := .trans (sameMaps_of_procs rfl rfl) hu
    rw [hm1.areas_eq] at he
    exact ⟨(he.sameMaps hm2).of_mapOf hm1.1, by rw [hm2.2, hn, hm1.2]⟩
  · obtain rfl := Except.ok.inj h
    exact ⟨(SameMaps.refl s).self p, rfl⟩

/-- The state of the loop of `vmmap_remove`: what may still meet the range is yet to come. -/
structure Removing (p lo hi : ℕ) (s : Vm) (rest : List Vmarea) (t : Vm) : Prop where
  wf : WellFormed t.nextVma (areas t p)
  mem : ∀ a ∈ rest, a ∈ areas t p
  nodup : rest.Nodup
  clear : ∀ b ∈ areas t p, Clear lo hi b ∨ b ∈ rest
  others : ∀ q, q ≠ p → areas t q = areas s q
  owner : ∀ q, (mapOf t q).map Vmmap.vmmProc = (mapOf s q).map Vmmap.vmmProc
  next : s.nextVma ≤ t.nextVma

theorem removing_start (h : WellFormed s.nextVma (areas s p)) : Removing p lo hi s (areas s p) s :=
  ⟨h, fun _ ha => ha, h.ids.of_map _, fun _ hb => .inr hb, fun _ _ => rfl, fun _ => rfl,
    Nat.le_refl _⟩

theorem Removing.round {t' : Vm} {rest : List Vmarea} (hlt : lo < hi)
    (h : Removing p lo hi s (a :: rest) t) (hr : removeArea p lo hi t a = .ok t') :
    Removing p lo hi s rest t' := by
  obtain ⟨he, hn⟩ := removeArea_edited hr
  obtain ⟨hnot, hnodup⟩ := nodup_cons.mp h.nodup
  have ha := h.mem a (by simp)
  refine ⟨?_, fun b hb => ?_, hnodup, fun b hb => ?_, fun q hq => ?_, fun q => ?_, ?_⟩
  · rw [he.self, hn]
    exact h.wf.round ha hlt
  · rw [he.self]
    exact (mem_roundList_iff h.wf ha).mpr
      (.inl ⟨h.mem b (by simp [hb]), fun heq => hnot (heq ▸ hb)⟩)
  · rw [he.self] at hb
    rcases (mem_roundList_iff h.wf ha).mp hb with ⟨hb, hne⟩ | hb
    · rcases h.clear b hb with hc | hc
      · exact .inl hc
      · exact .inr ((mem_cons.mp hc).resolve_left hne)
    · exact .inl (clear_of_piece hlt hb).1
  · rw [he.others q hq, h.others q hq]
  · rw [he.owner q, h.owner q]
  · have hle := h.next
    rw [hn]
    unfold roundNext
    split_ifs <;> omega

variable {n : ℕ}

/-- A removal that returns leaves no area in its range, and leaves what the pages outside of it
show. -/
theorem vmmapRemove_spec (h : vmmapRemove s p lo n = .ok t) (hlo : lo < word) (hn : n < word)
    (hwf : WellFormed s.nextVma (areas s p)) :
    Removing p lo (lo+n) s [] t ∧
      ∀ vfn, ¬(lo ≤ vfn ∧ vfn < lo+n) → resolve (areas t p) vfn = resolve (areas s p) vfn := by
  simp only [vmmapRemove_eq, bind_eq_ok] at h
  obtain ⟨l, hl, empty, hempty, h⟩ := h
  obtain ⟨-, rfl⟩ := readAreas_eq_ok hl
  obtain ⟨-, h2, h3, h4⟩ := vmmapIsRangeEmpty_eq_ok hlo hn hempty
  have hmod : (lo+n)%word = lo+n := Nat.mod_eq_of_lt (by
    unfold userHigh at h3
    unfold word
    omega)
  cases empty with
  | true =>
    obtain rfl := Except.ok.inj h
    exact ⟨⟨hwf, by simp, nodup_nil, fun b hb => .inl (h4.mp rfl b hb), fun _ _ => rfl,
      fun _ => rfl, Nat.le_refl _⟩, fun _ _ => rfl⟩
  | false =>
    rw [if_neg (by simp), hmod] at h
    have hlt : lo < lo+n := by omega
    refine foldlM_rule (fun rest u => Removing p lo (lo+n) s rest u ∧
      ∀ vfn, ¬(lo ≤ vfn ∧ vfn < lo+n) → resolve (areas u p) vfn = resolve (areas s p) vfn)
      (fun a rest u u' hu hf => ⟨hu.1.round hlt hf, fun vfn hout => ?_⟩) _ s t
      ⟨removing_start hwf, fun _ _ => rfl⟩ h
    rw [(removeArea_edited hf).1.self,
      resolve_round hu.1.wf (hu.1.mem a mem_cons_self) hlt hout, hu.2 vfn hout]

/-- A call for one process leaves its list in order and the other lists alone. -/
structure SpaceStep (p : ℕ) (s t : Vm) : Prop where
  wf : WellFormed t.nextVma (areas t p)
  others : ∀ q, q ≠ p → areas t q = areas s q
  owner : ∀ q, (mapOf t q).map Vmmap.vmmProc = (mapOf s q).map Vmmap.vmmProc
  next : s.nextVma ≤ t.nextVma

theorem Removing.spaceStep {rest : List Vmarea} (h : Removing p lo hi s rest t) :
    SpaceStep p s t := ⟨h.wf, h.others, h.owner, h.next⟩

theorem spaceStep_refl (h : WellFormed s.nextVma (areas s p)) :
    SpaceStep p s s := ⟨h, fun _ _ => rfl, fun _ => rfl, Nat.le_refl _⟩

theorem SpaceStep.trans (h : SpaceStep p s t) (h' : SpaceStep p t u) : SpaceStep p s u :=
  ⟨h'.wf, fun q hq => (h'.others q hq).trans (h.others q hq),
    fun q => (h'.owner q).trans (h.owner q), Nat.le_trans h.next h'.next⟩

theorem SpaceStep.sameMaps (h : SpaceStep p s t) (h' : SameMaps t u) : SpaceStep p s u :=
  ⟨by rw [h'.areas_eq, h'.2]; exact h.wf, fun q hq => by rw [h'.areas_eq, h.others q hq],
    fun q => by rw [h'.1, h.owner q], by rw [h'.2]; exact h.next⟩

theorem Edited.spaceStep (h : Edited s t p l) (hwf : WellFormed t.nextVma l)
    (hn : s.nextVma ≤ t.nextVma) : SpaceStep p s t :=
  ⟨by rw [h.self]; exact hwf, h.others, h.owner, hn⟩

theorem SpaceStep.all (h : SpaceStep p s t) (hs : ∀ q, WellFormed s.nextVma (areas s q)) (q : ℕ) :
    WellFormed t.nextVma (areas t q) := by
  by_cases hq : q = p
  · rw [hq]
    exact h.wf
  · rw [h.others q hq]
    exact (hs q).mono h.next

/-- The `mmap` operation of the file does not report an error. -/
def neverFails : VnodeMmap → Bool
  | .fails _ => false
  | _ => true

variable {file : Option VnodeMmap} {addr : ℕ}

section Calls

variable {s t : Vm} {p : ℕ}

/-- Making room for a mapping leaves what the pages outside of its range show, and does nothing if
the range has been searched for. -/
theorem placeMapping_spec {res : Except Errno ℕ}
    (h : placeMapping s p lopage npages dir = .ok (res, t))
    (hfit : lopage ≠ 0 → lopage < word ∧ npages < word) (hwf : WellFormed s.nextVma (areas s p)) :
    SpaceStep p s t ∧ ∀ v, res = .ok v → userLow ≤ v ∧ v+npages ≤ userHigh ∧
      (∀ a ∈ areas t p, Clear v (v+npages) a) ∧
      (∀ vfn, ¬(v ≤ vfn ∧ vfn < v+npages) → resolve (areas t p) vfn = resolve (areas s p) vfn) ∧
      (lopage = 0 → t = s) ∧ (lopage ≠ 0 → v = lopage) := by
  simp only [placeMapping, placeMappingWith, plain, vmmapRemoveAlloc_true, bind_eq_ok] at h
  obtain ⟨l, hl, h⟩ := h
  obtain ⟨-, rfl⟩ := readAreas_eq_ok hl
  split_ifs at h with h0
  · split at h
    · obtain ⟨rfl, rfl⟩ := ok_inj h
      exact ⟨spaceStep_refl hwf, by simp⟩
    · next w hw =>
      split_ifs at h
      · obtain ⟨rfl, rfl⟩ := ok_inj h
        exact ⟨spaceStep_refl hwf, by simp⟩
      · obtain ⟨rfl, rfl⟩ := ok_inj h
        refine ⟨spaceStep_refl hwf, fun v hv => ?_⟩
        obtain rfl := Except.ok.inj hv
        obtain ⟨hlow, hhigh, hclear⟩ := vmmapFindRange_spec hwf hw
        exact ⟨hlow, hhigh, hclear, fun _ _ => rfl, fun _ => rfl, fun hne => absurd h0 hne⟩
  · simp only [bind_eq_ok] at h
    obtain ⟨empty, hempty, h⟩ := h
    obtain ⟨hlo, hn⟩ := hfit h0
    obtain ⟨h1, h2, h3, h4⟩ := vmmapIsRangeEmpty_eq_ok hlo hn hempty
    cases empty with
    | true =>
      obtain ⟨rfl, rfl⟩ := ok_inj h
      refine ⟨spaceStep_refl hwf, fun v hv => ?_⟩
      obtain rfl := Except.ok.inj hv
      exact ⟨h1, h3, h4.mp rfl, fun _ _ => rfl, fun heq => absurd heq h0, fun _ => rfl⟩
    | false =>
      rw [if_neg (by simp), bind_eq_ok] at h
      obtain ⟨res', hres, h⟩ := h
      obtain ⟨s1, hs1, hres⟩ := bind_eq_ok.mp hres
      obtain rfl := Except.ok.inj hres
      obtain ⟨rfl, rfl⟩ := ok_inj h
      obtain ⟨hrem, hkeep⟩ := vmmapRemove_spec hs1 hlo hn hwf
      refine ⟨hrem.spaceStep, fun v hv => ?_⟩
      obtain rfl := Except.ok.inj hv
      exact ⟨h1, h3, fun a ha => (hrem.clear a ha).resolve_right (by simp), hkeep,
        fun heq => absurd heq h0, fun _ => rfl⟩

theorem mappingObj_spec {r : Except Errno ℕ} (h : mappingObj s file = .ok (r, t)) :
    SameMaps s t ∧ ∀ e, r = .error e → ∃ e', file = some (.fails e') := by
  cases file with
  | none =>
    obtain ⟨rfl, rfl⟩ := ok_inj h
    exact ⟨sameMaps_of_procs rfl rfl, by simp⟩
  | some m =>
    cases m with
    | null => cases h
    | fails e =>
      obtain ⟨-, rfl⟩ := ok_inj h
      exact ⟨.refl s, fun _ _ => ⟨e, rfl⟩⟩
    | gives o =>
      obtain ⟨rfl, rfl⟩ := ok_inj h
      exact ⟨.refl s, by simp⟩

theorem mappingTop_sameMaps (s : Vm) (flags o : ℕ) : SameMaps s (mappingTop s flags o).2 := by
  unfold mappingTop
  split_ifs
  · exact sameMaps_of_procs rfl rfl
  · exact .refl s

/-- Room has been made; unless the call fails, the new area has been inserted and got its
object. -/
theorem vmmapMap_spec {prot flags off : ℕ} {res : Except Errno Vmarea}
    (h : vmmapMap s p file lopage npages prot flags off dir = .ok (res, t)) :
    0 < npages ∧ ∃ place s1, placeMapping s p lopage npages dir = .ok (place, s1) ∧
      (∀ e, res = .error e → file.all neverFails → t = s1) ∧
      ∀ a, res = .ok a → place = .ok a.vmaStart ∧ a.vmaId = s1.nextVma ∧
        a.vmaEnd = a.vmaStart+npages ∧ a.vmaOff = off/pageSize ∧ a.vmaProt = prot ∧
        a.vmaFlags = flags ∧ a.vmaFreed = false ∧
        Edited s1 t p (editArea a.vmaId (fun b => { b with vmaObj := a.vmaObj })
          (vmmapInsert (areas s1 p) { a with vmaObj := none })) ∧ t.nextVma = s1.nextVma+1 := by
  simp only [vmmapMap, vmmapMapAlloc, vmmapMapWith, allAllocs, not_true_eq_false, if_false,
    and_false, mappingObjAlloc_true, bind_eq_ok, kassert] at h
  obtain ⟨u, hk, ⟨place, s1⟩, hplace, h⟩ := h
  split_ifs at hk with hargs
  refine ⟨hargs.1, place, s1, hplace, ?_⟩
  dsimp only at h
  cases place with
  | error e =>
    obtain ⟨rfl, rfl⟩ := ok_inj h
    exact ⟨fun _ _ _ => rfl, by simp⟩
  | ok v =>
    simp only [bind_eq_ok] at h
    obtain ⟨_, -, s2, hs2, ⟨obj, s3⟩, hobj, h⟩ := h
    obtain ⟨hm3, hfails⟩ := mappingObj_spec hobj
    dsimp only at h
    cases obj with
    | error e =>
      obtain ⟨e', rfl⟩ := hfails e rfl
      simp only [bind_eq_ok] at h
      obtain ⟨s4, -, h⟩ := h
      obtain ⟨rfl, -⟩ := ok_inj h
      exact ⟨fun _ _ hfile => by simp [neverFails] at hfile, by simp⟩
    | ok o =>
      simp only [bind_eq_ok] at h
      obtain ⟨b, -, s5, hs5, s6, hs6, h⟩ := h
      obtain ⟨rfl, rfl⟩ := ok_inj h
      refine ⟨by simp, fun a ha => ?_⟩
      obtain rfl := Except.ok.inj ha
      obtain ⟨he2, hn2⟩ := editAreas_edited hs2
      obtain ⟨he5, hn5⟩ := editAreas_edited hs5
      have hm4 := hm3.trans (mappingTop_sameMaps s3 flags o)
      have hm6 := (linkVma_procs hs6).sameMaps
      rw [hm4.areas_eq, he2.self] at he5
      refine ⟨rfl, rfl, rfl, rfl, rfl, rfl, rfl, ?_, by rw [hm6.2, hn5, hm4.2, hn2]⟩
      exact (((he2.sameMaps hm4).trans he5).sameMaps hm6).of_mapOf rfl

theorem WellFormed.mapped (hwf : WellFormed n l) (hid : a.vmaId = n) (hfreed : a.vmaFreed = false)
    (hpos : 0 < npages) (hend : a.vmaEnd = a.vmaStart+npages) (hlow : userLow ≤ a.vmaStart)
    (hhigh : a.vmaStart+npages ≤ userHigh)
    (hclear : ∀ b ∈ l, Clear a.vmaStart (a.vmaStart+npages) b) :
    WellFormed (n+1) (editArea a.vmaId (fun b => { b with vmaObj := a.vmaObj })
      (vmmapInsert l { a with vmaObj := none })) := by
  rw [← hend] at hhigh hclear
  have hlt : a.vmaStart < a.vmaEnd := by omega
  have hins : WellFormed (n+1) (vmmapInsert l { a with vmaObj := none }) :=
    hwf.insert hid hfreed hlow hlt hhigh hclear
  exact hins.relabel (fun _ => rfl) (fun _ => rfl) (fun _ => rfl) fun _ => rfl

theorem vmmapMap_spaceStep {prot flags off : ℕ} {res : Except Errno Vmarea}
    (h : vmmapMap s p file lopage npages prot flags off dir = .ok (res, t)) (hlo : lopage < word)
    (hn : npages < word) (hfile : file.all neverFails) (hwf : WellFormed s.nextVma (areas s p)) :
    SpaceStep p s t := by
  obtain ⟨hpos, place, s1, hplace, herror, hok⟩ := vmmapMap_spec h
  obtain ⟨hs1, hroom⟩ := placeMapping_spec hplace (fun _ => ⟨hlo, hn⟩) hwf
  cases res with
  | error e =>
    rw [herror e rfl hfile]
    exact hs1
  | ok a =>
    obtain ⟨rfl, hid, hend, -, -, -, hfreed, hed, hnext⟩ := hok a rfl
    obtain ⟨hlow, hhigh, hclear, -⟩ := hroom _ rfl
    refine hs1.trans (hed.spaceStep ?_ (by rw [hnext]; exact Nat.le_succ _))
    rw [hnext]
    exact hs1.wf.mapped hid hfreed hpos hend hlow hhigh hclear

theorem mmapFile_neverFails {prot flags off : ℕ} {fd : Int}
    (hfile : (fget r fd).all fun f => neverFails f.fMmap)
    (h : mmapFile r addr prot flags off fd = .ok file) : file.all neverFails := by
  unfold mmapFile at h
  split_ifs at h
  · obtain rfl := Except.ok.inj h
    simp
  · unfold fileArg at h
    cases hf : fget r fd with
    | none => simp [hf, Except.map] at h
    | some f =>
      simp only [hf] at h
      split_ifs at h
      all_goals simp only [Except.map, reduceCtorEq, Except.ok.injEq] at h
      subst h
      simpa [hf] using hfile

theorem mmapLopage_lt (h : addr < word) (flags : ℕ) : mmapLopage addr flags < word := by
  unfold mmapLopage
  split_ifs
  · exact Nat.lt_of_le_of_lt (Nat.div_le_self _ _) h
  · decide

theorem lenPages_lt (len : ℕ) : lenPages len < word :=
  Nat.lt_of_le_of_lt (Nat.div_le_self _ _) (Nat.mod_lt _ (by decide))

theorem doMmap_spaceStep {addr len prot flags off : UInt32} {fd : Int} {res : Except Errno ℕ}
    (h : doMmap s p addr len prot flags fd off = .ok (res, t)) (hr : s.procs p = some r)
    (hfile : (fget r fd).all fun f => neverFails f.fMmap) (hwf : WellFormed s.nextVma (areas s p)) :
    SpaceStep p s t := by
  simp only [doMmap, bind_eq_ok, getProc, need_eq_ok] at h
  obtain ⟨r', hr', h⟩ := h
  obtain rfl := Option.some.inj (hr.symm.trans hr')
  by_cases hargs : mmapArgsOk addr.toNat len.toNat flags.toNat
  · rw [if_neg (not_not.mpr hargs)] at h
    split at h
    · obtain ⟨-, rfl⟩ := ok_inj h
      exact spaceStep_refl hwf
    · next file hf =>
      simp only [bind_eq_ok] at h
      obtain ⟨⟨res', s1⟩, hmap, h⟩ := h
      have hlt : addr.toNat < word := addr.toNat_lt
      have hs1 : SpaceStep p s s1 := by
        refine vmmapMap_spaceStep hmap ?_ ?_ ?_ hwf
        · exact mmapLopage_lt hlt flags.toNat
        · exact lenPages_lt len.toNat
        · exact mmapFile_neverFails hfile hf
      obtain rfl : s1 = t := by cases res' <;> exact (ok_inj h).2
      exact hs1
  · rw [if_pos hargs] at h
    obtain ⟨-, rfl⟩ := ok_inj h
    exact spaceStep_refl hwf

theorem doMunmap_spaceStep {addr len : UInt32} {res : Except Errno Unit}
    (h : doMunmap s p addr len = .ok (res, t)) (hwf : WellFormed s.nextVma (areas s p)) :
    SpaceStep p s t := by
  unfold doMunmap at h
  by_cases hargs : munmapArgsOk addr.toNat len.toNat
  swap
  · rw [if_pos hargs] at h
    obtain ⟨-, rfl⟩ := ok_inj h
    exact spaceStep_refl hwf
  · rw [if_neg (not_not.mpr hargs), bind_eq_ok] at h
    obtain ⟨s1, hs1, h⟩ := h
    obtain ⟨-, rfl⟩ := ok_inj h
    have hlt : addr.toNat < word := addr.toNat_lt
    obtain ⟨hrem, -⟩ := vmmapRemove_spec hs1
      (Nat.lt_of_le_of_lt (Nat.div_le_self _ _) hlt) (lenPages_lt len.toNat) hwf
    exact hrem.spaceStep

theorem editProc_sameMaps {f : Proc → Proc} (h : editProc s p f = .ok t)
    (hf : ∀ r, (f r).pVmmap = r.pVmmap) : SameMaps s t := by
  simp only [editProc, bind_eq_ok, getProc, need_eq_ok] at h
  obtain ⟨r, hr, h⟩ := h
  obtain rfl := Except.ok.inj h
  refine ⟨?_, rfl⟩
  funext q
  by_cases hq : q = p
  · subst hq
    simp [mapOf, Vm.setProc, hr, hf]
  · simp [mapOf, Vm.setProc, hq]

theorem clearPage_sameMaps {o : ℕ} (h : clearPage o s n = .ok t) : SameMaps s t := by
  simp only [clearPage, bind_eq_ok] at h
  obtain ⟨⟨pf, s1⟩, hget, h⟩ := h
  obtain rfl := Except.ok.inj h
  exact .trans (pframeGet_procs hget).sameMaps (sameMaps_of_procs rfl rfl)

theorem breakVfn_lt (x : ℕ) : breakVfn x < word :=
  Nat.lt_of_le_of_lt (Nat.div_le_self _ _) (Nat.mod_lt _ (by decide))

theorem covers_of_break (hwf : WellFormed s.nextVma (areas s p)) (ho : ovfn < word)
    (h : vmmapLookup (areas s p) (sub32 ovfn 1) = some a) :
    a ∈ areas s p ∧ a.vmaStart < ovfn ∧ ovfn ≤ a.vmaEnd := by
  have hmem : a ∈ areas s p := mem_of_find?_eq_some h
  have hcov : covers a (sub32 ovfn 1) := by simpa using find?_some h
  have hr := hwf.range a hmem
  unfold covers sub32 word at hcov
  unfold userHigh at hr
  unfold word at ho
  refine ⟨hmem, ?_, ?_⟩ <;> omega

theorem growHeap_spaceStep (h : growHeap s p a ovfn nvfn addr = .ok t)
    (hwf : WellFormed s.nextVma (areas s p)) (ha : a ∈ areas s p) (hstart : a.vmaStart < ovfn)
    (hend : ovfn ≤ a.vmaEnd) (hlt : ovfn < nvfn) (hhi : nvfn ≤ userHigh)
    (hclear : ∀ b ∈ areas s p, Clear ovfn nvfn b) : SpaceStep p s t := by
  simp only [growHeap, bind_eq_ok] at h
  obtain ⟨o, -, s1, hs1, s2, hs2, h⟩ := h
  have hm1 : SameMaps s s1 := sameMaps_foldlM (fun _ _ _ => clearPage_sameMaps) _ s s1 hs1
  obtain ⟨he, hn⟩ := editAreas_edited hs2
  have hm3 := editProc_sameMaps h fun _ => rfl
  have h1 := (spaceStep_refl hwf).sameMaps hm1
  rw [hm1.areas_eq] at he
  have h2 : SpaceStep p s1 s2 := by
    refine he.spaceStep ?_ (Nat.le_of_eq hn.symm)
    rw [hn, hm1.2]
    exact hwf.grow ha hlt hhi hstart hend hclear
  exact (h1.trans h2).sameMaps hm3

theorem shrinkHeap_spaceStep (h : shrinkHeap s p a ovfn nvfn addr = .ok t)
    (hwf : WellFormed s.nextVma (areas s p)) (ha : a ∈ areas s p) (hlo : a.vmaStart < nvfn)
    (hhi : nvfn ≤ a.vmaEnd) :
    SpaceStep p s t := by
  simp only [shrinkHeap, bind_eq_ok] at h
  obtain ⟨s1, hs1, s2, hs2, h⟩ := h
  obtain ⟨he, hn⟩ := editAreas_edited hs1
  have h1 : SpaceStep p s s1 := by
    refine he.spaceStep ?_ (Nat.le_of_eq hn.symm)
    rw [hn]
    exact hwf.shrink ha (fun _ => rfl) (fun _ => rfl) (Nat.le_refl _) hlo hhi
  exact (h1.sameMaps (unmapRange_sameMaps hs2)).sameMaps (editProc_sameMaps h fun _ => rfl)

/-- If the break is lowered, it stays above the start of the area that is cut. -/
def CutsInside (s : Vm) (p : ℕ) (addr : UInt32) : Prop :=
  ∀ r ∈ s.procs p, ∀ a ∈ vmmapLookup (areas s p) (sub32 (breakVfn r.pBrk) 1),
    breakVfn addr.toNat < breakVfn r.pBrk → a.vmaStart < breakVfn addr.toNat

instance (s : Vm) (p : ℕ) (addr : UInt32) : Decidable (CutsInside s p addr) := by
  unfold CutsInside
  infer_instance

theorem doBrk_spaceStep {addr : UInt32} {res : Except Errno ℕ}
    (h : doBrk s p addr = .ok (res, t)) (hcut : addr ≠ 0 → CutsInside s p addr)
    (hwf : WellFormed s.nextVma (areas s p)) : SpaceStep p s t := by
  simp only [doBrk, bind_eq_ok, getProc, getMap, need_eq_ok] at h
  obtain ⟨r, hr, map, hm, a, ha, h⟩ := h
  have hmap : mapOf s p = some map := mapOf_eq_some.mpr ⟨r, hr, hm⟩
  rw [← areas_of_mapOf hmap] at ha h
  obtain ⟨hmem, hstart, hend⟩ := covers_of_break hwf (breakVfn_lt _) ha
  by_cases h0 : addr = 0
  · rw [if_pos h0] at h
    obtain ⟨-, rfl⟩ := ok_inj h
    exact spaceStep_refl hwf
  rw [if_neg h0] at h
  by_cases hb : addr.toNat < r.pStartBrk ∨ userMemHigh < addr.toNat
  · rw [if_pos hb] at h
    obtain ⟨-, rfl⟩ := ok_inj h
    exact spaceStep_refl hwf
  rw [if_neg hb] at h
  by_cases hgrow : breakVfn r.pBrk < breakVfn addr.toNat
  · rw [if_pos hgrow, bind_eq_ok] at h
    obtain ⟨empty, hempty, h⟩ := h
    have hnv := breakVfn_lt addr.toNat
    obtain ⟨-, -, hhi, hall⟩ := vmmapIsRangeEmpty_eq_ok (breakVfn_lt _)
      (Nat.lt_of_le_of_lt (Nat.sub_le _ _) hnv) hempty
    rw [Nat.add_sub_cancel' (Nat.le_of_lt hgrow)] at hhi hall
    cases empty with
    | false =>
      rw [if_pos (by simp)] at h
      obtain ⟨-, rfl⟩ := ok_inj h
      exact spaceStep_refl hwf
    | true =>
      rw [if_neg (by simp), bind_eq_ok] at h
      obtain ⟨s1, hs1, h⟩ := h
      obtain ⟨-, rfl⟩ := ok_inj h
      exact growHeap_spaceStep hs1 hwf hmem hstart hend hgrow hhi (hall.mp rfl)
  rw [if_neg hgrow] at h
  by_cases hshrink : breakVfn addr.toNat < breakVfn r.pBrk
  · rw [if_pos hshrink, bind_eq_ok] at h
    obtain ⟨s1, hs1, h⟩ := h
    obtain ⟨-, rfl⟩ := ok_inj h
    exact shrinkHeap_spaceStep hs1 hwf hmem (hcut h0 r hr a ha hshrink) (by omega)
  · rw [if_neg hshrink, bind_eq_ok] at h
    obtain ⟨s1, hs1, h⟩ := h
    obtain ⟨-, rfl⟩ := ok_inj h
    exact (spaceStep_refl hwf).sameMaps (editProc_sameMaps hs1 fun _ => rfl)

end Calls

/-- Calls for one address space. Arguments of `vmmap_map` are machine words, the `mmap`
operation of a mapped file does not fail, and a break that is lowered stays above the start
of the area that it cuts. -/
def OrderGuard (s : Vm) : VmEvent → Prop
  | .created => True
  | .vnodeCreated _ => True
  | .opened _ _ _ => True
  | .execed _ _ => True
  | .mapped _ file lopage npages _ _ _ _ =>
    lopage < word ∧ npages < word ∧ file.all neverFails
  | .mmapped p _ _ _ _ fd _ => ∀ r ∈ s.procs p, (fget r fd).all fun f => neverFails f.fMmap
  | .munmapped _ _ _ => True
  | .brked p addr => addr ≠ 0 → CutsInside s p addr
  | _ => False

instance (s : Vm) (e : VmEvent) : Decidable (OrderGuard s e) := by
  cases e <;> unfold OrderGuard <;> infer_instance

/-- The list is sorted by start, its areas are allocated, not empty and within user memory,
and no page is in two of them. -/
def SpaceOk (l : List Vmarea) : Prop :=
  l.Pairwise (fun a b => a.vmaStart < b.vmaStart) ∧
    (∀ a ∈ l, a.vmaFreed = false ∧ userLow ≤ a.vmaStart ∧ a.vmaStart < a.vmaEnd ∧
      a.vmaEnd ≤ userHigh) ∧
    l.Pairwise fun a b => ∀ vfn, ¬(covers a vfn ∧ covers b vfn)

theorem WellFormed.spaceOk (h : WellFormed n l) : SpaceOk l := by
  refine ⟨List.Pairwise.imp_of_mem (fun {a b} ha _ hab => ?_) h.ordered,
    fun a ha => ⟨h.kept a ha, h.range a ha⟩, h.ordered.imp fun {a b} hab vfn hv => ?_⟩
  · have := h.range a ha
    omega
  · unfold covers at hv
    omega

theorem areas_procCreate (s : Vm) (q : ℕ) :
    areas (procCreate s) q = if q = s.nextPid then [] else areas s q := by
  by_cases hq : q = s.nextPid
  · subst hq
    simp [areas, mapOf, procCreate, Vm.setProc]
  · simp [areas, mapOf, procCreate, Vm.setProc, hq]

theorem wellFormed_step {e : VmEvent} (hg : OrderGuard s e) (hstep : VmStep s e t)
    (h : ∀ p, WellFormed s.nextVma (areas s p)) (p : ℕ) : WellFormed t.nextVma (areas t p) := by
  have hframe : SameMaps s t → WellFormed t.nextVma (areas t p) := fun hm => by
    rw [hm.areas_eq, hm.2]
    exact h p
  cases e with
  | created =>
    obtain rfl : t = procCreate s := hstep
    rw [areas_procCreate]
    split_ifs
    · exact wellFormed_nil _
    · exact h p
  | vnodeCreated refs =>
    obtain rfl : t = vnodeCreate s refs := hstep
    exact hframe (sameMaps_of_procs rfl rfl)
  | opened q fd f => exact hframe (editProc_sameMaps hstep fun _ => rfl)
  | execed q brk => exact hframe (editProc_sameMaps hstep fun _ => rfl)
  | mapped q file lopage npages prot flags off dir =>
    obtain ⟨res, hres⟩ := hstep
    exact (vmmapMap_spaceStep hres hg.1 hg.2.1 hg.2.2 (h q)).all h p
  | mmapped q addr len prot flags fd off =>
    obtain ⟨res, hres⟩ := hstep
    have hr : ∃ r, s.procs q = some r := by
      simp only [doMmap, bind_eq_ok, getProc, need_eq_ok] at hres
      obtain ⟨r, hr, -⟩ := hres
      exact ⟨r, hr⟩
    obtain ⟨r, hr⟩ := hr
    exact (doMmap_spaceStep hres hr (hg r hr) (h q)).all h p
  | munmapped q addr len =>
    obtain ⟨res, hres⟩ := hstep
    exact (doMunmap_spaceStep hres (h q)).all h p
  | brked q addr =>
    obtain ⟨res, hres⟩ := hstep
    exact (doBrk_spaceStep hres hg (h q)).all h p
  | removed q lo n => exact hg.elim
  | destroyed q => exact hg.elim
  | forked q => exact hg.elim
  | faulted q vaddr write exec => exact hg.elim
  | loaded q vaddr b => exact hg.elim
  | stored q vaddr b => exact hg.elim
  | written q vaddr buf => exact hg.elim
  | copied q vaddr buf => exact hg.elim
  | reclaimed o n => exact hg.elim

/-- In every run of guarded calls, every address space stays well formed. -/
theorem guarded_run_spaceOk {vnLen : ℕ → ℕ} {vnData : ℕ → ℕ → Page} {es : List VmEvent}
    {s : Vm} (hrun : GuardedRuns.Run VmStep OrderGuard (bootVm vnLen vnData) es s) (p : ℕ) :
    SpaceOk (areas s p) :=
  (hrun.invariant (fun _ _ _ hg hs h => wellFormed_step hg hs h)
    (fun _ => wellFormed_nil _) p).spaceOk

/-- A program is loaded, its heap grows by three pages, and the middle one of these is
unmapped. -/
def heapEvents : List VmEvent :=
  [.created, .mapped 0 none 0x400 1 (protRead+protWrite) mapPrivate 0 .lohi, .execed 0 0x401000,
    .brked 0 0x404000, .munmapped 0 0x402000 0x1000]

theorem spaceOk_after_munmap : ∃ s, GuardedRuns.Run VmStep OrderGuard blankVm heapEvents s ∧
    (areas s 0).length = 2 ∧ SpaceOk (areas s 0) := by
  exact (exists_run_vm _ _ _ (P := fun t => (areas t 0).length = 2) (by decide +kernel)).imp
    fun s h => ⟨h.1, h.2, guarded_run_spaceOk h.1 0⟩

/-- Lowering the break to where it was first cuts the upper part of the heap below its own
start. -/
theorem lowered_break_inverts_area : ∃ s, GuardedRuns.Run VmStep (fun _ _ => True) blankVm
    (heapEvents ++ [.brked 0 0x401000]) s ∧ ¬SpaceOk (areas s 0) := by
  refine (exists_run_vm _ _ _ (P := fun t => ∃ a ∈ areas t 0, a.vmaEnd ≤ a.vmaStart)
    (by decide +kernel)).imp fun s h => ⟨h.1, fun hok => ?_⟩
  obtain ⟨a, ha, hle⟩ := h.2
  have hlt := (hok.2.1 a ha).2.2.1
  omega

end SystemsProjects.AreaOrdering
