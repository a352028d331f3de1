import Mathlib.Algebra.Group.Nat.Defs
import Mathlib.Algebra.Group.Int.Defs
import Mathlib.Logic.Function.Basic
import Mathlib.Tactic.SplitIfs

/-!
# Two-level page tables

The user part of an address space is described by a directory of tables, each of
1024 entries. Addresses occur here as page numbers, since every caller passes
page-aligned addresses. `pt_map` also adds its flags to the directory entry, so
that the directory never denies what the entry of a page allows; the flags are
therefore kept with the page alone.

`pt_unmap_range` clears whole runs of a table: from the first page of the range
to the end of that table, and from the start of the last table to the end of the
range. It may clear entries outside the range, but it leaves none inside it.
-/
namespace SystemsProjects.PageTables
open Function Option

/-- `PT_ENTRY_COUNT`, the number of entries of a table. -/
def ptEntryCount : ℕ := 1024

/-- `ADDR_TO_PN(USER_MEM_LOW)`. -/
def userLow : ℕ := 0x400

/-- `ADDR_TO_PN(USER_MEM_HIGH)`. -/
def userHigh : ℕ := 0xc0000

/-- A present entry: the frame it maps, and whether user code may write to it. -/
structure Pte where
  pteFrame : ℕ
  pteWrite : Bool
  deriving DecidableEq, Repr

/-- A directory; the tables and entries that are `none` are not present. -/
abbrev Pagedir := ℕ → Option (ℕ → Option Pte)

def ptCreatePagedir : Pagedir := fun _ => none

/-- The entry that the processor finds for a page. -/
def ptEntry (pd : Pagedir) (vfn : ℕ) : Option Pte :=
  (pd (vfn/ptEntryCount)).bind fun pt => pt (vfn%ptEntryCount)

def editTable (pd : Pagedir) (i : ℕ) (f : (ℕ → Option Pte) → ℕ → Option Pte) : Pagedir :=
  update pd i ((pd i).map f)

/-- `none` is a failed assertion. -/
def ptMap (pd : Pagedir) (vfn : ℕ) (pte : Pte) : Option Pagedir :=
  if userLow ≤ vfn ∧ vfn < userHigh then
    let pt := (pd (vfn/ptEntryCount)).getD fun _ => none
    some (update pd (vfn/ptEntryCount) (some (update pt (vfn%ptEntryCount) (some pte))))
  else none

def ptUnmap (pd : Pagedir) (vfn : ℕ) : Option Pagedir :=
  if userLow ≤ vfn ∧ vfn < userHigh then
    some (editTable pd (vfn/ptEntryCount) fun pt => update pt (vfn%ptEntryCount) none)
  else none

/-- The entries of the first table from the start of the range on. -/
def clearUp (pd : Pagedir) (lo : ℕ) : Pagedir :=
  if lo%ptEntryCount = 0 then pd
  else editTable pd (lo/ptEntryCount) fun pt j => if lo%ptEntryCount ≤ j then none else pt j

/-- The entries of the last table before the end of the range. -/
def clearDown (pd : Pagedir) (hi : ℕ) : Pagedir :=
  if hi%ptEntryCount = 0 then pd
  else editTable pd (hi/ptEntryCount) fun pt j => if j < hi%ptEntryCount then none else pt j

def freeTables (pd : Pagedir) (lo hi : ℕ) : Pagedir :=
  fun i => if lo ≤ i ∧ i < hi then none else pd i

def ptUnmapRange (pd : Pagedir) (vlow vhigh : ℕ) : Option Pagedir :=
  if vlow < vhigh ∧ userLow ≤ vlow ∧ vhigh ≤ userHigh then
    let low := vlow + (ptEntryCount - vlow%ptEntryCount)%ptEntryCount
    let high := vhigh - vhigh%ptEntryCount
    some (freeTables (clearDown (clearUp pd vlow) vhigh) (low/ptEntryCount) (high/ptEntryCount))
  else none

/-- Every entry of the first directory is an entry of the second. -/
def Sub (pd pd' : Pagedir) : Prop :=
  ∀ vfn, ptEntry pd vfn = none ∨ ptEntry pd vfn = ptEntry pd' vfn

theorem Sub.refl (pd : Pagedir) : Sub pd pd := fun _ => .inr rfl

variable {pd pd' : Pagedir}

theorem Sub.trans {pd'' : Pagedir} (h : Sub pd pd') (h' : Sub pd' pd'') : Sub pd pd'' := by
  intro vfn
  rcases h vfn with hn | he
  · exact .inl hn
  · rw [he]
    exact h' vfn

variable {vfn : ℕ}

theorem Sub.eq_some (h : Sub pd pd') {pte : Pte} (he : ptEntry pd vfn = some pte) :
    ptEntry pd' vfn = some pte := by
  rcases h vfn with hn | heq
  · simp [hn] at he
  · rw [← heq, he]

@[simp] theorem ptEntry_ptCreatePagedir (vfn : ℕ) : ptEntry ptCreatePagedir vfn = none := rfl

theorem ptEntry_editTable (pd : Pagedir) (i : ℕ) (f : (ℕ → Option Pte) → ℕ → Option Pte)
    (vfn : ℕ) : ptEntry (editTable pd i f) vfn =
      if vfn/ptEntryCount = i then (pd i).bind fun pt => f pt (vfn%ptEntryCount)
      else ptEntry pd vfn := by
  unfold ptEntry editTable
  by_cases h : vfn/ptEntryCount = i
  · subst h
    cases pd (vfn/ptEntryCount) <;> simp
  · simp [h]

theorem eq_iff_div_mod {a b : ℕ} :
    a = b ↔ a/ptEntryCount = b/ptEntryCount ∧ a%ptEntryCount = b%ptEntryCount := by
  refine ⟨fun h => by rw [h]; exact ⟨rfl, rfl⟩, fun ⟨hd, hm⟩ => ?_⟩
  rw [← Nat.div_add_mod a ptEntryCount, ← Nat.div_add_mod b ptEntryCount, hd, hm]

theorem ptMap_isSome (pte : Pte) (h : userLow ≤ vfn) (h' : vfn < userHigh) :
    ∃ pd', ptMap pd vfn pte = some pd' := by
  simp [ptMap, h, h']

theorem ptEntry_ptMap {pte : Pte} (h : ptMap pd vfn pte = some pd') (v : ℕ) :
    ptEntry pd' v = if v = vfn then some pte else ptEntry pd v := by
  simp only [ptMap, ite_none_right_eq_some, some.injEq] at h
  obtain ⟨-, rfl⟩ := h
  have heq : v = vfn ↔ _ := eq_iff_div_mod
  unfold ptEntry
  by_cases hd : v/ptEntryCount = vfn/ptEntryCount
  · by_cases hm : v%ptEntryCount = vfn%ptEntryCount
    · simp [heq, hd, hm]
    · cases hp : pd (vfn/ptEntryCount) <;> simp [heq, hd, hm, hp]
  · simp [heq, hd]

theorem ptUnmap_isSome (h : userLow ≤ vfn) (h' : vfn < userHigh) :
    ∃ pd', ptUnmap pd vfn = some pd' := by simp [ptUnmap, h, h']

theorem ptEntry_ptUnmap (h : ptUnmap pd vfn = some pd') (v : ℕ) :
    ptEntry pd' v = if v = vfn then none else ptEntry pd v := by
  simp only [ptUnmap, ite_none_right_eq_some, some.injEq] at h
  obtain ⟨-, rfl⟩ := h
  have heq : v = vfn ↔ _ := eq_iff_div_mod
  rw [ptEntry_editTable]
  by_cases hd : v/ptEntryCount = vfn/ptEntryCount
  · by_cases hm : v%ptEntryCount = vfn%ptEntryCount <;> simp [ptEntry, heq, hd, hm]
  · simp [heq, hd]

theorem ptUnmap_sub (h : ptUnmap pd vfn = some pd') : Sub pd' pd := by
  intro v
  rw [ptEntry_ptUnmap h]
  split_ifs <;> simp

theorem isSome_editTable (pd : Pagedir) (i : ℕ) (f : (ℕ → Option Pte) → ℕ → Option Pte) (j : ℕ) :
    (editTable pd i f j).isSome = (pd j).isSome := by
  by_cases hj : j = i
  · subst hj
    simp [editTable]
  · simp [editTable, hj]

theorem ptEntry_clear (pd : Pagedir) (i : ℕ) (p : ℕ → Prop) [DecidablePred p] (v : ℕ) :
    ptEntry (editTable pd i fun pt j => if p j then none else pt j) v =
      if v/ptEntryCount = i ∧ p (v%ptEntryCount) then none else ptEntry pd v := by
  rw [ptEntry_editTable]
  by_cases hi : v/ptEntryCount = i
  · subst hi
    by_cases hp : p (v%ptEntryCount) <;> simp [ptEntry, hp]
  · simp [hi]

variable {hi lo : ℕ}

theorem ptUnmapRange_isSome (h : lo < hi) (hlo : userLow ≤ lo) (hhi : hi ≤ userHigh) :
    ∃ pd', ptUnmapRange pd lo hi = some pd' := by
  simp [ptUnmapRange, h, hlo, hhi]

theorem ptEntry_clearUp (pd : Pagedir) (lo v : ℕ) : ptEntry (clearUp pd lo) v =
    if lo%ptEntryCount ≠ 0 ∧ v/ptEntryCount = lo/ptEntryCount ∧ lo ≤ v then none
    else ptEntry pd v := by
  by_cases h0 : lo%ptEntryCount = 0
  · simp [clearUp, h0]
  · rw [clearUp, if_neg h0, ptEntry_clear]
    refine if_congr ?_ rfl rfl
    unfold ptEntryCount at *
    omega

theorem ptEntry_clearDown (pd : Pagedir) (hi v : ℕ) : ptEntry (clearDown pd hi) v =
    if v/ptEntryCount = hi/ptEntryCount ∧ v < hi then none else ptEntry pd v := by
  by_cases h0 : hi%ptEntryCount = 0
  · rw [clearDown, if_pos h0, if_neg]
    unfold ptEntryCount at *
    omega
  · rw [clearDown, if_neg h0, ptEntry_clear]
    refine if_congr ?_ rfl rfl
    unfold ptEntryCount at *
    omega

/-- The entries that are cleared: the end of the first table, the start of the last one, and the
tables that the range covers. -/
theorem ptEntry_unmapped (h : ptUnmapRange pd lo hi = some pd') (v : ℕ) : ptEntry pd' v =
    if lo ≤ v/ptEntryCount*ptEntryCount ∧ (v/ptEntryCount+1)*ptEntryCount ≤ hi then none
    else if v/ptEntryCount = hi/ptEntryCount ∧ v < hi then none
    else if lo%ptEntryCount ≠ 0 ∧ v/ptEntryCount = lo/ptEntryCount ∧ lo ≤ v then none
    else ptEntry pd v := by
  simp only [ptUnmapRange, ite_none_right_eq_some, some.injEq] at h
  obtain ⟨-, rfl⟩ := h
  rw [← ptEntry_clearUp, ← ptEntry_clearDown, ptEntry, freeTables]
  have hcovered : (lo+(ptEntryCount-lo%ptEntryCount)%ptEntryCount)/ptEntryCount ≤ v/ptEntryCount ∧
      v/ptEntryCount < (hi-hi%ptEntryCount)/ptEntryCount ↔
      lo ≤ v/ptEntryCount*ptEntryCount ∧ (v/ptEntryCount+1)*ptEntryCount ≤ hi := by
    unfold ptEntryCount
    omega
  simp only [hcovered]
  split_ifs <;> rfl

theorem ptUnmapRange_sub (h : ptUnmapRange pd lo hi = some pd') : Sub pd' pd := by
  intro v
  rw [ptEntry_unmapped h]
  split_ifs <;> simp

theorem ptEntry_ptUnmapRange (h : ptUnmapRange pd lo hi = some pd') {v : ℕ} (hlo : lo ≤ v)
    (hhi : v < hi) : ptEntry pd' v = none := by
  rw [ptEntry_unmapped h]
  split_ifs with h1 h2 h3
  iterate 3 rfl
  unfold ptEntryCount at *
  omega

/-- A table is freed if the range covers it. -/
theorem isSome_unmapped (h : ptUnmapRange pd lo hi = some pd') (i : ℕ) : (pd' i).isSome =
    ((pd i).isSome && !decide (lo ≤ i*ptEntryCount ∧ (i+1)*ptEntryCount ≤ hi)) := by
  simp only [ptUnmapRange, ite_none_right_eq_some, some.injEq] at h
  obtain ⟨-, rfl⟩ := h
  have hcovered : (lo+(ptEntryCount-lo%ptEntryCount)%ptEntryCount)/ptEntryCount ≤ i ∧
      i < (hi-hi%ptEntryCount)/ptEntryCount ↔
      lo ≤ i*ptEntryCount ∧ (i+1)*ptEntryCount ≤ hi := by
    unfold ptEntryCount
    omega
  have hsame : (clearDown (clearUp pd lo) hi i).isSome = (pd i).isSome := by
    unfold clearDown clearUp
    split_ifs <;> simp only [isSome_editTable]
  simp only [freeTables, hcovered]
  split_ifs with hc <;> simp [hc, hsame]

/-- The range loses its own entries alone, and exactly the tables that it covers are freed. -/
def UnmapsExactly (pd : Pagedir) (lo hi : ℕ) (pd' : Pagedir) : Prop :=
  (∀ v, ptEntry pd' v = if lo ≤ v ∧ v < hi then none else ptEntry pd v) ∧
    ∀ i, (pd i).isSome → (pd' i = none ↔ ∀ v, v/ptEntryCount = i → lo ≤ v ∧ v < hi)

/-- The range starts at the start of a table, or does not end in the table where it starts, or
nothing else is mapped in that table. -/
def EndsApart (pd : Pagedir) (lo hi : ℕ) : Prop :=
  lo%ptEntryCount = 0 ∨ lo/ptEntryCount < hi/ptEntryCount ∨
    ∀ v, v/ptEntryCount = lo/ptEntryCount → ¬(lo ≤ v ∧ v < hi) → ptEntry pd v = none

theorem unmapped_tables (h : ptUnmapRange pd lo hi = some pd') (i : ℕ) (hi' : (pd i).isSome) :
    pd' i = none ↔ ∀ v, v/ptEntryCount = i → lo ≤ v ∧ v < hi := by
  rw [← Option.not_isSome_iff_eq_none, isSome_unmapped h, hi']
  have hcovered : lo ≤ i*ptEntryCount ∧ (i+1)*ptEntryCount ≤ hi ↔
      ∀ v, v/ptEntryCount = i → lo ≤ v ∧ v < hi := by
    unfold ptEntryCount
    constructor
    · intro hc v hv
      omega
    · intro hall
      have hlast := (hall (i*1024+1023) (by omega)).2
      exact ⟨(hall (i*1024) (by omega)).1, by omega⟩
  simpa using hcovered

/-- If both ends lie in one table and the start is not its first entry, the whole table is
cleared, which is right only if nothing else was mapped there. -/
theorem ptUnmapRange_exact (pd : Pagedir) (hlt : lo < hi) (hlo : userLow ≤ lo)
    (hhi : hi ≤ userHigh) : ∃ pd', ptUnmapRange pd lo hi = some pd' ∧
      (UnmapsExactly pd lo hi pd' ↔ EndsApart pd lo hi) := by
  obtain ⟨pd', h⟩ : ∃ pd', ptUnmapRange pd lo hi = some pd' := ptUnmapRange_isSome hlt hlo hhi
  refine ⟨pd', h, ?_⟩
  unfold UnmapsExactly EndsApart
  simp only [and_iff_left (unmapped_tables h)]
  have hentry := ptEntry_unmapped h
  simp only [← ite_or] at hentry
  by_cases hends : lo%ptEntryCount = 0 ∨ lo/ptEntryCount < hi/ptEntryCount
  · refine iff_of_true (fun v => ?_) (hends.imp_right .inl)
    rw [hentry]
    refine if_congr ?_ rfl rfl
    unfold ptEntryCount at *
    omega
  · -- the two ends clear every entry of the table
    have hcleared : ∀ v, v/ptEntryCount = lo/ptEntryCount → ptEntry pd' v = none := by
      intro v hv
      rw [hentry, if_pos]
      unfold ptEntryCount at *
      omega
    constructor
    · intro hexact
      refine .inr (.inr fun v hv hout => ?_)
      rw [← hcleared v hv, hexact v, if_neg hout]
    · intro hcond v
      have hnone := (hcond.resolve_left fun h0 => hends (.inl h0)).resolve_left
        fun hlt => hends (.inr hlt)
      by_cases hv : v/ptEntryCount = lo/ptEntryCount
      · rw [hcleared v hv]
        split_ifs with hin
        · rfl
        · exact (hnone v hv hin).symm
      · rw [hentry]
        refine if_congr ?_ rfl rfl
        unfold ptEntryCount at *
        omega

theorem ptUnmapRange_two_tables : ∃ pd pd', ptMap ptCreatePagedir 0x400 ⟨7, true⟩ = some pd ∧
    ptUnmapRange pd 0x401 0x801 = some pd' ∧ UnmapsExactly pd 0x401 0x801 pd' := by
  obtain ⟨pd', h, hexact⟩ := ptUnmapRange_exact _ (show 0x401 < 0x801 by decide)
    (by decide) (by decide)
  exact ⟨_, pd', rfl, h, hexact.mpr (.inr (.inl (by decide)))⟩

/-- Within one table the two ends clear all of it. -/
theorem ptUnmapRange_below : (((ptMap ptCreatePagedir 0x400 ⟨7, true⟩).bind fun pd =>
    ptUnmapRange pd 0x401 0x402).map fun pd => ptEntry pd 0x400) = some none := by
  decide

end SystemsProjects.PageTables
