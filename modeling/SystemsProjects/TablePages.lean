import SystemsProjects.PageFaults
import SystemsProjects.Forking

/-!
# The pages that page tables take

A directory takes two pages, and each table that is present in it one more. `pt_map` allocates a
table when it needs one, and `pt_unmap_range` frees those that the range covers; clearing the
entry of a single page, as is done when a frame is freed, leaves its table where it is. Calls on
the address space of one process therefore leave the tables of all others alone.
-/
namespace SystemsProjects.TablePages

open PageTables VmState MemoryObjects AddressSpaces AreaMaps AreaOrdering PageFaults

/-- The number of tables that are present in a directory. -/
def tables (pd : Pagedir) : ℕ := (List.range ptEntryCount).countP fun i => (pd i).isSome

def firstTable : ℕ := userMemLow/(pageSize*ptEntryCount)

def lastTable : ℕ := (userMemHigh-1)/(pageSize*ptEntryCount)

/-- `pt_destroy_pagedir`, as the number of pages that it frees. -/
def ptDestroyPagedir (pd : Pagedir) : ℕ :=
  ((List.range ptEntryCount).countP fun i =>
    decide (firstTable ≤ i ∧ i ≤ lastTable) && (pd i).isSome) + 2

/-- The tables that are present are for user memory. -/
def UserTables (pd : Pagedir) : Prop :=
  ∀ i, (pd i).isSome → firstTable ≤ i ∧ i ≤ lastTable

variable {pd : Pagedir}

theorem ptDestroyPagedir_eq (h : UserTables pd) : ptDestroyPagedir pd = tables pd + 2 := by
  have hcount : (List.range ptEntryCount).countP (fun i =>
      decide (firstTable ≤ i ∧ i ≤ lastTable) && (pd i).isSome) = tables pd := by
    apply List.countP_congr
    intro i _
    cases hi : (pd i).isSome with
    | false => simp
    | true => simp [h i hi]
  rw [ptDestroyPagedir, hcount]

theorem userTables_create : UserTables ptCreatePagedir := nofun

def SameTables (pd pd' : Pagedir) : Prop := ∀ i, (pd' i).isSome = (pd i).isSome

variable {pd' : Pagedir}

theorem SameTables.tables_eq (h : SameTables pd pd') : tables pd' = tables pd := by
  unfold tables
  apply List.countP_congr
  intro i _
  rw [h i]

variable {vfn : ℕ}

theorem ptUnmap_sameTables (h : ptUnmap pd vfn = some pd') : SameTables pd pd' := by
  simp only [ptUnmap, Option.ite_none_right_eq_some, Option.some.injEq] at h
  obtain ⟨-, rfl⟩ := h
  exact isSome_editTable pd _ _

variable {hi lo : ℕ}

theorem ptUnmapRange_subset (h : ptUnmapRange pd lo hi = some pd') (i : ℕ) (hi' : (pd' i).isSome) :
    (pd i).isSome := by
  rw [isSome_unmapped h, Bool.and_eq_true] at hi'
  exact hi'.1

theorem ptMap_userTables {pte : Pte} (h : ptMap pd vfn pte = some pd') (hu : UserTables pd) :
    UserTables pd' := by
  simp only [ptMap, Option.ite_none_right_eq_some, Option.some.injEq] at h
  obtain ⟨⟨hlo, hhi⟩, rfl⟩ := h
  intro i hi
  by_cases hv : i = vfn/ptEntryCount
  · subst hv
    unfold firstTable lastTable userMemLow userMemHigh pageSize ptEntryCount
    unfold userLow at hlo
    unfold userHigh at hhi
    omega
  · rw [Function.update_of_ne hv] at hi
    exact hu i hi

/-- The directory of one process has lost tables at most, those of the others have the tables they
had. -/
structure Unmapped (p : ℕ) (s t : Vm) : Prop where
  others : ∀ q, q ≠ p → SameTables (table s q) (table t q)
  self : ∀ i, (table t p i).isSome → (table s p i).isSome

namespace Unmapped

variable {p : ℕ} {s t u : Vm}

theorem refl (p : ℕ) (s : Vm) : Unmapped p s s := ⟨fun _ _ _ => rfl, fun _ h => h⟩

theorem trans (h : Unmapped p s t) (h' : Unmapped p t u) : Unmapped p s u :=
  ⟨fun q hq i => (h'.others q hq i).trans (h.others q hq i), fun i hi => h.self i (h'.self i hi)⟩

theorem of_sameTables (h : ∀ q, SameTables (table s q) (table t q)) : Unmapped p s t :=
  ⟨fun q _ => h q, fun i hi => by rwa [h p i] at hi⟩

theorem of_table (h : table t = table s) : Unmapped p s t :=
  of_sameTables fun q i => by rw [h]

theorem foldlM {α : Type} {f : Vm → α → Kern Vm} (hf : ∀ s a t, f s a = .ok t → Unmapped p s t)
    (l : List α) (s t : Vm) (h : l.foldlM f s = .ok t) : Unmapped p s t :=
  foldlM_rule (fun _ t => Unmapped p s t) (fun a _ b b' hb hab => hb.trans (hf b a b' hab)) l s t
    (.refl p s) h

end Unmapped

variable {r : Proc} {v : ℕ × ℕ}

section Calls

variable {s t : Vm} {p o n : ℕ}

theorem table_of_procs (h : t.procs = s.procs) : table t = table s := by
  funext q
  rw [table, table, h]

theorem table_setPagedir (hr : s.procs p = some r) (pd : Pagedir) (q : ℕ) :
    table (setPagedir s p r pd) q = if q = p then pd else table s q := by
  by_cases hq : q = p
  · subst hq
    simp [table, setPagedir, Vm.setProc]
  · simp [table, setPagedir, Vm.setProc, hq]

theorem table_of_proc (hr : s.procs p = some r) : table s p = r.pPagedir := by
  simp [table, hr]

theorem editAreas_table {f : List Vmarea → List Vmarea} (h : editAreas s p f = .ok t) :
    table t = table s := by
  simp only [editAreas, bind_eq_ok, getProc, getMap, need_eq_ok] at h
  obtain ⟨r, hr, map, -, h⟩ := h
  obtain rfl := Except.ok.inj h
  funext q
  by_cases hq : q = p
  · subst hq
    simp [table, setAreas, Vm.setProc, hr]
  · simp [table, setAreas, Vm.setProc, hq]

theorem refChain_unmapped (h : refChain s o = .ok t) : Unmapped p s t :=
  .foldlM (fun _ _ _ h => .of_table (table_of_procs (mmobjRef_procs h).procs)) _ s t h

theorem unmapRange_unmapped (h : unmapRange s p lo hi = .ok t) : Unmapped p s t := by
  simp only [unmapRange, bind_eq_ok, getProc, need_eq_ok] at h
  obtain ⟨r, hr, pd, hpd, h⟩ := h
  obtain rfl := Except.ok.inj h
  constructor
  · intro q hq i
    rw [table_setPagedir hr, if_neg hq]
  · intro i hi'
    rw [table_setPagedir hr, if_pos rfl] at hi'
    rw [table_of_proc hr]
    exact ptUnmapRange_subset hpd i hi'

theorem removeFromPt_sameTables (h : removeFromPt n s v = .ok t) (q : ℕ) :
    SameTables (table s q) (table t q) := by
  simp only [removeFromPt, bind_eq_ok] at h
  obtain ⟨r, -, map, -, a, -, h⟩ := h
  split_ifs at h with hc
  · split at h
    · obtain rfl := Except.ok.inj h
      exact fun _ => rfl
    · simp only [bind_eq_ok, getProc, need_eq_ok] at h
      obtain ⟨r', hr', pd, hpd, h⟩ := h
      obtain rfl := Except.ok.inj h
      rw [table_setPagedir hr']
      split_ifs with hq
      · rw [hq, table_of_proc hr']
        exact ptUnmap_sameTables hpd
      · exact fun _ => rfl
  · obtain rfl := Except.ok.inj h
    exact fun _ => rfl

theorem releasing_unmapped (p : ℕ) : Releasing (Unmapped p) where
  trans := .trans
  objs h _ := .of_table (table_of_procs h)
  entry h := .of_sameTables (removeFromPt_sameTables h)

theorem removeArea_unmapped {a : Vmarea} (h : removeArea p lo hi s a = .ok t) : Unmapped p s t := by
  unfold removeArea at h
  split_ifs at h
  · simp only [splitArea, bind_eq_ok] at h
    obtain ⟨o, -, s1, h1, s2, h2, s3, h3, h4⟩ := h
    have hnext : Unmapped p s1 { s1 with nextVma := s1.nextVma+1 } := .of_table rfl
    have h2' : Unmapped p s1 s2 := hnext.trans (.of_table (editAreas_table h2))
    exact (refChain_unmapped h1).trans (h2'.trans
      (.trans (.of_table (table_of_procs (linkOnBottom_procs h3).procs)) (unmapRange_unmapped h4)))
  · simp only [cutTail, bind_eq_ok] at h
    obtain ⟨s1, h1, h2⟩ := h
    exact (unmapRange_unmapped h1).trans (.of_table (editAreas_table h2))
  · simp only [cutHead, bind_eq_ok] at h
    obtain ⟨s1, h1, h2⟩ := h
    exact (unmapRange_unmapped h1).trans (.of_table (editAreas_table h2))
  · simp only [dropArea, putChain, bind_eq_ok] at h
    obtain ⟨o, -, s1, h1, s2, h2, h3⟩ := h
    have h1' : Unmapped p s s1 := .foldlM (fun _ _ _ => (releasing_unmapped p).mmobjPut 2) _ s s1 h1
    have h2' : Unmapped p s1 s2 := .of_table (editAreas_table h2)
    have hunlink : Unmapped p s2 (unlinkVma s2 (p, a.vmaId)) := .of_table rfl
    exact h1'.trans (h2'.trans (hunlink.trans (unmapRange_unmapped h3)))
  · obtain rfl := Except.ok.inj h
    exact .refl p s

/-- Destroying the map of a process takes tables from that process alone. -/
theorem vmmapDestroy_unmapped (h : vmmapDestroy s p = .ok t) : Unmapped p s t := by
  simp only [vmmapDestroy, vmmapRemove_eq, bind_eq_ok, getProc, need_eq_ok] at h
  obtain ⟨s1, ⟨l, -, empty, -, h1⟩, r', hr', h⟩ := h
  have h1' : Unmapped p s s1 := by
    split_ifs at h1
    · obtain rfl := Except.ok.inj h1
      exact .refl p s
    · exact .foldlM (fun _ _ _ h => removeArea_unmapped h) _ s s1 h1
  obtain rfl := Except.ok.inj h
  refine h1'.trans (.of_table ?_)
  funext q
  by_cases hq : q = p
  · subst hq
    simp [table, Vm.setProc, hr']
  · simp [table, Vm.setProc, hq]

/-- A table is added to the directory of one process at most, and one for user memory. -/
def Mapped (p : ℕ) (s t : Vm) : Prop :=
  (∀ q, q ≠ p → table t q = table s q) ∧ (UserTables (table s p) → UserTables (table t p))

theorem mapped_of_entered {e : Pte} (h : Entered s t p vfn e) : Mapped p s t :=
  ⟨h.2, ptMap_userTables h.1⟩

end Calls

end SystemsProjects.TablePages
