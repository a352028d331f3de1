import SystemsProjects.VmSystemCalls
import SystemsProjects.PageLookup

/-!
# Maps and directories of processes

The lists of areas and the page directories of the processes of a state, and what
the edits of `vmmap.c` do to them: a list is replaced, or a directory is. Areas have
numbers of their own, so that an edit of one area leaves the others in place; as a
multiset, the list before and after an edit differ in that area alone.
-/
namespace SystemsProjects.AreaMaps

open PageTables VmState MemoryObjects AddressSpaces ObjectHeap List

def mapOf (s : Vm) (p : ℕ) : Option Vmmap := (s.procs p).bind Proc.pVmmap

def areas (s : Vm) (p : ℕ) : List Vmarea := ((mapOf s p).map Vmmap.vmmList).getD []

def table (s : Vm) (p : ℕ) : Pagedir := ((s.procs p).map Proc.pPagedir).getD ptCreatePagedir

def withAreas (s : Vm) (p : ℕ) (l : List Vmarea) : Vm :=
  s.setProcs (Function.update s.procs p ((s.procs p).map fun r =>
    { r with pVmmap := r.pVmmap.map fun m => { m with vmmList := l } }))

def withTable (s : Vm) (p : ℕ) (pd : Pagedir) : Vm :=
  s.setProcs (Function.update s.procs p ((s.procs p).map fun r => { r with pPagedir := pd }))

variable {f : ℕ → Option Proc}

section Accessors

variable {s : Vm} {p q : ℕ} {map : Vmmap}

theorem mapOf_eq_some : mapOf s p = some map ↔ ∃ r, s.procs p = some r ∧ r.pVmmap = some map := by
  simp [mapOf, Option.bind_eq_some_iff]

theorem areas_of_mapOf (h : mapOf s p = some map) : areas s p = map.vmmList := by
  simp [areas, h]

theorem isSome_of_mapOf (h : mapOf s p = some map) : (s.procs p).isSome := by
  obtain ⟨r, hr, -⟩ := mapOf_eq_some.mp h
  simp [hr]

theorem mapOf_of_mem {a : Vmarea} (h : a ∈ areas s p) : ∃ map, mapOf s p = some map := by
  cases hm : mapOf s p with
  | none => simp [areas, hm] at h
  | some map => exact ⟨map, rfl⟩

theorem readAreas_eq (h : mapOf s p = some map) : readAreas s p = .ok (areas s p) := by
  obtain ⟨r, hr, hm⟩ := mapOf_eq_some.mp h
  simp [readAreas, getProc, hr, getMap, hm, areas_of_mapOf h]

theorem readAreas_eq_ok {l : List Vmarea} (h : readAreas s p = .ok l) :
    (∃ map, mapOf s p = some map) ∧ l = areas s p := by
  simp only [readAreas, bind_eq_ok, getProc, getMap, need_eq_ok] at h
  obtain ⟨r, hr, map, hm, hl⟩ := h
  have hmap := mapOf_eq_some.mpr ⟨r, hr, hm⟩
  exact ⟨⟨map, hmap⟩, by rw [areas_of_mapOf hmap]; exact (Except.ok.inj hl).symm⟩

theorem editAreas_eq (h : mapOf s p = some map) (f : List Vmarea → List Vmarea) :
    editAreas s p f = .ok (withAreas s p (f (areas s p))) := by
  obtain ⟨r, hr, hm⟩ := mapOf_eq_some.mp h
  simp [editAreas, getProc, hr, getMap, hm, setAreas, Vm.setProc, withAreas, areas_of_mapOf h,
    Vm.setProcs]

theorem mapOf_withAreas_self (s : Vm) (p : ℕ) (l : List Vmarea) :
    mapOf (withAreas s p l) p = (mapOf s p).map fun m => { m with vmmList := l } := by
  cases hr : s.procs p <;> simp [mapOf, withAreas, Vm.setProcs, hr]

theorem mapOf_withAreas_ne (s : Vm) (l : List Vmarea) (h : q ≠ p) :
    mapOf (withAreas s p l) q = mapOf s q := by
  simp [mapOf, withAreas, Vm.setProcs, h]

theorem areas_withAreas_self (h : mapOf s p = some map) (l : List Vmarea) :
    areas (withAreas s p l) p = l := by
  simp [areas, mapOf_withAreas_self, h]

theorem areas_withAreas_ne (s : Vm) (l : List Vmarea) (h : q ≠ p) :
    areas (withAreas s p l) q = areas s q := by
  simp [areas, mapOf_withAreas_ne s l h]

@[simp] theorem table_withAreas (s : Vm) (p : ℕ) (l : List Vmarea) :
    table (withAreas s p l) = table s := by
  funext q
  by_cases hq : q = p
  · subst hq
    cases hr : s.procs q <;> simp [table, withAreas, Vm.setProcs, hr]
  · simp [table, withAreas, Vm.setProcs, hq]

theorem isSome_withAreas (s : Vm) (p q : ℕ) (l : List Vmarea) :
    ((withAreas s p l).procs q).isSome = (s.procs q).isSome := by
  by_cases hq : q = p
  · subst hq
    simp [withAreas, Vm.setProcs]
  · simp [withAreas, Vm.setProcs, hq]

@[simp] theorem mapOf_withTable (s : Vm) (p : ℕ) (pd : Pagedir) :
    mapOf (withTable s p pd) = mapOf s := by
  funext q
  by_cases hq : q = p
  · subst hq
    cases hr : s.procs q <;> simp [mapOf, withTable, Vm.setProcs, hr]
  · simp [mapOf, withTable, Vm.setProcs, hq]

@[simp] theorem areas_withTable (s : Vm) (p : ℕ) (pd : Pagedir) :
    areas (withTable s p pd) = areas s := by
  funext q
  simp [areas]

theorem table_withTable_self (h : (s.procs p).isSome) (pd : Pagedir) :
    table (withTable s p pd) p = pd := by
  obtain ⟨r, hr⟩ := Option.isSome_iff_exists.mp h
  simp [table, withTable, Vm.setProcs, hr]

theorem table_withTable_ne (s : Vm) (pd : Pagedir) (h : q ≠ p) :
    table (withTable s p pd) q = table s q := by
  simp [table, withTable, Vm.setProcs, h]

theorem sub_withTable {pd : Pagedir} (h : (s.procs p).isSome) (hpd : Sub pd (table s p)) (q : ℕ) :
    Sub (table (withTable s p pd) q) (table s q) := by
  by_cases hq : q = p
  · subst hq
    rwa [table_withTable_self h]
  · rw [table_withTable_ne s pd hq]
    exact .refl _

theorem isSome_withTable (s : Vm) (p q : ℕ) (pd : Pagedir) :
    ((withTable s p pd).procs q).isSome = (s.procs q).isSome := by
  by_cases hq : q = p
  · subst hq
    simp [withTable, Vm.setProcs]
  · simp [withTable, Vm.setProcs, hq]

theorem unmapRange_eq (h : (s.procs p).isSome) {lo hi : ℕ} (hlt : lo < hi) (hlo : userLow ≤ lo)
    (hhi : hi ≤ userHigh) : ∃ pd, ptUnmapRange (table s p) lo hi = some pd ∧
      unmapRange s p lo hi = .ok (withTable s p pd) := by
  obtain ⟨r, hr⟩ := Option.isSome_iff_exists.mp h
  have ht : table s p = r.pPagedir := by simp [table, hr]
  obtain ⟨pd, hpd⟩ : ∃ pd, ptUnmapRange r.pPagedir lo hi = some pd :=
    ptUnmapRange_isSome hlt hlo hhi
  refine ⟨pd, by rw [ht, hpd], ?_⟩
  simp [unmapRange, getProc, hr, hpd, setPagedir, Vm.setProc, withTable, Vm.setProcs]

theorem mapOf_shrunk (h : TablesShrunk s.procs f) : mapOf (s.setProcs f) = mapOf s := by
  funext q
  rcases h q with ⟨hn, hn'⟩ | ⟨r, pd, hr, hr', -⟩
  · simp [mapOf, Vm.setProcs, hn, hn']
  · simp [mapOf, Vm.setProcs, hr, hr']

theorem areas_shrunk (h : TablesShrunk s.procs f) : areas (s.setProcs f) = areas s := by
  funext q
  rw [areas, areas, mapOf_shrunk h]

theorem table_shrunk (h : TablesShrunk s.procs f) (p : ℕ) :
    Sub (table (s.setProcs f) p) (table s p) := by
  rcases h p with ⟨hn, hn'⟩ | ⟨r, pd, hr, hr', hsub⟩
  · simpa [table, Vm.setProcs, hn, hn'] using Sub.refl _
  · simpa [table, Vm.setProcs, hr, hr'] using hsub

theorem isSome_shrunk (h : TablesShrunk s.procs f) (p : ℕ) : (f p).isSome = (s.procs p).isSome := by
  rcases h p with ⟨hn, hn'⟩ | ⟨r, pd, hr, hr', hsub⟩
  · rw [hn, hn']
  · rw [hr, hr']
    rfl

end Accessors

section Lists

variable {l : List Vmarea} {a b : Vmarea} {id : ℕ} {f : Vmarea → Vmarea}

theorem mem_editArea : b ∈ editArea id f l ↔ ∃ a ∈ l, b = if a.vmaId = id then f a else a := by
  simp [editArea, eq_comm]

theorem map_id_editArea (hf : ∀ a, (f a).vmaId = a.vmaId) :
    (editArea id f l).map Vmarea.vmaId = l.map Vmarea.vmaId := by
  rw [editArea, map_map]
  refine map_congr_left fun a _ => ?_
  by_cases h : a.vmaId = id <;> simp [h, hf]

theorem eq_of_id (hnd : (l.map Vmarea.vmaId).Nodup) (ha : a ∈ l) (hb : b ∈ l)
    (h : a.vmaId = b.vmaId) : a = b := inj_on_of_nodup_map hnd ha hb h

theorem perm_filter (hnd : (l.map Vmarea.vmaId).Nodup) (ha : a ∈ l) :
    l.Perm (a :: l.filter (·.vmaId ≠ a.vmaId)) := by
  induction l with
  | nil => simp at ha
  | cons b l ih =>
    simp only [map_cons, nodup_cons, mem_map, not_exists, not_and] at hnd
    rcases mem_cons.mp ha with rfl | ha
    · have hself : l.filter (·.vmaId ≠ a.vmaId) = l :=
        filter_eq_self.mpr fun c hc => by simpa using hnd.1 c hc
      rw [filter_cons_of_neg (by simp), hself]
    · have hne : b.vmaId ≠ a.vmaId := fun h => hnd.1 a ha h.symm
      rw [filter_cons_of_pos (by simpa using hne)]
      exact ((ih hnd.2 ha).cons b).trans (List.Perm.swap a b _)

theorem editArea_of_not_mem (h : ∀ b ∈ l, b.vmaId ≠ id) : editArea id f l = l := by
  conv_rhs => rw [← map_id l]
  exact map_congr_left fun b hb => by simp [h b hb]

theorem perm_editArea (hnd : (l.map Vmarea.vmaId).Nodup) (ha : a ∈ l) (f : Vmarea → Vmarea) :
    (editArea a.vmaId f l).Perm (f a :: l.filter (·.vmaId ≠ a.vmaId)) := by
  have h := (perm_filter hnd ha).map fun b => if b.vmaId = a.vmaId then f b else b
  rw [map_cons, if_pos rfl] at h
  have hrest : (l.filter (·.vmaId ≠ a.vmaId)).map
      (fun b => if b.vmaId = a.vmaId then f b else b) = l.filter (·.vmaId ≠ a.vmaId) :=
    editArea_of_not_mem fun b hb => by simpa using (mem_filter.mp hb).2
  rwa [hrest] at h

end Lists

end SystemsProjects.AreaMaps
