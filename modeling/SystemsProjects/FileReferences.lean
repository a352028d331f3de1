import Mathlib.Data.List.Basic
import Mathlib.Order.Nat
import SystemsProjects.VfsCalls
import SystemsProjects.VfsFrames

/-!
# The reference counts of open files

A file counts the descriptor slots, over all processes, that point to it. Inside a call
there may be references besides those of the slots; the condition on the files carries the
list of them, and each function says what it does to the list. Between calls the list is
empty. The calls that move along a file are followed for any such condition.
-/
namespace SystemsProjects.FileReferences
open List Option
open Function CallOutcomes VfsState RamfsOperations PathCalls FileCalls VfsCalls VfsFrames
  GuardedRuns

/-! ### Descriptor slots -/

/-- The number of descriptor slots that point to a file. -/
def slots (s : VState) (f : ℕ) : ℕ := (s.procs.flatMap VProc.pFiles).count (some f)

/-- Slot `fd` of process `cur` holds `x`. -/
def SlotIs (s : VState) (cur fd : ℕ) (x : Option ℕ) : Prop :=
  ∃ p, s.procs[cur]? = some p ∧ p.pFiles[fd]? = some x

/-- The state after `setSlot`. -/
def withSlot (s : VState) (cur fd : ℕ) (x : Option ℕ) : VState :=
  { s with procs := s.procs.modify cur fun p => { p with pFiles := p.pFiles.set fd x } }

theorem setSlot_eq (s : VState) (cur fd : ℕ) (x : Option ℕ) :
    setSlot cur fd x s = .ok ((), withSlot s cur fd x) := rfl

theorem setFile_self {s : VState} {f : ℕ} {x : File} (h : s.files f = some x) :
    s.setFile f (some x) = s := by
  unfold VState.setFile
  rw [← h, update_eq_self]

theorem setFile_setFile (s : VState) (f : ℕ) (x y : Option File) :
    (s.setFile f x).setFile f y = s.setFile f y := by
  unfold VState.setFile
  simp only [update_idem]

theorem countP_flatMap_modify {α β : Type} (g : α → List β) (k : α → α) (q : β → Bool)
    {l : List α} {i : ℕ} {a : α} (h : l[i]? = some a) :
    ((l.modify i k).flatMap g).countP q + (g a).countP q
      = (l.flatMap g).countP q + (g (k a)).countP q := by
  induction l generalizing i with
  | nil => simp at h
  | cons c l ih =>
    cases i with
    | zero =>
      simp only [getElem?_cons_zero, some.injEq] at h
      subst h
      simp only [modify_zero_cons, flatMap_cons, countP_append]
      omega
    | succ i =>
      have hi := ih (by simpa using h)
      simp only [modify_succ_cons, flatMap_cons, countP_append]
      omega

theorem countP_modify {α : Type} (q : α → Bool) (k : α → α) {l : List α} {i : ℕ} {a : α}
    (h : l[i]? = some a) :
    (l.modify i k).countP q+(if q a then 1 else 0) = l.countP q+if q (k a) then 1 else 0 := by
  simpa [countP_singleton] using countP_flatMap_modify (fun a => [a]) k q h

theorem count_set_add {β : Type} [BEq β] [LawfulBEq β] [DecidableEq β] (a b c : β)
    {l : List β} {i : ℕ} (h : l[i]? = some c) :
    (l.set i a).count b + (if c = b then 1 else 0) = l.count b + (if a = b then 1 else 0) := by
  rw [set_eq_modify]
  simpa only [count, beq_iff_eq] using countP_modify (· == b) (fun _ => a) h

variable {x y : Option ℕ} {s : VState} {cur fd : ℕ}

theorem slots_withSlot (h : SlotIs s cur fd x) (f : ℕ) :
    slots (withSlot s cur fd y) f + (if x = some f then 1 else 0)
      = slots s f + (if y = some f then 1 else 0) := by
  obtain ⟨p, hp, hx⟩ := h
  have h₁ := countP_flatMap_modify VProc.pFiles
    (fun p => { p with pFiles := p.pFiles.set fd y }) (· == some f) hp
  have h₂ := count_set_add y (some f) x hx
  simp only [slots, withSlot, count] at *
  omega

theorem slotIs_withSlot (h : SlotIs s cur fd x) : SlotIs (withSlot s cur fd y) cur fd y := by
  obtain ⟨p, hp, hx⟩ := h
  have hlt := (List.getElem?_eq_some_iff.mp hx).choose
  exact ⟨{ p with pFiles := p.pFiles.set fd y }, by simp [withSlot, hp], by simp [hlt]⟩

theorem withSlot_self (h : SlotIs s cur fd x) : withSlot s cur fd x = s := by
  obtain ⟨p, hp, hx⟩ := h
  have he : (s.procs.modify cur fun p => { p with pFiles := p.pFiles.set fd x }) = s.procs := by
    apply ext_getElem?
    intro i
    rw [getElem?_modify]
    by_cases hi : cur = i
    · subst hi
      have hset : p.pFiles.set fd x = p.pFiles := by
        apply ext_getElem?
        intro j
        rw [getElem?_set]
        split
        · subst_vars
          rw [hx, if_pos (List.getElem?_eq_some_iff.mp hx).choose]
        · rfl
      simp [hp, hset]
    · simp [hi]
  unfold withSlot
  rw [he]

theorem withSlot_withSlot (s : VState) (cur fd : ℕ) (x y : Option ℕ) :
    withSlot (withSlot s cur fd x) cur fd y = withSlot s cur fd y := by
  unfold withSlot
  simp [modify_modify_eq, Function.comp_def]

theorem SlotIs.unique (hx : SlotIs s cur fd x) (hy : SlotIs s cur fd y) : x = y := by
  obtain ⟨p, hp, hx⟩ := hx
  obtain ⟨q, hq, hy⟩ := hy
  rw [hp] at hq
  cases hq
  rw [hx] at hy
  exact some.inj hy

theorem SlotIs.congr {t : VState} (h : SlotIs s cur fd x) (hp : t.procs = s.procs) :
    SlotIs t cur fd x := by
  unfold SlotIs
  rw [hp]
  exact h

/-! ### Files and the references to them -/

/-- The files of a state in which a call holds the references `l` besides those of the
slots. A file is there as long as something points to it; the vnode it was opened with has
been put once if it is gone and never if it is there. -/
structure FilesOk (l : List ℕ) (s : VState) : Prop where
  sized : ∀ p ∈ s.procs, p.pFiles.length = NFILES
  counted : ∀ f x, s.files f = some x → x.fRefcount = slots s f+l.count f
  present : ∀ f, (s.files f).isSome ↔ 0 < slots s f+l.count f
  numbered : ∀ f, s.nextFile ≤ f → s.files f = none
  valued : ∀ f x, s.files f = some x → ∃ v, x.fVnode = some v ∧ (f, v) ∈ s.opened
  logged : ∀ f v, (f, v) ∈ s.opened → f < s.nextFile ∧
    s.closed.count (f, v) = if (s.files f).isSome then 0 else 1
  once : ∀ f v w, (f, v) ∈ s.opened → (f, w) ∈ s.opened → v = w
  known : ∀ q ∈ s.closed, q ∈ s.opened

variable {s t : VState} {l : List ℕ} {f : ℕ}

variable {l' : List ℕ}

/-- The files stay and each keeps the number of its references, wherever they are held. -/
theorem FilesOk.moved (h : FilesOk l s) (hz : ∀ p ∈ t.procs, p.pFiles.length = NFILES)
    (hs : ∀ g, slots t g+l'.count g = slots s g+l.count g) (hf : t.files = s.files)
    (hn : s.nextFile ≤ t.nextFile) (ho : t.opened = s.opened) (hc : t.closed = s.closed) :
    FilesOk l' t where
  sized := hz
  counted f x hx := by
    rw [hs]
    exact h.counted f x (hf ▸ hx)
  present f := by
    rw [hs, hf]
    exact h.present f
  numbered f hle := hf ▸ h.numbered f (hn.trans hle)
  valued f x hx := ho ▸ h.valued f x (hf ▸ hx)
  logged f v hv := by
    rw [hf, hc]
    exact ⟨(h.logged f v (ho ▸ hv)).1.trans_le hn, (h.logged f v (ho ▸ hv)).2⟩
  once f v w hv hw := h.once f v w (ho ▸ hv) (ho ▸ hw)
  known q hq := ho ▸ h.known q (hc ▸ hq)

theorem FilesOk.congr (h : FilesOk l s) (hp : t.procs = s.procs) (hf : t.files = s.files)
    (hn : s.nextFile ≤ t.nextFile) (ho : t.opened = s.opened) (hc : t.closed = s.closed) :
    FilesOk l t := by
  apply h.moved _ _ hf hn ho hc
  · rw [hp]
    exact h.sized
  · intro g
    rw [slots, slots, hp]

theorem FilesOk.same (h : FilesOk l s) (hs : SameFiles s t) : FilesOk l t :=
  h.congr hs.procs hs.files hs.nextFile.ge hs.opened hs.closed

instance : OfFiles (FilesOk l) := ⟨fun hs h => h.same hs⟩

theorem FilesOk.enter (h : FilesOk l s) : FilesOk l s.enter := h.congr rfl rfl le_rfl rfl rfl

theorem sized_withSlot (h : ∀ p ∈ s.procs, p.pFiles.length = NFILES) (cur fd : ℕ)
    (x : Option ℕ) : ∀ p ∈ (withSlot s cur fd x).procs, p.pFiles.length = NFILES := by
  intro p hp
  obtain ⟨i, hi⟩ := mem_iff_getElem?.mp hp
  simp only [withSlot, getElem?_modify] at hi
  cases hq : s.procs[i]? with
  | none => simp [hq] at hi
  | some q =>
    have hlen := h q (mem_of_getElem? hq)
    rw [hq] at hi
    cases hi
    split
    · simpa using hlen
    · exact hlen

theorem FilesOk.clearSlot (h : FilesOk l s) (hs : SlotIs s cur fd (some f)) :
    FilesOk (f :: l) (withSlot s cur fd none) := by
  apply h.moved (sized_withSlot h.sized cur fd none) _ rfl le_rfl rfl rfl
  intro g
  have hg := slots_withSlot (y := none) hs g
  simp only [reduceCtorEq, if_false, some.injEq] at hg
  simp only [count_cons, beq_iff_eq]
  omega

theorem FilesOk.fillSlot (h : FilesOk (f :: l) s) (hs : SlotIs s cur fd none) :
    FilesOk l (withSlot s cur fd (some f)) := by
  apply h.moved (sized_withSlot h.sized cur fd _) _ rfl le_rfl rfl rfl
  intro g
  have hg := slots_withSlot (y := some f) hs g
  simp only [reduceCtorEq, if_false, some.injEq] at hg
  simp only [count_cons, beq_iff_eq]
  omega

structure FileOk (l : List ℕ) (s : VState) (f : ℕ) : Prop where
  counted : ∀ x, s.files f = some x → x.fRefcount = slots s f+l.count f
  present : (s.files f).isSome ↔ 0 < slots s f+l.count f
  numbered : s.nextFile ≤ f → s.files f = none
  valued : ∀ x, s.files f = some x → ∃ v, x.fVnode = some v ∧ (f, v) ∈ s.opened
  logged : ∀ v, (f, v) ∈ s.opened → f < s.nextFile ∧
    s.closed.count (f, v) = if (s.files f).isSome then 0 else 1
  once : ∀ v w, (f, v) ∈ s.opened → (f, w) ∈ s.opened → v = w
  known : ∀ v, (f, v) ∈ s.closed → (f, v) ∈ s.opened

/-- From `s` to `t` nothing has changed that concerns files other than `f`. -/
structure OthersSame (f : ℕ) (l l' : List ℕ) (s t : VState) : Prop where
  procs : t.procs = s.procs
  nextFile : t.nextFile = s.nextFile
  files : ∀ g, g ≠ f → t.files g = s.files g
  count : ∀ g, g ≠ f → l'.count g = l.count g
  opened : ∀ g v, g ≠ f → ((g, v) ∈ t.opened ↔ (g, v) ∈ s.opened)
  closed : ∀ g v, g ≠ f → t.closed.count (g, v) = s.closed.count (g, v)

theorem FilesOk.change (h : FilesOk l s) (hs : OthersSame f l l' s t) (hf : FileOk l' t f) :
    FilesOk l' t := by
  have hslots : ∀ g, slots t g = slots s g := fun g => by rw [slots, slots, hs.procs]
  have hfile : ∀ g, FileOk l' t g := by
    intro g
    by_cases hg : g = f
    · rw [hg]
      exact hf
    constructor
    · intro x hx
      rw [hslots, hs.count g hg]
      exact h.counted g x (hs.files g hg ▸ hx)
    · rw [hslots, hs.count g hg, hs.files g hg]
      exact h.present g
    · intro hle
      rw [hs.files g hg]
      exact h.numbered g (hs.nextFile ▸ hle)
    · intro x hx
      obtain ⟨v, hv, hmem⟩ := h.valued g x (hs.files g hg ▸ hx)
      exact ⟨v, hv, (hs.opened g v hg).mpr hmem⟩
    · intro v hv
      rw [hs.nextFile, hs.closed g v hg, hs.files g hg]
      exact h.logged g v ((hs.opened g v hg).mp hv)
    · intro v w hv hw
      exact h.once g v w ((hs.opened g v hg).mp hv) ((hs.opened g w hg).mp hw)
    · intro v hv
      rw [← count_pos_iff, hs.closed g v hg, count_pos_iff] at hv
      exact (hs.opened g v hg).mpr (h.known _ hv)
  exact ⟨hs.procs ▸ h.sized, fun g => (hfile g).counted, fun g => (hfile g).present,
    fun g => (hfile g).numbered, fun g => (hfile g).valued, fun g => (hfile g).logged,
    fun g => (hfile g).once, fun q => (hfile q.1).known q.2⟩

variable {x : File}

/-- A new value of a file that keeps its vnode, with the references that fit its count. -/
theorem FilesOk.set {y : File} (h : FilesOk l s) (hx : s.files f = some x)
    (hv : y.fVnode = x.fVnode) (hy : y.fRefcount = slots s f+l'.count f) (hpos : 0 < y.fRefcount)
    (hl : ∀ g, g ≠ f → l'.count g = l.count g) :
    FilesOk l' (s.setFile f (some y)) := by
  have hself : (s.setFile f (some y)).files f = some y := update_self ..
  refine h.change (f := f) ⟨rfl, rfl, fun g hg => update_of_ne hg _ _, hl,
    fun _ _ _ => Iff.rfl, fun _ _ _ => rfl⟩ ?_
  constructor
  · intro z hz
    rw [hself] at hz
    cases hz
    exact hy
  · rw [hself]
    exact iff_of_true rfl (hy ▸ hpos)
  · intro hle
    rw [h.numbered f hle] at hx
    cases hx
  · intro z hz
    rw [hself] at hz
    cases hz
    rw [hv]
    exact h.valued f x hx
  · intro v hm
    have hlog := h.logged f v hm
    rw [hx] at hlog
    rw [hself]
    exact hlog
  · exact h.once f
  · exact fun v => h.known (f, v)

variable {v : ℕ}

/-- The last reference goes: the file is freed after its vnode has been put. -/
theorem FilesOk.free (h : FilesOk (f :: l) s) (hx : s.files f = some x) (hone : x.fRefcount = 1)
    (hv : x.fVnode = some v) (hp : t.procs = s.procs) (hf : t.files = s.files)
    (hn : t.nextFile = s.nextFile) (ho : t.opened = s.opened) (hc : t.closed = (f, v) :: s.closed) :
    FilesOk l (t.setFile f none) := by
  have hcount := h.counted f x hx
  rw [hone, count_cons_self] at hcount
  obtain ⟨w, hw, hopen⟩ := h.valued f x hx
  obtain rfl : v = w := some.inj (hv.symm.trans hw)
  have hself : (t.setFile f none).files f = none := update_self ..
  have hother : ∀ g, g ≠ f → (t.setFile f none).files g = s.files g := by
    intro g hg
    rw [← hf]
    exact update_of_ne hg _ _
  have hslots : slots (t.setFile f none) f = slots s f := by
    rw [slots, slots, ← hp]
    rfl
  have hclosed : (t.setFile f none).closed = (f, v) :: s.closed := hc
  have hopened : (t.setFile f none).opened = s.opened := ho
  refine h.change ⟨hp, hn, hother, fun g hg => (count_cons_of_ne (Ne.symm hg)).symm,
    fun g w _ => by rw [hopened], fun g w hg => ?_⟩ ?_
  · rw [hclosed, count_cons_of_ne (by simpa using fun h => absurd h.symm hg)]
  constructor
  · intro z hz
    rw [hself] at hz
    cases hz
  · rw [hself, hslots]
    exact iff_of_false (by simp) (by omega)
  · exact fun _ => hself
  · intro z hz
    rw [hself] at hz
    cases hz
  · intro w hw
    rw [hopened] at hw
    obtain rfl := h.once f v w hopen hw
    obtain ⟨hlt, hlog⟩ := h.logged f v hopen
    rw [hx] at hlog
    rw [hself, hclosed, count_cons_self, hlog]
    exact ⟨hn.symm ▸ hlt, rfl⟩
  · rw [hopened]
    exact h.once f
  · intro w hw
    rw [hclosed] at hw
    rw [hopened]
    rcases mem_cons.mp hw with he | hw
    · rw [he]
      exact hopen
    · exact h.known (f, w) hw

theorem FilesOk.add (h : FilesOk l s) (hlt : f < s.nextFile) (hnone : s.files f = none)
    (hnew : ∀ w, (f, w) ∉ s.opened) (hone : x.fRefcount = 1) (hv : x.fVnode = some v) :
    FilesOk (f :: l) { s.setFile f (some x) with opened := (f, v) :: s.opened } := by
  have hzero : slots s f+l.count f = 0 := by
    refine Nat.eq_zero_of_not_pos fun hpos => ?_
    have hsome := (h.present f).mpr hpos
    rw [hnone] at hsome
    cases hsome
  have hself : update s.files f (some x) f = some x := update_self ..
  have hopen : ∀ w, (f, w) ∈ (f, v) :: s.opened → w = v := by
    intro w hw
    rcases mem_cons.mp hw with he | hw
    · exact (Prod.mk.inj he).2
    · exact absurd hw (hnew w)
  have hclosed : ∀ w, (f, w) ∉ s.closed := fun w hw => hnew w (h.known _ hw)
  refine h.change (f := f) ⟨rfl, rfl, fun g hg => update_of_ne hg _ _,
    fun g hg => count_cons_of_ne (Ne.symm hg), fun g w hg => ?_, fun _ _ _ => rfl⟩ ?_
  · exact mem_cons.trans (or_iff_right fun he => hg (Prod.mk.inj he).1)
  constructor
  · intro z hz
    obtain rfl : x = z := some.inj (hself.symm.trans hz)
    change x.fRefcount = slots s f+_
    rw [count_cons_self]
    omega
  · rw [count_cons_self]
    exact iff_of_true (congrArg isSome hself) (Nat.succ_pos _)
  · exact fun hle => absurd hlt (not_lt.mpr hle)
  · intro z hz
    obtain rfl : x = z := some.inj (hself.symm.trans hz)
    exact ⟨v, hv, mem_cons_self⟩
  · intro w _
    refine ⟨hlt, ?_⟩
    change s.closed.count (f, w) = if (update s.files f (some x) f).isSome then 0 else 1
    rw [hself]
    exact count_eq_zero.mpr (hclosed w)
  · intro w w' hw hw'
    rw [hopen w hw, hopen w' hw']
  · exact fun w hw => absurd hw (hclosed w)

/-! ### The functions of `fs/file.c` -/

theorem fileAt_eq (h : s.files f = some x) : fileAt f s = .ok (x, s) := by
  unfold fileAt
  rw [h]

theorem fref_spec (h : FilesOk l s) : Gives (fref f s) fun _ t =>
      FilesOk (f :: l) t ∧ t.procs = s.procs := by
  unfold fref
  cases hx : s.files f with
  | none =>
    rw [bind_error (by simp [fileAt, hx] : fileAt f s = stop .panic s)]
    trivial
  | some x =>
    rw [bind_ok (fileAt_eq hx)]
    split
    · refine ⟨h.set hx rfl ?_ (Nat.succ_pos _) ?_, rfl⟩
      · have hc := h.counted f x hx
        simp only [count_cons_self]
        omega
      · intro g hg
        rw [count_cons_of_ne (Ne.symm hg)]
    · trivial

theorem fput_spec (h : FilesOk (f :: l) s) :
    Gives (fput f s) fun _ t => FilesOk l t ∧ t.procs = s.procs := by
  unfold fput
  have hsome : (s.files f).isSome := by
    rw [h.present f, count_cons_self]
    omega
  obtain ⟨x, hx⟩ := isSome_iff_exists.mp hsome
  have hc := h.counted f x hx
  rw [count_cons_self] at hc
  rw [bind_ok (fileAt_eq hx)]
  split
  · split
    next hone =>
      obtain ⟨v, hv, -⟩ := h.valued f x hx
      rw [hv]
      apply Ends.bind (Q := fun _ u => ∃ t, SameFiles s t ∧
        u = { t with closed := (f, v) :: t.closed })
      · exact Ends.bind (keeps_dropRef (I := SameFiles s) v s (.refl s)) fun _ t ht => ⟨t, ht, rfl⟩
      · rintro _ _ ⟨t, ht, rfl⟩
        refine ⟨h.free hx hone hv ht.procs ht.files ht.nextFile ht.opened ?_, ht.procs⟩
        rw [← ht.closed]
    next hone =>
      refine ⟨h.set hx rfl ?_ ?_ ?_, rfl⟩
      · change x.fRefcount-1 = _
        omega
      · change 0 < x.fRefcount-1
        omega
      · intro g hg
        rw [count_cons_of_ne (Ne.symm hg)]
  · trivial

theorem fput_opening (hx : s.files f = some x) (hm : x.fMode < 8) (hp : -1 ≤ x.fPos)
    (hone : x.fRefcount = 1) (hv : x.fVnode = none) :
    fput f s = .ok ((), s.setFile f none) := by
  unfold fput
  rw [bind_ok (fileAt_eq hx), if_pos ⟨hm, hp, by omega, .inl hone⟩, if_pos hone, hv]
  rfl

/-- The state in which `fget(-1)` has allocated a file. -/
def opening (s : VState) : VState :=
  { s.setFile s.nextFile (some ⟨0, 0, 1, none⟩) with nextFile := s.nextFile+1 }

theorem fget_new (cur : ℕ) (s : VState) : fget cur (-1) s =
    if s.memory then .ok (some s.nextFile, opening s) else .ok (none, s) := by
  rw [fget_eq, if_pos rfl]
  by_cases hm : s.memory
  · rw [if_pos hm, bind_ok (by simp only [newFile, if_pos hm]; rfl), elim_some]
    simp [run_bind, fref, fileAt, putFile, VState.setFile, opening]
    rfl
  · rw [if_neg hm, bind_ok (by simp only [newFile, if_neg hm]; rfl)]
    rfl

theorem slotAt_spec (cur : ℕ) (fd : ℤ) (hz : ∀ p ∈ s.procs, p.pFiles.length = NFILES) :
    Gives (slotAt cur fd s) fun r t => t = s ∧
      (0 ≤ fd → fd < NFILES → SlotIs s cur fd.toNat r) ∧
      (r ≠ none → 0 ≤ fd ∧ fd < NFILES) := by
  unfold slotAt
  split
  next h =>
    refine ⟨rfl, ?_, fun h => absurd rfl h⟩
    intro h0 h1
    omega
  next h =>
    cases hp : s.procs[cur]? with
    | none =>
      rw [bind_error (by simp [procAt, hp] : procAt cur s = stop .panic s)]
      trivial
    | some p =>
      rw [bind_ok (by simp [procAt, hp] : procAt cur s = .ok (p, s))]
      refine ⟨rfl, ?_, ?_⟩
      · intro h0 h1
        have hlen := hz p (mem_of_getElem? hp)
        have hlt : fd.toNat < p.pFiles.length := by omega
        exact ⟨p, hp, by simp [hlt]⟩
      · intro _
        omega

theorem fget_spec (h : FilesOk l s) (cur : ℕ) (fd : ℤ) (hfd : fd ≠ -1) :
    Gives (fget cur fd s) fun r t => match r with
      | none => t = s ∧ (0 ≤ fd → fd < NFILES → SlotIs s cur fd.toNat none)
      | some f => FilesOk (f :: l) t ∧ t.procs = s.procs ∧ SlotIs s cur fd.toNat (some f) := by
  unfold fget
  rw [if_neg hfd]
  refine (slotAt_spec cur fd h.sized).bind ?_
  rintro r t ⟨rfl, hslot, hrange⟩
  cases r with
  | none => exact ⟨rfl, hslot⟩
  | some f =>
    have hr := hrange (by simp)
    refine (fref_spec h).bind fun _ u hu => ?_
    exact ⟨hu.1, hu.2, hslot hr.1 hr.2⟩

/-! ### The calls -/

theorem keeps_vnodeOf (I : VState → Prop) (x : File) : Keeps I (vnodeOf x) := by
  unfold vnodeOf
  split
  · exact keeps_pure _
  · exact keeps_stop _ _ _

theorem keeps_seekTo (I : VState → Prop) (x : File) (offset : ℤ) (whence : ℕ) :
    Keeps I (seekTo x offset whence) := by
  unfold seekTo
  split
  · exact keeps_pure _
  · exact keeps_pure _
  · exact (keeps_vnodeOf I x).bind fun v => (keeps_vnodeAt I v).ret

/-- A call on a descriptor that gets a file of its own and frees it again. -/
theorem FilesOk.opened_and_freed (h : FilesOk l s) :
    FilesOk l ((opening s).setFile s.nextFile none) := by
  refine h.congr rfl ?_ (Nat.le_succ _) rfl rfl
  funext g
  by_cases hg : g = s.nextFile
  · subst hg
    simp [VState.setFile, h.numbered]
  · simp [VState.setFile, opening, hg]

theorem opening_file (s : VState) : (opening s).files s.nextFile = some ⟨0, 0, 1, none⟩ :=
  update_self ..

/-! ### Calls that use a file and give it back -/

/-- What a call can make of a file that it has found: another count of references, a position
that is not negative, or the place behind an entry of a directory. -/
inductive Turned (s : VState) (x : File) : File → Prop
  | counted (n : ℕ) : Turned s x { x with fRefcount := n }
  | sought {n : ℤ} : 0 ≤ n → Turned s x { x with fPos := n }
  | passed {v : ℕ} {r : ℤ × Option Dirent} : ramfsReaddir v x.fPos s = .ok (r, s) → 0 < r.1 →
      Turned s x { x with fPos := addInt x.fPos r.1 }

theorem Turned.fVnode {s : VState} {x y : File} (h : Turned s x y) : y.fVnode = x.fVnode := by
  cases h <;> rfl

theorem Turned.fMode {s : VState} {x y : File} (h : Turned s x y) : y.fMode = x.fMode := by
  cases h <;> rfl

/-- The condition `I`, which may depend on the references that a call has taken, is kept by
what calls do to the file of a descriptor. -/
structure FileRules (I : List ℕ → VState → Prop) : Prop where
  fref : ∀ {l s} f, I l s → Gives (fref f s) fun _ t => I (f :: l) t
  fput : ∀ {l s f}, I (f :: l) s → Gives (fput f s) fun _ t => I l t
  file : ∀ {l s f x y}, I l s → s.files f = some x → Turned s x y →
    y.fRefcount = x.fRefcount → I l (s.setFile f (some y))
  write : ∀ l v pos buf, Keeps (I l) (ramfsWrite v pos buf)
  freed : ∀ {l s}, I l s → I l ((opening s).setFile s.nextFile none)

theorem fileAt_spec (f : ℕ) (s : VState) :
    Gives (fileAt f s) fun x t => s = t ∧ s.files f = some x := by
  unfold fileAt
  split
  next x hx => exact ⟨rfl, hx⟩
  · trivial

theorem keeps_slotAt (I : VState → Prop) (cur : ℕ) (fd : ℤ) : Keeps I (slotAt cur fd) :=
  keeps_ite (keeps_pure _) ((keeps_procAt I cur).ret)

namespace FileRules

variable {I : List ℕ → VState → Prop} (R : FileRules I)
include R

theorem put {α : Type} (h : I (f :: l) s) (a : α) :
    Gives ((do
      FileCalls.fput f
      return a) s) fun _ t => I l t :=
  (R.fput h).bind fun _ _ ht => ends_pure ht

/-- A call takes the file of its descriptor and goes on with it. A new file, which it gets for
descriptor -1, it gives back at once. -/
theorem used {α : Type} (h : I l s) (cur : ℕ) {fd : ℤ} {k : Option ℕ → Vfs α} {a : α}
    {next : ℕ → File → Vfs α} (hnone : k none = pure a)
    (hsome : ∀ f, k (some f) = fileAt f >>= next f)
    (hnew : fd = -1 → ∀ f, ∃ b, next f ⟨0, 0, 1, none⟩ = do
      FileCalls.fput f
      return b)
    (hnext : ∀ f x t, I (f :: l) t → t.files f = some x →
      Gives (next f x t) fun _ u => I l u) :
    Gives ((fget cur fd >>= k) s) fun _ t => I l t := by
  by_cases hfd : fd = -1
  · obtain ⟨b, hb⟩ := hnew hfd s.nextFile
    subst hfd
    by_cases hm : s.memory
    · rw [bind_ok ((fget_new cur s).trans (if_pos hm)), hsome,
        bind_ok (fileAt_eq (opening_file s)), hb,
        bind_ok (fput_opening (opening_file s) (by decide) (by decide) rfl rfl)]
      exact R.freed h
    · rw [bind_ok ((fget_new cur s).trans (if_neg hm)), hnone]
      exact h
  · have hget : Gives (fget cur fd s) fun r t => r.elim (I l t) fun f => I (f :: l) t := by
      rw [fget_eq, if_neg hfd]
      refine (keeps_slotAt (I l) cur fd s h).bind fun r t ht => ?_
      cases r with
      | none => exact ht
      | some f => exact (R.fref f ht).bind fun _ _ hu => hu
    refine hget.bind fun r t ht => ?_
    cases r with
    | none =>
      rw [hnone]
      exact ht
    | some f =>
      rw [hsome]
      refine (fileAt_spec f t).bind ?_
      rintro x _ ⟨rfl, hx⟩
      exact hnext f x t ht hx

theorem doLseek (l : List ℕ) (cur : ℕ) (fd offset : ℤ) (whence : ℕ) :
    Keeps (I l) (doLseek cur fd offset whence) := by
  refine keeps_ite (keeps_pure _) fun s h => ?_
  split
  · exact h
  refine R.used h cur rfl (fun _ => rfl) (fun hfd => by omega) fun f x t ht hx => ?_
  refine (keeps_seekTo (Eq t) x offset whence t rfl).bind ?_
  rintro n _ rfl
  split
  · exact R.put ht _
  next hn =>
    rw [bind_ok (rfl : putFile f _ _ = .ok ((), _))]
    exact R.put (R.file ht hx (.sought (Int.not_lt.mp hn)) rfl) _

theorem doRead (l : List ℕ) (cur : ℕ) (fd : ℤ) (nbytes : ℕ) (device : Option ℤ) :
    Keeps (I l) (doRead cur fd nbytes device) := by
  intro s h
  refine R.used h cur rfl (fun _ => rfl) (fun _ _ => ⟨_, rfl⟩) fun f x t ht _ => ?_
  split
  · exact R.put ht _
  refine (keeps_vnodeOf _ x t ht).bind fun v t ht => ?_
  refine (keeps_vnodeAt _ v t ht).bind fun vn t ht => ?_
  split
  · exact R.put ht _
  refine (keeps_vnRead _ v _ nbytes device t ht).bind fun r t ht => ?_
  exact (R.doLseek _ cur fd r.1 1 t ht).bind fun _ _ ht => R.put ht _

theorem doWrite (l : List ℕ) (cur : ℕ) (fd : ℤ) (buf : List UInt8) (device : Option ℤ) :
    Keeps (I l) (doWrite cur fd buf device) := by
  intro s h
  refine R.used h cur rfl (fun _ => rfl) (fun _ _ => ⟨_, rfl⟩) fun f x t ht _ => ?_
  split
  · exact R.put ht _
  have happend : Keeps (I (f :: l)) (seekToAppend cur fd x) :=
    keeps_ite (R.doLseek _ cur fd 0 2).ret (keeps_pure _)
  refine (happend t ht).bind fun _ t ht => (fileAt_spec f t).bind ?_
  rintro y _ ⟨rfl, -⟩
  refine (keeps_vnodeOf _ y t ht).bind fun v t ht => ?_
  refine (vnWrite_keeps (R.write _) v _ buf device t ht).bind fun n t ht => ?_
  refine (keeps_vnodeAt _ v t ht).bind fun vn t ht => ?_
  split
  · exact (R.doLseek _ cur fd n 1 t ht).bind fun _ _ ht => R.put ht _
  · trivial

theorem doGetdent (l : List ℕ) (cur : ℕ) (fd : ℤ) : Keeps (I l) (doGetdent cur fd) := by
  intro s h
  unfold FileCalls.doGetdent
  split
  · exact h
  refine R.used h cur rfl (fun _ => rfl) (fun hfd => by omega) fun f x t ht hx => ?_
  refine (keeps_vnodeOf (Eq t) x t rfl).bind ?_
  rintro v _ rfl
  refine (keeps_vnodeAt (Eq t) v t rfl).bind ?_
  rintro vn _ rfl
  split
  · exact R.put ht _
  refine ((keeps_ramfsReaddir (Eq t) v _ t rfl).and (ends_self _)).bind ?_
  rintro n _ ⟨rfl, hread⟩
  split
  next hpos =>
    rw [bind_ok (rfl : putFile f _ _ = .ok ((), _))]
    exact R.put (R.file ht hx (.passed hread hpos) rfl) _
  · exact R.put ht _

end FileRules

theorem filesOk_rules : FileRules FilesOk where
  fref _ h := (fref_spec h).imp fun _ _ ht => ht.1
  fput h := (fput_spec h).imp fun _ _ ht => ht.1
  file h hx hy hn := by
    have hpos := (h.present _).mp (by rw [hx]; rfl)
    have hc := hn.trans (h.counted _ _ hx)
    exact h.set hx hy.fVnode hc (hc ▸ hpos) fun _ _ => rfl
  write _ := keeps_ramfsWrite
  freed h := h.opened_and_freed

theorem doClose_spec (h : FilesOk l s) (cur : ℕ) (fd : ℤ) :
    Gives (doClose cur fd s) fun _ t => FilesOk l t ∧
      ∀ f, SlotIs s cur fd.toNat (some f) → 0 ≤ fd → fd < NFILES →
        SlotIs t cur fd.toNat none := by
  unfold doClose
  split
  next hr =>
    refine ⟨h, fun f hf h0 h1 => ?_⟩
    omega
  next hr =>
    refine (fget_spec h cur fd (by omega)).bind fun r t hrt => ?_
    cases r with
    | none =>
      obtain ⟨rfl, hnone⟩ := hrt
      refine ⟨h, fun f hf h0 h1 => ?_⟩
      have := (hnone h0 h1).unique hf
      cases this
    | some f =>
      obtain ⟨hok, hp, hslot⟩ := hrt
      refine (fput_spec hok).bind fun _ u hu => ?_
      rw [bind_ok (setSlot_eq u cur fd.toNat none)]
      have hslot' : SlotIs u cur fd.toNat (some f) := hslot.congr (hu.2.trans hp)
      refine (fput_spec (hu.1.clearSlot hslot')).bind fun _ w hw => ?_
      exact ⟨hw.1, fun _ _ _ _ => (slotIs_withSlot hslot').congr hw.2⟩

theorem freeTarget_spec (h : FilesOk (f :: l) s) (cur : ℕ) {ofd nfd : ℤ} (h0 : 0 ≤ nfd)
    (h1 : nfd < NFILES) (hf : SlotIs s cur ofd.toNat (some f)) :
    Gives (freeTarget cur ofd nfd f s) fun _ t =>
      FilesOk l (withSlot t cur nfd.toNat (some f)) := by
  unfold freeTarget
  split
  next he =>
    subst he
    refine (fput_spec h).imp fun _ t ht => ?_
    rw [withSlot_self (hf.congr ht.2)]
    exact ht.1
  next he =>
    refine (slotAt_spec cur nfd h.sized).bind ?_
    rintro r _ ⟨rfl, hslot, -⟩
    have hnew := hslot h0 h1
    split
    next hr =>
      subst hr
      exact h.fillSlot hnew
    next hr =>
      obtain ⟨g, rfl⟩ := ne_none_iff_exists'.mp hr
      refine (doClose_spec h cur nfd).bind fun _ t ht => ends_pure ?_
      exact ht.1.fillSlot (ht.2 g hnew h0 h1)

theorem doDup2_spec (h : FilesOk l s) (cur : ℕ) (ofd nfd : ℤ) :
    Gives (doDup2 cur ofd nfd s) fun _ t => FilesOk l t := by
  unfold doDup2
  split
  · exact h
  split
  · exact h
  refine (fget_spec h cur ofd (by omega)).bind fun r t hrt => ?_
  cases r with
  | none =>
    obtain ⟨rfl, -⟩ := hrt
    exact h
  | some f =>
    obtain ⟨hok, hp, hslot⟩ := hrt
    refine (freeTarget_spec hok cur (by omega) (by omega) (hslot.congr hp)).bind
      fun _ u hu => ?_
    rw [bind_ok (setSlot_eq u cur nfd.toNat (some f))]
    exact hu

theorem getEmptyFd_slot {p : VProc} (hp : s.procs[cur]? = some p) (h : getEmptyFd p = some fd) :
    SlotIs s cur fd none := by
  obtain ⟨hlt, hnone, -⟩ := findIdx?_eq_some_iff_getElem.mp h
  refine ⟨p, hp, ?_⟩
  rw [getElem?_eq_getElem hlt]
  simpa using hnone

theorem procAt_spec (cur : ℕ) (s : VState) :
    Gives (procAt cur s) fun p t => s = t ∧ s.procs[cur]? = some p := by
  unfold procAt
  split
  next p hp => exact ⟨rfl, hp⟩
  · trivial

theorem doDup_spec (h : FilesOk l s) (cur : ℕ) (fd : ℤ) :
    Gives (doDup cur fd s) fun _ t => FilesOk l t := by
  unfold doDup
  split
  · exact h
  refine (fget_spec h cur fd (by omega)).bind fun r t hrt => ?_
  cases r with
  | none =>
    obtain ⟨rfl, -⟩ := hrt
    exact h
  | some f =>
    refine (procAt_spec cur t).bind ?_
    rintro p _ ⟨rfl, hp⟩
    cases hfd : getEmptyFd p with
    | none => exact (fput_spec hrt.1).bind fun _ u hu => ends_pure hu.1
    | some newFd =>
      dsimp only
      rw [bind_ok (setSlot_eq _ cur newFd (some f))]
      exact hrt.1.fillSlot (getEmptyFd_slot hp hfd)

theorem frefAll_spec (slotList : List (Option ℕ)) (h : FilesOk l s) :
    Gives (frefAll slotList s) fun _ t => t.procs = s.procs ∧
      ∃ l', FilesOk l' t ∧ ∀ g, l'.count g = l.count g+slotList.count (some g) := by
  induction slotList generalizing l s with
  | nil => exact ⟨rfl, l, h, fun _ => rfl⟩
  | cons x xs ih =>
    cases x with
    | none =>
      refine (ih h).imp ?_
      rintro _ t ⟨hp, l', hok, hl⟩
      refine ⟨hp, l', hok, fun g => ?_⟩
      rw [hl, count_cons_of_ne (by simp)]
    | some f =>
      refine (fref_spec (f := f) h).bind fun _ t ht => (ih ht.1).imp ?_
      rintro _ u ⟨hp, l', hok, hl⟩
      refine ⟨hp.trans ht.2, l', hok, fun g => ?_⟩
      rw [hl]
      simp only [count_cons, beq_iff_eq, some.injEq]
      omega

theorem FilesOk.addProc {p : VProc} (h : FilesOk l' s) (hz : p.pFiles.length = NFILES)
    (hl : ∀ g, l'.count g = l.count g+p.pFiles.count (some g)) :
    FilesOk l { s with procs := s.procs ++ [p] } := by
  refine h.moved ?_ ?_ rfl le_rfl rfl rfl
  · intro q hq
    rcases mem_append.mp hq with hq | hq
    · exact h.sized q hq
    · rw [mem_singleton.mp hq]
      exact hz
  · intro g
    rw [hl]
    simp only [slots, flatMap_append, flatMap_singleton, count_append]
    omega

theorem doFork_spec (h : FilesOk l s) (cur : ℕ) :
    Gives (doFork cur s) fun _ t => FilesOk l t := by
  unfold doFork
  refine (procAt_spec cur s).bind ?_
  rintro p _ ⟨rfl, hp⟩
  refine (frefAll_spec p.pFiles h).bind ?_
  rintro _ t ⟨-, l', hok, hl⟩
  have hz := h.sized p (mem_of_getElem? hp)
  cases p.pCwd with
  | none => trivial
  | some v =>
    exact (keeps_vref v t hok).bind fun _ u hu => hu.addProc hz hl

theorem newProc_spec (h : FilesOk l s) (atRoot : Bool) :
    Gives (newProc atRoot s) fun _ t => FilesOk l t := by
  have hz : (replicate NFILES (none : Option ℕ)).length = NFILES := length_replicate
  have hl : ∀ g, l.count g
      = l.count g+(replicate NFILES (none : Option ℕ)).count (some g) := by
    intro g
    rw [count_replicate]
    simp
  unfold newProc
  split
  · exact (keeps_vref 0 s h).bind fun _ u hu => hu.addProc hz hl
  · exact h.addProc hz hl

/-- What the path resolution of `do_open` leaves of the descriptor tables and files: the
slot is taken by a file without a vnode. -/
structure Opening (cur fd : ℕ) (s t : VState) : Prop where
  procs : t.procs = (withSlot s cur fd (some s.nextFile)).procs
  files : t.files = (opening s).files
  nextFile : t.nextFile = s.nextFile+1
  opened : t.opened = s.opened
  closed : t.closed = s.closed

theorem Opening.file (h : Opening cur fd s t) : t.files s.nextFile = some ⟨0, 0, 1, none⟩ := by
  rw [h.files]
  exact opening_file s

/-- `do_open` fails: the number of the file is used up, and that is all. -/
theorem FilesOk.abandoned {u : VState} (h : FilesOk l s) (hs : SlotIs s cur fd none)
    (ht : Opening cur fd s t) (hu : SameFiles (t.setFile s.nextFile none) u) :
    FilesOk l (withSlot u cur fd none) := by
  refine h.opened_and_freed.congr ?_ ?_ ?_ (hu.opened.trans ht.opened)
    (hu.closed.trans ht.closed)
  · have he : (withSlot u cur fd none).procs
        = (withSlot (withSlot s cur fd (some s.nextFile)) cur fd none).procs := by
      have hp := hu.procs.trans ht.procs
      simp only [withSlot] at hp ⊢
      rw [hp]
    rw [he, withSlot_withSlot, withSlot_self hs]
    rfl
  · change u.files = _
    rw [hu.files]
    simp only [VState.setFile, ht.files]
  · exact (hu.nextFile.trans ht.nextFile).ge

theorem FilesOk.entered {mode : ℕ} {held : List ℕ} (h : FilesOk l s) (hs : SlotIs s cur fd none)
    (ht : Opening cur fd s t) :
    FilesOk l { t.setFile s.nextFile (some ⟨0, mode, 1, some v⟩) with
      held := held, opened := (s.nextFile, v)::t.opened } := by
  have hnew : ∀ w, (s.nextFile, w) ∉ s.opened :=
    fun w hw => absurd (h.logged _ w hw).1 (lt_irrefl _)
  have hadd := h.opened_and_freed.add (f := s.nextFile) (Nat.lt_succ_self _)
    (update_self ..) hnew (x := ⟨0, mode, 1, some v⟩) rfl rfl
  have hslot : SlotIs _ cur fd none := hs
  refine (hadd.fillSlot hslot).congr ht.procs ?_ ht.nextFile.ge ?_ ht.closed
  · simp [VState.setFile, withSlot, opening, ht.files]
  · change (_ :: t.opened) = _
    rw [ht.opened]
    rfl

/-- The state in which `do_open` resolves its path. -/
def reserved (s : VState) (cur fd : ℕ) : VState :=
  withSlot (opening s) cur fd (some s.nextFile)

theorem opening_of_same (h : SameFiles (reserved s cur fd) t) : Opening cur fd s t :=
  ⟨h.procs, h.files, h.nextFile, h.opened, h.closed⟩

def fileMode (oflags : ℕ) : ℕ :=
  if oflags &&& 0x700 == 0x400 then openMode (oflags &&& 3) ||| 4 else openMode (oflags &&& 3)

/-- How `do_open` ends when the resolution of its path gave `q` in the state `t`. -/
inductive OpenEnds (cur fd oflags f : ℕ) (q : Ret × Option ℕ) (t : VState) : Ret → VState → Prop
  | unresolved : q.1.failed → OpenEnds cur fd oflags f q t q.1
      (withSlot (t.setFile f none) cur fd none)
  | invalid {v : ℕ} {u : VState} : ¬q.1.failed → q.2 = some v → oflags &&& 3 = 3 →
      vput (some v) (t.setFile f none) = .ok ((), u) →
      OpenEnds cur fd oflags f q t (.err .einval) (withSlot u cur fd none)
  | directory {v : ℕ} {t' u : VState} : ¬q.1.failed → q.2 = some v →
      vnMode v t = .ok (.dir, t') → vput (some v) (t'.setFile f none) = .ok ((), u) →
      OpenEnds cur fd oflags f q t (.err .eisdir) (withSlot u cur fd none)
  | opened {v : ℕ} {t' : VState} : ¬q.1.failed → q.2 = some v → oflags &&& 3 ≠ 3 →
      (t' = t ∨ ∃ k, vnMode v t = .ok (k, t')) → OpenEnds cur fd oflags f q t (.val fd)
        { t'.setFile f (some ⟨0, fileMode oflags, 1, some v⟩) with
          held := t'.held.erase v, opened := (f, v)::t'.opened }

theorem abandonOpen_ends (ht : t.files f = some ⟨0, 0, 1, none⟩) :
    Gives (abandonOpen cur fd f v t) fun _ w =>
      ∃ u, vput (some v) (t.setFile f none) = .ok ((), u) ∧ w = withSlot u cur fd none := by
  unfold abandonOpen
  rw [bind_ok (fput_opening ht (by decide) (by decide) rfl rfl)]
  exact (ends_self _).bind fun _ u hu => ⟨u, hu, rfl⟩

theorem finishOpen_eq {oflags : ℕ} (ht : t.files f = some ⟨0, 0, 1, none⟩) :
    finishOpen f v (openMode (oflags &&& 3)) (oflags &&& 0x700 == 0x400) t =
      .ok ((), { t.setFile f (some ⟨0, fileMode oflags, 1, some v⟩) with
        held := t.held.erase v, opened := (f, v)::t.opened }) := by
  unfold finishOpen
  rw [bind_ok (fileAt_eq ht)]
  rfl

theorem doOpen_ends (cur : ℕ) (filename : List Char) (oflags : ℕ) (s : VState) :
    Gives (doOpen cur filename oflags s) fun r u =>
      (r = .err .emfile ∧ u = s ∧ ∀ fd, ¬SlotIs s cur fd none) ∨
      ∃ fd q t, SlotIs s cur fd none ∧ s.memory ∧
        openNamev cur filename (oflags &&& 0x700) none (reserved s cur fd) = .ok (q, t) ∧
        SameFiles (reserved s cur fd) t ∧ OpenEnds cur fd oflags s.nextFile q t r u := by
  unfold doOpen
  refine (procAt_spec cur s).bind ?_
  rintro p _ ⟨rfl, hp⟩
  cases hfd : getEmptyFd p with
  | none =>
    refine .inl ⟨rfl, rfl, ?_⟩
    rintro fd ⟨q, hq, hslot⟩
    obtain rfl := Option.some.inj (hp.symm.trans hq)
    simpa using List.findIdx?_eq_none_iff.mp hfd _ (List.mem_of_getElem? hslot)
  | some fd =>
    dsimp only
    by_cases hm : s.memory
    case neg =>
      rw [bind_ok ((fget_new cur s).trans (if_neg hm))]
      exact (ends_self _).bind fun _ _ _ => trivial
    rw [bind_ok ((fget_new cur s).trans (if_pos hm))]
    dsimp only
    rw [bind_ok (setSlot_eq _ cur fd _)]
    refine ((ends_self _).and
      ((sameFiles_rules _).openNamev cur filename _ none _ (.refl _))).bind ?_
    rintro q t ⟨hq, hsame⟩
    have hfile := (opening_of_same hsame).file
    suffices h : Gives _ fun r u => OpenEnds cur fd oflags s.nextFile q t r u from
      h.imp fun r u hu =>
        .inr ⟨fd, q, t, getEmptyFd_slot hp hfd, hm, hq, hsame, hu⟩
    by_cases hfail : q.1.failed
    · rw [if_pos hfail, bind_ok (fput_opening hfile (by decide) (by decide) rfl rfl)]
      exact .unresolved hfail
    rw [if_neg hfail]
    cases hv : q.2 with
    | none => trivial
    | some v =>
      rw [bind_ok (readOut_some v t)]
      split
      next h3 =>
        refine (abandonOpen_ends hfile).bind ?_
        rintro _ w ⟨u, hu, rfl⟩
        exact .invalid hfail hv h3 hu
      next h3 =>
        split
        · rw [bind_ok (finishOpen_eq hfile)]
          exact .opened hfail hv h3 (.inl rfl)
        refine ((ends_self _).and ((sameFiles_rules t).vnMode v t (.refl t))).bind ?_
        rintro k t' ⟨hk, hsame'⟩
        split
        next hdir =>
          subst hdir
          refine (abandonOpen_ends (hsame'.files ▸ hfile)).bind ?_
          rintro _ w ⟨u, hu, rfl⟩
          exact .directory hfail hv hk hu
        · rw [bind_ok (finishOpen_eq (hsame'.files ▸ hfile))]
          exact .opened hfail hv h3 (.inr ⟨k, hk⟩)

theorem doOpen_spec (h : FilesOk l s) (cur : ℕ) (filename : List Char) (oflags : ℕ) :
    Gives (doOpen cur filename oflags s) fun _ t => FilesOk l t := by
  refine (doOpen_ends cur filename oflags s).imp ?_
  rintro r u (⟨-, rfl, -⟩ | ⟨fd, q, t, hs, -, -, hsame, hend⟩)
  · exact h
  have ht := opening_of_same hsame
  have hmode : ∀ {v : ℕ} {t' : VState}, (t' = t ∨ ∃ k, vnMode v t = .ok (k, t')) →
      SameFiles (reserved s cur fd) t' := by
    rintro v t' (rfl | ⟨k, hk⟩)
    · exact hsame
    · exact ((sameFiles_rules _).vnMode v t hsame).of_ok hk
  cases hend with
  | unresolved _ => exact h.abandoned hs ht (.refl _)
  | invalid _ _ _ hput =>
    exact h.abandoned hs ht (((sameFiles_rules _).vput _ _ (.refl _)).of_ok hput)
  | directory _ _ hk hput =>
    exact h.abandoned hs (opening_of_same (hmode (.inr ⟨_, hk⟩)))
      (((sameFiles_rules _).vput _ _ (.refl _)).of_ok hput)
  | opened _ _ _ ht' => exact h.entered hs (opening_of_same (hmode ht'))

theorem pFiles_setCwd (s : VState) (cur v : ℕ) :
    (s.procs.modify cur fun p => { p with pCwd := some v }).map VProc.pFiles
      = s.procs.map VProc.pFiles := by
  apply ext_getElem?
  intro i
  simp only [getElem?_map, getElem?_modify]
  cases s.procs[i]? with
  | none => rfl
  | some p =>
    simp only [Option.map_eq_map, map_some]
    split
    · rfl
    · rfl

theorem setCwd_filesOk (cur v : ℕ) : Keeps (FilesOk l) (setCwd cur v) := by
  intro s h
  have he := pFiles_setCwd s cur v
  refine h.moved (fun p hp => ?_) (fun g => by simp only [slots, flatMap_def, he]) rfl
    le_rfl rfl rfl
  obtain ⟨q, hq, heq⟩ := mem_map.mp (he ▸ mem_map_of_mem (f := VProc.pFiles) hp)
  exact heq ▸ h.sized q hq

/-! ### Whole runs -/

theorem perform_filesOk (h : FilesOk [] s) (cur : ℕ) (c : VfsCall) :
    Gives (perform cur c s) fun _ t => FilesOk [] t := by
  have R : VnodeRules (fun _ => True) (FilesOk []) := guarded_rules
  have F := filesOk_rules
  cases c with
  | mknod path mode devid => exact (R.doMknod cur path mode devid _ h).wrap
  | mkdir path => exact (R.doMkdir cur path _ h).wrap
  | rmdir path => exact (R.doRmdir cur path _ h).wrap
  | unlink path => exact (R.doUnlink cur path _ h).wrap
  | link source target => exact (R.doLink cur keeps_ramfsLink source target _ h).wrap
  | rename oldname newname => exact (R.doRename cur keeps_ramfsLink oldname newname _ h).wrap
  | chdir path => exact (R.doChdir cur path setCwd_filesOk keeps_vref _ h).wrap
  | stat path => exact (R.doStat cur path _ h).wrap
  | openFile filename oflags => exact (doOpen_spec h cur filename oflags).wrap
  | close fd => exact (doClose_spec h cur fd).map fun _ _ ht => ht.1
  | dup fd => exact (doDup_spec h cur fd).wrap
  | dup2 ofd nfd => exact (doDup2_spec h cur ofd nfd).wrap
  | read fd nbytes device => exact (F.doRead [] cur fd nbytes device _ h).wrap
  | write fd buf device => exact (F.doWrite [] cur fd buf device _ h).wrap
  | lseek fd offset whence => exact (F.doLseek [] cur fd offset whence _ h).wrap
  | getdent fd => exact (F.doGetdent [] cur fd _ h).wrap
  | fork => exact (doFork_spec h cur).wrap
  | spawn atRoot => exact (newProc_spec h atRoot).wrap
  | memory left => exact h.congr rfl rfl le_rfl rfl rfl

theorem FilesOk.step {e : ℕ × VfsCall} (h : FilesOk [] s) (hs : VfsStep s e t) : FilesOk [] t :=
  hs.of_ends (perform_filesOk h.enter e.1 e.2)

/-- No process has an open file, and none was opened before. -/
structure Unopened (s : VState) : Prop where
  sized : ∀ p ∈ s.procs, p.pFiles.length = NFILES
  slots : ∀ p ∈ s.procs, ∀ x ∈ p.pFiles, x = none
  files : ∀ f, s.files f = none
  opened : s.opened = []
  closed : s.closed = []

theorem Unopened.filesOk (h : Unopened s) : FilesOk [] s where
  sized := h.sized
  counted f x hx := by simp [h.files f] at hx
  present f := by
    have hzero : FileReferences.slots s f = 0 := by
      refine count_eq_zero.mpr fun hm => ?_
      obtain ⟨p, hp, hx⟩ := mem_flatMap.mp hm
      cases h.slots p hp _ hx
    simp [h.files f, hzero]
  numbered f _ := h.files f
  valued f x hx := by simp [h.files f] at hx
  logged f v hv := by simp [h.opened] at hv
  once f v w hv := by simp [h.opened] at hv
  known q hq := by simp [h.closed] at hq

/-- Over any sequence of calls by any number of processes, every file counts the slots that
point to it and is there as long as there is one, and the vnode it was opened with is put
once, when the last of them goes. -/
theorem files_counted {es : List (ℕ × VfsCall)} (hs : Unopened s)
    (h : Run VfsStep (fun _ _ => True) s es t) :
    (∀ f x, t.files f = some x →
      x.fRefcount = slots t f ∧ ∃ v, x.fVnode = some v ∧ (f, v) ∈ t.opened) ∧
    (∀ f, (t.files f).isSome ↔ 0 < slots t f) ∧
    (∀ f v, (f, v) ∈ t.opened → t.closed.count (f, v) = if slots t f = 0 then 1 else 0) ∧
    (∀ f v, (f, v) ∈ t.closed → (f, v) ∈ t.opened ∧ slots t f = 0) := by
  have hok : FilesOk [] t :=
    h.invariant (fun _ _ _ _ hstep hi => hi.step hstep) hs.filesOk
  have hpresent : ∀ f, (t.files f).isSome ↔ 0 < slots t f := by
    intro f
    simpa using hok.present f
  have hcount : ∀ f v, (f, v) ∈ t.opened →
      t.closed.count (f, v) = if slots t f = 0 then 1 else 0 := by
    intro f v hv
    rw [(hok.logged f v hv).2]
    by_cases hz : slots t f = 0
    · rw [if_pos hz, if_neg]
      rw [hpresent f]
      omega
    · rw [if_neg hz, if_pos]
      rw [hpresent f]
      omega
  refine ⟨fun f x hx => ⟨?_, hok.valued f x hx⟩, hpresent, hcount, fun f v hv => ?_⟩
  · simpa using hok.counted f x hx
  · have hopen := hok.known _ hv
    refine ⟨hopen, ?_⟩
    by_contra hz
    have hc := hcount f v hopen
    rw [if_neg hz] at hc
    exact count_eq_zero.mp hc hv

theorem unopened_booted : Unopened booted where
  sized := by decide
  slots := by decide
  files _ := rfl
  opened := rfl
  closed := rfl

theorem exists_run_vfs (good : VState → ℕ × VfsCall → Prop) [∀ s e, Decidable (good s e)]
    (es : List (ℕ × VfsCall)) {P : VState → Prop} [DecidablePred P]
    (h : (exec vfsNext good booted es).any (fun t => decide (P t)) = true) :
    ∃ t, Run VfsStep good booted es t ∧ P t := exists_run vfsStep_of_next h

/-- A file is shared by two descriptors, then by two processes, and closed in one of them;
another is closed for good. -/
theorem counted_after_fork : ∃ t, Unopened booted ∧
    Run VfsStep (fun _ _ => True) booted
      [(0, .openFile ['f'] 0x102), (0, .dup 0), (0, .fork), (0, .dup2 1 5), (0, .read (-1) 4 none),
        (0, .openFile ['g'] 0x101), (0, .openFile ['h'] 0), (1, .close 0), (0, .close 2)] t ∧
    slots t 0 = 4 ∧ (t.files 0).map File.fRefcount = some 4 ∧ slots t 2 = 0 ∧
    t.closed = [(2, 2)] ∧
    (∀ f x, t.files f = some x →
      x.fRefcount = slots t f ∧ ∃ v, x.fVnode = some v ∧ (f, v) ∈ t.opened) ∧
    (∀ f, (t.files f).isSome ↔ 0 < slots t f) ∧
    (∀ f v, (f, v) ∈ t.opened → t.closed.count (f, v) = if slots t f = 0 then 1 else 0) ∧
    (∀ f v, (f, v) ∈ t.closed → (f, v) ∈ t.opened ∧ slots t f = 0) := by
  exact (exists_run_vfs _ _ (P := fun t => slots t 0 = 4 ∧
    (t.files 0).map File.fRefcount = some 4 ∧ slots t 2 = 0 ∧ t.closed = [(2, 2)])
    (by decide +kernel)).imp fun t h => ⟨unopened_booted, h.1, h.2.1, h.2.2.1, h.2.2.2.1,
      h.2.2.2.2, files_counted unopened_booted h.1⟩

end SystemsProjects.FileReferences
