import Mathlib.Data.List.Perm.Subperm
import SystemsProjects.PframeCache

/-!
# The lists of the cache of page frames

Which frames are on which list follows from the object, the page number and the pin count of the
frames. Every piece of code between two points where a thread blocks keeps this, so it holds
whenever another thread can run.
-/
namespace SystemsProjects.PframeCache

open Function GuardedRuns IntrusiveLists RingLists List

/-! ### The contents of the lists -/

structure Contents where
  allocated : List ℕ
  pinned : List ℕ
  hash : ℕ → List ℕ
  respages : UInt32 → List ℕ

def Contents.links (c : Contents) : Head → List Link
  | .allocList => c.allocated.map (.field .pfLink)
  | .pinnedList => c.pinned.map (.field .pfLink)
  | .pframeHash i => (c.hash i).map (.field .pfHlink)
  | .mmoRespages o => (c.respages o).map (.field .pfOlink)

/-- The lists of the cache, and what they tell about the frames. -/
structure Holds (s : Cache) (c : Contents) : Prop where
  rings : Rings s.links Link.head c.links
  unique : ∀ pf pf' o, (s.frame pf).pfObj = some o → (s.frame pf').pfObj = some o →
    (s.frame pf).pfPagenum = (s.frame pf').pfPagenum → pf = pf'
  allocated : ∀ pf, pf ∈ c.allocated ↔
    (s.frame pf).pfObj ≠ none ∧ (s.frame pf).pfPincount = 0
  pinned : ∀ pf, pf ∈ c.pinned ↔ (s.frame pf).pfObj ≠ none ∧ (s.frame pf).pfPincount ≠ 0
  hash : ∀ i pf, pf ∈ c.hash i ↔
    ∃ o, (s.frame pf).pfObj = some o ∧ hashPage o (s.frame pf).pfPagenum = i
  respages : ∀ o pf, pf ∈ c.respages o ↔ (s.frame pf).pfObj = some o
  nallocated : s.nallocated = c.allocated.length
  npinned : s.npinned = c.pinned.length
  nrespages : ∀ o, s.mmoNrespages o = (c.respages o).length
  free : ∀ pf, (s.frame pf).pfObj = none → (s.frame pf).pfPincount = 0

/-- The code has come to the next point where another thread can run, or has stopped for another
reason than a damaged list. -/
def Sound : Except Fault Cache → Prop
  | .ok s => ∃ c, Holds s c
  | .error f => f ≠ .brokenList ∧ f ≠ .endlessChain

section Lists

variable {s : Cache} {c : Contents} {xs : Head → List Link} {h : Head} {f : Field} {pf : ℕ}
  {l : List ℕ}

theorem field_injective : Function.Injective (Link.field f) := fun _ _ h => (Link.field.inj h).2

theorem update_allocList : update c.links .allocList (l.map (.field .pfLink)) =
    { c with allocated := l }.links := by
  funext h
  cases h <;> rfl

theorem update_pinnedList : update c.links .pinnedList (l.map (.field .pfLink)) =
    { c with pinned := l }.links := by
  funext h
  cases h <;> rfl

theorem update_pframeHash {i : ℕ} : update c.links (.pframeHash i) (l.map (.field .pfHlink)) =
      { c with hash := update c.hash i l }.links := by
  funext h
  cases h with
  | pframeHash j =>
    by_cases hj : j = i
    · subst hj
      simp [Contents.links]
    · simp [Contents.links, hj]
  | _ => rfl

theorem update_mmoRespages {o : UInt32} :
    update c.links (.mmoRespages o) (l.map (.field .pfOlink)) =
      { c with respages := update c.respages o l }.links := by
  funext h
  cases h with
  | mmoRespages p =>
    by_cases hp : p = o
    · subst hp
      simp [Contents.links]
    · simp [Contents.links, hp]
  | _ => rfl

theorem pfLink_notMem (pf : ℕ) (ha : pf ∉ c.allocated) (hp : pf ∉ c.pinned) (h : Head) :
    Link.field .pfLink pf ∉ c.links h := by
  cases h <;> simp [Contents.links, ha, hp]

theorem pfHlink_notMem (pf : ℕ) (hh : ∀ i, pf ∉ c.hash i) (h : Head) :
    Link.field .pfHlink pf ∉ c.links h := by
  cases h <;> simp [Contents.links, hh]

theorem pfOlink_notMem (pf : ℕ) (ho : ∀ o, pf ∉ c.respages o) (h : Head) :
    Link.field .pfOlink pf ∉ c.links h := by
  cases h <;> simp [Contents.links, ho]

theorem listRemove_spec (hr : Rings s.links Link.head xs) (hx : xs h = l.map (.field f))
    (hmem : pf ∈ l) : ∃ links, s.listRemove f pf = .ok { s with links := links } ∧
      Rings links Link.head (update xs h ((l.erase pf).map (.field f))) := by
  have hm : Link.field f pf ∈ xs h := by
    rw [hx]
    exact mem_map_of_mem hmem
  obtain ⟨links, hremove, hrings⟩ := hr.remove hm
  refine ⟨links, ?_, ?_⟩
  · unfold Cache.listRemove
    rw [hremove]
    rfl
  · rw [map_erase field_injective, ← hx]
    exact hrings

theorem listInsertTail_spec (hr : Rings s.links Link.head xs) (hx : xs h = l.map (.field f))
    (hnot : ∀ h, Link.field f pf ∉ xs h) :
    ∃ links, s.listInsertTail h f pf = .ok { s with links := links } ∧
      Rings links Link.head (update xs h ((l++[pf]).map (.field f))) := by
  obtain ⟨links, hinsert, hrings⟩ := hr.insertTail h hnot fun _ => nofun
  refine ⟨links, ?_, ?_⟩
  · unfold Cache.listInsertTail
    rw [hinsert]
    rfl
  · rw [map_append, ← hx]
    exact hrings

theorem listInsertHead_spec (hr : Rings s.links Link.head xs) (hx : xs h = l.map (.field f))
    (hnot : ∀ h, Link.field f pf ∉ xs h) :
    ∃ links, s.listInsertHead h f pf = .ok { s with links := links } ∧
      Rings links Link.head (update xs h ((pf::l).map (.field f))) := by
  obtain ⟨links, hinsert, hrings⟩ := hr.insertHead h hnot fun _ => nofun
  refine ⟨links, ?_, ?_⟩
  · unfold Cache.listInsertHead
    rw [hinsert]
    rfl
  · rw [map_cons, ← hx]
    exact hrings

/-- An element goes from its list to the end of a list. -/
theorem moveTail_spec {k : Head} {l' : List ℕ} (hr : Rings s.links Link.head xs)
    (hx : xs h = l.map (.field f)) (hmem : pf ∈ l)
    (hk : update xs h ((l.erase pf).map (.field f)) k = l'.map (.field f)) :
    ∃ links, (s.listRemove f pf >>= fun s => s.listInsertTail k f pf) =
        .ok { s with links := links } ∧
      Rings links Link.head (update (update xs h ((l.erase pf).map (.field f))) k
        ((l'++[pf]).map (.field f))) := by
  obtain ⟨links₁, hremove, hr₁⟩ := listRemove_spec hr hx hmem
  have hin : Link.field f pf ∈ xs h := by
    rw [hx]
    exact mem_map_of_mem hmem
  obtain ⟨links₂, hinsert, hr₂⟩ := listInsertTail_spec (s := { s with links := links₁ }) hr₁ hk
    fun j hj => by
      by_cases hjh : j = h
      · have hnd := hr.nodup h
        rw [hjh, update_self, map_erase field_injective, ← hx] at hj
        exact hnd.not_mem_erase hj
      · rw [update_of_ne hjh] at hj
        exact hjh (hr.apart j h _ hj hin)
  exact ⟨links₂, by rw [hremove]; exact hinsert, hr₂⟩

theorem length_erase_int (hmem : pf ∈ l) : ((l.erase pf).length : ℤ) = l.length-1 := by
  have := length_pos_of_mem hmem
  rw [length_erase_of_mem hmem]
  omega

theorem length_append_int : ((l++[pf]).length : ℤ) = l.length+1 := by simp

end Lists

/-! ### Frames and lists -/

/-- The frame is on the lists that its object, its page number and its pin count say. -/
def Listed (c : Contents) (pf : ℕ) (frame : Pframe) : Prop :=
  (pf ∈ c.allocated ↔ frame.pfObj ≠ none ∧ frame.pfPincount = 0) ∧
  (pf ∈ c.pinned ↔ frame.pfObj ≠ none ∧ frame.pfPincount ≠ 0) ∧
  (∀ i, pf ∈ c.hash i ↔ ∃ o, frame.pfObj = some o ∧ hashPage o frame.pfPagenum = i) ∧
  (∀ o, pf ∈ c.respages o ↔ frame.pfObj = some o) ∧
  (frame.pfObj = none → frame.pfPincount = 0)

/-- The frame is on the same lists. -/
def SameLists (c d : Contents) (pf : ℕ) : Prop :=
  (pf ∈ d.allocated ↔ pf ∈ c.allocated) ∧ (pf ∈ d.pinned ↔ pf ∈ c.pinned) ∧
  (∀ i, pf ∈ d.hash i ↔ pf ∈ c.hash i) ∧ ∀ o, pf ∈ d.respages o ↔ pf ∈ c.respages o

theorem mem_update {α : Type} [DecidableEq α] {f : α → List ℕ} {k : α} {l : List ℕ} {pf : ℕ}
    (h : pf ∈ l ↔ pf ∈ f k) (i : α) : pf ∈ update f k l i ↔ pf ∈ f i := by
  by_cases hi : i = k
  · rw [hi, update_self, h]
  · rw [update_of_ne hi]

namespace Holds

variable {s s' : Cache} {c : Contents} {pf : ℕ}

section

variable (h : Holds s c)
include h

theorem nodup_allocated : c.allocated.Nodup :=
  (nodup_map_iff field_injective).mp (h.rings.nodup .allocList)

theorem nodup_pinned : c.pinned.Nodup :=
  (nodup_map_iff field_injective).mp (h.rings.nodup .pinnedList)

theorem nodup_hash (i : ℕ) : (c.hash i).Nodup :=
  (nodup_map_iff field_injective).mp (h.rings.nodup (.pframeHash i))

theorem nodup_respages (o : UInt32) : (c.respages o).Nodup :=
  (nodup_map_iff field_injective).mp (h.rings.nodup (.mmoRespages o))

theorem listed (pf : ℕ) : Listed c pf (s.frame pf) :=
  ⟨h.allocated pf, h.pinned pf, fun i => h.hash i pf, fun o => h.respages o pf, h.free pf⟩

omit h in
theorem of_listed {d : Contents} (hr : Rings s'.links Link.head d.links)
    (hunique : ∀ pf pf' o, (s'.frame pf).pfObj = some o → (s'.frame pf').pfObj = some o →
      (s'.frame pf).pfPagenum = (s'.frame pf').pfPagenum → pf = pf')
    (hl : ∀ pf, Listed d pf (s'.frame pf)) (hna : s'.nallocated = d.allocated.length)
    (hnp : s'.npinned = d.pinned.length) (hnr : ∀ o, s'.mmoNrespages o = (d.respages o).length) :
    Holds s' d :=
  ⟨hr, hunique, fun x => (hl x).1, fun x => (hl x).2.1, fun i x => (hl x).2.2.1 i,
    fun o x => (hl x).2.2.2.1 o, hna, hnp, hnr, fun x => (hl x).2.2.2.2⟩

/-- One frame gets another identity or pin count and the lists follow. -/
theorem change {d : Contents} (pf : ℕ) (hr : Rings s'.links Link.head d.links)
    (hframe : ∀ pf' ≠ pf, s'.frame pf' = s.frame pf')
    (hnew : ∀ pf' ≠ pf, ∀ o, (s'.frame pf).pfObj = some o → (s.frame pf').pfObj = some o →
      (s.frame pf').pfPagenum ≠ (s'.frame pf).pfPagenum) (hsame : ∀ pf' ≠ pf, SameLists c d pf')
    (hpf : Listed d pf (s'.frame pf)) (hna : s'.nallocated = d.allocated.length)
    (hnp : s'.npinned = d.pinned.length) (hnr : ∀ o, s'.mmoNrespages o = (d.respages o).length) :
    Holds s' d := by
  have hl : ∀ pf', Listed d pf' (s'.frame pf') := by
    intro pf'
    by_cases hp : pf' = pf
    · rwa [hp]
    obtain ⟨ha, hp', hh, ho⟩ := hsame pf' hp
    rw [hframe pf' hp, Listed, ha, hp']
    simp only [hh, ho]
    exact h.listed pf'
  refine of_listed hr (fun pf₁ pf₂ o h₁ h₂ hn => ?_) hl hna hnp hnr
  by_cases hp₁ : pf₁ = pf <;> by_cases hp₂ : pf₂ = pf
  · exact hp₁.trans hp₂.symm
  · subst hp₁
    rw [hframe _ hp₂] at h₂ hn
    exact absurd hn.symm (hnew _ hp₂ o h₁ h₂)
  · subst hp₂
    rw [hframe _ hp₁] at h₁ hn
    exact absurd hn (hnew _ hp₁ o h₂ h₁)
  · rw [hframe _ hp₁] at h₁ hn
    rw [hframe _ hp₂] at h₂ hn
    exact h.unique _ _ o h₁ h₂ hn

/-- Nothing changes for the lists while the identities and the pin counts stay. -/
theorem congr (hlinks : s'.links = s.links)
    (hframe : ∀ pf, (s'.frame pf).pfObj = (s.frame pf).pfObj ∧
      (s'.frame pf).pfPagenum = (s.frame pf).pfPagenum ∧
      (s'.frame pf).pfPincount = (s.frame pf).pfPincount) (hna : s'.nallocated = s.nallocated)
    (hnp : s'.npinned = s.npinned) (hnr : s'.mmoNrespages = s.mmoNrespages) : Holds s' c := by
  refine of_listed (by rw [hlinks]; exact h.rings) (fun pf pf' o => ?_) (fun pf => ?_)
    (hna.trans h.nallocated) (hnp.trans h.npinned) (by rw [hnr]; exact h.nrespages)
  · rw [(hframe pf).1, (hframe pf').1, (hframe pf).2.1, (hframe pf').2.1]
    exact h.unique pf pf' o
  · rw [Listed, (hframe pf).1, (hframe pf).2.1, (hframe pf).2.2]
    exact h.listed pf

theorem setFrame {frame : Pframe} (hobj : frame.pfObj = (s.frame pf).pfObj)
    (hpagenum : frame.pfPagenum = (s.frame pf).pfPagenum)
    (hpin : frame.pfPincount = (s.frame pf).pfPincount) : Holds (s.setFrame pf frame) c := by
  refine h.congr rfl (fun pf' => ?_) rfl rfl rfl
  change ((update s.frame pf frame pf').pfObj = _) ∧ _ ∧ _
  by_cases hpf : pf' = pf
  · subst hpf
    simp [Cache.setFrame, hobj, hpagenum, hpin]
  · simp [Cache.setFrame, hpf]

theorem setBusy (pf : ℕ) : Holds (setBusy s pf) c := h.setFrame rfl rfl rfl

theorem clearBusy (pf : ℕ) : Holds (clearBusy s pf) c := h.setFrame rfl rfl rfl

theorem setDirty (pf : ℕ) (dirty : Bool) : Holds (setDirty s pf dirty) c :=
  h.setFrame rfl rfl rfl

theorem sleepOn (t pf : ℕ) : Holds (sleepOn s t pf) c := h.setFrame rfl rfl rfl

theorem enter (t : ℕ) (call : Call) : Holds (s.enter t call) c :=
  h.congr rfl (fun _ => ⟨rfl, rfl, rfl⟩) rfl rfl rfl

theorem leave (t : ℕ) : Holds (s.leave t) c :=
  h.congr rfl (fun _ => ⟨rfl, rfl, rfl⟩) rfl rfl rfl

end

end Holds

/-! ### The functions of the cache -/

variable {n : Int32} {links : Links Link}

section Functions

variable {s s' : Cache} {c : Contents} {t pf : ℕ} {o pagenum : UInt32}

theorem bind_ok {α β : Type} (a : α) (f : α → Except Fault β) : (Except.ok a >>= f) = f a := rfl

theorem sound_bind {x : Except Fault Cache} {f : Cache → Except Fault Cache} (hx : x = .ok s')
    (h : Sound (f s')) : Sound (x >>= f) := by
  rw [hx]
  exact h

theorem requeue_spec (h : Holds s c) (hmem : pf ∈ c.allocated) : ∃ links, (do
        let s ← s.listRemove .pfLink pf
        let s ← s.listInsertTail .allocList .pfLink pf
        return (s, some pf) : Except Fault (Cache×Option ℕ)) =
      .ok ({ s with links := links }, some pf) ∧
      Holds { s with links := links } { c with allocated := c.allocated.erase pf++[pf] } := by
  obtain ⟨links, hmove, hr⟩ := moveTail_spec h.rings (h := .allocList) (k := .allocList) rfl hmem
    (update_self _ _ _)
  rw [update_allocList, update_allocList] at hr
  refine ⟨links, ?_, ?_⟩
  · rw [← bind_assoc, hmove]
    rfl
  · exact
      { h with
        rings := hr
        allocated := by
          intro pf'
          rw [← h.allocated pf', mem_append, mem_singleton, h.nodup_allocated.mem_erase_iff]
          by_cases hpf : pf' = pf
          · simp [hpf, hmem]
          · simp [hpf]
        nallocated := by
          simp [length_erase_int hmem, h.nallocated] }

theorem chain_lt (h : Holds s c) (i : ℕ) : (c.links (.pframeHash i)).length < chainBound s := by
  have hsub : (c.hash i).Subperm (c.allocated++c.pinned) := by
    apply (h.nodup_hash i).subperm
    intro pf hpf
    obtain ⟨o, ho, _⟩ := (h.hash i pf).mp hpf
    have hobj : (s.frame pf).pfObj ≠ none := by simp [ho]
    rw [mem_append, h.allocated, h.pinned]
    by_cases hpin : (s.frame pf).pfPincount = 0
    · exact .inl ⟨hobj, hpin⟩
    · exact .inr ⟨hobj, hpin⟩
  have hle := hsub.length_le
  have hlength : (c.links (.pframeHash i)).length = (c.hash i).length := length_map _
  rw [length_append] at hle
  have := h.nallocated
  have := h.npinned
  unfold chainBound
  omega

theorem pframeGetResident_spec (h : Holds s c) (o pagenum : UInt32) :
    (pframeGetResident s o pagenum = .ok (s, none) ∧
      ∀ pf, (s.frame pf).pfObj = some o → (s.frame pf).pfPagenum ≠ pagenum) ∨
    ∃ links c' pf, pframeGetResident s o pagenum = .ok ({ s with links := links }, some pf) ∧
      Holds { s with links := links } c' ∧ (s.frame pf).pfObj = some o ∧
      (s.frame pf).pfPagenum = pagenum := by
  have hsearch := h.rings.search_eq (.pframeHash (hashPage o pagenum))
    (p := hasIdentity s o pagenum) (chain_lt h _)
  unfold pframeGetResident
  rw [hsearch]
  cases hfind : (c.links (.pframeHash (hashPage o pagenum))).find? (hasIdentity s o pagenum) with
  | none =>
    refine .inl ⟨rfl, fun pf hobj hpage => ?_⟩
    have hmem : Link.field .pfHlink pf ∈ c.links (.pframeHash (hashPage o pagenum)) := by
      apply mem_map_of_mem
      rw [h.hash]
      exact ⟨o, hobj, by rw [hpage]⟩
    exact absurd (decide_eq_true ⟨hobj, hpage⟩) (find?_eq_none.mp hfind _ hmem)
  | some link =>
    right
    obtain ⟨pf, hpf, rfl⟩ := mem_map.mp (mem_of_find?_eq_some hfind)
    have hid := find?_some hfind
    unfold hasIdentity at hid
    rw [decide_eq_true_iff] at hid
    by_cases hpin : (s.frame pf).pfPincount = 0
    · have hmem : pf ∈ c.allocated := (h.allocated pf).mpr ⟨by simp [hid.1], hpin⟩
      obtain ⟨links, heq, hholds⟩ := requeue_spec h hmem
      refine ⟨links, _, pf, ?_, hholds, hid⟩
      dsimp only
      rw [if_pos hpin, heq]
    · refine ⟨s.links, c, pf, ?_, h, hid⟩
      dsimp only
      rw [if_neg hpin]
      rfl

theorem Holds.notMem (h : Holds s c) (hfree : (s.frame pf).pfObj = none) :
    pf ∉ c.allocated ∧ pf ∉ c.pinned ∧ (∀ i, pf ∉ c.hash i) ∧ ∀ o, pf ∉ c.respages o := by
  refine ⟨fun hmem => ((h.allocated pf).mp hmem).1 hfree,
    fun hmem => ((h.pinned pf).mp hmem).1 hfree, fun i hmem => ?_,
    fun o hmem => absurd (hfree.symm.trans ((h.respages o pf).mp hmem)) nofun⟩
  obtain ⟨o, ho, _⟩ := (h.hash i pf).mp hmem
  exact absurd (hfree.symm.trans ho) nofun

def Contents.add (c : Contents) (pf : ℕ) (o pagenum : UInt32) : Contents where
  allocated := c.allocated++[pf]
  pinned := c.pinned
  hash := update c.hash (hashPage o pagenum) (pf::c.hash (hashPage o pagenum))
  respages := update c.respages o (pf::c.respages o)

theorem Holds.add (h : Holds s c) (hfree : (s.frame pf).pfObj = none)
    (hnew : ∀ pf, (s.frame pf).pfObj = some o → (s.frame pf).pfPagenum ≠ pagenum)
    (hr : Rings links Link.head (c.add pf o pagenum).links) :
    Holds { s with
      links := links
      frame := update s.frame pf ⟨some o, pagenum, false, false, 0, []⟩
      nallocated := s.nallocated+1
      mmoNrespages := update s.mmoNrespages o (s.mmoNrespages o+1) }
      (c.add pf o pagenum) := by
  obtain ⟨-, hnotP, hnotH, hnotR⟩ := h.notMem hfree
  refine h.change pf hr (fun pf' hne => update_of_ne hne _ _) ?_ (fun pf' hne => ?_) ?_ ?_
    h.npinned (fun o' => ?_)
  · intro pf' _ o' ho hobj
    dsimp only at ho ⊢
    rw [update_self] at ho ⊢
    cases ho
    exact hnew pf' hobj
  · exact ⟨by simp [Contents.add, hne], Iff.rfl, mem_update (by simp [hne]),
      mem_update (by simp [hne])⟩
  · dsimp only
    rw [update_self]
    refine ⟨by simp [Contents.add], by simpa [Contents.add] using hnotP, fun i => ?_, fun o' => ?_,
      nofun⟩
    · by_cases hi : i = hashPage o pagenum
      · simp [Contents.add, hi]
      · simp [Contents.add, hi, hnotH i, Ne.symm hi]
    · by_cases ho : o' = o
      · simp [Contents.add, ho]
      · simp [Contents.add, ho, hnotR o', Ne.symm ho]
  · simp [Contents.add, h.nallocated]
  · by_cases ho : o' = o
    · simp [Contents.add, ho, h.nrespages]
    · simp [Contents.add, ho, h.nrespages]

theorem pframeAlloc_spec (h : Holds s c) (pf : ℕ) (hfree : (s.frame pf).pfObj = none)
    (hnew : ∀ pf, (s.frame pf).pfObj = some o → (s.frame pf).pfPagenum ≠ pagenum) :
    ∃ s', pframeAlloc s o pagenum (some pf) = .ok (s', some pf) ∧
      Holds s' (c.add pf o pagenum) ∧ s'.stack = s.stack ∧
      s'.frame = update s.frame pf ⟨some o, pagenum, false, false, 0, []⟩ := by
  obtain ⟨hnotA, hnotP, hnotH, hnotR⟩ := h.notMem hfree
  obtain ⟨links₁, h₁, hr₁⟩ := listInsertTail_spec (s := { s with nallocated := s.nallocated+1 })
    h.rings (h := .allocList) rfl (pfLink_notMem pf hnotA hnotP)
  rw [update_allocList] at hr₁
  obtain ⟨links₂, h₂, hr₂⟩ := listInsertHead_spec
    (s := Cache.setFrame { s with nallocated := s.nallocated+1, links := links₁ } pf
      ⟨some o, pagenum, false, false, 0, []⟩)
    hr₁ (h := .pframeHash (hashPage o pagenum)) rfl (pfHlink_notMem pf hnotH)
  rw [update_pframeHash] at hr₂
  obtain ⟨links₃, h₃, hr₃⟩ := listInsertHead_spec
    (s := Cache.addNrespages { Cache.setFrame { s with nallocated := s.nallocated+1,
                                                       links := links₁ } pf
      ⟨some o, pagenum, false, false, 0, []⟩ with links := links₂ } o 1)
    hr₂ (h := .mmoRespages o) rfl (pfOlink_notMem pf hnotR)
  rw [update_mmoRespages] at hr₃
  refine ⟨_, ?_, h.add hfree hnew hr₃, rfl, rfl⟩
  unfold pframeAlloc
  dsimp only
  rw [if_neg (not_not.mpr hfree), h₁, bind_ok, h₂, bind_ok, h₃, bind_ok]
  rfl

theorem wakeup_spec (h : Holds s c) (pageFreeCount : ℕ) : ∃ w,
    (if pageoutdNeeded s pageFreeCount then pageoutdWakeup s else s) = w ∧ Holds w c ∧
      w.frame = s.frame ∧ w.stack = s.stack := by
  split
  · exact ⟨_, rfl, h.congr rfl (fun _ => ⟨rfl, rfl, rfl⟩) rfl rfl rfl, rfl, rfl⟩
  · exact ⟨_, rfl, h, rfl, rfl⟩

theorem pframeGet_sound (h : Holds s c) {pageFreeCount : ℕ} {slab : Option ℕ} :
    Sound (pframeGet s t o pagenum pageFreeCount slab) := by
  unfold pframeGet
  rcases pframeGetResident_spec h o pagenum with
    ⟨hnone, hnew⟩ | ⟨links, c', pf, hsome, h', _⟩
  · rw [hnone, bind_ok]
    dsimp only
    obtain ⟨w, hwake, hw, hframe, -⟩ := wakeup_spec h pageFreeCount
    rw [hwake]
    cases slab with
    | none => exact ⟨c, hw⟩
    | some pf =>
      by_cases hfree : (s.frame pf).pfObj = none
      · obtain ⟨s', hs', h', -⟩ := pframeAlloc_spec hw pf (by rw [hframe]; exact hfree)
          (by rw [hframe]; exact hnew)
        rw [hs', bind_ok]
        exact ⟨_, (h'.setBusy pf).enter t _⟩
      · unfold pframeAlloc
        dsimp only
        rw [hframe, if_pos hfree]
        exact ⟨nofun, nofun⟩
  · rw [hsome, bind_ok]
    dsimp only
    split
    · exact ⟨c', (h'.sleepOn t pf).enter t _⟩
    · exact ⟨c', h'⟩

/-! ### Pins -/

theorem Holds.setPincount (h : Holds s c) (hobj : (s.frame pf).pfObj ≠ none) {d : Contents}
    (hhash : d.hash = c.hash) (hrespages : d.respages = c.respages)
    (hallocated : ∀ pf', pf' ∈ d.allocated ↔ if pf' = pf then n = 0 else pf' ∈ c.allocated)
    (hpinned : ∀ pf', pf' ∈ d.pinned ↔ if pf' = pf then n ≠ 0 else pf' ∈ c.pinned)
    (hr : Rings links Link.head d.links) :
    Holds { s with
      links := links
      frame := update s.frame pf { s.frame pf with pfPincount := n }
      nallocated := d.allocated.length
      npinned := d.pinned.length } d := by
  have hid : ∀ pf', (update s.frame pf { s.frame pf with pfPincount := n } pf').pfObj =
        (s.frame pf').pfObj ∧
      (update s.frame pf { s.frame pf with pfPincount := n } pf').pfPagenum =
        (s.frame pf').pfPagenum := by
    intro pf'
    by_cases hp : pf' = pf
    · simp [hp]
    · simp [hp]
  refine h.change pf hr (fun pf' hne => update_of_ne hne _ _) ?_ (fun pf' hne => ?_) ?_ rfl
    rfl fun o => by rw [hrespages]; exact h.nrespages o
  · intro pf' hne o ho hobj hn
    rw [(hid pf).1] at ho
    rw [(hid pf).2] at hn
    exact hne (h.unique _ _ o hobj ho hn)
  · refine ⟨?_, ?_, fun i => by rw [hhash], fun o => by rw [hrespages]⟩
    · rw [hallocated, if_neg hne]
    · rw [hpinned, if_neg hne]
  · dsimp only
    rw [update_self]
    refine ⟨?_, ?_, fun i => ?_, fun o => ?_, fun hnone => absurd hnone hobj⟩
    · simp [hallocated, hobj]
    · simp [hpinned, hobj]
    · rw [hhash]
      exact h.hash i pf
    · rw [hrespages]
      exact h.respages o pf

theorem Holds.repin (h : Holds s c) (hold : (s.frame pf).pfPincount ≠ 0) (hn : n ≠ 0) :
    Holds (s.setFrame pf { s.frame pf with pfPincount := n }) c := by
  have hobj : (s.frame pf).pfObj ≠ none := fun hnone => hold (h.free pf hnone)
  have hpin := h.setPincount (n := n) (d := c) hobj rfl rfl (fun pf' => ?_) (fun pf' => ?_) h.rings
  · rw [← h.nallocated, ← h.npinned] at hpin
    exact hpin
  · by_cases hp : pf' = pf
    · simp [hp, h.allocated, hold, hn]
    · simp [hp]
  · by_cases hp : pf' = pf
    · simp [hp, h.pinned, hobj, hold, hn]
    · simp [hp]

theorem add_one_ne_zero (hn : ¬n < 0) : n+1 ≠ 0 := by
  intro h
  have : n = -1 := by
    rw [← Int32.add_sub_cancel n 1, h]
    rfl
  rw [this] at hn
  exact hn (by decide)

theorem pframePin_sound (h : Holds s c) : Sound (pframePin s pf) := by
  unfold pframePin
  dsimp only
  by_cases hobj : (s.frame pf).pfObj = none
  · rw [if_pos hobj]
    exact ⟨nofun, nofun⟩
  rw [if_neg hobj]
  by_cases hneg : (s.frame pf).pfPincount < 0
  · rw [if_pos hneg]
    exact ⟨nofun, nofun⟩
  rw [if_neg hneg]
  by_cases hzero : (s.frame pf).pfPincount = 0
  · have hmem : pf ∈ c.allocated := (h.allocated pf).mpr ⟨hobj, hzero⟩
    obtain ⟨links, hmove, hr⟩ := moveTail_spec h.rings (h := .allocList) (k := .pinnedList) rfl hmem
      rfl
    rw [update_allocList, update_pinnedList] at hr
    have hpin := h.setPincount (n := (s.frame pf).pfPincount+1)
      (d := ⟨c.allocated.erase pf, c.pinned++[pf], c.hash, c.respages⟩) hobj rfl rfl
      (fun pf' => ?_) (fun pf' => ?_) hr
    · rw [if_pos hzero, ← bind_assoc, hmove, bind_ok]
      rw [length_erase_int hmem, ← h.nallocated, length_append_int, ← h.npinned] at hpin
      exact ⟨_, hpin⟩
    · by_cases hp : pf' = pf
      · simp [hp, h.nodup_allocated.not_mem_erase, add_one_ne_zero hneg]
      · simp [hp, mem_erase_of_ne hp]
    · by_cases hp : pf' = pf
      · simp [hp, add_one_ne_zero hneg]
      · simp [hp]
  · rw [if_neg hzero]
    exact ⟨c, h.repin hzero (add_one_ne_zero hneg)⟩

theorem pframeUnpin_sound (h : Holds s c) (hpinned : (s.frame pf).pfPincount ≠ 0) :
    Sound (pframeUnpin s pf) := by
  have hobj : (s.frame pf).pfObj ≠ none := fun hnone => hpinned (h.free pf hnone)
  have hframe : (s.setFrame pf { s.frame pf with pfPincount := (s.frame pf).pfPincount-1 }).frame
      pf = { s.frame pf with pfPincount := (s.frame pf).pfPincount-1 } :=
    update_self _ _ _
  unfold pframeUnpin
  dsimp only
  rw [hframe]
  by_cases hzero : (s.frame pf).pfPincount-1 = 0
  · have hmem : pf ∈ c.pinned := (h.pinned pf).mpr ⟨hobj, hpinned⟩
    obtain ⟨links, hmove, hr⟩ := moveTail_spec (s := s.setFrame pf
      { s.frame pf with pfPincount := (s.frame pf).pfPincount-1 }) h.rings (h := .pinnedList)
      (k := .allocList) rfl hmem rfl
    rw [update_pinnedList, update_allocList] at hr
    have hpin := h.setPincount (n := (s.frame pf).pfPincount-1)
      (d := ⟨c.allocated++[pf], c.pinned.erase pf, c.hash, c.respages⟩) hobj rfl rfl
      (fun pf' => ?_) (fun pf' => ?_) hr
    · rw [if_pos hzero, ← bind_assoc, hmove, bind_ok]
      rw [length_erase_int hmem, ← h.npinned, length_append_int, ← h.nallocated] at hpin
      exact ⟨_, hpin⟩
    · by_cases hp : pf' = pf
      · simp [hp, hzero]
      · simp [hp]
    · by_cases hp : pf' = pf
      · simp [hp, h.nodup_pinned.not_mem_erase, hzero]
      · simp [hp, mem_erase_of_ne hp]
  · rw [if_neg hzero]
    exact ⟨c, h.repin hpinned hzero⟩

/-! ### Free pages -/

/-- The lists after a page has been taken off. -/
def Contents.remove (c : Contents) (pf : ℕ) (o pagenum : UInt32) : Contents where
  allocated := c.allocated.erase pf
  pinned := c.pinned
  hash := update c.hash (hashPage o pagenum) ((c.hash (hashPage o pagenum)).erase pf)
  respages := update c.respages o ((c.respages o).erase pf)

theorem Holds.remove (h : Holds s c) (hobj : (s.frame pf).pfObj = some o)
    (hpin : (s.frame pf).pfPincount = 0)
    (hr : Rings links Link.head (c.remove pf o (s.frame pf).pfPagenum).links) :
    Holds { s with
      links := links
      frame := update s.frame pf { s.frame pf with pfObj := none }
      nallocated := s.nallocated-1
      mmoNrespages := update s.mmoNrespages o (s.mmoNrespages o+ -1) }
      (c.remove pf o (s.frame pf).pfPagenum) := by
  have hmemA : pf ∈ c.allocated := (h.allocated pf).mpr ⟨by simp [hobj], hpin⟩
  have hmemR : pf ∈ c.respages o := (h.respages o pf).mpr hobj
  refine h.change pf hr (fun pf' hne => update_of_ne hne _ _) ?_ (fun pf' hne => ?_) ?_ ?_
    h.npinned (fun o' => ?_)
  · intro pf' _ o' ho
    dsimp only at ho
    rw [update_self] at ho
    exact nomatch ho
  · exact ⟨mem_erase_of_ne hne, Iff.rfl, mem_update (mem_erase_of_ne hne),
      mem_update (mem_erase_of_ne hne)⟩
  · dsimp only
    rw [update_self]
    refine ⟨by simp [Contents.remove, h.nodup_allocated.not_mem_erase],
      by simp [Contents.remove, h.pinned, hpin], fun i => ?_, fun o' => ?_, fun _ => hpin⟩
    · by_cases hi : i = hashPage o (s.frame pf).pfPagenum
      · simp [Contents.remove, hi, (h.nodup_hash _).not_mem_erase]
      · simp [Contents.remove, hi, h.hash, hobj, Ne.symm hi]
    · by_cases ho : o' = o
      · simp [Contents.remove, ho, (h.nodup_respages _).not_mem_erase]
      · simp [Contents.remove, ho, h.respages, hobj, Ne.symm ho]
  · exact (congrArg (·-1) h.nallocated).trans (length_erase_int hmemA).symm
  · change update s.mmoNrespages o _ o' =
      ((update c.respages o ((c.respages o).erase pf) o').length : ℤ)
    by_cases ho : o' = o
    · subst ho
      rw [update_self, update_self, h.nrespages, length_erase_int hmemR, Int.sub_eq_add_neg]
    · rw [update_of_ne ho, update_of_ne ho]
      exact h.nrespages o'

theorem pframeFree_sound (h : Holds s c) : Sound (pframeFree s t pf) := by
  unfold pframeFree
  dsimp only
  by_cases hpin : (s.frame pf).pfPincount = 0
  swap
  · rw [if_pos hpin]
    exact ⟨nofun, nofun⟩
  rw [if_neg (not_not.mpr hpin)]
  cases hobj : (s.frame pf).pfObj with
  | none => exact ⟨nofun, nofun⟩
  | some o =>
    dsimp only
    cases hbusy : (s.frame pf).busy with
    | true => exact ⟨nofun, nofun⟩
    | false =>
      have hmemA : pf ∈ c.allocated := (h.allocated pf).mpr ⟨by simp [hobj], hpin⟩
      have hmemH : pf ∈ c.hash (hashPage o (s.frame pf).pfPagenum) :=
        (h.hash _ pf).mpr ⟨o, hobj, rfl⟩
      have hmemR : pf ∈ c.respages o := (h.respages o pf).mpr hobj
      obtain ⟨links₁, h₁, hr₁⟩ := listRemove_spec h.rings
        (h := .pframeHash (hashPage o (s.frame pf).pfPagenum)) rfl hmemH
      rw [update_pframeHash] at hr₁
      obtain ⟨links₂, h₂, hr₂⟩ := listRemove_spec
        (s := { Cache.setFrame { s with links := links₁ } pf { s.frame pf with pfObj := none } with
          nallocated := s.nallocated-1 }) hr₁ (h := .allocList) rfl hmemA
      rw [update_allocList] at hr₂
      obtain ⟨links₃, h₃, hr₃⟩ := listRemove_spec
        (s := Cache.addNrespages { Cache.setFrame { s with links := links₂ } pf
          { s.frame pf with pfObj := none } with nallocated := s.nallocated-1 } o (-1)) hr₂
        (h := .mmoRespages o) rfl hmemR
      rw [update_mmoRespages] at hr₃
      rw [if_neg nofun]
      exact sound_bind h₁ (sound_bind h₂ (sound_bind h₃ ⟨_, (h.remove hobj hpin hr₃).enter t _⟩))

/-! ### Blocking operations and the daemon -/

theorem pframeDirty_sound (h : Holds s c) : Sound (pframeDirty s t pf) := by
  unfold pframeDirty
  dsimp only
  split
  · exact ⟨nofun, nofun⟩
  · split
    · exact ⟨nofun, nofun⟩
    · exact ⟨c, (h.setBusy pf).enter t _⟩

theorem pframeClean_sound (h : Holds s c) : Sound (pframeClean s t pf) := by
  unfold pframeClean
  dsimp only
  split
  · exact ⟨nofun, nofun⟩
  · split
    · exact ⟨nofun, nofun⟩
    · split
      · exact ⟨nofun, nofun⟩
      · exact ⟨c, ((h.setDirty pf false).setBusy pf).enter t _⟩

theorem pageoutdRun_sound (h : Holds s c) {pageFreeCount nfreepagesTarget : ℕ} :
    Sound (pageoutdRun s pageFreeCount nfreepagesTarget) := by
  unfold pageoutdRun
  by_cases hdone : pageFreeCount ≥ nfreepagesTarget ∨ s.links.isEmpty (.head .allocList) = true
  · rw [if_pos hdone]
    exact ⟨c, h.congr rfl (fun _ => ⟨rfl, rfl, rfl⟩) rfl rfl rfl⟩
  · rw [if_neg hdone]
    have hne : c.links .allocList ≠ [] := by
      rw [ne_eq, ← h.rings.isEmpty_iff .allocList]
      exact fun hempty => hdone (.inr hempty)
    have hnext := h.rings.next_head .allocList
    cases halloc : c.allocated with
    | nil => exact absurd (congrArg (map (Link.field .pfLink)) halloc) hne
    | cons pf l =>
      have hhead : c.links .allocList = Link.field .pfLink pf::l.map (.field .pfLink) :=
        congrArg (map (Link.field .pfLink)) halloc
      rw [hhead, headD_cons] at hnext
      rw [hnext]
      dsimp only
      split_ifs
      · exact ⟨c, (h.sleepOn pageoutd pf).enter pageoutd _⟩
      · exact pframeClean_sound h
      · exact pframeFree_sound h

theorem returned_sound (h : Holds s c) {ret : ℤ} : Sound (returned s t ret) := by
  unfold returned
  split
  · exact ⟨c, (h.clearBusy _).leave t⟩
  · refine ⟨c, Holds.leave (Holds.clearBusy ?_ _) t⟩
    split_ifs
    · exact h.setDirty _ true
    · exact h
  · refine ⟨c, Holds.leave (Holds.clearBusy ?_ _) t⟩
    split_ifs
    · exact h.setDirty _ true
    · exact h
  · exact ⟨c, h.leave t⟩
  · exact ⟨nofun, nofun⟩

theorem marked_sound (h : Holds s c) {dirty : Bool} : Sound (marked s t dirty) := by
  unfold marked
  split
  · exact ⟨c, h.setDirty _ dirty⟩
  · exact ⟨c, h.setDirty _ dirty⟩
  · exact ⟨nofun, nofun⟩

theorem woken_sound (h : Holds s c) : Sound (woken s t) := by
  unfold woken
  split
  · split_ifs
    · exact ⟨nofun, nofun⟩
    · exact ⟨c, h.sleepOn t _⟩
    · exact ⟨c, h.leave t⟩
  · split_ifs
    · exact ⟨nofun, nofun⟩
    · exact ⟨c, h.leave t⟩
  · exact ⟨nofun, nofun⟩

theorem calling_sound {x : Except Fault Cache} (hx : Sound x) : Sound (calling s t x) := by
  unfold calling
  split_ifs
  · exact hx
  · exact ⟨nofun, nofun⟩

def UnpinsPinned (s : Cache) : Event → Prop
  | .unpin _ pf => (s.frame pf).pfPincount ≠ 0
  | _ => True

theorem cacheNext_sound (h : Holds s c) {e : Event} (he : UnpinsPinned s e) :
    Sound (cacheNext s e) := by
  cases e with
  | get t o pagenum pageFreeCount slab => exact calling_sound (pframeGet_sound h)
  | pin t pf => exact calling_sound (pframePin_sound h)
  | unpin t pf => exact calling_sound (pframeUnpin_sound h he)
  | dirty t pf => exact calling_sound (pframeDirty_sound h)
  | clean t pf => exact calling_sound (pframeClean_sound h)
  | free t pf => exact calling_sound (pframeFree_sound h)
  | pageout pageFreeCount nfreepagesTarget =>
    unfold cacheNext
    split_ifs
    · exact pageoutdRun_sound h
    · exact ⟨nofun, nofun⟩
  | marked t dirty => exact marked_sound h
  | returned t ret => exact returned_sound h
  | woken t => exact woken_sound h

end Functions

/-! ### Runs -/

theorem pframeInit_holds : Holds pframeInit ⟨[], [], fun _ => [], fun _ => []⟩ where
  rings :=
    { joined := fun h => by cases h <;> exact ⟨rfl, rfl⟩
      nodup := fun h => by cases h <;> exact nodup_nil
      apart := fun h _ a ha => by cases h <;> exact absurd ha not_mem_nil
      heads := fun _ h => by cases h <;> exact not_mem_nil
      head_inj := fun _ _ h => Link.head.inj h }
  unique _ _ _ h := nomatch h
  allocated pf := by simp [pframeInit]
  pinned pf := by simp [pframeInit]
  hash i pf := by simp [pframeInit]
  respages o pf := by simp [pframeInit]
  nallocated := rfl
  npinned := rfl
  nrespages _ := rfl
  free _ _ := rfl

theorem holds_run {s : Cache} {es : List Event}
    (hrun : Run CacheStep UnpinsPinned pframeInit es s) : ∃ c, Holds s c := by
  apply hrun.invariant (I := fun s => ∃ c, Holds s c)
  · intro s e s' he hs ⟨c, h⟩
    have hsound := cacheNext_sound h he
    rw [hs] at hsound
    exact hsound
  · exact ⟨_, pframeInit_holds⟩

/-- The list with a head consists of the frames, linked by a field. -/
def ListOf (s : Cache) (h : Head) (f : Field) (pfs : List ℕ) : Prop :=
  pfs.Nodup ∧ Joined s.links.next s.links.prev (.head h) (pfs.map (.field f)) (.head h)

/-- At most one frame has an identity, every frame is in the bucket of its identity, on the list
of its object and on the allocated or the pinned list as its pin count says, and nothing else is
on these lists. The counts are the lengths of the lists, and no list is found damaged by what
comes next. -/
structure Consistent (s : Cache) : Prop where
  unique : ∀ pf pf' o, (s.frame pf).pfObj = some o → (s.frame pf').pfObj = some o →
    (s.frame pf).pfPagenum = (s.frame pf').pfPagenum → pf = pf'
  hash : ∀ i, ∃ pfs, ListOf s (.pframeHash i) .pfHlink pfs ∧
    ∀ pf, pf ∈ pfs ↔ ∃ o, (s.frame pf).pfObj = some o ∧ hashPage o (s.frame pf).pfPagenum = i
  respages : ∀ o, ∃ pfs, ListOf s (.mmoRespages o) .pfOlink pfs ∧
    (∀ pf, pf ∈ pfs ↔ (s.frame pf).pfObj = some o) ∧ s.mmoNrespages o = pfs.length
  allocated : ∃ pfs, ListOf s .allocList .pfLink pfs ∧
    (∀ pf, pf ∈ pfs ↔ (s.frame pf).pfObj ≠ none ∧ (s.frame pf).pfPincount = 0) ∧
    s.nallocated = pfs.length
  pinned : ∃ pfs, ListOf s .pinnedList .pfLink pfs ∧
    (∀ pf, pf ∈ pfs ↔ (s.frame pf).pfObj ≠ none ∧ (s.frame pf).pfPincount ≠ 0) ∧
    s.npinned = pfs.length
  intact : ∀ e, UnpinsPinned s e →
    cacheNext s e ≠ .error .brokenList ∧ cacheNext s e ≠ .error .endlessChain

theorem Holds.consistent {s : Cache} {c : Contents} (h : Holds s c) : Consistent s where
  unique := h.unique
  hash i := ⟨c.hash i, ⟨h.nodup_hash i, h.rings.joined (.pframeHash i)⟩, h.hash i⟩
  respages o := ⟨c.respages o, ⟨h.nodup_respages o, h.rings.joined (.mmoRespages o)⟩,
    h.respages o, h.nrespages o⟩
  allocated := ⟨c.allocated, ⟨h.nodup_allocated, h.rings.joined .allocList⟩, h.allocated,
    h.nallocated⟩
  pinned := ⟨c.pinned, ⟨h.nodup_pinned, h.rings.joined .pinnedList⟩, h.pinned, h.npinned⟩
  intact e he := by
    have hsound := cacheNext_sound h he
    cases hnext : cacheNext s e with
    | ok s' => exact ⟨nofun, nofun⟩
    | error f =>
      rw [hnext] at hsound
      exact ⟨fun heq => hsound.1 (Except.error.inj heq), fun heq => hsound.2 (Except.error.inj heq)⟩

/-- Whatever the threads and the daemon do in which order, the cache is consistent whenever one
of them can be interrupted. -/
theorem cache_stays_consistent (s : Cache) (es : List Event)
    (hrun : Run CacheStep UnpinsPinned pframeInit es s) : Consistent s := by
  obtain ⟨c, h⟩ := holds_run hrun
  exact h.consistent

theorem cacheNext_toOption (s : Cache) (e : Event) (s' : Cache)
    (h : (cacheNext s e).toOption = some s') : CacheStep s e s' := by
  unfold CacheStep
  cases hn : cacheNext s e with
  | error f =>
    rw [hn] at h
    exact absurd h nofun
  | ok t =>
    rw [hn] at h
    rw [Option.some.inj h]

instance (s : Cache) (e : Event) : Decidable (UnpinsPinned s e) := by
  cases e <;> unfold UnpinsPinned <;> infer_instance

/-- A thread gets two pages in one bucket while another one waits for the first of them. One page
is pinned and unpinned, and the other one is freed by the daemon. -/
def twoPages : List Event :=
  [.get 1 4096 3 9 (some 100), .get 2 4096 3 9 none, .returned 1 0, .woken 2,
    .get 1 4096 20 0 (some 200), .returned 1 0, .pin 1 100, .pin 2 100, .unpin 1 100,
    .pageout 1 5, .returned 0 0]

theorem cache_stays_consistent_two : ∃ s, Run CacheStep UnpinsPinned pframeInit twoPages s ∧
    (s.frame 100).pfPincount = 1 ∧ (s.frame 200).pfObj = none ∧ Consistent s := by
  exact (exists_run cacheNext_toOption (P := fun s => (s.frame 100).pfPincount = 1 ∧
      (s.frame 200).pfObj = none) (by decide +kernel)).imp fun s h =>
    ⟨h.1, h.2.1, h.2.2, cache_stays_consistent s _ h.1⟩

end SystemsProjects.PframeCache
