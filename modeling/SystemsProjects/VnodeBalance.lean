import SystemsProjects.DescriptorCalls
import SystemsProjects.PathCallSafety

/-!
# The balance of vnode references

A vnode counts the files that were opened on it, the processes that work in it and, for the
root, the mounted file system. Inside a call it also counts the references the call holds.
-/
namespace SystemsProjects.VnodeBalance
open Option
open Function CallOutcomes VfsState RamfsOperations PathCalls FileCalls VfsCalls VfsFrames List
open FileReferences VnodeReferences PathCallSafety DescriptorCalls GuardedRuns

variable {s t u : VState} {l : List ℕ} {v cur : ℕ}

/-! ### Who refers to a vnode -/

def fileVnode (s : VState) (f : ℕ) : Option ℕ := (s.files f).bind File.fVnode

def fileUsers (s : VState) (v : ℕ) : ℕ :=
  (range s.nextFile).countP fun f => fileVnode s f = some v

/-- The number of processes that work in a vnode. -/
def cwdUsers (s : VState) (v : ℕ) : ℕ := s.procs.countP fun p => p.pCwd = some v

/-- Open files, working directories and the reference of the mount to its root. -/
def users (s : VState) (v : ℕ) : ℕ := fileUsers s v+cwdUsers s v+if v = 0 then 1 else 0

theorem fileUsers_congr (hn : t.nextFile = s.nextFile) (hf : fileVnode t = fileVnode s) (v : ℕ) :
    fileUsers t v = fileUsers s v := by rw [fileUsers, fileUsers, hn, hf]

variable {f : ℕ}

theorem countP_update (g : ℕ → Option ℕ) {n : ℕ} (y : Option ℕ) (v : ℕ) (hf : f < n) :
    (range n).countP (fun i => update g f y i = some v)
        +(if g f = some v then 1 else 0)
      = (range n).countP (fun i => g i = some v)+if y = some v then 1 else 0 := by
  induction n with
  | zero => omega
  | succ n ih =>
    rw [range_succ, countP_append, countP_append, countP_singleton, countP_singleton]
    by_cases hn : f = n
    · subst hn
      have hsame : (range f).countP (fun i => update g f y i = some v)
          = (range f).countP fun i => g i = some v := by
        apply countP_congr
        intro i hi
        rw [update_of_ne (mem_range.mp hi).ne]
      simp only [hsame, update_self, decide_eq_true_eq]
      omega
    · have hi := ih (by omega)
      simp only [update_of_ne (Ne.symm hn)]
      omega

theorem cwdUsers_withSlot (s : VState) (cur fd : ℕ) (x : Option ℕ) (v : ℕ) :
    cwdUsers (withSlot s cur fd x) v = cwdUsers s v := by
  cases hp : s.procs[cur]? with
  | none =>
    have he : withSlot s cur fd x = s := by
      unfold withSlot
      rw [modify_eq_self (by simpa using hp)]
    rw [he]
  | some p =>
    have h := countP_modify (fun p : VProc => decide (p.pCwd = some v))
      (fun p => { p with pFiles := p.pFiles.set fd x }) hp
    simp only [cwdUsers, withSlot] at *
    exact Nat.add_right_cancel h

/-- The references are those of the users and those in `l`, which the call holds; no vnode
was used late. -/
structure Balanced (l : List ℕ) (s : VState) : Prop where
  late : s.late = false
  held : s.held = l
  numbered : ∀ f, s.nextFile ≤ f → s.files f = none
  counts : ∀ v, s.refs v = users s v+l.count v

theorem Balanced.sane (h : Balanced l s) : Sane s where
  late := h.late
  covered v := by
    rw [h.held, h.counts v]
    omega

theorem users_same (h : SameFiles s t) (v : ℕ) : users t v = users s v := by
  have hf : fileVnode t = fileVnode s := by
    unfold fileVnode
    rw [h.files]
  rw [users, users, fileUsers_congr h.nextFile hf, cwdUsers, cwdUsers, h.procs]

theorem Balanced.moved {l' p : List ℕ} (h : Balanced l s) (hm : Moves p s t)
    (hf : SameFiles s t) (hl : t.held = l') : Balanced l' t where
  late := hm.late.trans h.late
  held := hl
  numbered f hle := by
    rw [hf.files]
    exact h.numbered f (hf.nextFile ▸ hle)
  counts v := by
    have hc := hm.counts v
    have hu := users_same hf v
    rw [h.held, hl, h.counts v] at hc
    omega

theorem Balanced.settled (h : Balanced l s) (hm : Settles s t) (hf : SameFiles s t) :
    Balanced l t := h.moved hm.moves hf (hm.held.trans h.held)

/-- The state changes in the files and slots only, and no vnode gets or loses a user. -/
theorem Balanced.recount (h : Balanced l s) (hv : t.vnodes = s.vnodes) (hh : t.held = s.held)
    (hlate : t.late = s.late) (hn : ∀ f, t.nextFile ≤ f → t.files f = none)
    (hu : ∀ v, users t v = users s v) : Balanced l t where
  late := hlate.trans h.late
  held := hh.trans h.held
  numbered := hn
  counts v := by
    rw [hu v, ← h.counts v, VState.refs, VState.refs, hv]

theorem fileVnode_setFile (s : VState) (f : ℕ) (y : Option File) :
    fileVnode (s.setFile f y) = update (fileVnode s) f (y.bind File.fVnode) := by
  funext g
  by_cases hg : g = f
  · subst hg
    simp [fileVnode, VState.setFile]
  · simp [fileVnode, VState.setFile, hg]

variable {x : File}

theorem Balanced.numbered_setFile (h : Balanced l s) (hx : s.files f = some x) (y : Option File) :
    ∀ g, (s.setFile f y).nextFile ≤ g → (s.setFile f y).files g = none := by
  intro g hg
  have hne : g ≠ f := by
    rintro rfl
    rw [h.numbered g hg] at hx
    cases hx
  exact (update_of_ne hne _ _).trans (h.numbered g hg)

theorem users_setFile_same {y : Option File} (hx : s.files f = some x)
    (hy : y.bind File.fVnode = x.fVnode) (v : ℕ) : users (s.setFile f y) v = users s v := by
  have hv : fileVnode (s.setFile f y) = fileVnode s := by
    rw [fileVnode_setFile, hy, update_eq_self_iff]
    simp [fileVnode, hx]
  have hu : fileUsers (s.setFile f y) v = fileUsers s v :=
    fileUsers_congr (s := s) (t := s.setFile f y) rfl hv v
  rw [users, users, hu]
  rfl

theorem Balanced.lt_next (h : Balanced l s) (hx : s.files f = some x) : f < s.nextFile := by
  by_contra hle
  rw [h.numbered f (not_lt.mp hle)] at hx
  cases hx

theorem users_setFile (hx : s.files f = some x) (hf : f < s.nextFile) (y : Option File) (v : ℕ) :
    users (s.setFile f y) v+(if x.fVnode = some v then 1 else 0)
      = users s v+if y.bind File.fVnode = some v then 1 else 0 := by
  have h := countP_update (fileVnode s) (y.bind File.fVnode) v hf
  have hfx : fileVnode s f = x.fVnode := by simp [fileVnode, hx]
  rw [hfx, ← fileVnode_setFile] at h
  change (fileUsers (s.setFile f y) v+cwdUsers s v+_)+_ = (fileUsers s v+cwdUsers s v+_)+_
  simp only [fileUsers]
  change ((range s.nextFile).countP _+_+_)+_ = _
  omega

theorem vref_spec (v : ℕ) (s : VState) : Ends (vref v s) (fun h => h.late = s.late)
    fun _ t => t.late = s.late ∧ t.held = s.held ∧
      ∀ w, t.refs w = s.refs w+if w = v then 1 else 0 := by
  unfold vref
  split
  next vn hvn =>
    split
    · refine ⟨rfl, rfl, fun w => ?_⟩
      by_cases hw : w = v
      · subst hw
        rw [VState.refs_setVnode_self, refs_of_vnode hvn, if_pos rfl]
      · rw [VState.refs_setVnode_of_ne s _ hw, if_neg hw]
        rfl
    · rfl
  · rfl

theorem users_append (s : VState) (p : VProc) (v : ℕ) :
    users { s with procs := s.procs ++ [p] } v = users s v+if p.pCwd = some v then 1 else 0 := by
  have hc : cwdUsers { s with procs := s.procs ++ [p] } v
      = cwdUsers s v+if p.pCwd = some v then 1 else 0 := by
    simp [cwdUsers, countP_append, countP_singleton]
  rw [users, users, hc]
  change fileUsers s v+_+_ = _
  omega

theorem refs_written {v : ℕ} {vn : Vnode} (hv : s.vnodes v = some vn) (inode : Inode)
    (page : ℕ → UInt8) (pos ret : ℤ) (buf : List UInt8) (w : ℕ) :
    (written s v inode vn page pos ret buf).refs w = s.refs w := by
  by_cases hw : w = v
  · subst hw
    rw [written, VState.refs_setVnode_self, refs_of_vnode hv]
  · rw [written, VState.refs_setVnode_of_ne _ _ hw]
    rfl

theorem Balanced.drop {l : List ℕ} (h : Balanced l s) (hd : Dropped v s t)
    (hu : ∀ w, users u w+(if w = v then 1 else 0) = users s w) (huv : u.vnodes = t.vnodes)
    (huh : u.held = t.held) (hul : u.late = t.late)
    (hn : ∀ f, u.nextFile ≤ f → u.files f = none) : Balanced l u where
  late := hul.trans (hd.late.trans h.late)
  held := huh.trans (hd.held.trans h.held)
  numbered := hn
  counts w := by
    have hr : u.refs w = t.refs w := by rw [VState.refs, VState.refs, huv]
    have hc := h.counts w
    have hw := hu w
    rw [hr]
    by_cases he : w = v
    · subst he
      have := hd.self
      rw [if_pos rfl] at hw
      omega
    · rw [if_neg he] at hw
      have := hd.other w he
      omega

theorem balanced_rules (l : List ℕ) : DescriptorRules (Balanced l) where
  file h hx hy := h.recount rfl rfl rfl (h.numbered_setFile hx _)
    (users_setFile_same hx hy.fVnode)
  fresh := by
    intro s h
    refine h.recount rfl rfl rfl ?_ fun v => ?_
    · intro g hg
      have hne : g ≠ s.nextFile := by
        rintro rfl
        exact absurd hg (Nat.not_succ_le_self _)
      exact (update_of_ne hne _ _).trans (h.numbered g ((Nat.le_succ _).trans hg))
    · have hv : fileVnode (s.setFile s.nextFile (some ⟨0, 0, 0, none⟩)) = fileVnode s := by
        rw [fileVnode_setFile, update_eq_self_iff]
        simp [fileVnode, h.numbered]
      have hnone : fileVnode s s.nextFile = none := by simp [fileVnode, h.numbered]
      change (range (s.nextFile+1)).countP
        (fun f => fileVnode (s.setFile s.nextFile (some ⟨0, 0, 0, none⟩)) f = some v)+_+_ = _
      rw [hv, range_succ, countP_append, countP_singleton, hnone, if_neg (by simp)]
      rfl
  empty h hx hv := h.recount rfl rfl rfl (h.numbered_setFile hx _)
    (users_setFile_same hx (by simpa using hv.symm))
  last := by
    intro s f v x h hx hv
    refine ((dropRef_spec h.late v).and (keeps_dropRef (I := SameFiles s) v s (.refl s))).mono
      (fun _ _ => trivial) ?_
    rintro _ t ⟨hd, hf⟩
    have hlt : f < t.nextFile := by
      rw [hf.nextFile]
      exact h.lt_next hx
    have hxt : t.files f = some x := by rw [hf.files, hx]
    refine h.drop (t := t) hd (fun w => ?_) rfl rfl rfl ?_
    · have hu := users_setFile hxt hlt none w
      rw [hv, users_same hf] at hu
      simp only [some.injEq, bind_none, reduceCtorEq, if_false,
        Nat.add_zero, eq_comm (b := w)] at hu
      exact hu
    · intro g hg
      have hne : g ≠ f := by
        rintro rfl
        exact absurd hlt (not_lt.mpr hg)
      refine (update_of_ne hne _ _).trans ?_
      change t.files g = none
      rw [hf.files]
      exact h.numbered g (hf.nextFile ▸ hg)
  slot cur fd x h := by
    refine h.recount rfl rfl rfl h.numbered fun v => ?_
    rw [users, users, cwdUsers_withSlot]
    rfl
  write v pos buf := by
    intro s h
    refine (ramfsWrite_spec s v pos buf).mono (fun _ _ => trivial) ?_
    rintro ret _ ⟨-, -, inode, vn, page, -, hvn, -, -, rfl⟩
    exact ⟨h.late, h.held, h.numbered, fun w => (refs_written hvn ..).trans (h.counts w)⟩
  process := by
    intro s v p h hv
    refine ((vref_spec v s).gives).and
      (keeps_vref (I := SameFiles s) v s (.refl s)) |>.imp ?_
    rintro _ t ⟨⟨hl, hh, hr⟩, hf⟩
    refine ⟨hl.trans h.late, hh.trans h.held, ?_, fun w => ?_⟩
    · intro g hg
      change t.files g = none
      rw [hf.files]
      exact h.numbered g (hf.nextFile ▸ hg)
    · change t.refs w = _
      rw [users_append, users_same hf, hr w, h.counts w, hv]
      simp only [some.injEq, eq_comm (a := w)]
      omega
  daemon := by
    intro s p h hv
    refine h.recount rfl rfl rfl h.numbered fun v => ?_
    rw [users_append, hv, if_neg (by simp), Nat.add_zero]

/-! ### The calls that move a reference -/

theorem vput_balanced (h : Balanced (v :: l) s) :
    Ends (vput (some v) s) (fun h => h.late = false) fun _ t => Balanced l t := by
  refine ((vput_first h.sane [] h.held).mono (fun _ hc => hc.1) fun _ _ hq => hq).and
    (keeps_vput (I := SameFiles s) (some v) s (.refl s)) |>.imp ?_
  rintro _ t ⟨⟨hm, hh⟩, hf⟩
  exact h.moved hm hf hh

theorem openNamev_balanced (h : Balanced l s) {path : List Char} (flag : ℕ) (base : Option ℕ)
    (hfit : Fits path) :
    Ends (openNamev cur path flag base s) (fun h => h.late = false) fun r t =>
      (∃ v, r = (.val 0, some v) ∧ Balanced (v :: l) t ∧ SameFiles s t) ∨
      (∃ e, r = (.err e, none) ∧ Balanced l t ∧ SameFiles s t) := by
  refine ((openNamev_spec h.sane cur flag base hfit).mono (fun _ hc => hc.1) fun _ _ hq => hq).and
    ((sameFiles_rules _).openNamev cur path flag base s (.refl s)) |>.imp ?_
  rintro r t ⟨hr, hf⟩
  cases hr with
  | found hm hh => exact .inl ⟨_, rfl, h.moved hm hf (hh.trans (by rw [h.held])), hf⟩
  | failed hm hh => exact .inr ⟨_, rfl, h.moved hm hf (hh.trans h.held), hf⟩

theorem finishOpen_balanced {fmode : ℕ} (append : Bool) (h : Balanced (v :: l) s)
    (hx : s.files f = some x) (hv : x.fVnode = none) :
    Ends (finishOpen f v fmode append s) (fun h => h.late = false) fun _ t => Balanced l t := by
  unfold finishOpen
  rw [bind_ok (fileAt_eq hx), bind_ok (rfl : putFile f _ _ = .ok ((), _)),
    bind_ok (rfl : release v _ = .ok ((), _))]
  refine ⟨h.late, ?_, h.numbered_setFile hx _, fun w => ?_⟩
  · change s.held.erase v = l
    rw [h.held]
    exact erase_cons_head ..
  · have hu := users_setFile hx (h.lt_next hx)
      (some { x with fMode := if append then fmode ||| 4 else fmode, fVnode := some v }) w
    rw [hv] at hu
    simp only [reduceCtorEq, if_false, Nat.add_zero, bind_some, some.injEq] at hu
    have hc := h.counts w
    rw [count_cons] at hc
    simp only [beq_iff_eq] at hc
    change s.refs w = users (s.setFile f _) w+_
    omega

theorem abandonOpen_balanced {fd : ℕ} (h : Balanced (v :: l) s) (hx : s.files f = some x)
    (hm : x.fMode < 8) (hp : -1 ≤ x.fPos) (hone : x.fRefcount = 1) (hv : x.fVnode = none) :
    Ends (abandonOpen cur fd f v s) (fun h => h.late = false) fun _ t => Balanced l t := by
  unfold abandonOpen
  rw [bind_ok (fput_opening hx hm hp hone hv)]
  refine (vput_balanced ((balanced_rules _).empty h hx hv)).bind fun _ t ht => ?_
  exact (balanced_rules l).slot cur fd none ht

theorem doOpen_balanced (h : Balanced l s) {filename : List Char} (oflags : ℕ)
    (hfit : Fits filename) :
    Ends (doOpen cur filename oflags s) (fun h => h.late = false) fun _ t => Balanced l t := by
  unfold doOpen
  refine ((procAt_calm h.sane cur).mono (fun _ hc => hc.1) fun _ _ hq => hq).bind ?_
  rintro p _ ⟨rfl, -⟩
  cases getEmptyFd p with
  | none => exact h
  | some fd =>
    dsimp only
    by_cases hm : s.memory
    case neg =>
      rw [bind_ok ((fget_new cur s).trans (if_neg hm))]
      refine (openNamev_balanced h _ none hfit).bind ?_
      rintro r t (⟨v, -, ht, -⟩ | ⟨e, -, ht, -⟩)
      · exact ht.late
      · exact ht.late
    rw [bind_ok ((fget_new cur s).trans (if_pos hm))]
    dsimp only
    rw [bind_ok (setSlot_eq _ cur fd _)]
    have hopen : Balanced l (opening s) :=
      (keeps_fget (balanced_rules l) cur (-1) s h).of_ok ((fget_new cur s).trans (if_pos hm))
    refine (openNamev_balanced ((balanced_rules l).slot cur fd _ hopen) _ none hfit).bind ?_
    have hfile {t : VState} (ht : SameFiles (reserved s cur fd) t) := (opening_of_same ht).file
    rintro r t (⟨v, rfl, ht, hf⟩ | ⟨e, rfl, ht, hf⟩)
    · rw [if_neg (by simp [Ret.failed]), bind_ok (readOut_some v t)]
      have hab : ∀ r, Ends ((do
          abandonOpen cur fd s.nextFile v
          return r : Vfs Ret) t) (fun h => h.late = false) fun _ u => Balanced l u := fun r =>
        (abandonOpen_balanced ht (hfile hf) (by decide) (by decide) rfl rfl).bind
          fun _ _ hu => ends_pure hu
      have hfin : ∀ m b r, Ends ((do
          finishOpen s.nextFile v m b
          return r : Vfs Ret) t) (fun h => h.late = false) fun _ u => Balanced l u := fun m b r =>
        (finishOpen_balanced b ht (hfile hf) rfl).bind fun _ _ hu => ends_pure hu
      split
      · exact hab _
      split
      · exact hfin _ _ _
      refine ((vnMode_spec ht.sane (mem_held ht.held)).mono (fun _ hc => hc.1)
        fun _ _ hq => hq).bind ?_
      rintro k _ ⟨rfl, -⟩
      split
      · exact hab _
      · exact hfin _ _ _
    · rw [if_pos (by rfl), bind_ok (fput_opening (hfile hf) (by decide) (by decide) rfl rfl),
        bind_ok (setSlot_eq _ cur fd none)]
      exact (balanced_rules l).slot cur fd none ((balanced_rules l).empty ht (hfile hf) rfl)

/-- The working directory of a process changes. -/
def withCwd (s : VState) (cur v : ℕ) : VState :=
  { s with procs := s.procs.modify cur fun p => { p with pCwd := some v } }

theorem users_withCwd {p : VProc} {old : ℕ} (hp : s.procs[cur]? = some p)
    (hold : p.pCwd = some old) (v w : ℕ) :
    users (withCwd s cur v) w+(if old = w then 1 else 0)
      = users s w+if v = w then 1 else 0 := by
  have h := countP_modify (fun p : VProc => decide (p.pCwd = some w))
    (fun p => { p with pCwd := some v }) hp
  simp only [hold, some.injEq, decide_eq_true_eq] at h
  change fileUsers s w+cwdUsers (withCwd s cur v) w+_+_ = fileUsers s w+cwdUsers s w+_+_
  simp only [cwdUsers, withCwd]
  omega

/-- The old working directory loses a reference and the new one keeps the one that path
resolution took. -/
theorem doChdir_balanced (h : Balanced [] s) (path : List Char) :
    Ends (doChdir cur path s) (fun h => h.late = false) fun _ t => Balanced [] t := by
  unfold doChdir
  split
  · exact h
  next hlen =>
    refine ((procAt_calm h.sane cur).mono (fun _ hc => hc.1) fun _ _ hq => hq).bind ?_
    rintro p _ ⟨rfl, hp⟩
    refine (openNamev_balanced h 0 p.pCwd (fits_of_short hlen le_rfl)).bind ?_
    rintro r t (⟨v, rfl, ht, hf⟩ | ⟨e, rfl, ht, hf⟩)
    case inr => exact ht
    rw [if_neg (by simp [Ret.failed]), bind_ok (readOut_some v t)]
    refine ((vnMode_spec ht.sane (mem_held ht.held)).mono (fun _ hc => hc.1)
      fun _ _ hq => hq).bind ?_
    rintro k _ ⟨rfl, -⟩
    split
    · exact (vput_balanced ht).bind fun _ _ hu => ends_pure hu
    cases hcwd : p.pCwd with
    | none => exact ht.late
    | some old =>
      have hpt : t.procs[cur]? = some p := by rw [hf.procs, hp]
      refine (((dropRef_spec ht.late old).mono (fun _ hc => hc.1) fun _ _ hq => hq).and
        (keeps_dropRef (I := SameFiles t) old t (.refl t))).bind ?_
      rintro _ w ⟨hd, hfw⟩
      have hlate : w.late = false := hd.late.trans ht.late
      rw [bind_ok (rfl : setCwd cur v w = .ok ((), withCwd w cur v))]
      refine (((vref_spec v (withCwd w cur v)).mono (fun _ hc => hc.trans hlate)
        fun _ _ hq => hq).and (keeps_vref (I := SameFiles _) v _ (.refl _))).bind ?_
      rintro _ x ⟨⟨hlx, hhx, hrx⟩, hfx⟩
      have hheld : x.held = [v] := hhx.trans (hd.held.trans ht.held)
      -- after the swap the state is balanced with the reference that is still held
      have hx : Balanced [v] x := by
        refine ⟨hlx.trans hlate, hheld, ?_, fun y => ?_⟩
        · intro g hg
          rw [hfx.files]
          change w.files g = none
          rw [hfw.files]
          refine ht.numbered g ?_
          rw [← hfw.nextFile]
          exact hfx.nextFile ▸ hg
        · have hu := users_withCwd (s := w) (by rw [hfw.procs, hpt]) hcwd v y
          rw [users_same hfw] at hu
          rw [users_same hfx, hrx]
          have hc := ht.counts y
          have hr : (withCwd w cur v).refs y = w.refs y := rfl
          rw [count_cons, count_nil] at *
          simp only [beq_iff_eq, eq_comm (a := y)] at *
          rw [hr]
          by_cases hy : old = y
          · subst hy
            have := hd.self
            rw [if_pos rfl] at hu
            omega
          · have := hd.other y (Ne.symm hy)
            rw [if_neg hy] at hu
            omega
      exact (vput_balanced hx).bind fun _ _ hu => ends_pure hu

/-! ### Whole runs -/

/-- The condition under which a call keeps the balance. -/
def FairCall (s : VState) (cur : ℕ) : VfsCall → Prop
  | .mknod path mode _ =>
    Fits path ∧ (isChr mode ∨ isBlk mode → NamevMeets s cur path MknodNamed)
  | .mkdir path => Fits path ∧ NamevMeets s cur path MkdirRefused
  | .rmdir path => Fits path
  | .unlink path => Fits path
  | .link source target => TargetMeets s cur source target LinkNew
  | .rename oldname newname => Fits oldname ∧ TargetMeets s cur oldname newname LinkNew
  | .openFile filename _ => Fits filename
  | _ => True

instance (s : VState) (cur : ℕ) : ∀ c, Decidable (FairCall s cur c) := fun c => by
  rcases c with _ | _ <;> unfold FairCall <;> infer_instance

/-- A call that meets its condition keeps the balance if it returns, and uses no vnode late
whether it returns or not. -/
theorem perform_balanced (h : Balanced [] s) (c : VfsCall) (hg : FairCall s cur c) :
    Ends (perform cur c s) (fun h => TakesPath c → h.late = false)
      fun _ t => Balanced [] t := by
  have hs := h.sane
  -- a call on vnodes only that settles, and a call on descriptors
  have hvn : ∀ {α β : Type} {m : Vfs α} {g : α → β}, Ends (m s) Calm (fun _ t => Settles s t) →
      Keeps (SameFiles s) m → Ends ((g <$> m) s) (fun h => TakesPath c → h.late = false)
        fun _ t => Balanced [] t := by
    intro α β m g hm hk
    refine ((hm.and (hk s (.refl s))).mono (fun _ hc _ => hc.1) ?_).wrap
    rintro _ t ⟨hst, hf⟩
    exact h.settled hst hf
  have hfd : ∀ {α β : Type} {m : Vfs α} {g : α → β}, Keeps (Balanced []) m →
      TakesPath c = false → Ends ((g <$> m) s) (fun h => TakesPath c → h.late = false)
        fun _ t => Balanced [] t :=
    fun hk hc => ((hk s h).mono (fun _ _ hp => by simp [hc] at hp) fun _ _ ht => ht).wrap
  have R := balanced_rules []
  have F := sameFiles_rules s
  cases c with
  | mknod path mode devid =>
    exact hvn (doMknod_spec hs hg.1 mode devid hg.2) (F.doMknod cur path mode devid)
  | mkdir path => exact hvn (doMkdir_refused hs hg.1 hg.2) (F.doMkdir cur path)
  | rmdir path => exact hvn (doRmdir_spec hs hg) (F.doRmdir cur path)
  | unlink path => exact hvn (doUnlink_spec hs hg) (F.doUnlink cur path)
  | link source target => exact hvn (doLink_new hs hg) (F.doLink cur keeps_ramfsLink source target)
  | rename oldname newname =>
    exact hvn (doRename_new hs hg.1 hg.2) (F.doRename cur keeps_ramfsLink oldname newname)
  | chdir path => exact ((doChdir_balanced h path).mono (fun _ hc _ => hc) fun _ _ ht => ht).wrap
  | stat path => exact hvn (doStat_spec hs) (F.doStat cur path)
  | openFile filename oflags =>
    exact ((doOpen_balanced h oflags hg).mono (fun _ hc _ => hc) fun _ _ ht => ht).wrap
  | close fd => exact hfd (keeps_doClose R cur fd) rfl
  | dup fd => exact hfd (keeps_doDup R cur fd) rfl
  | dup2 ofd nfd => exact hfd (keeps_doDup2 R cur ofd nfd) rfl
  | read fd nbytes device => exact hfd (R.files.doRead [] cur fd nbytes device) rfl
  | write fd buf device => exact hfd (R.files.doWrite [] cur fd buf device) rfl
  | lseek fd offset whence => exact hfd (R.files.doLseek [] cur fd offset whence) rfl
  | getdent fd => exact hfd (R.files.doGetdent [] cur fd) rfl
  | fork => exact hfd (keeps_doFork R cur) rfl
  | spawn atRoot => exact hfd (keeps_newProc R atRoot) rfl
  | memory left => exact h.recount rfl rfl rfl h.numbered fun _ => rfl

theorem Balanced.enter (h : Balanced [] s) : Balanced [] s.enter :=
  h.recount rfl h.held.symm h.late.symm h.numbered fun _ => rfl

theorem Balanced.step {e : ℕ × VfsCall} (h : Balanced [] s) (hg : FairCall s.enter e.1 e.2)
    (hs : VfsStep s e t) : Balanced [] t :=
  hs.of_ends (perform_balanced h.enter e.2 hg)

/-- In a run of calls that each meet their condition, from any balanced state, every vnode
counts its open files, working directories and the mount, and no call has used a vnode that
it no longer held, nor will the next one before it returns or stops. -/
theorem fair_run_balanced {es : List (ℕ × VfsCall)} (hs : Balanced [] s)
    (h : Run VfsStep (fun s e => FairCall s.enter e.1 e.2) s es t) :
    (∀ v, t.refs v = users t v) ∧ t.late = false ∧
    ∀ cur c, TakesPath c → FairCall t.enter cur c → ∀ halt, perform cur c t.enter = .error halt →
      halt.late = false := by
  have ht : Balanced [] t := h.invariant (fun _ _ _ hg hstep hi => hi.step hg hstep) hs
  refine ⟨fun v => by simpa using ht.counts v, ht.late, fun cur c hc hg halt hhalt => ?_⟩
  exact (perform_balanced ht.enter c hg).of_error hhalt hc

theorem balanced_booted : Balanced [] booted where
  late := rfl
  held := rfl
  numbered _ _ := rfl
  counts v := by
    by_cases hv : v = 0
    · subst hv
      decide
    · have hc : cwdUsers booted v = 0 := by simp [cwdUsers, booted, Ne.symm hv]
      rw [users, hc]
      simp [VState.refs, booted, fileUsers, hv]

/-- A file is created, linked, renamed, opened again and unlinked, and the process moves. -/
theorem balanced_after_renaming : ∃ t, Balanced [] booted ∧
    Run VfsStep (fun s e => FairCall s.enter e.1 e.2) booted
      [(0, .openFile ['f'] 0x102), (0, .link ['f'] ['g']), (0, .fork), (1, .rename ['g'] ['h']),
        (0, .openFile ['h'] 0), (0, .unlink ['f']), (0, .mknod ['t'] 0x100 0), (1, .chdir ['/']),
        (0, .rmdir ['h']), (1, .close 0)] t ∧
    t.refs 1 = 2 ∧ t.refs 0 = 3 ∧
    ((∀ v, t.refs v = users t v) ∧ t.late = false ∧ ∀ cur c, TakesPath c → FairCall t.enter cur c →
        ∀ halt, perform cur c t.enter = .error halt → halt.late = false) := by
  exact (exists_run_vfs _ _ (P := fun t => t.refs 1 = 2 ∧ t.refs 0 = 3) (by decide +kernel)).imp
    fun t h => ⟨balanced_booted, h.1, h.2.1, h.2.2, fair_run_balanced balanced_booted h.1⟩

/-- A link to a name that exists drops the vnode of an open file and keeps that of the other
name for good, and a new directory is made through a vnode that was already put. -/
theorem unbalanced_calls : (∃ t, Run VfsStep (fun _ _ => True) booted
      [(0, .openFile ['f'] 0x100), (0, .openFile ['g'] 0x100), (0, .link ['f'] ['g'])] t ∧
      t.refs 1 = 0 ∧ users t 1 = 1 ∧ t.refs 2 = 2 ∧ users t 2 = 1) ∧
    ∃ t, Run VfsStep (fun _ _ => True) booted [(0, .mkdir ['a'])] t ∧ t.late = true :=
  ⟨exists_run_vfs _ _ (by decide +kernel), exists_run_vfs _ _ (by decide +kernel)⟩

end SystemsProjects.VnodeBalance
