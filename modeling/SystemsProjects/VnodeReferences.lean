import Mathlib.Order.Nat
import SystemsProjects.VfsCalls
import SystemsProjects.VfsFrames

/-!
# The vnode references of a call

What each function of path resolution does to the references that the call holds. Nothing is
assumed of the state of the file system: the list `held` says which references the call has
taken, every function changes the reference counts by as much as it changes the list, and a
vnode that is referenced throughout keeps its type. From this follow both which calls can
stop at a missing operation or an unset output and which give back what they took.
-/
namespace SystemsProjects.VnodeReferences
open CallOutcomes VfsState RamfsOperations PathCalls VfsFrames
open List hiding lookup

def modeOf (s : VState) (v : ℕ) : Option VnodeKind := (s.vnodes v).map Vnode.vnMode

/-- No vnode was used that the call does not hold, and what it holds is referenced. -/
structure Sane (s : VState) : Prop where
  late : s.late = false
  covered : ∀ v, s.held.count v ≤ s.refs v

/-- The call stopped at a failed assertion, and had used no vnode that it did not hold. -/
def Calm (h : Halt) : Prop := h.late = false ∧ h.fault = .panic

/-- The path fits into the buffer of `dir_namev`. -/
def Fits (path : List Char) : Prop := (relative path).length ≤ MAXPATHLEN

instance (path : List Char) : Decidable (Fits path) := inferInstanceAs (Decidable (_ ≤ _))

/-- From `s` to `t` the reference counts changed as the list of held references did, and
vnodes with a reference that stayed, one in `p` or one that the call does not hold, have
kept their type. -/
structure Moves (p : List ℕ) (s t : VState) : Prop where
  late : t.late = s.late
  counts : ∀ v, t.refs v+s.held.count v = s.refs v+t.held.count v
  modes : ∀ v, s.held.count v < s.refs v+p.count v → modeOf t v = modeOf s v

variable {s t u : VState} {p : List ℕ} {v : ℕ}

theorem Moves.refl (p : List ℕ) (s : VState) : Moves p s s := ⟨rfl, fun _ => rfl, fun _ _ => rfl⟩

theorem Moves.trans (h : Moves p s t) (h' : Moves p t u) : Moves p s u where
  late := h'.late.trans h.late
  counts v := by
    have h₁ := h.counts v
    have h₂ := h'.counts v
    omega
  modes v hv := by
    have h₁ := h.counts v
    exact (h'.modes v (by omega)).trans (h.modes v hv)

theorem Moves.mono {q : List ℕ} (h : Moves p s t) (hq : ∀ v, q.count v ≤ p.count v) :
    Moves q s t where
  late := h.late
  counts := h.counts
  modes v hv := h.modes v (by have := hq v; omega)

theorem Moves.tail (h : Moves (v :: p) s t) : Moves p s t :=
  h.mono fun w => by
    rw [count_cons]
    omega

theorem Moves.sane (h : Moves p s t) (hs : Sane s) : Sane t where
  late := h.late.trans hs.late
  covered v := by
    have h₁ := h.counts v
    have h₂ := hs.covered v
    omega

theorem Moves.mode_held (h : Moves p s t) (hs : Sane s) (hv : v ∈ p) : modeOf t v = modeOf s v := by
  apply h.modes v
  have h₁ := hs.covered v
  have h₂ := count_pos_iff.mpr hv
  omega

theorem Moves.of_eq (hv : t.vnodes = s.vnodes) (hh : t.held = s.held) (hl : t.late = s.late) :
    Moves p s t where
  late := hl
  counts v := by rw [VState.refs, VState.refs, hv, hh]
  modes v _ := by rw [modeOf, modeOf, hv]

/-! ### Taking and giving back -/

variable {α : Type}

theorem calm_panic (hs : Sane s) {Q : α → VState → Prop} :
    Ends (stop .panic s) Calm Q := ⟨hs.late, rfl⟩

theorem touch_held (hv : v ∈ s.held) : touch v s = .ok ((), s) := by
  have hc : s.held.contains v = true := contains_iff_mem.mpr hv
  unfold touch
  rw [hc, Bool.not_true, Bool.or_false]

theorem vnodeAt_spec (hs : Sane s) (v : ℕ) :
    Ends (vnodeAt v s) Calm fun vn t => s = t ∧ s.vnodes v = some vn := by
  unfold vnodeAt
  split
  next vn hvn => exact ⟨rfl, hvn⟩
  · exact calm_panic hs

theorem vnMode_spec (hs : Sane s) (hv : v ∈ s.held) :
    Ends (vnMode v s) Calm fun k t => s = t ∧ modeOf s v = some k := by
  unfold vnMode
  rw [bind_ok (touch_held hv)]
  refine (vnodeAt_spec hs v).bind ?_
  rintro vn _ ⟨rfl, hvn⟩
  exact ⟨rfl, by rw [modeOf, hvn]; rfl⟩

theorem dirOp_spec (hs : Sane s) (hv : v ∈ s.held) (hk : modeOf s v = some .dir) :
    Ends (dirOp v s) Calm fun _ t => s = t := by
  unfold dirOp
  refine (vnMode_spec hs hv).bind ?_
  rintro k _ ⟨rfl, hm⟩
  rw [hk] at hm
  cases hm
  exact ends_pure rfl

theorem modeOf_setVnode_self (s : VState) (v : ℕ) (x : Vnode) :
    modeOf (s.setVnode v x) v = some x.vnMode := by simp [modeOf, VState.setVnode]

theorem modeOf_setVnode_of_ne (s : VState) {v w : ℕ} (x : Vnode) (h : w ≠ v) :
    modeOf (s.setVnode v x) w = modeOf s w := by simp [modeOf, VState.setVnode, h]

variable {x : Vnode}

theorem refs_of_vnode (h : s.vnodes v = some x) : s.refs v = x.vnRefcount := by
  simp [VState.refs, h]

theorem modeOf_vnode (h : s.vnodes v = some x) : modeOf s v = some x.vnMode := by
  simp [modeOf, h]

theorem moves_take (hx : x.vnRefcount = s.refs v+1) (hm : 0 < s.refs v → modeOf s v = some x.vnMode)
    (hv : t.vnodes = (s.setVnode v x).vnodes) (hh : t.held = v :: s.held) (hl : t.late = s.late) :
    Moves s.held s t where
  late := hl
  counts w := by
    have hr : t.refs w = (s.setVnode v x).refs w := by rw [VState.refs, VState.refs, hv]
    rw [hr, hh]
    by_cases hw : w = v
    · subst hw
      rw [VState.refs_setVnode_self, count_cons_self]
      omega
    · rw [VState.refs_setVnode_of_ne s x hw, count_cons_of_ne (Ne.symm hw)]
  modes w hpos := by
    have hr : modeOf t w = modeOf (s.setVnode v x) w := by rw [modeOf, modeOf, hv]
    rw [hr]
    by_cases hw : w = v
    · subst hw
      rw [modeOf_setVnode_self, hm (by omega)]
    · exact modeOf_setVnode_of_ne s x hw

theorem vget_spec (hs : Sane s) (v : ℕ) :
    Ends (vget v s) Calm fun _ t => Moves s.held s t ∧ t.held = v :: s.held := by
  unfold vget
  split
  next hpos =>
    split
    next vn hvn =>
      refine ⟨moves_take (x := { vn with vnRefcount := vn.vnRefcount+1 }) ?_
        (fun _ => by rw [modeOf_vnode hvn]) rfl rfl rfl, rfl⟩
      exact congrArg (·+1) (refs_of_vnode hvn).symm
    · exact calm_panic hs
  next hpos =>
    split
    · refine ⟨moves_take ?_ (fun h => absurd h hpos) rfl rfl rfl, rfl⟩
      change 1 = _
      omega
    · exact calm_panic hs

/-- What `vput` does to the counts, wherever the reference comes from. -/
structure Dropped (v : ℕ) (s t : VState) : Prop where
  late : t.late = s.late
  held : t.held = s.held
  self : t.refs v+1 = s.refs v
  other : ∀ w, w ≠ v → t.refs w = s.refs w
  modes : ∀ w, modeOf t w = modeOf s w

theorem dropped_set {y : Vnode} (hx : s.vnodes v = some x) (hy : y.vnRefcount+1 = x.vnRefcount)
    (hm : y.vnMode = x.vnMode) (hv : t.vnodes = (s.setVnode v y).vnodes) (hh : t.held = s.held)
    (hl : t.late = s.late) : Dropped v s t where
  late := hl
  held := hh
  self := by
    rw [VState.refs, hv, refs_of_vnode hx, ← hy, ← VState.refs_setVnode_self s v y]
    rfl
  other w hw := by
    rw [VState.refs, hv, ← VState.refs_setVnode_of_ne s y hw]
    rfl
  modes w := by
    have hr : modeOf t w = modeOf (s.setVnode v y) w := by rw [modeOf, modeOf, hv]
    rw [hr]
    by_cases hw : w = v
    · subst hw
      rw [modeOf_setVnode_self, modeOf_vnode hx, hm]
    · exact modeOf_setVnode_of_ne s y hw

theorem ramfsDeleteVnode_vnodes (s : VState) (v : ℕ) (inode : Inode) :
    (ramfsDeleteVnode s v inode).vnodes = s.vnodes ∧
    (ramfsDeleteVnode s v inode).held = s.held ∧ (ramfsDeleteVnode s v inode).late = s.late := by
  unfold ramfsDeleteVnode
  split
  · exact ⟨rfl, rfl, rfl⟩
  · exact ⟨rfl, rfl, rfl⟩

theorem dropRef_dropped (s : VState) (v : ℕ) :
    Ends (dropRef v s) (fun h => h = ⟨.panic, s.late⟩) fun _ t => Dropped v s t := by
  unfold dropRef
  split
  · rfl
  next vn hvn =>
    split
    · rfl
    next h0 =>
      split
      next h1 =>
        have hy : vn.vnRefcount-1+1 = vn.vnRefcount := by omega
        exact dropped_set (y := { vn with vnRefcount := vn.vnRefcount-1 }) hvn hy rfl rfl rfl rfl
      next h1 =>
        split
        · rfl
        next inode hi =>
          have hd := ramfsDeleteVnode_vnodes s v inode
          have hy : 0+1 = vn.vnRefcount := by omega
          refine dropped_set (y := { vn with vnRefcount := 0 }) hvn hy rfl ?_ hd.2.1 hd.2.2
          simp only [VState.setVnode, hd.1]

theorem dropRef_spec (hs : s.late = false) (v : ℕ) :
    Ends (dropRef v s) Calm fun _ t => Dropped v s t := by
  refine (dropRef_dropped s v).mono ?_ fun _ _ ht => ht
  rintro _ rfl
  exact ⟨hs, rfl⟩

theorem vput_spec (hs : Sane s) (p : List ℕ) (hv : v ∈ s.held) :
    Ends (vput (some v) s) Calm fun _ t => Moves p s t ∧ t.held = s.held.erase v := by
  rw [vput, bind_ok (touch_held hv)]
  refine (dropRef_spec hs.late v).bind fun _ t ht => ?_
  refine ⟨⟨ht.late, ?_, fun w _ => ht.modes w⟩, by rw [← ht.held]⟩
  intro w
  change t.refs w+s.held.count w = s.refs w+(t.held.erase v).count w
  rw [ht.held]
  by_cases hw : w = v
  · subst hw
    have h₁ := ht.self
    have h₂ := count_pos_iff.mpr hv
    rw [count_erase_self]
    omega
  · rw [ht.other w hw, count_erase_of_ne hw]

theorem erase_second (v w : ℕ) (l : List ℕ) : (v :: w :: l).erase w = v :: l := by
  by_cases h : v = w
  · subst h
    exact erase_cons_head ..
  · rw [erase_cons_tail (by simpa using h), erase_cons_head]

variable {l : List ℕ}

theorem vput_first (hs : Sane s) (p : List ℕ) (hl : s.held = v :: l) :
    Ends (vput (some v) s) Calm fun _ t => Moves p s t ∧ t.held = l := by
  refine (vput_spec hs p (by rw [hl]; exact mem_cons_self)).imp ?_
  intro _ t ht
  rw [hl, erase_cons_head] at ht
  exact ht

theorem vput_second {w : ℕ} (hs : Sane s) (p : List ℕ) (hl : s.held = v :: w :: l) :
    Ends (vput (some w) s) Calm fun _ t => Moves p s t ∧ t.held = v :: l := by
  refine (vput_spec hs p (by rw [hl]; simp)).imp ?_
  intro _ t ht
  rw [hl, erase_second] at ht
  exact ht

/-! ### Lookup -/

/-- The ways a lookup of `name` in the directory `d` ends. -/
inductive LookupEnds (s : VState) (d : ℕ) (name : Name) (result : Option ℕ) :
    Ret × Option ℕ → VState → Prop
  | found {v : ℕ} {t : VState} : modeOf s d = some .dir → Moves s.held s t →
      t.held = v :: s.held → LookupEnds s d name result (.val 0, some v) t
  | missing : modeOf s d = some .dir → LookupEnds s d name result (.err .enoent, result) s
  | tooLong : modeOf s d = some .dir → NAME_LEN < name.length →
      LookupEnds s d name result (.err .enametoolong, result) s
  | notDir : modeOf s d ≠ some .dir → LookupEnds s d name result (.err .enotdir, result) s

theorem dirents_spec (hs : Sane s) (d : ℕ) :
    Ends (dirents d s) Calm fun l t => s = t ∧ ∃ a b, s.inodes d = some ⟨a, b, .dir l⟩ := by
  unfold dirents
  split
  next a b l hl => exact ⟨rfl, a, b, hl⟩
  · exact calm_panic hs

theorem ramfsLookup_spec (hs : Sane s) (d : ℕ) (name : Name) (result : Option ℕ) :
    Ends (ramfsLookup d name result s) Calm fun r t =>
      (∃ v, r = (.val 0, some v) ∧ Moves s.held s t ∧ t.held = v :: s.held) ∨
      (r = (.err .enoent, result) ∧ s = t) := by
  unfold ramfsLookup
  refine (dirents_spec hs d).bind ?_
  rintro l _ ⟨rfl, -⟩
  cases l.find? fun e => e.rdName = name with
  | some e =>
    refine (vget_spec hs e.rdIno).bind fun _ t ht => ?_
    exact .inl ⟨e.rdIno, rfl, ht⟩
  | none => exact .inr ⟨rfl, rfl⟩

theorem lookup_spec (hs : Sane s) {d : ℕ} (hd : d ∈ s.held) (name : Name) (result : Option ℕ) :
    Ends (lookup d name result s) Calm fun r t => LookupEnds s d name result r t := by
  unfold lookup
  refine (vnMode_spec hs hd).bind ?_
  rintro k _ ⟨rfl, hk⟩
  split
  next hne =>
    apply LookupEnds.notDir
    rw [hk]
    simpa using hne
  next hdir =>
    have hk' : modeOf s d = some .dir := by
      rw [hk, not_not.mp hdir]
    split
    next hlen => exact LookupEnds.tooLong hk' hlen
    split
    · refine (vget_spec hs d).bind fun _ t ht => ?_
      exact LookupEnds.found hk' ht.1 ht.2
    · refine (ramfsLookup_spec hs d name result).imp ?_
      rintro r t (⟨v, rfl, hm, hh⟩ | ⟨rfl, rfl⟩)
      · exact .found hk' hm hh
      · exact .missing hk'

/-! ### Path resolution -/

/-- The ways `dir_namev` ends: it holds the directory and has set every output, or it holds
nothing more and has set the name to nothing. -/
inductive NamevEnds (s : VState) : Namev → VState → Prop
  | found {d : ℕ} {name : Name} {t : VState} : Moves s.held s t → t.held = d :: s.held →
      NamevEnds s ⟨.val 0, some name, some d⟩ t
  | failed {e : VfsErrno} {res : Option ℕ} {t : VState} : Moves s.held s t →
      t.held = s.held → NamevEnds s ⟨.err e, none, res⟩ t

/-- The loop of `dir_namev` while it holds the directory it has come to. -/
theorem namevLoop_spec (last : Name) (l : List Name) {d : ℕ} {res : Option ℕ} {h : List ℕ}
    (hs : Sane s) (hd : s.held = d :: h) :
    Ends (namevLoop last l d res s) Calm fun out t => Moves h s t ∧
      ((∃ d' , out = ⟨.val 0, some last, some d'⟩ ∧ t.held = d' :: h) ∨
        ∃ e res', out = ⟨.err e, none, res'⟩ ∧ t.held = h) := by
  induction l generalizing s d res with
  | nil => exact ⟨.refl h s, .inl ⟨d, rfl, hd⟩⟩
  | cons start rest ih =>
    rw [namevLoop]
    refine (lookup_spec hs (by rw [hd]; exact mem_cons_self) start res).bind ?_
    intro r t hr
    -- on an error the directory is put and nothing was taken
    have herr : ∀ e, r = (.err e, res) → s = t → Ends ((do
        vput (some d)
        return ⟨r.1, none, r.2⟩ : Vfs Namev) t) Calm fun out u => Moves h s u ∧
        ((∃ d' , out = ⟨.val 0, some last, some d'⟩ ∧ u.held = d' :: h) ∨
          ∃ e res', out = ⟨.err e, none, res'⟩ ∧ u.held = h) := by
      rintro e rfl rfl
      refine (vput_first hs h hd).bind fun _ u hu => ?_
      exact ⟨hu.1, .inr ⟨e, res, rfl, hu.2⟩⟩
    cases hr with
    | missing _ => exact herr _ rfl rfl
    | tooLong _ _ => exact herr _ rfl rfl
    | notDir _ => exact herr _ rfl rfl
    | found _ hm hh =>
      rename_i v
      rw [hd] at hm hh
      have hst := hm.sane hs
      rw [if_neg (by simp [Ret.failed])]
      refine (vput_second hst h hh).bind fun _ u hu => ?_
      refine (ih (hu.1.sane hst) hu.2).imp ?_
      rintro out w ⟨hw, hout⟩
      exact ⟨(hm.tail.trans hu.1).trans hw, hout⟩

theorem procAt_calm (hs : Sane s) (cur : ℕ) :
    Ends (procAt cur s) Calm fun p t => s = t ∧ s.procs[cur]? = some p := by
  unfold procAt
  split
  next p hp => exact ⟨rfl, hp⟩
  · exact calm_panic hs

theorem dirNamev_spec (hs : Sane s) (cur : ℕ) {path : List Char} (base : Option ℕ)
    (hfit : Fits path) :
    Ends (dirNamev cur path base s) Calm fun out t => NamevEnds s out t := by
  unfold dirNamev
  split
  · exact NamevEnds.failed (.refl _ _) rfl
  refine (procAt_calm hs cur).bind ?_
  rintro p _ ⟨rfl, -⟩
  cases startDir p path base with
  | none => exact calm_panic hs
  | some dir =>
    refine (vget_spec hs dir).bind fun _ t ht => ?_
    have hst := ht.1.sane hs
    rw [if_neg (not_lt.mpr hfit)]
    refine (namevLoop_spec _ _ hst ht.2).imp ?_
    rintro out u ⟨hm, ⟨d, rfl, hh⟩ | ⟨e, res, rfl, hh⟩⟩
    · exact .found (ht.1.trans hm) hh
    · exact .failed (ht.1.trans hm) hh

/-- What `open_namev` and the creating operations leave: one reference more, or none. -/
inductive OpenEnds (s : VState) : Ret × Option ℕ → VState → Prop
  | found {v : ℕ} {t : VState} : Moves s.held s t → t.held = v :: s.held →
      OpenEnds s (.val 0, some v) t
  | failed {e : VfsErrno} {t : VState} : Moves s.held s t → t.held = s.held →
      OpenEnds s (.err e, none) t

theorem nameSlot_spec (hs : Sane s) (d : ℕ) (name : Name) :
    Ends (nameSlot d name s) Calm fun _ t => s = t := by
  unfold nameSlot
  refine (ramfsLookup_spec hs d name none).bind ?_
  rintro r t (⟨v, rfl, hm, hh⟩ | ⟨rfl, rfl⟩)
  · exact calm_panic (hm.sane hs)
  · refine (dirents_spec hs d).bind ?_
    rintro l _ ⟨rfl, -⟩
    exact ends_pure rfl

/-- Vnodes, references and the note of late uses are the same. -/
structure SameVnodes (s t : VState) : Prop where
  vnodes : t.vnodes = s.vnodes
  held : t.held = s.held
  late : t.late = s.late

theorem SameVnodes.moves (h : SameVnodes s t) : Moves p s t := .of_eq h.vnodes h.held h.late

theorem SameVnodes.trans (h : SameVnodes s t) (h' : SameVnodes t u) : SameVnodes s u :=
  ⟨h'.vnodes.trans h.vnodes, h'.held.trans h.held, h'.late.trans h.late⟩

theorem ramfsAllocInode_spec (s : VState) (node : RamfsNode) :
    Ends (ramfsAllocInode node s) Calm fun _ t => SameVnodes s t := by
  unfold ramfsAllocInode
  split
  · split
    · exact ⟨rfl, rfl, rfl⟩
    · exact ⟨rfl, rfl, rfl⟩
  · exact ⟨rfl, rfl, rfl⟩

theorem setEntry_spec (hs : Sane s) (d i : ℕ) (name : Name) (ino : ℕ) :
    Ends (setEntry d i name ino s) Calm fun _ t => SameVnodes s t := by
  unfold setEntry
  split
  · exact ⟨rfl, rfl, rfl⟩
  · exact calm_panic hs

theorem clearEntry_spec (hs : Sane s) (d : ℕ) (name : Name) :
    Ends (clearEntry d name s) Calm fun _ t => SameVnodes s t := by
  unfold clearEntry
  split
  · exact ⟨rfl, rfl, rfl⟩
  · exact calm_panic hs

theorem inodeAt_spec (hs : Sane s) (i : ℕ) :
    Ends (inodeAt i s) Calm fun x t => s = t ∧ s.inodes i = some x := by
  unfold inodeAt
  split
  next x hx => exact ⟨rfl, hx⟩
  · exact calm_panic hs

theorem addLinks_spec (hs : Sane s) (v : ℕ) (n : ℤ) :
    Ends (addLinks v n s) Calm fun _ t => SameVnodes s t := by
  unfold addLinks
  refine (inodeAt_spec hs v).bind ?_
  rintro x _ ⟨rfl, -⟩
  exact ⟨rfl, rfl, rfl⟩

theorem SameVnodes.sane (h : SameVnodes s t) (hs : Sane s) : Sane t :=
  (h.moves (p := [])).sane hs

theorem ramfsCreate_spec (hs : Sane s) (d : ℕ) (name : Name) :
    Ends (ramfsCreate d name none s) Calm fun r t => OpenEnds s r t := by
  unfold ramfsCreate
  refine (nameSlot_spec hs d name).bind ?_
  rintro slot _ rfl
  cases slot with
  | none => exact OpenEnds.failed (.refl _ _) rfl
  | some i =>
    refine (ramfsAllocInode_spec s _).bind fun ino t ht => ?_
    cases ino with
    | none => exact OpenEnds.failed ht.moves ht.held
    | some ino =>
      refine (vget_spec (ht.sane hs) ino).bind fun _ u hu => ?_
      have hsu := hu.1.sane (ht.sane hs)
      refine (setEntry_spec hsu d i name ino).bind fun _ w hw => ?_
      rw [ht.held] at hu
      exact OpenEnds.found ((ht.moves.trans hu.1).trans hw.moves) (hw.held.trans hu.2)

theorem openNamev_spec (hs : Sane s) (cur : ℕ) {path : List Char} (flag : ℕ)
    (base : Option ℕ) (hfit : Fits path) :
    Ends (openNamev cur path flag base s) Calm fun r t => OpenEnds s r t := by
  unfold openNamev
  refine (dirNamev_spec hs cur base hfit).bind fun out t hout => ?_
  cases hout with
  | failed hm hh =>
    exact OpenEnds.failed hm hh
  | found hm hh =>
    rename_i d name
    have hst := hm.sane hs
    have hd : d ∈ t.held := by rw [hh]; exact mem_cons_self
    rw [if_neg (by simp [Ret.failed]), bind_ok (readOut_some d t), bind_ok (readOut_some name t)]
    refine (lookup_spec hst hd name none).bind fun r u hr => ?_
    -- the directory is put at the end of both branches
    have hend : ∀ {r : Ret × Option ℕ} {w : VState}, OpenEnds t r w → Ends ((do
        vput (some d)
        return r : Vfs (Ret × Option ℕ)) w) Calm fun r x => OpenEnds s r x := by
      intro r w hw
      cases hw with
      | found hm' hh' =>
        rw [hh] at hh' hm'
        have hsw := hm'.sane hst
        refine (vput_second hsw s.held hh').bind fun _ x hx => ?_
        exact OpenEnds.found ((hm.trans hm'.tail).trans hx.1) hx.2
      | failed hm' hh' =>
        rw [hh] at hh' hm'
        have hsw := hm'.sane hst
        refine (vput_first hsw s.held hh').bind fun _ x hx => ?_
        exact OpenEnds.failed ((hm.trans hm'.tail).trans hx.1) hx.2
    cases hr with
    | found _ hm' hh' => exact hend (.found hm' hh')
    | tooLong _ _ => exact hend (.failed (.refl _ _) rfl)
    | notDir _ => exact hend (.failed (.refl _ _) rfl)
    | missing hk =>
      split
      · refine (dirOp_spec hst hd hk).bind ?_
        rintro _ _ rfl
        exact (ramfsCreate_spec hst d name).bind fun r w hw => hend hw
      · exact hend (.failed (.refl _ _) rfl)

/-! ### Calls that create and remove names -/

structure Settles (s t : VState) : Prop where
  moves : Moves s.held s t
  held : t.held = s.held

theorem Settles.refl (s : VState) : Settles s s := ⟨.refl _ s, rfl⟩

theorem SameVnodes.settles (h : SameVnodes s t) : Settles s t := ⟨h.moves, h.held⟩

theorem Settles.sane (h : Settles s t) (hs : Sane s) : Sane t := h.moves.sane hs

theorem Settles.trans (h : Settles s t) (h' : Settles t u) : Settles s u :=
  ⟨h.moves.trans (h.held ▸ h'.moves), h'.held.trans h.held⟩

theorem put_settles (hm : Moves l s t) (hs : Sane s) (hl : s.held = l) (hh : t.held = v :: l)
    (a : α) :
    Ends ((do
      vput (some v)
      return a : Vfs α) t) Calm fun _ u => Settles s u := by
  refine (vput_first (hm.sane hs) l hh).bind fun _ u hu => ends_pure ?_
  subst hl
  exact ⟨hm.trans hu.1, hu.2⟩

theorem ramfsMknod_spec (hs : Sane s) (d : ℕ) (name : Name) (mode devid : ℕ) :
    Ends (ramfsMknod d name mode devid s) Calm fun _ t => Settles s t := by
  unfold ramfsMknod
  refine (nameSlot_spec hs d name).bind ?_
  rintro slot _ rfl
  cases slot with
  | none => exact Settles.refl s
  | some i =>
    dsimp only
    split
    · refine (ramfsAllocInode_spec s _).bind fun ino t ht => ?_
      cases ino with
      | none => exact ht.settles
      | some ino =>
        refine (setEntry_spec (ht.sane hs) d i name ino).bind fun _ u hu => ?_
        exact (ht.trans hu).settles
    · exact calm_panic hs

theorem ramfsLink_spec (hs : Sane s) (old d : ℕ) (name : Name) :
    Ends (ramfsLink old d name s) Calm fun _ t => Settles s t := by
  unfold ramfsLink
  refine (nameSlot_spec hs d name).bind ?_
  rintro slot _ rfl
  cases slot with
  | none => exact Settles.refl s
  | some i =>
    refine (setEntry_spec hs d i name old).bind fun _ t ht => ?_
    refine (addLinks_spec (ht.sane hs) old 1).bind fun _ u hu => ?_
    exact (ht.trans hu).settles

theorem remove_spec (hs : Sane s) (hm : Moves s.held s t) (hh : t.held = v :: s.held) (d : ℕ)
    (name : Name) (r : Ret) :
    Ends ((do
      clearEntry d name
      addLinks v (-1)
      vput (some v)
      return r : Vfs Ret) t) Calm fun _ u => Settles s u := by
  have hst := hm.sane hs
  refine (clearEntry_spec hst d name).bind fun _ u hu => ?_
  refine (addLinks_spec (hu.sane hst) v (-1)).bind fun _ w hw => ?_
  have hmw : Moves s.held s w := (hm.trans hu.moves).trans hw.moves
  exact put_settles hmw hs rfl ((hw.held.trans hu.held).trans hh) r

theorem ramfsUnlink_spec (hs : Sane s) (d : ℕ) (name : Name) :
    Ends (ramfsUnlink d name s) Calm fun _ t => Settles s t := by
  unfold ramfsUnlink
  refine (ramfsLookup_spec hs d name none).bind ?_
  rintro r t (⟨v, rfl, hm, hh⟩ | ⟨rfl, rfl⟩)
  · have hst := hm.sane hs
    rw [if_pos rfl, bind_ok (readOut_some v t)]
    refine (vnMode_spec hst (by rw [hh]; exact mem_cons_self)).bind ?_
    rintro k _ ⟨rfl, -⟩
    split
    · exact calm_panic hst
    · exact remove_spec hs hm hh d name _
  · exact calm_panic hs

theorem ramfsRmdir_spec (hs : Sane s) (d : ℕ) (name : Name) :
    Ends (ramfsRmdir d name s) Calm fun _ t => Settles s t := by
  unfold ramfsRmdir
  split
  · exact calm_panic hs
  refine (ramfsLookup_spec hs d name none).bind ?_
  rintro r t (⟨v, rfl, hm, hh⟩ | ⟨rfl, rfl⟩)
  · have hst := hm.sane hs
    rw [if_pos rfl, bind_ok (readOut_some v t)]
    refine (vnMode_spec hst (by rw [hh]; exact mem_cons_self)).bind ?_
    rintro k _ ⟨rfl, -⟩
    split
    · refine (dirents_spec hst v).bind ?_
      rintro l _ ⟨rfl, -⟩
      split
      · exact put_settles hm hs rfl hh _
      · exact remove_spec hs hm hh d name _
    · exact put_settles hm hs rfl hh _
  · exact Settles.refl s

end SystemsProjects.VnodeReferences
