import SystemsProjects.FileReferences
import SystemsProjects.VnodeReferences

/-!
# What path calls may stop at

For each call that takes a path: the condition on the path and the state under which it
never calls a missing vnode operation, never gives a null pointer to `vput` and never reads
an output that was not set, and under which it gives back every reference it took. The two
differ for `do_mkdir`, which uses the directory after it has put it, and for `do_link`,
which puts the source twice when the target exists. The conditions ask what the path
resolution of the call itself finds.
-/
namespace SystemsProjects.PathCallSafety
open CallOutcomes VfsState RamfsOperations PathCalls FileCalls VfsCalls VfsFrames
open FileReferences VnodeReferences GuardedRuns

variable {s t u : VState} {v cur : ℕ}

/-! ### Conditions on calls -/

/-- What `dir_namev` leaves for a path meets `P`. -/
def NamevMeets (s : VState) (cur : ℕ) (path : List Char) (P : Namev → VState → Prop) : Prop :=
  Gives (dirNamev cur path none s) P

/-- The directory and the name of the target of a link meet `P`, if the call comes to look
at them. -/
def TargetMeets (s : VState) (cur : ℕ) (source target : List Char)
    (P : ℕ → Name → VState → Prop) : Prop :=
  source.length ≤ NAME_LEN ∧ target.length ≤ NAME_LEN →
    Gives (openNamev cur source 0 none s) fun r t =>
      (∃ v ∈ r.2, modeOf t v ≠ some .dir) → NamevMeets t cur target fun out u =>
        ∀ d ∈ out.resVnode, ∀ name ∈ out.name, P d name u

/-- `do_mknod` goes on after an error of `dir_namev` other than these two, and puts a vnode
that `lookup` did not set when the name is too long. -/
def MknodNamed (out : Namev) (t : VState) : Prop :=
  out.ret = .err .enametoolong ∨ out.ret = .err .einval ∨ out.ret = .val 0 ∧
    ∀ d ∈ out.resVnode, modeOf t d = some .dir → ∀ name ∈ out.name, name.length ≤ NAME_LEN

/-- `do_mkdir` reads the name before it looks at the return value. -/
def MkdirNamed (out : Namev) (_ : VState) : Prop := out.ret = .val 0

/-- `do_mkdir` ends before it puts the directory. -/
def MkdirRefused (out : Namev) (t : VState) : Prop :=
  out.ret = .val 0 ∧ ((∃ d ∈ out.resVnode, modeOf t d ≠ some .dir) ∨
    ∃ name ∈ out.name, NAME_LEN < name.length)

/-- `do_link` calls `link` whatever the directory is. -/
def LinkInDir (d : ℕ) (_ : Name) (u : VState) : Prop := modeOf u d = some .dir

/-- The target of `do_link` is a new name in a directory. -/
def LinkNew (d : ℕ) (name : Name) (u : VState) : Prop :=
  modeOf u d = some .dir ∧ Gives (lookup d name none u) fun r _ => r.1 ≠ .val 0

/-- `do_mknod` goes on after the other errors, and returns if the vnode that the path resolution
has come to by then is not a directory. -/
def MknodSafe (out : Namev) (t : VState) : Prop :=
  MknodNamed out t ∨ out.ret.failed ∧ ∃ d ∈ out.resVnode, modeOf t d ≠ some .dir

/-- `do_chdir` puts the old working directory, which there is unless the path leads to no
directory. -/
def ChdirSafe (s : VState) (cur : ℕ) (path : List Char) : Prop :=
  MAXPATHLEN < path.length ∨ ∀ p ∈ s.procs[cur]?, p.pCwd ≠ none ∨
    Gives (openNamev cur path 0 none s) fun r t => ∀ v ∈ r.2, modeOf t v ≠ some .dir

/-- There is a descriptor for `do_open`. -/
def HasSlot (s : VState) (cur : ℕ) : Prop := ∃ p ∈ s.procs[cur]?, (getEmptyFd p).isSome

/-- The directory that `dir_namev` begins with can be had. -/
def Starts (s : VState) (cur : ℕ) (path : List Char) : Prop :=
  ∃ p ∈ s.procs[cur]?, ∃ dir ∈ startDir p path none, 0 < s.refs dir ∨ (s.inodes dir).isSome

/-- `dir_namev` comes to copy the path, which does not fit. -/
def Overruns (s : VState) (cur : ℕ) (path : List Char) : Prop := ¬Fits path ∧ Starts s cur path

instance : ∀ out t, Decidable (MknodNamed out t) := fun out t => by
  unfold MknodNamed
  infer_instance

instance : ∀ out t, Decidable (MkdirNamed out t) := fun out t => by
  unfold MkdirNamed
  infer_instance

instance : ∀ out t, Decidable (MkdirRefused out t) := fun out t => by
  unfold MkdirRefused
  infer_instance

instance : ∀ d name u, Decidable (LinkInDir d name u) := fun d name u => by
  unfold LinkInDir
  infer_instance

instance : ∀ d name u, Decidable (LinkNew d name u) := fun d name u => by
  unfold LinkNew
  infer_instance

instance (P : Namev → VState → Prop) [∀ out t, Decidable (P out t)] (s : VState) (cur : ℕ)
    (path : List Char) : Decidable (NamevMeets s cur path P) := by
  unfold NamevMeets
  infer_instance

instance (P : ℕ → Name → VState → Prop) [∀ d n u, Decidable (P d n u)] (s : VState) (cur : ℕ)
    (source target : List Char) : Decidable (TargetMeets s cur source target P) := by
  unfold TargetMeets
  infer_instance

instance : ∀ out t, Decidable (MknodSafe out t) := fun out t => by
  unfold MknodSafe
  infer_instance

instance (s : VState) (cur : ℕ) (path : List Char) : Decidable (ChdirSafe s cur path) := by
  unfold ChdirSafe
  infer_instance

instance (s : VState) (cur : ℕ) : Decidable (HasSlot s cur) := by
  unfold HasSlot
  infer_instance

instance (s : VState) (cur : ℕ) (path : List Char) : Decidable (Overruns s cur path) := by
  unfold Overruns Starts
  infer_instance

/-! ### Calls that give back what they took -/

variable {path source target : List Char}

theorem fits_of_short {n : ℕ} (h : ¬n < path.length) (hn : n ≤ MAXPATHLEN) : Fits path :=
  ((relative_le path).trans (not_lt.mp h)).trans hn

theorem dirNamev_meets {P : Namev → VState → Prop} (hs : Sane s) (hfit : Fits path)
    (hP : NamevMeets s cur path P) :
    Ends (dirNamev cur path none s) Calm fun out t => NamevEnds s out t ∧ P out t :=
  (dirNamev_spec hs cur none hfit).and hP

theorem mem_held {l : List ℕ} (h : s.held = v :: l) : v ∈ s.held := by
  rw [h]
  exact List.mem_cons_self

section

variable (hs : Sane s)
include hs

theorem doMknod_spec (hfit : Fits path) (mode devid : ℕ)
    (hP : isChr mode ∨ isBlk mode → NamevMeets s cur path MknodNamed) :
    Ends (doMknod cur path mode devid s) Calm fun _ t => Settles s t := by
  unfold doMknod
  split
  · exact Settles.refl s
  next hmode =>
    refine (dirNamev_meets hs hfit (hP (by simpa [or_iff_not_imp_left] using hmode))).bind ?_
    rintro out t ⟨hout, hnamed⟩
    cases hout with
    | failed hm hh =>
      rename_i e res
      have he : e = .enametoolong ∨ e = .einval := by
        simpa [MknodNamed] using hnamed
      rw [if_pos (by simpa using he)]
      exact ⟨hm, hh⟩
    | found hm hh =>
      rename_i d name
      have hlen : modeOf t d = some .dir → name.length ≤ NAME_LEN := by
        simpa [MknodNamed] using hnamed
      have hst := hm.sane hs
      rw [if_neg (by simp), bind_ok (readOut_some d t)]
      refine (vnMode_spec hst (mem_held hh)).bind ?_
      rintro k _ ⟨rfl, hk⟩
      split
      · exact put_settles hm hs rfl hh _
      rw [bind_ok (readOut_some name t)]
      refine (lookup_spec hst (mem_held hh) name none).bind fun r w hr => ?_
      cases hr with
      | found _ hm' hh' =>
        rw [hh] at hm' hh'
        rw [if_pos (by simp)]
        refine (vput_first (hm'.sane hst) (d :: s.held) hh').bind fun _ x hx => ?_
        exact put_settles (hm.trans (hm'.trans hx.1).tail) hs rfl hx.2 _
      | tooLong hk' hlong => exact absurd (hlen hk') (not_le.mpr hlong)
      | notDir hk' => exact absurd (by rw [hk]; simp_all) hk'
      | missing hk' =>
        rw [if_neg (by simp)]
        refine (dirOp_spec hst (mem_held hh) hk').bind ?_
        rintro _ _ rfl
        refine (ramfsMknod_spec hst d name mode devid).bind fun r w hw => ?_
        exact put_settles (hm.trans (hh ▸ hw.moves).tail) hs rfl (hw.held.trans hh) r

theorem doMkdir_refused (hfit : Fits path) (hP : NamevMeets s cur path MkdirRefused) :
    Ends (doMkdir cur path s) Calm fun _ t => Settles s t := by
  unfold doMkdir
  refine (dirNamev_meets hs hfit hP).bind ?_
  rintro out t ⟨hout, hnamed⟩
  cases hout with
  | failed hm hh => simp [MkdirRefused] at hnamed
  | found hm hh =>
    rename_i d name
    have hst := hm.sane hs
    have hor : modeOf t d ≠ some .dir ∨ NAME_LEN < name.length := by
      simpa [MkdirRefused] using hnamed
    rw [bind_ok (readOut_some name t)]
    split
    · exact put_settles hm hs rfl hh _
    next hlen =>
      rw [if_neg (by simp [Ret.failed]), bind_ok (readOut_some d t)]
      refine (vnMode_spec hst (mem_held hh)).bind ?_
      rintro k _ ⟨rfl, hk⟩
      have hne : k ≠ .dir := by
        have := hor.resolve_right hlen
        rw [hk] at this
        simpa using this
      rw [if_pos hne]
      exact put_settles hm hs rfl hh _

theorem doRmdir_spec (hfit : Fits path) :
    Ends (doRmdir cur path s) Calm fun _ t => Settles s t := by
  unfold doRmdir
  refine (dirNamev_spec hs cur none hfit).bind fun out t hout => ?_
  cases hout with
  | failed hm hh => exact ⟨hm, hh⟩
  | found hm hh =>
    rename_i d name
    have hst := hm.sane hs
    rw [if_neg (by simp [Ret.failed]), bind_ok (readOut_some d t), bind_ok (readOut_some name t)]
    split
    · exact put_settles hm hs rfl hh _
    split
    · exact put_settles hm hs rfl hh _
    refine (vnMode_spec hst (mem_held hh)).bind ?_
    rintro k _ ⟨rfl, hk⟩
    split
    · exact put_settles hm hs rfl hh _
    next hdir =>
      have hk' : modeOf t d = some .dir := by rw [hk, not_not.mp hdir]
      refine (dirOp_spec hst (mem_held hh) hk').bind ?_
      rintro _ _ rfl
      refine (ramfsRmdir_spec hst d name).bind fun r w hw => ?_
      exact put_settles (hm.trans (hh ▸ hw.moves).tail) hs rfl (hw.held.trans hh) r

theorem doUnlink_spec (hfit : Fits path) :
    Ends (doUnlink cur path s) Calm fun _ t => Settles s t := by
  unfold doUnlink
  refine (dirNamev_spec hs cur none hfit).bind fun out t hout => ?_
  cases hout with
  | failed hm hh => exact ⟨hm, hh⟩
  | found hm hh =>
    rename_i d name
    have hst := hm.sane hs
    rw [if_neg (by simp [Ret.failed]), bind_ok (readOut_some d t)]
    refine (vnMode_spec hst (mem_held hh)).bind ?_
    rintro k _ ⟨rfl, hk⟩
    split
    · exact put_settles hm hs rfl hh _
    rw [bind_ok (readOut_some name t)]
    refine (lookup_spec hst (mem_held hh) name none).bind fun r w hr => ?_
    cases hr with
    | missing _ => exact put_settles hm hs rfl hh _
    | tooLong _ _ => exact put_settles hm hs rfl hh _
    | notDir _ => exact put_settles hm hs rfl hh _
    | found hk' hm' hh' =>
      rename_i result
      have hmw : Moves s.held s w := hm.trans ((hh ▸ hm' : Moves (d :: s.held) t w)).tail
      have hsw := hm'.sane hst
      rw [if_neg (by simp [Ret.failed]), bind_ok (readOut_some result w)]
      have hhw : w.held = result :: d :: s.held := by rw [hh', hh]
      have hdw : d ∈ w.held := by rw [hhw]; simp
      refine (vnMode_spec hsw (mem_held hhw)).bind ?_
      rintro k' _ ⟨rfl, -⟩
      split
      · refine (vput_second hsw s.held hhw).bind fun _ x hx => ?_
        exact put_settles (hmw.trans hx.1) hs rfl hx.2 _
      -- the directory is still held, so it is still a directory
      have hkw : modeOf w d = some .dir := (hm'.mode_held hst (mem_held hh)).trans hk'
      refine (dirOp_spec hsw hdw hkw).bind ?_
      rintro _ _ rfl
      refine (ramfsUnlink_spec hsw d name).bind fun r x hx => ?_
      have hmx : Moves s.held s x := hmw.trans ((hhw ▸ hx.moves).tail.tail)
      refine (vput_second (hx.sane hsw) s.held (hx.held.trans hhw)).bind fun _ y hy => ?_
      exact put_settles (hmx.trans hy.1) hs rfl hy.2 _

theorem doStat_spec : Ends (doStat cur path s) Calm fun _ t => Settles s t := by
  unfold doStat
  split
  · exact Settles.refl s
  next hlen =>
    refine (openNamev_spec hs cur 0 none (fits_of_short hlen le_rfl)).bind fun r t hr => ?_
    cases hr with
    | failed hm hh => exact ⟨hm, hh⟩
    | found hm hh =>
      rename_i v
      have hst := hm.sane hs
      rw [if_neg (by simp [Ret.failed]), bind_ok (readOut_some v t)]
      refine Ends.bind (Q := fun _ w => t = w) ?_ ?_
      · refine (vnMode_spec hst (mem_held hh)).bind ?_
        rintro k _ ⟨rfl, -⟩
        refine (inodeAt_spec hst v).bind ?_
        rintro x _ ⟨rfl, -⟩
        exact ends_pure rfl
      · rintro buf _ rfl
        exact put_settles hm hs rfl hh _

/-- The two ways to go on with a link: a name that exists, which is left to the caller, or the
new entry, after which everything has been given back. Whatever the operations on vnodes keep
holds on the way. -/
theorem doLink_ends {P : ℕ → Name → VState → Prop} {E : Halt → Prop} {Q : Ret → VState → Prop}
    {I : VState → Prop} (R : VnodeRules (fun _ => True) I) (hI : I s)
    (hP : TargetMeets s cur source target P) (hE : ∀ h, Calm h → E h)
    (hop : ∀ d name u, P d name u → Sane u → d ∈ u.held → Ends (dirOp d u) E fun _ t => u = t)
    (hlink : ∀ old d name u, I u → Sane u → old ∈ u.held →
      Gives (ramfsLink old d name u) fun _ t => I t)
    (hQ : ∀ r t, Settles s t → I t → Q r t)
    (hold : ∀ old d name v t u, P d name t → lookup d name none t = .ok ((.val 0, v), u) → I u →
      Ends ((do
        vput (some old)
        vput (some d)
        vput (some old)
        return .err .eexist : Vfs Ret) u) E Q) : Ends (doLink cur source target s) E Q := by
  have calm {α : Type} {r : Except Halt (α × VState)} {R : α → VState → Prop}
      (h : Ends r Calm R) : Ends r E R := h.mono hE fun _ _ hr => hr
  have put {t : VState} {v : ℕ} (r : Ret) (hm : Moves s.held s t) (hh : t.held = v :: s.held)
      (hI : I t) : Ends ((do
        vput (some v)
        return r : Vfs Ret) t) E Q :=
    ((put_settles hm hs rfl hh r).and ((R.vput (some v)).ret t hI)).mono hE
      fun r u hu => hQ r u hu.1 hu.2
  unfold doLink
  split
  · exact hQ _ _ (Settles.refl s) hI
  next hlen =>
    have hshort : source.length ≤ NAME_LEN ∧ target.length ≤ NAME_LEN := by
      constructor
      · exact not_lt.mp fun h => hlen (.inl h)
      · exact not_lt.mp fun h => hlen (.inr h)
    refine (calm (((openNamev_spec hs cur 0 none (fits_of_short (not_lt.mpr hshort.1)
      (by decide))).and (hP hshort)).and (R.openNamev cur source 0 none s hI))).bind ?_
    rintro r t ⟨⟨hr, hP⟩, hI⟩
    cases hr with
    | failed hm hh => exact hQ _ _ ⟨hm, hh⟩ hI
    | found hm hh =>
      rename_i old
      have hst := hm.sane hs
      rw [if_neg (by simp [Ret.failed]), bind_ok (readOut_some old t)]
      refine (calm (vnMode_spec hst (mem_held hh))).bind ?_
      rintro k _ ⟨rfl, hk⟩
      split
      · exact put _ hm hh hI
      next hfile =>
        have hnd : modeOf t old ≠ some .dir := by
          rw [hk]
          simpa using hfile
        refine (calm ((dirNamev_meets hst (fits_of_short (not_lt.mpr hshort.2) (by decide))
          (hP (by simpa using hnd))).and (R.dirNamev cur target none t hI))).bind ?_
        rintro out w ⟨⟨hout, hnew⟩, hI⟩
        cases hout with
        | failed hm' hh' =>
          rw [hh] at hm' hh'
          exact put _ (hm.trans hm'.tail) hh' hI
        | found hm' hh' =>
          rename_i d name
          have hPd : P d name w := by simpa using hnew
          have hsw := hm'.sane hst
          have hmw : Moves s.held s w := hm.trans ((hh ▸ hm' : Moves (old :: s.held) t w)).tail
          rw [hh] at hh'
          rw [if_neg (by simp [Ret.failed]), bind_ok (readOut_some d w),
            bind_ok (readOut_some name w)]
          refine (calm (((lookup_spec hsw (mem_held hh') name none).and (ends_self _)).and
            (R.lookup d name none w hI))).bind ?_
          rintro r x ⟨⟨hr, hlook⟩, hI⟩
          by_cases hzero : r.1 = .val 0
          · rw [if_pos hzero]
            exact hold old d name r.2 w x hPd (by rw [hlook, ← hzero]) hI
          rw [if_neg hzero]
          have hx : w = x := by
            cases hr with
            | found _ _ _ => exact absurd rfl hzero
            | missing _ => rfl
            | tooLong _ _ => rfl
            | notDir _ => rfl
          subst hx
          refine (hop d name w hPd hsw (mem_held hh')).bind ?_
          rintro _ _ rfl
          refine (calm ((ramfsLink_spec hsw old d name).and
            (hlink old d name w hI hsw (by rw [hh']; simp)))).bind ?_
          rintro r x ⟨hx, hI⟩
          have hmx : Moves s.held s x := hmw.trans ((hh' ▸ hx.moves).tail.tail)
          refine (calm ((vput_first (hx.sane hsw) s.held (hx.held.trans hh')).and
            (R.vput (some d) x hI))).bind fun _ y hy => ?_
          exact put _ (hmx.trans hy.1.1) hy.1.2 hy.2

theorem doLink_new (hP : TargetMeets s cur source target LinkNew) :
    Ends (doLink cur source target s) Calm fun _ t => Settles s t := by
  refine doLink_ends hs guarded_rules trivial hP (fun _ h => h)
    (fun _ _ _ h hs hd => dirOp_spec hs hd h.1)
    (fun _ _ _ _ _ _ _ => keeps_ramfsLink _ _ _ _ trivial)
    (fun _ _ h _ => h) ?_
  rintro old d name v t u ⟨-, hnew⟩ hlook
  exact absurd rfl (hnew.of_ok hlook)

theorem doRename_new {oldname newname : List Char} (hfit : Fits oldname)
    (hP : TargetMeets s cur oldname newname LinkNew) :
    Ends (doRename cur oldname newname s) Calm fun _ t => Settles s t := by
  unfold doRename
  refine (doLink_new hs hP).bind fun r t ht => ?_
  split
  · exact ends_pure ht
  · exact (doUnlink_spec (ht.sane hs) hfit).imp fun _ u hu => ht.trans hu

end

/-! ### Calls that end at an assertion at worst -/

/-- Whatever the state, the call returns or fails an assertion. -/
def Quiet {α : Type} (m : Vfs α) : Prop :=
  ∀ s, Ends (m s) (fun h => h.fault = .panic) fun _ _ => True

variable {α : Type}

instance : Allows (fun h => h.fault = .panic) .panic := ⟨fun _ => rfl⟩

theorem quiet_of {m : Vfs α} (h : Guards (fun h => h.fault = .panic) (fun _ => True) m) :
    Quiet m := fun s => h s trivial

theorem quiet_vnMode (v : ℕ) : Quiet (vnMode v) := quiet_of (vnMode_keeps keeps_touch v)

theorem quiet_vref (v : ℕ) : Quiet (vref v) := quiet_of (keeps_vref v)

theorem quiet_vget (v : ℕ) : Quiet (vget v) := quiet_of (keeps_vget v)

theorem quiet_dropRef (v : ℕ) : Quiet (dropRef v) := quiet_of (keeps_dropRef v)

theorem quiet_vput (v : ℕ) : Quiet (vput (some v)) := quiet_of <|
  (keeps_touch v).bind fun _ => (keeps_dropRef v).bind fun _ => keeps_release v

theorem quiet_fileAt (f : ℕ) : Quiet (fileAt f) := by
  intro s
  unfold fileAt
  split
  · trivial
  · rfl

theorem quiet_fput (f : ℕ) : Quiet (fput f) := by
  intro s
  refine (quiet_fileAt f s).bind fun x t _ => ?_
  split
  · split
    · refine Ends.bind (Q := fun _ _ => True) ?_ fun _ _ _ => trivial
      cases x.fVnode with
      | none => trivial
      | some v => exact (quiet_dropRef v t).bind fun _ _ _ => trivial
    · trivial
  · rfl

theorem quiet_abandonOpen (cur fd f v : ℕ) : Quiet (abandonOpen cur fd f v) := fun s =>
  (quiet_fput f s).bind fun _ t _ => (quiet_vput v t).bind fun _ _ _ => trivial

theorem quiet_finishOpen (f v fmode : ℕ) (append : Bool) : Quiet (finishOpen f v fmode append) :=
  fun s => (quiet_fileAt f s).bind fun _ _ _ => trivial

theorem quietly {r : Except Halt (α × VState)} {Q : α → VState → Prop} (h : Ends r Calm Q) :
    Ends r (fun h => h.fault = .panic) Q :=
  h.mono (fun _ hc => hc.2) fun _ _ hq => hq

theorem not_gives {r : Except Halt (α × VState)} {Q : α → VState → Prop} :
    ¬Gives r Q ↔ ∃ a t, r = .ok (a, t) ∧ ¬Q a t := by
  cases r with
  | ok p =>
    obtain ⟨a, t⟩ := p
    simp [Gives, Ends]
  | error e => simp [Gives, Ends]

theorem vnMode_none (h : modeOf s v = none) :
    vnMode v s = .error ⟨.panic, s.late || !s.held.contains v⟩ := by
  have hvn : s.vnodes v = none := Option.map_eq_none_iff.mp h
  unfold vnMode
  rw [bind_ok (rfl : touch v s = .ok ((), _))]
  exact bind_error (by simp only [vnodeAt, hvn]; rfl)

theorem vnMode_some {k : VnodeKind} (h : modeOf s v = some k) :
    ∃ t, vnMode v s = .ok (k, t) ∧ (v ∈ s.held → t = s) := by
  obtain ⟨vn, hvn, rfl⟩ := Option.map_eq_some_iff.mp h
  set t : VState := { s with late := s.late || !s.held.contains v }
  have hat : vnodeAt v t = .ok (vn, t) := by
    have hv : t.vnodes v = some vn := hvn
    simp only [vnodeAt, hv]
  refine ⟨t, ?_, fun hv => ?_⟩
  · unfold vnMode
    rw [bind_ok (rfl : touch v s = .ok ((), t)), bind_ok hat]
    rfl
  · exact (outcome_inj (touch_held hv)).2

theorem vnMode_held {k : VnodeKind} (hv : v ∈ s.held) (h : modeOf s v = some k) :
    vnMode v s = .ok (k, s) := by
  obtain ⟨t, ht, heq⟩ := vnMode_some h
  rwa [heq hv] at ht

theorem held_mode (hs : Sane s) (hv : v ∈ s.held) : ∃ k, modeOf s v = some k := by
  have hpos := (List.count_pos_iff.mpr hv).trans_le (hs.covered v)
  cases hvn : s.vnodes v with
  | none => simp [VState.refs, hvn] at hpos
  | some vn => exact ⟨vn.vnMode, by rw [modeOf, hvn]; rfl⟩

/-- A lookup through a pointer that may be stale: it sets its output, or it leaves the
vnodes as they were. -/
theorem lookup_quiet (s : VState) (d : ℕ) (name : Name) :
    Ends (lookup d name none s) (fun h => h.fault = .panic) fun r t =>
      (∃ v, r = (.val 0, some v)) ∨ r.1 ≠ .val 0 ∧ t.vnodes = s.vnodes := by
  unfold lookup
  have hsame : Guards (fun h => h.fault = .panic) (fun t => t.vnodes = s.vnodes) (vnMode d) :=
    vnMode_keeps (fun _ _ h => h) d
  refine (hsame s rfl).bind fun k t ht => ?_
  split
  · exact .inr ⟨by simp, ht⟩
  split
  · exact .inr ⟨by simp, ht⟩
  split
  · exact (quiet_vget d t).bind fun _ u _ => ends_pure (.inl ⟨d, rfl⟩)
  refine (keeps_dirents (fun t => t.vnodes = s.vnodes) d t ht).bind fun l u hu => ?_
  cases l.find? fun e => e.rdName = name with
  | some e => exact (quiet_vget _ u).bind fun _ w _ => ends_pure (.inl ⟨e.rdIno, rfl⟩)
  | none => exact ends_pure (.inr ⟨by simp, hu⟩)

theorem dirOp_quiet {d : ℕ} (hk : modeOf s d = some .dir) :
    Ends (dirOp d s) (fun h => h.fault = .panic) fun _ _ => True := by
  obtain ⟨t, ht, -⟩ := vnMode_some hk
  rw [dirOp, bind_ok ht, if_pos rfl]
  trivial

theorem doMkdir_quiet (hs : Sane s) (hfit : Fits path) (hP : NamevMeets s cur path MkdirNamed) :
    Ends (doMkdir cur path s) (fun h => h.fault = .panic) fun _ _ => True := by
  unfold doMkdir
  refine (quietly (dirNamev_meets hs hfit hP)).bind ?_
  rintro out t ⟨hout, hnamed⟩
  cases hout with
  | failed hm hh => simp [MkdirNamed] at hnamed
  | found hm hh =>
    rename_i d name
    have hst := hm.sane hs
    rw [bind_ok (readOut_some name t)]
    split
    · rw [bind_ok (readOut_some d t)]
      exact (quiet_vput d t).bind fun _ _ _ => ends_pure trivial
    rw [if_neg (by simp [Ret.failed]), bind_ok (readOut_some d t)]
    refine (quietly (vnMode_spec hst (mem_held hh))).bind ?_
    rintro k _ ⟨rfl, hk⟩
    split
    · exact (quiet_vput d t).bind fun _ _ _ => ends_pure trivial
    next hdir =>
      -- the type is what a stale pointer still reads
      refine (quietly (vput_spec hst t.held (mem_held hh))).bind fun _ w hw => ?_
      have hkw : modeOf w d = some .dir := by
        rw [hw.1.mode_held hst (mem_held hh), hk, not_not.mp hdir]
      refine (lookup_quiet w d name).bind ?_
      rintro r x (⟨v, rfl⟩ | ⟨hne, hx⟩)
      · exact (quiet_vput v x).bind fun _ _ _ => ends_pure trivial
      · rw [if_neg hne]
        refine (dirOp_quiet (by rw [modeOf, hx]; exact hkw)).bind fun _ y _ => ?_
        exact quiet_of (keeps_ramfsMkdir d name) y

theorem doLink_quiet (hs : Sane s) (hP : TargetMeets s cur source target LinkInDir) :
    Ends (doLink cur source target s) (fun h => h.fault = .panic)
      fun r t => r.failed ∨ Settles s t := by
  refine doLink_ends hs guarded_rules trivial hP (fun _ h => h.2)
    (fun _ _ _ h hs hd => quietly (dirOp_spec hs hd h))
    (fun _ _ _ _ _ _ _ => keeps_ramfsLink _ _ _ _ trivial) (fun _ _ h _ => .inr h) ?_
  intro old d name v t u _ _ _
  exact (quiet_vput old u).bind fun _ x _ => (quiet_vput d x).bind fun _ y _ =>
    (quiet_vput old y).bind fun _ _ _ => ends_pure (.inl rfl)

/-- If the link was made, the old name is short and nothing is held. -/
theorem doRename_quiet (hs : Sane s) (hP : TargetMeets s cur source target LinkInDir) :
    Ends (doRename cur source target s) (fun h => h.fault = .panic) fun _ _ => True := by
  unfold doRename
  by_cases hlong : NAME_LEN < source.length ∨ NAME_LEN < target.length
  · have hlink : doLink cur source target s = .ok (.err .enametoolong, s) := by
      unfold doLink
      rw [if_pos hlong]
      rfl
    rw [bind_ok hlink]
    trivial
  · have hfit : Fits source := fits_of_short (fun h => hlong (.inl h)) (by decide)
    refine (doLink_quiet hs hP).bind fun r t ht => ?_
    split
    · trivial
    next hok =>
      have hst := (ht.resolve_left hok).sane hs
      exact (quietly (doUnlink_spec hst hfit)).mono (fun _ h => h) fun _ _ _ => trivial

theorem doMknod_quiet (hs : Sane s) (hfit : Fits path) (mode devid : ℕ)
    (hP : isChr mode ∨ isBlk mode → NamevMeets s cur path MknodSafe) :
    Ends (doMknod cur path mode devid s) (fun h => h.fault = .panic) fun _ _ => True := by
  by_cases hnamed : isChr mode ∨ isBlk mode → NamevMeets s cur path MknodNamed
  · exact (quietly (doMknod_spec hs hfit mode devid hnamed)).mono (fun _ h => h) fun _ _ _ =>
      trivial
  obtain ⟨hmode, hnot⟩ := Classical.not_imp.mp hnamed
  obtain ⟨out, t, hout, hnot⟩ := not_gives.mp hnot
  obtain ⟨hfailed, d, hd, hk⟩ := ((hP hmode).of_ok hout).resolve_left hnot
  have hother : ¬(out.ret = .err .enametoolong ∨ out.ret = .err .einval) := fun hc =>
    hnot (hc.elim .inl fun h => .inr (.inl h))
  unfold doMknod
  rw [if_neg (by simpa [or_iff_not_imp_left] using hmode), bind_ok hout, if_neg hother, hd,
    bind_ok (readOut_some d t)]
  cases hvn : modeOf t d with
  | none =>
    rw [bind_error (vnMode_none hvn)]
    rfl
  | some k =>
    obtain ⟨u, hu, -⟩ := vnMode_some hvn
    rw [bind_ok hu, if_pos fun hdir => hk (by rw [hvn, hdir])]
    exact (quiet_vput d u).bind fun _ _ _ => trivial

theorem doChdir_quiet (hs : Sane s) (hP : ChdirSafe s cur path) :
    Ends (doChdir cur path s) (fun h => h.fault = .panic) fun _ _ => True := by
  unfold doChdir
  split
  · trivial
  next hlen =>
    refine (quietly (procAt_calm hs cur)).bind ?_
    rintro p _ ⟨rfl, hp⟩
    refine ((quietly (openNamev_spec hs cur 0 p.pCwd (fits_of_short hlen le_rfl))).and
      (ends_self _)).bind fun r t hr => ?_
    obtain ⟨hr, hopen⟩ := hr
    cases hr with
    | failed _ _ => trivial
    | found hm hh =>
      rename_i v
      rw [if_neg (by simp [Ret.failed]), bind_ok (readOut_some v t)]
      refine (quietly (vnMode_spec (hm.sane hs) (mem_held hh))).bind ?_
      rintro k _ ⟨rfl, hk⟩
      split
      · exact (quiet_vput v t).bind fun _ _ _ => ends_pure trivial
      next hdir =>
        cases hcwd : p.pCwd with
        | none =>
          rw [hcwd] at hopen
          have hmeets := ((hP.resolve_left hlen p hp).resolve_left (not_not.mpr hcwd)).of_ok hopen
          exact absurd (by rw [hk, not_not.mp hdir]) (hmeets v rfl)
        | some old =>
          refine (quiet_dropRef old t).bind fun _ x _ => ?_
          rw [bind_ok (rfl : setCwd cur v x = .ok ((), _))]
          exact (quiet_vref v _).bind fun _ y _ => (quiet_vput v y).bind fun _ _ _ =>
            ends_pure trivial

theorem sane_enter (s : VState) : Sane s.enter := ⟨rfl, fun _ => Nat.zero_le _⟩

theorem sane_withSlot (hs : Sane s) (cur fd : ℕ) (x : Option ℕ) :
    Sane (withSlot (opening s) cur fd x) := ⟨hs.late, hs.covered⟩

theorem doOpen_quiet {filename : List Char} (oflags : ℕ) (hs : Sane s) (hfit : Fits filename) :
    Ends (doOpen cur filename oflags s) (fun h => h.fault = .panic) fun _ _ => True := by
  unfold doOpen
  refine (quietly (procAt_calm hs cur)).bind ?_
  rintro p _ ⟨rfl, -⟩
  cases getEmptyFd p with
  | none => trivial
  | some fd =>
    dsimp only
    by_cases hm : s.memory
    case neg =>
      rw [bind_ok ((fget_new cur s).trans (if_neg hm))]
      exact (quietly (openNamev_spec hs cur _ none hfit)).bind fun _ _ _ => rfl
    rw [bind_ok ((fget_new cur s).trans (if_pos hm))]
    dsimp only
    rw [bind_ok (setSlot_eq _ cur fd _)]
    refine (quietly (openNamev_spec (sane_withSlot hs cur fd _) cur _ none hfit)).bind
      fun r w hr => ?_
    cases hr with
    | failed _ _ => exact (quiet_fput _ w).bind fun _ _ _ => trivial
    | found hmoves hheld =>
      rename_i v
      rw [if_neg (by simp [Ret.failed]), bind_ok (readOut_some v w)]
      split
      · exact (quiet_abandonOpen cur fd _ v w).bind fun _ _ _ => ends_pure trivial
      split
      · exact (quiet_finishOpen _ v _ _ w).bind fun _ _ _ => ends_pure trivial
      refine (quiet_vnMode v w).bind fun k x _ => ?_
      split
      · exact (quiet_abandonOpen cur fd _ v x).bind fun _ _ _ => ends_pure trivial
      · exact (quiet_finishOpen _ v _ _ x).bind fun _ _ _ => ends_pure trivial

/-! ### Calls that go wrong -/

def faultOf {α : Type} : Except Halt α → Option VfsFault
  | .ok _ => none
  | .error h => some h.fault

theorem faultOf_bind {m : Vfs α} {β : Type} {f : α → Vfs β} {e : VfsFault}
    (h : faultOf (m s) = some e) : faultOf ((m >>= f) s) = some e := by
  cases hm : m s with
  | ok p => simp [hm, faultOf] at h
  | error x =>
    rw [bind_error hm]
    rwa [hm] at h

theorem faultOf_map {m : Vfs α} {β : Type} {g : α → β} : faultOf ((g <$> m) s) = faultOf (m s) := by
  rw [run_map]
  cases m s <;> rfl

theorem vget_fault (s : VState) (dir : ℕ) :
    (∃ t, vget dir s = .ok ((), t)) ∧ (0 < s.refs dir ∨ (s.inodes dir).isSome) ∨
      faultOf (vget dir s) = some .panic ∧ ¬(0 < s.refs dir ∨ (s.inodes dir).isSome) := by
  unfold vget
  by_cases href : 0 < s.refs dir
  · rw [if_pos href]
    cases hvn : s.vnodes dir with
    | none => simp [VState.refs, hvn] at href
    | some vn => exact .inl ⟨⟨_, rfl⟩, .inl href⟩
  · rw [if_neg href]
    cases hin : s.inodes dir with
    | none => exact .inr ⟨rfl, by simp [href]⟩
    | some inode => exact .inl ⟨⟨_, rfl⟩, .inr rfl⟩

/-- A path that does not fit leaves the buffer, unless `dir_namev` stops before. -/
theorem dirNamev_long (s : VState) (cur : ℕ) (hlong : ¬Fits path) :
    faultOf (dirNamev cur path none s) = some .overrun ∧ Starts s cur path ∨
      faultOf (dirNamev cur path none s) = some .panic ∧ ¬Starts s cur path := by
  have hne : path ≠ [] := by
    rintro rfl
    exact hlong (by decide)
  unfold dirNamev
  rw [if_neg hne]
  cases hp : s.procs[cur]? with
  | none =>
    have hproc : procAt cur s = stop .panic s := by rw [procAt, hp]
    exact .inr ⟨faultOf_bind (by rw [hproc]; rfl), by simp [Starts, hp]⟩
  | some p =>
    have hproc : procAt cur s = .ok (p, s) := by rw [procAt, hp]
    rw [bind_ok hproc]
    cases hd : startDir p path none with
    | none => exact .inr ⟨rfl, by simp [Starts, hp, hd]⟩
    | some dir =>
      rcases vget_fault s dir with ⟨⟨t, ht⟩, hstart⟩ | ⟨hfault, hstart⟩
      · refine .inl ⟨?_, p, hp, dir, hd, hstart⟩
        dsimp only
        rw [bind_ok ht, if_pos (not_le.mp hlong)]
        rfl
      · exact .inr ⟨faultOf_bind hfault, by simpa [Starts, hp, hd] using hstart⟩

theorem dirNamev_overrun (h : Overruns s cur path) :
    faultOf (dirNamev cur path none s) = some .overrun :=
  ((dirNamev_long s cur h.1).resolve_right fun hc => hc.2 h.2).1

theorem dirNamev_panic (hlong : ¬Fits path) (h : ¬Overruns s cur path) :
    faultOf (dirNamev cur path none s) = some .panic :=
  ((dirNamev_long s cur hlong).resolve_left fun hc => h ⟨hlong, hc.2⟩).1

theorem doMkdir_wrong (hs : Sane s) (hfit : Fits path) (hP : ¬NamevMeets s cur path MkdirNamed) :
    faultOf (doMkdir cur path s) = some .unsetRead := by
  obtain ⟨out, t, hout, hnot⟩ := not_gives.mp hP
  have hends := (dirNamev_spec hs cur none hfit).of_ok hout
  unfold doMkdir
  rw [bind_ok hout]
  cases hends with
  | failed _ _ => rfl
  | found _ _ => exact absurd rfl hnot

theorem doMknod_wrong (hs : Sane s) (hfit : Fits path) {mode : ℕ} (devid : ℕ)
    (hmode : isChr mode ∨ isBlk mode) (hP : ¬NamevMeets s cur path MknodSafe) :
    faultOf (doMknod cur path mode devid s) = some .unsetRead ∨
      faultOf (doMknod cur path mode devid s) = some .nullVput := by
  obtain ⟨out, t, hout, hnot⟩ := not_gives.mp hP
  obtain ⟨hnamed, hstale⟩ := not_or.mp hnot
  have hends := (dirNamev_spec hs cur none hfit).of_ok hout
  have hother : ¬(out.ret = .err .enametoolong ∨ out.ret = .err .einval) := fun hc =>
    hnamed (hc.elim .inl fun h => .inr (.inl h))
  unfold doMknod
  rw [if_neg (by simpa [or_iff_not_imp_left] using hmode), bind_ok hout, if_neg hother]
  cases hends with
  | failed hm hh =>
    rename_i e res
    left
    cases res with
    | none => rfl
    | some d =>
      have hk : modeOf t d = some .dir := by
        by_contra hk
        exact hstale ⟨rfl, d, rfl, hk⟩
      obtain ⟨u, hu, -⟩ := vnMode_some hk
      rw [bind_ok (readOut_some d t), bind_ok hu, if_neg (by simp)]
      rfl
  | found hm hh =>
    rename_i d name
    right
    have hst := hm.sane hs
    have hlong : modeOf t d = some .dir ∧ NAME_LEN < name.length := by
      simpa [MknodNamed] using hnamed
    have hlook : lookup d name none t = .ok ((.err .enametoolong, none), t) := by
      unfold lookup
      rw [bind_ok (vnMode_held (mem_held hh) hlong.1), if_neg (by simp), if_pos hlong.2]
      rfl
    rw [bind_ok (readOut_some d t), bind_ok (vnMode_held (mem_held hh) hlong.1), if_neg (by simp),
      bind_ok (readOut_some name t), bind_ok hlook, if_pos (by simp)]
    rfl

theorem doLink_wrong (hs : Sane s) (hP : ¬TargetMeets s cur source target LinkInDir) :
    faultOf (doLink cur source target s) = some .nullOp := by
  obtain ⟨hshort, hP⟩ := Classical.not_imp.mp hP
  obtain ⟨r, t, hopen, hP⟩ := not_gives.mp hP
  obtain ⟨⟨v', hv, hk⟩, hP⟩ := Classical.not_imp.mp hP
  obtain ⟨out, w, hout, hP⟩ := not_gives.mp hP
  have hfit {path : List Char} (h : path.length ≤ NAME_LEN) : Fits path :=
    fits_of_short (not_lt.mpr h) (by decide)
  have hends := (openNamev_spec hs cur 0 none (hfit hshort.1)).of_ok hopen
  unfold doLink
  rw [if_neg (by omega), bind_ok hopen]
  cases hends with
  | failed _ _ => cases hv
  | found hm hh =>
    obtain rfl := Option.some.inj hv
    have hst := hm.sane hs
    have hends := (dirNamev_spec hst cur none (hfit hshort.2)).of_ok hout
    obtain ⟨k, hmode⟩ := held_mode hst (mem_held hh)
    rw [if_neg (by simp [Ret.failed]), bind_ok (readOut_some _ t),
      bind_ok (vnMode_held (mem_held hh) hmode), if_neg fun hdir => hk (by rw [hmode, hdir]),
      bind_ok hout]
    cases hends with
    | failed _ _ => simp at hP
    | found hm' hh' =>
      rename_i d name
      have hnd : modeOf w d ≠ some .dir := by simpa [LinkInDir] using hP
      obtain ⟨k', hmode'⟩ := held_mode (hm'.sane hst) (mem_held hh')
      have hvn := vnMode_held (mem_held hh') hmode'
      have hne : k' ≠ .dir := fun hdir => hnd (by rw [hmode', hdir])
      have hlook : lookup d name none w = .ok ((.err .enotdir, none), w) := by
        unfold lookup
        rw [bind_ok hvn, if_pos hne]
        rfl
      have hop : dirOp d w = stop .nullOp w := by
        unfold dirOp
        rw [bind_ok hvn, if_neg hne]
      rw [if_neg (by simp [Ret.failed]), bind_ok (readOut_some d w), bind_ok (readOut_some name w),
        bind_ok hlook, if_neg (by simp)]
      exact faultOf_bind (by rw [hop]; rfl)

theorem doChdir_wrong (hs : Sane s) (hP : ¬ChdirSafe s cur path) :
    faultOf (doChdir cur path s) = some .nullVput := by
  obtain ⟨hlen, hP⟩ := not_or.mp hP
  simp only [not_forall, not_or, not_not] at hP
  obtain ⟨p, hp, hcwd, hP⟩ := hP
  obtain ⟨r, t, hopen, hP⟩ := not_gives.mp hP
  have hproc : procAt cur s = .ok (p, s) := by rw [procAt, hp]
  have hends := (openNamev_spec hs cur 0 none (fits_of_short hlen le_rfl)).of_ok hopen
  unfold doChdir
  rw [if_neg hlen, bind_ok hproc, hcwd, bind_ok hopen]
  cases hends with
  | failed _ _ => simp at hP
  | found hm hh =>
    rename_i v
    have hk : modeOf t v = some .dir := by simpa using hP
    rw [if_neg (by simp [Ret.failed]), bind_ok (readOut_some v t),
      bind_ok (vnMode_held (mem_held hh) hk), if_neg (by simp)]
    rfl

theorem starts_withSlot (cur fd : ℕ) (x : Option ℕ) :
    Starts (withSlot (opening s) cur fd x) cur path ↔ Starts s cur path := by
  cases hp : s.procs[cur]? with
  | none => simp [Starts, withSlot, opening, VState.setFile, hp]
  | some p => simp [Starts, withSlot, opening, VState.setFile, hp, startDir, VState.refs]

/-- With a free descriptor, `do_open` ends where `dir_namev` stops. -/
theorem doOpen_stops (hslot : HasSlot s cur) (path : List Char) (oflags : ℕ) :
    ∃ t, (Starts t cur path ↔ Starts s cur path) ∧
      ∀ e, faultOf (dirNamev cur path none t) = some e →
        faultOf (doOpen cur path oflags s) = some e := by
  obtain ⟨p, hp, hslot⟩ := hslot
  obtain ⟨fd, hfd⟩ := Option.isSome_iff_exists.mp hslot
  have hproc : procAt cur s = .ok (p, s) := by rw [procAt, hp]
  unfold doOpen
  rw [bind_ok hproc, hfd]
  dsimp only
  by_cases hm : s.memory
  · rw [bind_ok ((fget_new cur s).trans (if_pos hm))]
    refine ⟨withSlot (opening s) cur fd (some s.nextFile), starts_withSlot cur fd _, ?_⟩
    intro e he
    dsimp only
    rw [bind_ok (setSlot_eq _ cur fd _)]
    exact faultOf_bind (faultOf_bind he)
  · rw [bind_ok ((fget_new cur s).trans (if_neg hm))]
    exact ⟨s, Iff.rfl, fun e he => faultOf_bind (faultOf_bind he)⟩

theorem doOpen_full (hslot : ¬HasSlot s cur) (oflags : ℕ) :
    Ends (doOpen cur path oflags s) (fun h => h.fault = .panic) fun _ _ => True := by
  unfold doOpen
  cases hp : s.procs[cur]? with
  | none =>
    rw [bind_error (show procAt cur s = .error ⟨.panic, s.late⟩ by rw [procAt, hp]; rfl)]
    rfl
  | some p =>
    have hfd : getEmptyFd p = none := by
      by_contra hfd
      exact hslot ⟨p, hp, Option.isSome_iff_ne_none.mpr hfd⟩
    rw [bind_ok (show procAt cur s = .ok (p, s) by rw [procAt, hp]), hfd]
    trivial

theorem ends_of_fault {r : Except Halt (α × VState)} (h : faultOf r = some .panic) :
    Ends r (fun h => h.fault = .panic) fun _ _ => True := by
  cases r with
  | ok p => trivial
  | error e => exact Option.some.inj h

theorem doOpen_safe (hs : Sane s) (oflags : ℕ) (h : HasSlot s cur → ¬Overruns s cur path) :
    Ends (doOpen cur path oflags s) (fun h => h.fault = .panic) fun _ _ => True := by
  by_cases hfit : Fits path
  · exact doOpen_quiet oflags hs hfit
  by_cases hslot : HasSlot s cur
  · obtain ⟨t, hiff, hstops⟩ := doOpen_stops hslot path oflags
    have hno : ¬Overruns t cur path := fun hc => h hslot ⟨hfit, hiff.mp hc.2⟩
    exact ends_of_fault (hstops _ (dirNamev_panic hfit hno))
  · exact doOpen_full hslot oflags

theorem doOpen_overrun (hslot : HasSlot s cur) (h : Overruns s cur path) (oflags : ℕ) :
    faultOf (doOpen cur path oflags s) = some .overrun := by
  obtain ⟨t, hiff, hstops⟩ := doOpen_stops hslot path oflags
  exact hstops _ (dirNamev_overrun ⟨h.1, hiff.mpr h.2⟩)

def TakesPath : VfsCall → Bool
  | .mknod .. | .mkdir .. | .rmdir .. | .unlink .. | .link .. | .rename .. | .chdir ..
  | .stat .. | .openFile .. => true
  | _ => false

/-- The condition under which a path call does not go wrong. -/
def SafeCall (s : VState) (cur : ℕ) : VfsCall → Prop
  | .mknod path mode _ =>
    isChr mode ∨ isBlk mode → ¬Overruns s cur path ∧ NamevMeets s cur path MknodSafe
  | .mkdir path => ¬Overruns s cur path ∧ NamevMeets s cur path MkdirNamed
  | .rmdir path => ¬Overruns s cur path
  | .unlink path => ¬Overruns s cur path
  | .link source target => TargetMeets s cur source target LinkInDir
  | .rename oldname newname => TargetMeets s cur oldname newname LinkInDir
  | .chdir path => ChdirSafe s cur path
  | .openFile filename _ => HasSlot s cur → ¬Overruns s cur filename
  | _ => True

instance (s : VState) (cur : ℕ) : ∀ c, Decidable (SafeCall s cur c) := fun c => by
  cases c <;> unfold SafeCall <;> infer_instance

/-- The call did not stop, or it stopped at a failed assertion. -/
def Harmless {α : Type} (r : Except Halt α) : Prop :=
  ∀ h, r = .error h →
    h.fault ≠ .nullOp ∧ h.fault ≠ .nullVput ∧ h.fault ≠ .unsetRead ∧ h.fault ≠ .overrun

theorem harmless_iff {m : Vfs α} {β : Type} {g : α → β} {P : Prop}
    (hsafe : P → Ends (m s) (fun h => h.fault = .panic) fun _ _ => True)
    (hwrong : ¬P → ∃ e, faultOf (m s) = some e ∧ e ≠ .panic) : Harmless ((g <$> m) s) ↔ P := by
  constructor
  · intro h
    by_contra hP
    obtain ⟨e, he, hne⟩ := hwrong hP
    rw [← faultOf_map (g := g)] at he
    cases hr : (g <$> m) s with
    | ok p => simp [hr, faultOf] at he
    | error x =>
      rw [hr] at he
      obtain ⟨h1, h2, h3, h4⟩ := h x hr
      rw [Option.some.inj he] at h1 h2 h3 h4
      cases e <;> contradiction
  · intro hP h hr
    have hends : Ends ((g <$> m) s) (fun h => h.fault = .panic) fun _ _ => True :=
      (hsafe hP).map fun _ _ _ => trivial
    rw [hends.of_error hr]
    decide

/-- A call that begins with `dir_namev` goes wrong with it if the path does not fit, and stops at an
assertion if there is no directory to begin with. -/
theorem harmless_namev {m : Vfs α} {β : Type} {g : α → β} {P : Prop}
    (hfirst : ∀ e, faultOf (dirNamev cur path none s) = some e → faultOf (m s) = some e ∧ P)
    (hsafe : Fits path → P → Ends (m s) (fun h => h.fault = .panic) fun _ _ => True)
    (hwrong : Fits path → ¬P → ∃ e, faultOf (m s) = some e ∧ e ≠ .panic) :
    Harmless ((g <$> m) s) ↔ ¬Overruns s cur path ∧ P := by
  refine harmless_iff (fun hg => ?_) fun hg => ?_
  · by_cases hfit : Fits path
    · exact hsafe hfit hg.2
    · exact ends_of_fault (hfirst _ (dirNamev_panic hfit hg.1)).1
  · by_cases hover : Overruns s cur path
    · exact ⟨_, (hfirst _ (dirNamev_overrun hover)).1, by decide⟩
    by_cases hfit : Fits path
    · exact hwrong hfit fun hP => hg ⟨hover, hP⟩
    · exact absurd ⟨hover, (hfirst _ (dirNamev_panic hfit hover)).2⟩ hg

theorem namevMeets_of_fault {Q : Namev → VState → Prop} {e : VfsFault}
    (h : faultOf (dirNamev cur path none s) = some e) : NamevMeets s cur path Q := by
  unfold NamevMeets
  cases hr : dirNamev cur path none s with
  | ok p => simp [hr, faultOf] at h
  | error x => trivial

/-- A path call does not go wrong exactly if it meets its condition: it does not call a missing
operation, put a null pointer, read an output that was not set or overrun the buffer, whatever the
path and whatever the state. -/
theorem safe_path_calls (s : VState) (cur : ℕ) (c : VfsCall) (hc : TakesPath c) :
    Harmless (perform cur c s.enter) ↔ SafeCall s.enter cur c := by
  have hs := sane_enter s
  cases c with
  | mknod path mode devid =>
    by_cases hmode : isChr mode ∨ isBlk mode
    · have hnot : ¬(!isChr mode && !isBlk mode) = true := by
        simpa [or_iff_not_imp_left] using hmode
      refine (harmless_namev (fun e he => ⟨?_, namevMeets_of_fault he⟩)
        (fun hfit hP => doMknod_quiet hs hfit mode devid fun _ => hP) fun hfit hP => ?_).trans
        ⟨fun h _ => h, fun h => h hmode⟩
      · unfold doMknod
        rw [if_neg hnot]
        exact faultOf_bind he
      · rcases doMknod_wrong hs hfit devid hmode hP with he | he
        · exact ⟨_, he, by decide⟩
        · exact ⟨_, he, by decide⟩
    · refine harmless_iff (fun _ => ?_) fun hg => absurd (fun hc => absurd hc hmode) hg
      unfold doMknod
      rw [if_pos (by simpa using hmode)]
      trivial
  | mkdir path =>
    exact harmless_namev (fun e he => ⟨faultOf_bind he, namevMeets_of_fault he⟩)
      (doMkdir_quiet hs) fun hfit hP => ⟨_, doMkdir_wrong hs hfit hP, by decide⟩
  | rmdir path =>
    refine (harmless_namev (fun e he => ⟨faultOf_bind he, trivial⟩) (fun hfit _ => ?_)
      fun _ hP => absurd trivial hP).trans (and_iff_left trivial)
    exact (quietly (doRmdir_spec hs hfit)).mono (fun _ h => h) fun _ _ _ => trivial
  | unlink path =>
    refine (harmless_namev (fun e he => ⟨faultOf_bind he, trivial⟩) (fun hfit _ => ?_)
      fun _ hP => absurd trivial hP).trans (and_iff_left trivial)
    exact (quietly (doUnlink_spec hs hfit)).mono (fun _ h => h) fun _ _ _ => trivial
  | link source target =>
    refine harmless_iff (fun hg => ?_) fun hg => ⟨_, doLink_wrong hs hg, by decide⟩
    exact (doLink_quiet hs hg).mono (fun _ h => h) fun _ _ _ => trivial
  | rename oldname newname =>
    exact harmless_iff (doRename_quiet hs) fun hg => ⟨_, faultOf_bind (doLink_wrong hs hg),
      by decide⟩
  | chdir path => exact harmless_iff (doChdir_quiet hs) fun hg => ⟨_, doChdir_wrong hs hg,
    by decide⟩
  | stat path =>
    refine harmless_iff (fun _ => ?_) fun hg => absurd trivial hg
    exact (quietly (doStat_spec hs)).mono (fun _ h => h) fun _ _ _ => trivial
  | openFile filename oflags =>
    refine harmless_iff (doOpen_safe hs oflags) fun hg => ?_
    obtain ⟨hslot, hover⟩ := Classical.not_imp.mp hg
    exact ⟨_, doOpen_overrun hslot (not_not.mp hover) oflags, by decide⟩
  | _ => simp [TakesPath] at hc

/-- A link to a new name in a directory, and a device whose directory is a file. -/
theorem safe_after_creation : ∃ t,
    Run VfsStep (fun _ _ => True) booted [(0, .openFile ['f'] 0x100)] t ∧
    Harmless (perform 0 (.link ['f'] ['g']) t.enter) ∧
    Harmless (perform 0 (.mknod ['f', '/', 'x'] 0x100 0) t.enter) := by
  exact (exists_run_vfs _ _ (P := fun t => SafeCall t.enter 0 (.link ['f'] ['g']) ∧
      SafeCall t.enter 0 (.mknod ['f', '/', 'x'] 0x100 0)) (by decide +kernel)).imp fun t h =>
    ⟨h.1, (safe_path_calls t 0 _ rfl).mpr h.2.1, (safe_path_calls t 0 _ rfl).mpr h.2.2⟩

/-- A link below a file calls a missing operation, a device with a name that is too long puts
a null pointer, and a new directory below a missing one reads a name that was not set. -/
theorem unsafe_path_calls : ∃ t,
    Run VfsStep (fun _ _ => True) booted [(0, .openFile ['f'] 0x100)] t ∧
    faultOf (perform 0 (.link ['f'] ['f', '/', 'x']) t.enter) = some .nullOp ∧
    faultOf (perform 0 (.mknod (List.replicate 29 'x') 0x100 0) t.enter) = some .nullVput ∧
    faultOf (perform 0 (.mknod ['x', '/', 'y'] 0x100 0) t.enter) = some .unsetRead ∧
    faultOf (perform 0 (.mkdir ['x', '/', 'y']) t.enter) = some .unsetRead ∧
    faultOf (perform 0 (.mkdir []) t.enter) = some .unsetRead :=
  exists_run_vfs _ _ (by decide +kernel)

end SystemsProjects.PathCallSafety
