import SystemsProjects.OpenDescriptors
import SystemsProjects.PathResolution

/-!
# Opens that fail

`do_open` takes a descriptor and a file before it resolves the path, and `open_namev` may create
the file that the path names. The checks of the access mode and for a directory come after that,
and what they give back are the descriptor, the file and the reference to the vnode, but not a
new file. A file that was created is not a directory, so only an invalid access mode together
with `O_CREAT` can fail with the tree changed.
-/
namespace SystemsProjects.FailedOpens
open Function CallOutcomes VfsState RamfsOperations PathCalls FileCalls VfsCalls VnodeCache
open VnodeReferences (modeOf modeOf_vnode modeOf_setVnode_self dropRef_dropped)
open PathResolution FileReferences OpenDescriptors KeptInodes

variable {s t u : VState} {cur d v : ℕ} {l : List ℕ}

/-- A regular file with one name and a vnode in use. -/
def Made (s : VState) (k : ℕ) : Prop :=
  modeOf s k = some .reg ∧ ∃ x, s.inodes k = some x ∧ x.rfLinkcount = 2

theorem dropRef_inode {k : ℕ} {x : Inode} (hx : s.inodes k = some x) (hlinks : x.rfLinkcount = 2)
    (v : ℕ) : Gives (dropRef v s) fun _ t =>
      (k ≠ v → t.inodes k = some x) ∧ (t.inodes k).isSome := by
  have hsome : (s.inodes k).isSome := by simp [hx]
  unfold dropRef ramfsDeleteVnode
  split
  · trivial
  split
  · trivial
  split
  · exact ⟨fun _ => hx, hsome⟩
  split
  · trivial
  next y hy =>
    by_cases hk : k = v
    · subst hk
      obtain rfl := Option.some.inj (hx.symm.trans hy)
      rw [if_neg (by omega)]
      exact ⟨fun hne => absurd rfl hne, by simp [VState.setInode, VState.setVnode]⟩
    · have hkept : ∀ z, update s.inodes v z k = some x := fun z => (update_of_ne hk _ _).trans hx
      split_ifs
      · exact ⟨fun _ => hkept _, Option.isSome_of_eq_some (hkept _)⟩
      · exact ⟨fun _ => hkept _, Option.isSome_of_eq_some (hkept _)⟩

/-- A file that was made stays when a reference to a vnode is given back, also its own. -/
theorem vput_made {k : ℕ} (h : Made s k) (v : ℕ) : Gives (vput (some v) s) fun _ t =>
    (k ≠ v → Made t k) ∧ (t.inodes k).isSome := by
  obtain ⟨hmode, x, hx, hlinks⟩ := h
  rw [vput, bind_ok (rfl : touch v s = .ok ((), _))]
  have hdrop := dropRef_inode (s := { s with late := s.late || !s.held.contains v }) hx hlinks v
  refine (hdrop.and (dropRef_dropped _ v).gives).bind ?_
  rintro _ t ⟨⟨hsame, hsome⟩, hdropped⟩
  exact ⟨fun hne => ⟨(hdropped.modes k).trans hmode, x, hsame hne, hlinks⟩, hsome⟩

theorem vnMode_modeOf (s : VState) (v : ℕ) :
    Gives (vnMode v s) fun k _ => modeOf s v = some k := by
  rw [vnMode, bind_ok (rfl : touch v s = .ok ((), _))]
  cases hvn : s.vnodes v with
  | none =>
    rw [bind_error (show vnodeAt v _ = .error ⟨.panic, _⟩ by rw [vnodeAt, hvn]; rfl)]
    trivial
  | some vn =>
    rw [bind_ok (show vnodeAt v _ = .ok (vn, _) by rw [vnodeAt, hvn])]
    exact modeOf_vnode hvn

variable {name : Name}

theorem searched_of_enoent {T : ℕ → Option Inode} (h : lookupIn T d name = .error .enoent) :
    ∃ x es, T d = some x ∧ x.rfNode = .dir es ∧
      es.find? (fun e => e.rdName = name) = none := by
  unfold lookupIn at h
  split at h
  next es hes =>
    obtain ⟨x, hx, hnode⟩ := Option.map_eq_some_iff.mp hes
    refine ⟨x, es, hx, hnode, ?_⟩
    split at h
    · cases h
    split at h
    · cases h
    split at h
    · cases h
    · assumption
  · cases h

theorem dirOp_lent (h : Lent (d::l) s t) (hmiss : lookupIn (treeOf s) d name = .error .enoent) :
    ∃ u, dirOp d t = .ok ((), u) ∧ Lent (d::l) s u := by
  obtain ⟨x, es, hx, hes, -⟩ := searched_of_enoent hmiss
  obtain ⟨y, u, hy, hmode, hu⟩ := vnMode_lent h
  obtain rfl : x = y := Option.some.inj (hx.symm.trans hy)
  refine ⟨u, ?_, hu⟩
  rw [dirOp, bind_ok hmode, hes]
  rfl

theorem vget_created {i : ℕ} {page : ℕ → UInt8} (hs : Stored s) (hi : s.inodes i = none) :
    Gives (vget i (s.setInode i (some ⟨0, 1, .data page⟩))) fun _ t => Made t i := by
  have hzero : ¬0 < s.refs i := by
    intro hpos
    obtain ⟨x, -, hx, -⟩ := hs.inUse i hpos
    rw [hi] at hx
    cases hx
  have hnew : (s.setInode i (some ⟨0, 1, .data page⟩)).inodes i = some ⟨0, 1, .data page⟩ := by
    simp [VState.setInode]
  unfold vget
  rw [if_neg (show ¬0 < (s.setInode i (some ⟨0, 1, .data page⟩)).refs i from hzero), hnew]
  exact ⟨modeOf_setVnode_self .., _, update_self .., rfl⟩

theorem setEntry_made {k : ℕ} (h : Made s k) (hk : k ≠ d) (i : ℕ) (name : Name) (ino : ℕ) :
    Gives (setEntry d i name ino s) fun _ t => Made t k := by
  obtain ⟨hmode, x, hx, hlinks⟩ := h
  unfold setEntry
  split
  · exact ⟨hmode, x, (update_of_ne hk _ _).trans hx, hlinks⟩
  · trivial

/-- A directory has a free entry, and there is an inode to spare. -/
def HasRoom (s : VState) (d : ℕ) : Prop :=
  (∃ x es, treeOf s d = some x ∧ x.rfNode = .dir es ∧ ∃ e ∈ es, e.rdName = []) ∧
    ∃ i < RAMFS_MAX_FILES, s.inodes i = none

theorem ramfsCreate_ends (h : Lent l s t) (hmem : s.memory)
    (hmiss : lookupIn (treeOf s) d name = .error .enoent) :
    Gives (ramfsCreate d name none t) fun r u => (r.1.failed ∧ u = t ∧ ¬HasRoom s d) ∨
      (HasRoom s d ∧ ∃ k, r = (.val 0, some k) ∧ s.inodes k = none ∧ k ≠ d ∧ Made u k) := by
  obtain ⟨x, es, hx, hes, hfind⟩ := searched_of_enoent hmiss
  have hdir := dirents_lent h hx hes
  have hlook : ramfsLookup d name none t = .ok ((.err .enoent, none), t) := by
    rw [ramfsLookup, bind_ok hdir, hfind]
    rfl
  have hinode (i : ℕ) : t.inodes i = none ↔ s.inodes i = none := by
    rw [← Option.not_isSome_iff_eq_none, ← isSome_treeOf, h.tree, isSome_treeOf,
      Option.not_isSome_iff_eq_none]
  unfold ramfsCreate nameSlot
  rw [bind_assoc, bind_ok hlook, if_neg (by simp), bind_assoc, bind_ok hdir, pure_bind]
  cases hslot : es.findIdx? fun e => e.rdName = [] with
  | none =>
    refine .inl ⟨rfl, rfl, ?_⟩
    rintro ⟨⟨y, fs, hy, hfs, e, he, hfree⟩, -⟩
    obtain rfl := Option.some.inj (hx.symm.trans hy)
    obtain rfl := RamfsNode.dir.inj (hes.symm.trans hfs)
    simpa [hfree] using List.findIdx?_eq_none_iff.mp hslot e he
  | some i =>
    have hfree : ∃ e ∈ es, e.rdName = [] := by
      obtain ⟨hlt, hname, -⟩ := List.findIdx?_eq_some_iff_getElem.mp hslot
      exact ⟨_, List.getElem_mem hlt, by simpa using hname⟩
    refine (ends_self _).bind fun ino w hw => ?_
    unfold ramfsAllocInode at hw
    simp only [h.files.memory, hmem, if_true] at hw
    split at hw
    next k hk =>
      cases hw
      have hnone : t.inodes k = none := by simpa using List.find?_some hk
      have hlt : k < RAMFS_MAX_FILES := List.mem_range.mp (List.mem_of_find?_eq_some hk)
      have hkd : k ≠ d := by
        rintro rfl
        rw [treeOf, (hinode k).mp hnone] at hx
        cases hx
      refine (vget_created h.stored hnone).bind fun _ u hu => ?_
      refine (setEntry_made hu hkd i name k).bind fun _ u' hu' => ?_
      exact .inr ⟨⟨⟨x, es, hx, hes, hfree⟩, k, hlt, (hinode k).mp hnone⟩, k, rfl,
        (hinode k).mp hnone, hkd, hu'⟩
    next hk =>
      cases hw
      refine .inl ⟨rfl, rfl, ?_⟩
      rintro ⟨-, k, hlt, hnone⟩
      simpa [(hinode k).mpr hnone] using List.find?_eq_none.mp hk k (List.mem_range.mpr hlt)

/-- The path names a file that is not there and can be made. -/
def CanCreate (s : VState) (cur : ℕ) (path : List Char) (base : Option ℕ) : Prop :=
  ∃ v, Missing s cur path base v ∧ HasRoom s v

/-- `open_namev` fails without a trace, finds what is there, or makes a regular file. -/
theorem openNamev_outcomes (hs : Stored s) (hmem : s.memory) (cur : ℕ) (path : List Char)
    (flag : ℕ) (base : Option ℕ) :
    Gives (openNamev cur path flag base s) fun r u =>
      (¬(flag &&& O_CREAT = O_CREAT ∧ CanCreate s cur path base) ∧
        ((r.1.failed ∧ Lent [] s u) ∨ ∃ v, r = (.val 0, some v) ∧ Lent [v] s u)) ∨
      (flag &&& O_CREAT = O_CREAT ∧ CanCreate s cur path base ∧
        ∃ v, r = (.val 0, some v) ∧ s.inodes v = none ∧ Made u v) := by
  by_cases hne : path = []
  · subst hne
    refine .inl ⟨?_, .inl ⟨rfl, .refl hs⟩⟩
    rintro ⟨-, v, ⟨d, -, -, hlook⟩, -⟩
    change lookupIn (treeOf s) v [] = _ at hlook
    obtain h | h := lookupIn_nil (treeOf s) v
    · cases h.symm.trans hlook
    · cases (h []).symm.trans hlook
  refine openNamev_ends hs hne (fun _ _ => trivial) ?_ fun d u _ hno hl => .inl ⟨?_, ?_⟩
  · intro hflag v t hl hmiss
    obtain ⟨d, hd, hres, hlook⟩ := id hmiss
    obtain ⟨w, hw, hlw⟩ := dirOp_lent hl hlook
    rw [bind_ok hw]
    refine (ramfsCreate_ends hlw hmem hlook).bind ?_
    rintro r u (⟨hfail, rfl, hfull⟩ | ⟨hroom, i, rfl, hnone, hne, hmade⟩)
    · obtain ⟨u', hu', hl'⟩ := put_lent hs hlw r
      rw [hu']
      refine .inl ⟨?_, .inl ⟨hfail, hl'⟩⟩
      rintro ⟨-, v', ⟨d', hd', hres', -⟩, hroom⟩
      obtain rfl := Option.some.inj (hd.symm.trans hd')
      obtain rfl := Except.ok.inj (hres.symm.trans hres')
      exact hfull hroom
    · refine (vput_made hmade v).bind fun _ u' hu' => ?_
      exact .inr ⟨hflag, ⟨v, hmiss, hroom⟩, i, rfl, hnone, hu'.1 hne⟩
  · rintro ⟨hflag, v, hmiss, -⟩
    exact hno hflag v hmiss
  · cases hres : resolvePath (treeOf s) d path with
    | error e =>
      rw [hres] at hl
      exact .inl ⟨rfl, hl⟩
    | ok v =>
      rw [hres] at hl
      exact .inr ⟨v, rfl, hl⟩

/-- The tree, the descriptors, the files and the counts are those of the state before. -/
structure Unchanged (s t : VState) : Prop where
  tree : treeOf t = treeOf s
  procs : t.procs = s.procs
  files : t.files = s.files
  refs : ∀ v, t.refs v = s.refs v

theorem lent_setFile (h : Lent l s t) (f : ℕ) (x : Option File) :
    Lent l (s.setFile f x) (t.setFile f x) where
  stored := h.stored.congr rfl rfl
  tree := h.tree
  refs := h.refs
  files := ⟨h.files.procs, by simp only [VState.setFile, h.files.files], h.files.nextFile,
    h.files.memory, h.files.opened, h.files.closed⟩

/-- The vnode is given back, the file is freed and the descriptor is cleared. -/
theorem unchanged_of_lent {fd : ℕ} (hn : s.files s.nextFile = none) (hslot : SlotIs s cur fd none)
    (h : Lent [] ((reserved s cur fd).setFile s.nextFile none) t) :
    Unchanged s (withSlot t cur fd none) where
  tree := h.tree
  procs := by
    have hprocs : (withSlot t cur fd none).procs
        = (withSlot (withSlot s cur fd (some s.nextFile)) cur fd none).procs := by
      simp only [withSlot, h.files.procs]
      rfl
    rw [hprocs, withSlot_withSlot, withSlot_self hslot]
  files := by
    have hfiles : (withSlot t cur fd none).files = ((opening s).setFile s.nextFile none).files :=
      h.files.files
    rw [hfiles, opening_freed hn]
  refs v := h.refs v

theorem canCreate_reserved {fd : ℕ} (path : List Char) (base : Option ℕ) :
    CanCreate (reserved s cur fd) cur path base ↔ CanCreate s cur path base := by
  have hstart : startOf (reserved s cur fd) cur path base = startOf s cur path base := by
    simp only [startOf, reserved, withSlot, opening, VState.setFile, List.getElem?_modify_eq]
    cases s.procs[cur]? <;> rfl
  unfold CanCreate Missing
  rw [hstart]
  rfl

/-- The call comes to the check of the access mode, which fails, with a file that it has made. -/
def CreatesFirst (s : VState) (cur : ℕ) (path : List Char) (oflags : ℕ) : Prop :=
  oflags &&& 3 = 3 ∧ oflags &&& O_CREAT = O_CREAT ∧ (∃ fd, SlotIs s cur fd none) ∧
    CanCreate s cur path none

/-- An open that fails leaves everything as it was, unless the access mode is invalid and the file
was created before that was noticed. -/
theorem failed_open_unchanged (hs : Stored s) (hn : s.files s.nextFile = none)
    (cur : ℕ) (filename : List Char) (oflags : ℕ) :
    Ends (doOpen cur filename oflags s) (fun _ => True) fun r u =>
      r.failed → (Unchanged s u ↔ ¬CreatesFirst s cur filename oflags) := by
  refine (doOpen_ends cur filename oflags s).imp ?_
  rintro r u (⟨-, rfl, hfull⟩ | ⟨fd, q, t, hslot, hmem, hq, -, hend⟩) hfail
  · exact iff_of_true ⟨rfl, rfl, rfl, fun _ => rfl⟩ fun hc => hfull _ hc.2.2.1.choose_spec
  have hstored : Stored (reserved s cur fd) := hs.congr rfl rfl
  have hfreed : Stored ((reserved s cur fd).setFile s.nextFile none) := hs.congr rfl rfl
  have hflag : oflags &&& 0x700 &&& O_CREAT = oflags &&& O_CREAT := by
    rw [Nat.and_assoc]
    rfl
  have hout := openNamev_outcomes hstored hmem cur filename (oflags &&& 0x700) none
  rw [hq] at hout
  simp only [Ends, hflag, canCreate_reserved] at hout
  obtain ⟨hno, hout⟩ | ⟨hcreat, hcan, v, rfl, hnone, hmade⟩ := hout
  · refine iff_of_true ?_ fun hc => hno ⟨hc.2.1, hc.2.2.2⟩
    cases hend with
    | unresolved hbad =>
      obtain ⟨-, hl⟩ | ⟨v, rfl, -⟩ := hout
      · exact unchanged_of_lent hn hslot (lent_setFile hl _ _)
      · cases hbad
    | invalid hgood hv hthree hput =>
      obtain ⟨hbad, -⟩ | ⟨v, rfl, hl⟩ := hout
      · exact absurd hbad hgood
      · obtain rfl := Option.some.inj hv
        obtain ⟨w, hw, hlw⟩ := vput_lent hfreed (lent_setFile hl _ _)
        rw [hw] at hput
        cases hput
        exact unchanged_of_lent hn hslot hlw
    | directory hgood hv hdir hput =>
      obtain ⟨hbad, -⟩ | ⟨v, rfl, hl⟩ := hout
      · exact absurd hbad hgood
      · obtain rfl := Option.some.inj hv
        obtain ⟨_, _, _, hkind, hl'⟩ := vnMode_lent hl
        obtain ⟨-, rfl⟩ := outcome_inj (hdir.symm.trans hkind)
        obtain ⟨w, hw, hlw⟩ := vput_lent hfreed (lent_setFile hl' _ _)
        rw [hw] at hput
        cases hput
        exact unchanged_of_lent hn hslot hlw
    | opened => cases hfail
  · cases hend with
    | unresolved hbad => cases hbad
    | invalid hgood hv hthree hput =>
      refine iff_of_false (fun hsame => ?_) fun hc => hc ⟨hthree, hcreat, ⟨fd, hslot⟩, hcan⟩
      obtain rfl := Option.some.inj hv
      -- the file that was made is still there when its vnode has been given back
      have hthere := ((vput_made (s := t.setFile s.nextFile none) hmade v).of_ok hput).2
      have hgone : (treeOf s v).isSome := by
        rw [← hsame.tree, isSome_treeOf]
        exact hthere
      rw [isSome_treeOf, show s.inodes v = none from hnone] at hgone
      cases hgone
    | directory hgood hv hdir hput =>
      obtain rfl := Option.some.inj hv
      -- A file that was just made is not a directory.
      have hkind := vnMode_modeOf t v
      rw [hdir] at hkind
      cases hkind.symm.trans hmade.1
    | opened => cases hfail

/-- An open for reading of a name that is not there, and one of a directory for writing. -/
theorem two_failed_opens : Stored booted ∧ booted.files booted.nextFile = none ∧
    (∃ u, doOpen 0 ['f'] 0 booted = .ok (.err .enoent, u) ∧ Unchanged booted u) ∧
    ∃ u, doOpen 0 ['.'] 0x101 booted = .ok (.err .eisdir, u) ∧ Unchanged booted u := by
  have hstored : Stored booted := kept_booted.stored
  obtain ⟨u₁, h₁⟩ : ∃ u, doOpen 0 ['f'] 0 booted = .ok (.err .enoent, u) := by decide +kernel
  obtain ⟨u₂, h₂⟩ : ∃ u, doOpen 0 ['.'] 0x101 booted = .ok (.err .eisdir, u) := by decide +kernel
  exact ⟨hstored, rfl,
    ⟨u₁, h₁, ((failed_open_unchanged hstored rfl 0 ['f'] 0).of_ok h₁ rfl).mpr fun hc =>
      absurd hc.1 (by decide)⟩,
    ⟨u₂, h₂, ((failed_open_unchanged hstored rfl 0 ['.'] 0x101).of_ok h₂ rfl).mpr fun hc =>
      absurd hc.1 (by decide)⟩⟩

/-- With `O_CREAT` and the access mode 3, the call fails after it has created the file. -/
theorem invalid_mode_creates : ∃ u, doOpen 0 ['f'] 0x103 booted = .ok (.err .einval, u) ∧
    treeOf booted 1 = none ∧ (treeOf u 1).isSome := by
  decide +kernel

end SystemsProjects.FailedOpens
