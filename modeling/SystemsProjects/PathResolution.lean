import SystemsProjects.KeptInodes

/-!
# Path resolution over the directory tree

What a path names is a matter of the tree of inodes: one lookup after the other, from the
directory that the path starts in, over the components between its slashes. `dir_namev` and
`open_namev` do this with references to vnodes, of which they hold one at a time. The lookup of
an empty component succeeds exactly on a directory and gives the directory itself, so that extra
slashes do nothing, except behind the last component: there they ask for a directory.

What the entries on the way refer to has to be there, or the kernel stops. A directory that has
been removed while it was in use may still name a parent that is gone; in a closed tree, every
entry with a name refers to an inode.
-/
namespace SystemsProjects.PathResolution
open CallOutcomes VfsState RamfsOperations PathCalls VfsCalls VfsFrames VnodeCache KeptInodes Option
open GuardedRuns
open List hiding lookup

section Trees

/-- `lookup` as a function of the tree. -/
def lookupIn (T : ℕ → Option Inode) (d : ℕ) (name : Name) : Except VfsErrno ℕ :=
  match (T d).map Inode.rfNode with
  | some (.dir l) =>
    if NAME_LEN < name.length then .error .enametoolong
    else if name = [] then .ok d
    else match l.find? fun e => e.rdName = name with
      | some e => .ok e.rdIno
      | none => .error .enoent
  | _ => .error .enotdir

def resolve (T : ℕ → Option Inode) (d : ℕ) (names : List Name) : Except VfsErrno ℕ :=
  names.foldlM (lookupIn T) d

def names (path : List Char) : List Name := (path.splitOn '/').filter (· ≠ [])

/-- What a path names from a directory on: the lookups of its components that are not empty,
and a slash at the end asks for a directory. -/
def resolvePath (T : ℕ → Option Inode) (d : ℕ) (path : List Char) : Except VfsErrno ℕ := do
  let v ← resolve T d (names path)
  if path.getLast? = some '/' then lookupIn T v [] else return v

/-- Entries with a name refer to inodes that are there. -/
def Closed (T : ℕ → Option Inode) : Prop :=
  ∀ d x l e, T d = some x → x.rfNode = .dir l → e ∈ l → e.rdName ≠ [] → (T e.rdIno).isSome

/-- Every inode that the lookups come to is there. -/
def Walks (T : ℕ → Option Inode) : ℕ → List Name → Prop
  | d, [] => (T d).isSome
  | d, n::ns => (T d).isSome ∧ ∀ v, lookupIn T d n = .ok v → Walks T v ns

theorem lookupIn_isSome {T : ℕ → Option Inode} (hc : Closed T) {d v : ℕ} {n : Name}
    (h : lookupIn T d n = .ok v) : (T v).isSome := by
  unfold lookupIn at h
  split at h
  next l hl =>
    obtain ⟨x, hx, hnode⟩ := map_eq_some_iff.mp hl
    split_ifs at h with hlong hnil
    · obtain rfl := Except.ok.inj h
      rw [hx]
      rfl
    · split at h
      next e he =>
        have heq : e.rdName = n := by simpa using find?_some he
        obtain rfl := Except.ok.inj h
        exact hc d x l e hx hnode (mem_of_find?_eq_some he) (heq ▸ hnil)
      · cases h
  · cases h

theorem walks_of_closed {T : ℕ → Option Inode} (hc : Closed T) {d : ℕ} (hd : (T d).isSome)
    (ns : List Name) : Walks T d ns := by
  induction ns generalizing d with
  | nil => exact hd
  | cons n ns ih => exact ⟨hd, fun v hv => ih (lookupIn_isSome hc hv)⟩

theorem resolve_append (T : ℕ → Option Inode) (d : ℕ) (ns ms : List Name) :
    resolve T d (ns++ms) = resolve T d ns >>= fun v => resolve T v ms :=
  foldlM_append

theorem resolve_cons (T : ℕ → Option Inode) (d : ℕ) (n : Name) (ns : List Name) :
    resolve T d (n::ns) = lookupIn T d n >>= fun v => resolve T v ns :=
  foldlM_cons

theorem walks_start {T : ℕ → Option Inode} {d : ℕ} : ∀ {ns : List Name}, Walks T d ns →
    (T d).isSome
  | [], h => h
  | _::_, h => h.1

theorem walks_before {T : ℕ → Option Inode} {d : ℕ} {ns ms : List Name}
    (h : Walks T d (ns++ms)) : Walks T d ns := by
  induction ns generalizing d with
  | nil => exact walks_start h
  | cons n ns ih => exact ⟨h.1, fun v hv => ih (h.2 v hv)⟩

theorem walks_append {T : ℕ → Option Inode} {d : ℕ} {ns ms : List Name} (h : Walks T d (ns++ms))
    {v : ℕ} (hv : resolve T d ns = .ok v) : Walks T v ms := by
  induction ns generalizing d with
  | nil =>
    obtain rfl := Except.ok.inj hv
    exact h
  | cons n ns ih =>
    rw [resolve_cons] at hv
    cases hn : lookupIn T d n with
    | error e => simp [hn, Except.bind, bind] at hv
    | ok w =>
      rw [hn] at hv
      exact ih (h.2 w hn) hv

theorem resolve_singleton (T : ℕ → Option Inode) (d : ℕ) (n : Name) :
    resolve T d [n] = lookupIn T d n := by
  rw [resolve_cons]
  cases lookupIn T d n <;> rfl

/-- An empty component gives the directory itself, and every lookup fails as it does on
something else. -/
theorem lookupIn_nil (T : ℕ → Option Inode) (d : ℕ) : lookupIn T d [] = .ok d ∨
    ∀ n, lookupIn T d n = .error .enotdir := by
  unfold lookupIn
  cases (T d).map Inode.rfNode with
  | none => exact .inr fun _ => rfl
  | some node =>
    cases node with
    | dir l => exact .inl rfl
    | data page => exact .inr fun _ => rfl
    | chr devid => exact .inr fun _ => rfl
    | blk devid => exact .inr fun _ => rfl

theorem resolve_filter (T : ℕ → Option Inode) (d : ℕ) (ns : List Name) (last : Name) :
    resolve T d (ns++[last]) = resolve T d (ns.filter (· ≠ [])++[last]) := by
  induction ns generalizing d with
  | nil => rfl
  | cons n rest ih =>
    by_cases hn : n = []
    · subst hn
      have hdrop : List.filter (· ≠ []) ([] :: rest) = List.filter (· ≠ []) rest :=
        filter_cons_of_neg (by simp)
      rw [hdrop, cons_append, resolve_cons]
      rcases lookupIn_nil T d with hdir | hnot
      · rw [hdir]
        exact ih d
      · rw [hnot]
        -- no lookup succeeds here, whichever component comes next
        cases hrest : List.filter (· ≠ []) rest++[last] with
        | nil => simp at hrest
        | cons m ms =>
          rw [resolve_cons, hnot]
          rfl
    · rw [filter_cons_of_pos (by simpa using hn), cons_append, cons_append,
        resolve_cons, resolve_cons]
      simp only [ih]

/-- The components before the last slash and what follows it are the parts of the path. -/
theorem components_eq (path : List Char) :
    (components path).1++[(components path).2] = path.splitOn '/' := by
  induction path with
  | nil => rfl
  | cons c cs ih =>
    rw [splitOn_cons_eq_if_modifyHead, ← ih, components]
    by_cases hc : c = '/'
    · simp [hc]
    · simp only [if_neg hc, beq_iff_eq]
      cases components cs with
      | mk ns last => cases ns <;> simp

theorem slash_not_mem {path : List Char} (h : (components path).1 = []) : '/' ∉ path := by
  induction path with
  | nil => simp
  | cons c cs ih =>
    rw [components] at h
    split at h
    · cases h
    · rename_i hc
      cases hcs : components cs with
      | mk ns last =>
        rw [hcs] at h ih
        cases ns with
        | nil => exact not_mem_cons_of_ne_of_not_mem (Ne.symm hc) (ih rfl)
        | cons n ns => cases h

theorem components_snd_eq_nil_iff (path : List Char) :
    (components path).2 = [] ↔ path = [] ∨ path.getLast? = some '/' := by
  induction path with
  | nil => simp [components]
  | cons c cs ih =>
    rw [components]
    by_cases hc : c = '/'
    · subst hc
      rw [if_pos rfl]
      cases cs with
      | nil => simp [components]
      | cons c' cs' => simpa using ih
    · rw [if_neg hc]
      cases hcs : components cs with
      | mk ns last =>
        rw [hcs] at ih
        cases ns with
        | nil =>
          have hnot : '/' ∉ c::cs := not_mem_cons_of_ne_of_not_mem (Ne.symm hc)
            (slash_not_mem (by rw [hcs]))
          simp only [reduceCtorEq, false_or, false_iff]
          exact fun hlast => hnot (mem_of_getLast? hlast)
        | cons n ns =>
          cases cs with
          | nil => cases hcs
          | cons c' cs' => simpa using ih

theorem names_relative (path : List Char) : names (relative path) = names path := by
  rw [relative]
  split
  · rename_i hhead
    cases path with
    | nil => rfl
    | cons c cs =>
      obtain rfl := some.inj hhead
      rw [names, names, splitOn_cons_eq_if_modifyHead, if_pos (by rfl)]
      simp
  · rfl

theorem components_relative_snd {path : List Char} (hne : path ≠ []) :
    (components (relative path)).2 = [] ↔ path.getLast? = some '/' := by
  rw [components_snd_eq_nil_iff, relative]
  split
  · rename_i hhead
    cases path with
    | nil => exact absurd rfl hne
    | cons c cs =>
      obtain rfl := some.inj hhead
      cases cs with
      | nil => simp
      | cons c' cs' => simp
  · simp [hne]

/-- The components as `dir_namev` finds them lead to what the path names. -/
theorem resolve_components (T : ℕ → Option Inode) (d : ℕ) {path : List Char} (hne : path ≠ []) :
    resolve T d ((components (relative path)).1++[(components (relative path)).2])
      = resolvePath T d path := by
  have hnames : names path = (components (relative path)).1.filter (· ≠ [])
      ++[(components (relative path)).2].filter (· ≠ []) := by
    rw [← names_relative, names, ← components_eq, filter_append]
  rw [resolve_filter, resolvePath, hnames]
  by_cases hlast : (components (relative path)).2 = []
  · rw [hlast, resolve_append]
    simp [(components_relative_snd hne).mp hlast, resolve_singleton]
  · have hkeep : [(components (relative path)).2].filter (· ≠ [])
        = [(components (relative path)).2] := by simp [hlast]
    have hopen : path.getLast? ≠ some '/' := fun h => hlast ((components_relative_snd hne).mpr h)
    simp only [hkeep, if_neg hopen, bind_pure]

theorem resolvePath_slash (T : ℕ → Option Inode) (d : ℕ) (p q : List Char) :
    resolvePath T d (p++ '/' :: '/' :: q) = resolvePath T d (p++ '/' :: q) := by
  have hnames : names (p++ '/' :: '/' :: q) = names (p++ '/' :: q) := by
    rw [names, names, splitOn_append_cons_of_beq _ _ (by rfl),
      splitOn_append_cons_of_beq _ _ (by rfl), splitOn_cons_eq_if_modifyHead,
      if_pos (by rfl)]
    simp
  have hlast : (p++ '/' :: '/' :: q).getLast? = (p++ '/' :: q).getLast? := by simp
  rw [resolvePath, resolvePath, hnames, hlast]

end Trees

section Calls

variable {s t : VState} {l : List ℕ} {d cur : ℕ}

/-- What a lookup returns: the return value and the result. -/
def reply (result : Option ℕ) : Except VfsErrno ℕ → Ret × Option ℕ
  | .ok v => (.val 0, some v)
  | .error e => (.err e, result)

def found : Except VfsErrno ℕ → List ℕ
  | .ok v => [v]
  | .error _ => []

theorem vnMode_lent (h : Lent (d::l) s t) : ∃ x u, treeOf s d = some x ∧
    vnMode d t = .ok (x.rfNode.kind, u) ∧ Lent (d::l) s u := by
  have hpos : 0 < t.refs d := by
    rw [h.refs, count_cons_self]
    omega
  obtain ⟨y, vn, hy, hvn, hmode, -⟩ := h.stored.inUse d hpos
  have hx := treeOf_eq hy
  rw [h.tree] at hx
  rw [vnMode, bind_ok (rfl : touch d t = .ok ((), _))]
  refine ⟨_, _, hx, ?_, h.noted (u := { t with late := t.late || !t.held.contains d }) rfl rfl
    ⟨rfl, rfl, rfl, rfl, rfl, rfl⟩⟩
  have hat : vnodeAt d { t with late := t.late || !t.held.contains d }
      = .ok (vn, { t with late := t.late || !t.held.contains d }) := by
    simp only [vnodeAt, hvn]
  rw [bind_ok hat, hmode]
  rfl

theorem dirents_lent (h : Lent l s t) {x : Inode} {es : List Dirent} (hx : treeOf s d = some x)
    (hes : x.rfNode = .dir es) : dirents d t = .ok (es, t) := by
  rw [← h.tree] at hx
  obtain ⟨y, hy, -, hnode, -⟩ := exists_inode hx
  obtain ⟨size, links, node⟩ := y
  simp only [dirents, hy]
  rw [hes] at hnode
  subst hnode
  rfl

theorem vget_ends (h : Lent l s t) (v : ℕ) : Ends (vget v t) (fun _ => ¬(treeOf s v).isSome)
    fun _ u => (treeOf s v).isSome ∧ Lent (v::l) s u := by
  rw [isSome_treeOf]
  cases hv : (s.inodes v).isSome with
  | true =>
    obtain ⟨u, hu, hl⟩ := vget_lent h hv
    rw [hu]
    exact ⟨rfl, hl⟩
  | false =>
    obtain ⟨halt, hhalt⟩ := vget_lost h (by simpa using hv)
    rw [hhalt]
    simp [Ends]

/-- A lookup in a directory stops exactly if the entry that it finds refers to no inode. -/
theorem ramfsLookup_ends (h : Lent l s t) {x : Inode} {es : List Dirent}
    (hx : treeOf s d = some x) (hes : x.rfNode = .dir es) (name : Name) (result : Option ℕ) :
    Ends (ramfsLookup d name result t)
      (fun _ => ∃ e, es.find? (fun e => e.rdName = name) = some e ∧ ¬(treeOf s e.rdIno).isSome)
      fun r u =>
      (∃ e, es.find? (fun e => e.rdName = name) = some e ∧ (treeOf s e.rdIno).isSome ∧
        r = (.val 0, some e.rdIno) ∧ Lent (e.rdIno::l) s u) ∨
      (es.find? (fun e => e.rdName = name) = none ∧ r = (.err .enoent, result) ∧ t = u) := by
  rw [ramfsLookup, bind_ok (dirents_lent h hx hes)]
  cases hfind : es.find? fun e => e.rdName = name with
  | none => exact .inr ⟨rfl, rfl, rfl⟩
  | some e =>
    refine ((vget_ends h e.rdIno).mono (fun _ hlost => ⟨e, rfl, hlost⟩) fun _ _ hu => hu).bind ?_
    rintro _ u ⟨hthere, hu⟩
    exact .inl ⟨e, rfl, hthere, rfl, hu⟩

/-- One lookup, from a directory that the call holds. It stops only at a name without an
inode. -/
theorem lookup_ends (h : Lent (d::l) s t) (name : Name) (result : Option ℕ) :
    Ends (lookup d name result t)
      (fun _ => ∃ v, lookupIn (treeOf s) d name = .ok v ∧ ¬(treeOf s v).isSome) fun r u =>
      (∀ v, lookupIn (treeOf s) d name = .ok v → (treeOf s v).isSome) ∧
      r = reply result (lookupIn (treeOf s) d name) ∧
      Lent (found (lookupIn (treeOf s) d name)++d::l) s u := by
  obtain ⟨x, u, hx, hmode, hu⟩ := vnMode_lent h
  have hthere : (treeOf s d).isSome := by
    rw [hx]
    rfl
  rw [lookup, bind_ok hmode, lookupIn, hx, map_some]
  cases hnode : x.rfNode with
  | dir es =>
    rw [if_neg (by simp [RamfsNode.kind])]
    simp only
    by_cases hlong : NAME_LEN < name.length
    · rw [if_pos hlong, if_pos hlong]
      exact ⟨fun _ hv => (by cases hv), rfl, hu⟩
    rw [if_neg hlong, if_neg hlong]
    by_cases hnil : name = []
    · rw [if_pos hnil, if_pos hnil]
      obtain ⟨u', hu', hl⟩ := vget_lent hu (isSome_treeOf s d ▸ hthere)
      rw [bind_ok hu']
      refine ⟨fun v hv => ?_, rfl, hl⟩
      obtain rfl := Except.ok.inj hv
      exact hthere
    rw [if_neg hnil, if_neg hnil]
    refine (ramfsLookup_ends hu hx hnode name result).mono ?_ ?_
    · rintro _ ⟨e, hfind, hlost⟩
      rw [hfind]
      exact ⟨_, rfl, hlost⟩
    · rintro r w (⟨e, hfind, hthere, rfl, hl⟩ | ⟨hfind, rfl, rfl⟩)
      · rw [hfind]
        refine ⟨fun v hv => ?_, rfl, hl⟩
        obtain rfl := Except.ok.inj hv
        exact hthere
      · rw [hfind]
        exact ⟨fun _ hv => (by cases hv), rfl, hu⟩
  | data page => exact ⟨fun _ hv => (by cases hv), rfl, hu⟩
  | chr devid => exact ⟨fun _ hv => (by cases hv), rfl, hu⟩
  | blk devid => exact ⟨fun _ hv => (by cases hv), rfl, hu⟩

/-- What `dir_namev` leaves when the components before the last one lead to `r`. -/
def NamevIs (last : Name) (r : Except VfsErrno ℕ) (out : Namev) : Prop :=
  match r with
  | .ok v => out = ⟨.val 0, some last, some v⟩
  | .error e => out.ret = .err e ∧ out.name = none

theorem namevLoop_ends (hs : Stored s) (last : Name) (ns : List Name) (h : Lent (d::l) s t)
    (result : Option ℕ) :
    Ends (namevLoop last ns d result t) (fun _ => ¬Walks (treeOf s) d ns) fun out u =>
      Walks (treeOf s) d ns ∧ NamevIs last (resolve (treeOf s) d ns) out ∧
      Lent (found (resolve (treeOf s) d ns)++l) s u := by
  obtain ⟨x, -, hx, -⟩ := vnMode_lent h
  have hd : (treeOf s d).isSome := by
    rw [hx]
    rfl
  induction ns generalizing d t x result with
  | nil => exact ⟨hd, rfl, h⟩
  | cons n rest ih =>
    rw [namevLoop, resolve_cons]
    refine ((lookup_ends h n result).mono ?_ fun _ _ hu => hu).bind ?_
    · rintro _ ⟨v, hv, hlost⟩ hwalk
      exact hlost (walks_start (hwalk.2 v hv))
    rintro r u ⟨hthere, rfl, hl⟩
    cases hlook : lookupIn (treeOf s) d n with
    | error e =>
      rw [hlook] at hl
      obtain ⟨w, hw, hlw⟩ := vput_lent hs hl
      rw [reply, if_pos (by rfl), bind_ok hw]
      exact ⟨⟨hd, fun v hv => by cases hlook.symm.trans hv⟩, ⟨rfl, rfl⟩, hlw⟩
    | ok v =>
      rw [hlook] at hl
      obtain ⟨w, hw, hlw⟩ := vput_lent hs (hl.perm (List.Perm.swap d v l))
      rw [reply, if_neg (by simp [Ret.failed]), bind_ok hw]
      obtain ⟨y, hy⟩ := isSome_iff_exists.mp (hthere v hlook)
      refine (ih hlw (some v) y hy (hthere v hlook)).mono (fun _ hno hwalk => ?_) ?_
      · exact hno (hwalk.2 v hlook)
      · rintro out z ⟨hwalk, hrest⟩
        refine ⟨⟨hd, fun v' hv' => ?_⟩, hrest⟩
        obtain rfl := Except.ok.inj (hlook.symm.trans hv')
        exact hwalk

/-- The directory that a path of the process starts from. -/
def startOf (s : VState) (cur : ℕ) (path : List Char) (base : Option ℕ) : Option ℕ :=
  (s.procs[cur]?).bind fun p => startDir p path base

/-- Nothing on the way over some of the components of a path makes the kernel stop: the path fits
into the buffer, and the directory that it starts from and what the lookups come to are there. -/
structure Walkable (s : VState) (cur : ℕ) (path : List Char) (base : Option ℕ) (ns : List Name) :
    Prop where
  fits : (relative path).length ≤ MAXPATHLEN
  walks : ∃ d, startOf s cur path base = some d ∧ Walks (treeOf s) d ns

/-- `dir_namev` returns exactly if it can walk over the components before the last one. -/
theorem dirNamev_ends (hs : Stored s) {path : List Char} (base : Option ℕ) (hne : path ≠ []) :
    Ends (dirNamev cur path base s)
      (fun _ => ¬Walkable s cur path base (components (relative path)).1) fun out u =>
      Walkable s cur path base (components (relative path)).1 ∧
      ∃ d, startOf s cur path base = some d ∧
      ((∃ e, resolve (treeOf s) d (components (relative path)).1 = .error e ∧
        out.1 = .err e ∧ Lent [] s u) ∨
      ∃ v, resolve (treeOf s) d (components (relative path)).1 = .ok v ∧
        out = ⟨.val 0, some (components (relative path)).2, some v⟩ ∧ Lent [v] s u) := by
  -- a way over the components begins at the directory where the path starts
  have hbegin {d : ℕ} (hstart : startOf s cur path base = some d)
      (hwalk : Walkable s cur path base (components (relative path)).1) :
      Walks (treeOf s) d (components (relative path)).1 := by
    obtain ⟨d', hd', hwalks⟩ := hwalk.walks
    obtain rfl := some.inj (hstart.symm.trans hd')
    exact hwalks
  rw [dirNamev, if_neg hne]
  cases hp : s.procs[cur]? with
  | none =>
    rw [bind_error (by rw [procAt, hp]; rfl : procAt cur s = .error ⟨.panic, s.late⟩)]
    intro hwalk
    obtain ⟨d, hd, -⟩ := hwalk.walks
    rw [startOf, hp] at hd
    cases hd
  | some p =>
    have hstart : startOf s cur path base = startDir p path base := by
      rw [startOf, hp]
      rfl
    rw [bind_ok (by rw [procAt, hp] : procAt cur s = .ok (p, s))]
    cases hdir : startDir p path base with
    | none =>
      intro hwalk
      obtain ⟨d, hd, -⟩ := hwalk.walks
      rw [hstart, hdir] at hd
      cases hd
    | some d =>
      rw [hdir] at hstart
      refine ((vget_ends (Lent.refl hs) d).mono (fun _ hlost hwalk => ?_) fun _ _ hu => hu).bind ?_
      · exact hlost (walks_start (hbegin hstart hwalk))
      rintro _ t ⟨-, ht⟩
      by_cases hlong : MAXPATHLEN < (relative path).length
      · rw [if_pos hlong]
        intro hwalk
        have := hwalk.fits
        omega
      · rw [if_neg hlong]
        refine (namevLoop_ends hs _ _ ht _).mono (fun _ hc hwalk => hc (hbegin hstart hwalk)) ?_
        rintro out u ⟨hwalks, hout, hl⟩
        rw [append_nil] at hl
        refine ⟨⟨not_lt.mp hlong, d, hstart, hwalks⟩, d, hstart, ?_⟩
        cases hres : resolve (treeOf s) d (components (relative path)).1 with
        | error e =>
          rw [hres] at hout hl
          exact .inl ⟨e, rfl, hout.1, hl⟩
        | ok v =>
          rw [hres] at hout hl
          exact .inr ⟨v, rfl, hout, hl⟩

/-- The components before the last one lead to the directory `v`, which has no entry of the last
one's name. -/
def Missing (s : VState) (cur : ℕ) (path : List Char) (base : Option ℕ) (v : ℕ) : Prop :=
  ∃ d, startOf s cur path base = some d ∧
    resolve (treeOf s) d (components (relative path)).1 = .ok v ∧
    lookupIn (treeOf s) v (components (relative path)).2 = .error .enoent

theorem Walkable.before {path : List Char} {base : Option ℕ} {ns ms : List Name}
    (h : Walkable s cur path base (ns++ms)) : Walkable s cur path base ns := by
  obtain ⟨d, hd, hwalks⟩ := h.walks
  exact ⟨h.fits, d, hd, walks_before hwalks⟩

/-- `open_namev` finds what the path names, or goes on to create it. -/
theorem openNamev_ends (hs : Stored s) {path : List Char} {flag : ℕ} {base : Option ℕ}
    {E : Halt → Prop} {Q : Ret × Option ℕ → VState → Prop} (hne : path ≠ [])
    (hE : ¬Walkable s cur path base
      ((components (relative path)).1++[(components (relative path)).2]) → ∀ halt, E halt)
    (hcreate : flag &&& O_CREAT = O_CREAT → ∀ v t, Lent [v] s t → Missing s cur path base v →
      Ends ((do
        dirOp v
        let r ← ramfsCreate v (components (relative path)).2 none
        vput (some v)
        return r : Vfs (Ret × Option ℕ)) t) E Q)
    (hQ : ∀ d u, startOf s cur path base = some d →
      (flag &&& O_CREAT = O_CREAT → ∀ v, ¬Missing s cur path base v) →
      Lent (found (resolvePath (treeOf s) d path)) s u →
      Q (reply none (resolvePath (treeOf s) d path)) u) :
    Ends (openNamev cur path flag base s) E Q := by
  rw [openNamev]
  refine ((dirNamev_ends hs base hne).mono (fun _ h => hE (fun hwalk => h hwalk.before) _)
    fun _ _ h => h).bind ?_
  simp only [← resolve_components _ _ hne, resolve_append] at hQ
  rintro out t ⟨-, d, hd, ⟨e, hres, hout, hl⟩ | ⟨v, hres, rfl, hl⟩⟩
  · rw [if_pos (by rw [hout]; rfl), hout]
    have hend := hQ d t hd fun _ w ⟨d', hd', hw, _⟩ => by
      obtain rfl := some.inj (hd.symm.trans hd')
      cases hres.symm.trans hw
    rw [hres] at hend
    exact hend hl
  · rw [if_neg (by simp [Ret.failed]), bind_ok (readOut_some v t), bind_ok (readOut_some _ t)]
    refine ((lookup_ends hl (components (relative path)).2 none).mono ?_ fun _ _ hu => hu).bind ?_
    · rintro _ ⟨w, hw, hlost⟩
      refine hE (fun hwalk => ?_) _
      obtain ⟨d', hd', hwalks⟩ := hwalk.walks
      obtain rfl := some.inj (hd.symm.trans hd')
      exact hlost ((walks_append hwalks hres).2 w hw)
    rintro r u ⟨-, rfl, hlu⟩
    split
    next hboth =>
      have hlook : lookupIn (treeOf s) v (components (relative path)).2 = .error .enoent := by
        cases h : lookupIn (treeOf s) v (components (relative path)).2 <;> simp_all [reply]
      rw [hlook] at hlu ⊢
      exact hcreate hboth.2 v u hlu ⟨d, hd, hres, hlook⟩
    next hboth =>
      obtain ⟨w, hw, hlw⟩ := put_lent hs (hlu.perm perm_middle) (reply none _)
      rw [append_nil] at hlw
      have hend := hQ d w hd fun hflag v' ⟨d', hd', hv', hlook⟩ => by
        obtain rfl := some.inj (hd.symm.trans hd')
        obtain rfl := Except.ok.inj (hres.symm.trans hv')
        exact hboth ⟨by rw [hlook]; rfl, hflag⟩
      rw [hres] at hend
      rw [hw]
      rw [← resolve_singleton] at hlw ⊢
      exact hend hlw

theorem startOf_slash (s : VState) (cur : ℕ) (q r : List Char) (base : Option ℕ) :
    startOf s cur (q++ '/' :: '/' :: r) base = startOf s cur (q++ '/' :: r) base := by
  cases q <;> rfl

/-- `open_namev` without `O_CREAT`, on a path that is not empty and not longer than
`MAXPATHLEN`: the result is what the path names, with one reference more, or an error, with none;
and a slash beside another one makes no difference. The empty path is refused. -/
theorem openNamev_resolves (hs : Stored s) (hc : Closed (treeOf s)) {path : List Char}
    {flag : ℕ} {base : Option ℕ} (hne : path ≠ []) (hlen : path.length ≤ MAXPATHLEN)
    (hflag : flag &&& O_CREAT ≠ O_CREAT) (hstart : startOf s cur path base = some d)
    (hd : (s.inodes d).isSome) :
    (∃ u, openNamev cur path flag base s = .ok (reply none (resolvePath (treeOf s) d path), u) ∧
      Lent (found (resolvePath (treeOf s) d path)) s u) ∧
    (∀ q r, path = q++ '/' :: r → path.length < MAXPATHLEN →
      ∃ u, openNamev cur (q++ '/' :: '/' :: r) flag base s
        = .ok (reply none (resolvePath (treeOf s) d path), u) ∧
        Lent (found (resolvePath (treeOf s) d path)) s u) ∧
    openNamev cur [] flag base s = .ok ((.err .einval, none), s) := by
  have hall : ∀ path' : List Char, path' ≠ [] → path'.length ≤ MAXPATHLEN →
      startOf s cur path' base = some d → ∃ u, openNamev cur path' flag base s
        = .ok (reply none (resolvePath (treeOf s) d path'), u) ∧
        Lent (found (resolvePath (treeOf s) d path')) s u := by
    intro path' hne' hlen' hstart'
    have hwalk (ns : List Name) : Walkable s cur path' base ns :=
      ⟨(relative_le path').trans hlen', d, hstart', walks_of_closed hc (by rwa [isSome_treeOf]) ns⟩
    obtain ⟨_, u, hrun, rfl, hl⟩ := Ends.returns (E := fun _ => False) (Q := fun r u =>
        r = reply none (resolvePath (treeOf s) d path') ∧
          Lent (found (resolvePath (treeOf s) d path')) s u)
      (openNamev_ends hs hne' (fun hn _ => hn (hwalk _)) (fun h => absurd h hflag)
        fun d' u hd' _ hl => by
          obtain rfl := some.inj (hstart'.symm.trans hd')
          exact ⟨rfl, hl⟩) fun _ h => h
    exact ⟨u, hrun, hl⟩
  refine ⟨hall path hne hlen hstart, ?_, rfl⟩
  rintro q r rfl hlt
  rw [← resolvePath_slash]
  apply hall _ (by simp) _ ((startOf_slash s cur q r base).trans hstart)
  simp only [length_append, length_cons] at hlt ⊢
  omega

theorem closed_booted : Closed (treeOf booted) := by
  intro d x l e hx hl he hname
  have hd : d = 0 := by
    by_contra hne
    simp [treeOf, booted, hne] at hx
  subst hd
  obtain rfl := some.inj hx
  obtain rfl := RamfsNode.dir.inj hl
  have hino : ∀ e ∈ dots 0 0, e.rdIno = 0 := by decide +kernel
  rw [hino e he]
  rfl

theorem dots_of_the_root :
    (∃ u, openNamev 0 "././../".toList 0 none booted = .ok ((.val 0, some 0), u) ∧
      Lent [0] booted u) ∧
    (∃ u, openNamev 0 "././/../".toList 0 none booted = .ok ((.val 0, some 0), u) ∧
      Lent [0] booted u) ∧
    openNamev 0 [] 0 none booted = .ok ((.err .einval, none), booted) := by
  have h := @openNamev_resolves booted 0 0 kept_booted.stored closed_booted "././../".toList 0 none
    (by decide) (by decide) (by decide) rfl rfl
  exact ⟨h.1, h.2.1 "./.".toList "../".toList rfl (by decide), h.2.2⟩

/-- A slash behind a name that is not a directory, and a path without any component: lookups of
the components that are not empty would find the file and the working directory. -/
theorem slash_behind_a_file : ∃ t, Run VfsStep (fun _ _ => True) booted
      [(0, .openFile "f".toList 0x100)] t ∧
    ((openNamev 0 "f/".toList 0 none t).toOption.map Prod.fst = some (.err .enotdir, none) ∧
      resolve (treeOf t) 0 (names "f/".toList) = .ok 1) ∧
    (openNamev 0 [] 0 none t).toOption.map Prod.fst = some (.err .einval, none) ∧
      resolve (treeOf t) 0 (names []) = .ok 0 :=
  FileReferences.exists_run_vfs _ _ (by decide +kernel)

end Calls

end SystemsProjects.PathResolution
