import Mathlib.Data.List.TakeWhile
import SystemsProjects.PathCallSafety
import SystemsProjects.VmState

/-!
# The buffer that paths are copied to

`dir_namev` copies the path to `MAXPATHLEN`+1 bytes on its stack and cuts it there at the slashes.
Here each byte that it writes is a step of its own, which stops when the byte lies outside the
buffer. For strings without a null byte this is the `dir_namev` of the other modules, which looks
at the length alone: the bytes that are cleared at the slashes are among those that were copied.

The strings come from `user_strdup`, which takes the length that the process gives, and of the
calls only `do_stat` compares it with `MAXPATHLEN`.
-/
namespace SystemsProjects.PathBuffers
open CallOutcomes VfsState RamfsOperations VfsFrames PathCalls VfsCalls VnodeReferences
open PathCallSafety List
open VmState (Errno)

def store (buffer : List Char) (i : ℕ) (c : Char) : Vfs (List Char) :=
  if i < buffer.length then return buffer.set i c else stop .overrun

/-- `strncpy` of a whole string to the buffer from index `i` on. -/
def strncpy : List Char → ℕ → List Char → Vfs (List Char)
  | buffer, _, [] => return buffer
  | buffer, i, c::cs => do
    let buffer ← store buffer i c
    strncpy buffer (i+1) cs

def stringAt (buffer : List Char) (i : ℕ) : List Char := (buffer.drop i).takeWhile (· ≠ '\x00')

/-- The loop of `dir_namev` over the buffer, for at most as many rounds as the first number
says. -/
def scanLoop (pathname : List Char) : ℕ → List Char → ℕ → ℕ → Option ℕ → Vfs Namev
  | 0, _, _, _, _ => stop .panic
  | n+1, buffer, start, dir, resVnode =>
    match (stringAt buffer start).findIdx? (· = '/') with
    | none =>
      return ⟨.val 0, some ((pathname.drop start).take (stringAt buffer start).length), some dir⟩
    | some k => do
      let buffer ← store buffer (start+k) '\x00'
      let r ← lookup dir (stringAt buffer start) resVnode
      if r.1.failed then do
        vput (some dir)
        return ⟨r.1, none, r.2⟩
      else do
        vput (some dir)
        let next ← readOut r.2
        scanLoop pathname n buffer (start+k+1) next r.2

/-- `dir_namev` with its buffer, whose bytes are arbitrary at first. -/
def bufferedNamev (buffer : List Char) (cur : ℕ) (pathname : List Char) (base : Option ℕ) :
    Vfs Namev := do
  if pathname = [] then return ⟨.err .einval, none, none⟩
  else do
    let p ← procAt cur
    match startDir p pathname base with
    | none => stop .panic
    | some dir => do
      vget dir
      let buffer ← strncpy buffer 0 (relative pathname)
      let buffer ← store buffer (relative pathname).length '\x00'
      scanLoop (relative pathname) ((relative pathname).length+1) buffer 0 dir
        (if pathname.head? = some '/' then some 0 else none)

/-! ### The buffer and the components -/

variable {s : VState} {buffer path : List Char}

theorem store_inside {i : ℕ} (h : i < buffer.length) (c : Char) (s : VState) :
    store buffer i c s = .ok (buffer.set i c, s) := by
  rw [store, if_pos h]
  rfl

theorem store_outside {i : ℕ} (h : ¬i < buffer.length) (c : Char) :
    store buffer i c = stop .overrun := if_neg h

theorem strncpy_inside (before : List Char) {old : List Char} {cs : List Char} (rest : List Char)
    (h : old.length = cs.length) (s : VState) :
    strncpy (before++old++rest) before.length cs s = .ok (before++cs++rest, s) := by
  induction cs generalizing before old with
  | nil =>
    obtain rfl := length_eq_zero_iff.mp h
    rfl
  | cons c cs ih =>
    obtain _ | ⟨o, old⟩ := old
    · cases h
    have hset : (before++o::old++rest).set before.length c = before++[c]++old++rest := by
      rw [append_assoc, set_append_right _ _ le_rfl]
      simp
    rw [strncpy, bind_ok (store_inside (by simp) c s), hset]
    have hih := ih (before++[c]) (Nat.succ.inj h)
    rw [length_append] at hih
    simpa using hih

/-- A string that is longer than the rest of the buffer is copied up to its end. -/
theorem strncpy_outside {cs : List Char} {i : ℕ} (h : buffer.length < i+cs.length)
    (hi : i ≤ buffer.length) (s : VState) :
    strncpy buffer i cs s = .error ⟨.overrun, s.late⟩ := by
  induction cs generalizing buffer i with
  | nil =>
    rw [length_nil] at h
    omega
  | cons c cs ih =>
    rw [strncpy]
    by_cases hlt : i < buffer.length
    · rw [bind_ok (store_inside hlt c s)]
      rw [length_cons] at h
      exact ih (by rw [length_set]; omega) (by rw [length_set]; omega)
    · rw [store_outside hlt]
      exact bind_error rfl

theorem stringAt_append (before : List Char) {cs : List Char} (rest : List Char)
    (h : '\x00' ∉ cs) : stringAt (before++cs++ '\x00' :: rest) before.length = cs := by
  rw [stringAt, append_assoc, drop_left, takeWhile_append_of_pos]
  · simp
  · intro c hc
    simpa using fun he : c = '\x00' => h (he ▸ hc)

theorem components_of_slash {a : List Char} (ha : '/' ∉ a) (b : List Char) :
    components (a++ '/' :: b) = (a::(components b).1, (components b).2) := by
  induction a with
  | nil => simp [components]
  | cons c cs ih =>
    rw [mem_cons, not_or] at ha
    rw [cons_append, components, if_neg (Ne.symm ha.1), ih ha.2]

theorem components_of_not_mem {a : List Char} (ha : '/' ∉ a) : components a = ([], a) := by
  induction a with
  | nil => rfl
  | cons c cs ih =>
    rw [mem_cons, not_or] at ha
    rw [components, if_neg (Ne.symm ha.1), ih ha.2]

theorem split_at_slash {cs : List Char} {k : ℕ} (h : cs.findIdx? (· = '/') = some k) :
    ∃ a b, cs = a++ '/' :: b ∧ a.length = k ∧ '/' ∉ a := by
  induction cs generalizing k with
  | nil => cases h
  | cons c cs ih =>
    rw [findIdx?_cons] at h
    by_cases hc : c = '/'
    · subst hc
      obtain rfl : 0 = k := by simpa using h
      exact ⟨[], cs, rfl, rfl, not_mem_nil⟩
    · rw [if_neg (by simpa using hc)] at h
      obtain ⟨j, hj, rfl⟩ := Option.map_eq_some_iff.mp h
      obtain ⟨a, b, rfl, rfl, ha⟩ := ih hj
      exact ⟨c::a, b, rfl, rfl, not_mem_cons_of_ne_of_not_mem (Ne.symm hc) ha⟩

theorem set_at_slash (before a b rest : List Char) :
    (before++(a++ '/' :: b)++ '\x00' :: rest).set (before.length+a.length) '\x00'
      = before++a++ '\x00' :: (b++ '\x00' :: rest) := by
  rw [← length_append, show before++(a++ '/' :: b)++ '\x00' :: rest
    = before++a++ '/' :: (b++ '\x00' :: rest) by simp, set_append_right _ _ le_rfl]
  simp

theorem scanLoop_eq (pathname : List Char) (n : ℕ) (before cs rest : List Char) (dir : ℕ)
    (resVnode : Option ℕ) (hpath : pathname.drop before.length = cs) (hnull : '\x00' ∉ cs)
    (hn : cs.length < n) :
    scanLoop pathname n (before++cs++ '\x00' :: rest) before.length dir resVnode
      = namevLoop (components cs).2 (components cs).1 dir resVnode := by
  induction n generalizing before cs dir resVnode with
  | zero => omega
  | succ n ih =>
    rw [scanLoop, stringAt_append before rest hnull]
    cases hk : cs.findIdx? (· = '/') with
    | none =>
      have hno : '/' ∉ cs := by
        rw [findIdx?_eq_none_iff] at hk
        intro hmem
        simpa using hk _ hmem
      rw [components_of_not_mem hno, hpath, take_length]
      rfl
    | some k =>
      obtain ⟨a, b, rfl, rfl, ha⟩ := split_at_slash hk
      rw [mem_append, mem_cons, not_or, not_or] at hnull
      rw [length_append, length_cons] at hn
      have hstart : (before++a++['\x00']).length = before.length+a.length+1 := by
        simp [Nat.add_assoc]
      have hdrop : pathname.drop (before++a++['\x00']).length = b := by
        rw [hstart, Nat.add_assoc, ← drop_drop, hpath, ← drop_drop, drop_left]
        rfl
      have hrest (next : ℕ) (res : Option ℕ) := ih (before++a++['\x00']) b next res hdrop
        hnull.2.2 (by omega)
      rw [hstart, show before++a++['\x00']++b++ '\x00' :: rest
        = before++a++ '\x00' :: (b++ '\x00' :: rest) by simp] at hrest
      funext s
      dsimp only
      rw [bind_ok (store_inside (by simp) _ s), set_at_slash, stringAt_append _ _ hnull.1,
        components_of_slash ha, namevLoop]
      simp only [hrest]

/-- The copy of a string and the loop over it, from a buffer of which nothing is known. -/
theorem copied_scan (hbuffer : buffer.length = MAXPATHLEN+1) {cs : List Char} (hnull : '\x00' ∉ cs)
    (dir : ℕ) (resVnode : Option ℕ) (s : VState) :
    (do let buffer ← strncpy buffer 0 cs
        let buffer ← store buffer cs.length '\x00'
        scanLoop cs (cs.length+1) buffer 0 dir resVnode : Vfs Namev) s
      = (if MAXPATHLEN < cs.length then stop .overrun
        else namevLoop (components cs).2 (components cs).1 dir resVnode) s := by
  by_cases hlong : buffer.length < cs.length
  · rw [if_pos (by omega), bind_error (strncpy_outside (by omega) (Nat.zero_le _) s)]
    rfl
  have hsplit : buffer = []++buffer.take cs.length++buffer.drop cs.length := by simp
  have hcopy : strncpy buffer 0 cs s = .ok ([]++cs++buffer.drop cs.length, s) := by
    conv_lhs => rw [hsplit]
    exact strncpy_inside [] _ (by rw [length_take]; omega) s
  rw [bind_ok hcopy]
  cases hrest : buffer.drop cs.length with
  | nil =>
    have hlen := congrArg List.length hrest
    rw [length_drop, length_nil] at hlen
    rw [if_pos (by omega), store_outside (by simp)]
    exact bind_error rfl
  | cons c rest =>
    have hlen := congrArg List.length hrest
    rw [length_drop, length_cons] at hlen
    have hset : ([]++cs++c::rest).set cs.length '\x00' = []++cs++ '\x00' :: rest := by simp
    rw [if_neg (by omega), bind_ok (store_inside (by simp) _ s), hset]
    exact congrFun (scanLoop_eq cs _ [] cs rest dir resVnode rfl hnull (Nat.lt_succ_self _)) s

theorem bufferedNamev_eq (hbuffer : buffer.length = MAXPATHLEN+1) (hnull : '\x00' ∉ path)
    (cur : ℕ) (base : Option ℕ) :
    bufferedNamev buffer cur path base = dirNamev cur path base := by
  have hrel : '\x00' ∉ relative path := by
    unfold relative
    split
    · exact fun h => hnull (mem_of_mem_tail h)
    · exact hnull
  unfold bufferedNamev dirNamev
  by_cases hne : path = []
  · rw [if_pos hne, if_pos hne]
  rw [if_neg hne, if_neg hne]
  refine bind_congr fun p => ?_
  cases startDir p path base with
  | none => rfl
  | some dir => exact bind_congr fun _ => funext fun s => copied_scan hbuffer hrel dir _ s

/-! ### Strings of a process -/

/-- `argstr_t`. -/
structure Argstr where
  asStr : ℕ
  asLen : ℕ

/-- What `user_strdup` puts into the memory that it allocates. Whether `kmalloc` has a number of
bytes and what `copy_from_user` finds are arguments. -/
def userStrdup (kmalloc : ℕ → Bool) (copyFromUser : ℕ → ℕ → Except Errno (List UInt8))
    (ustr : Argstr) : Except Errno (List UInt8) :=
  let size := (ustr.asLen+1)%2^32
  if kmalloc size then copyFromUser ustr.asStr size else .error .enomem

/-- The string that begins with the first byte, if it ends. -/
def cString (bytes : List UInt8) : Option (List Char) :=
  if (0 : UInt8) ∈ bytes then some ((bytes.map Char.ofUInt8).takeWhile (· ≠ '\x00')) else none

/-- The calls that take a path and reach `dir_namev` with it as it is. -/
inductive PathSyscall where
  | openFile (oflags : ℕ)
  | mkdir
  | mknod (mode devid : ℕ)
  | rmdir
  | unlink
  | stat
  deriving DecidableEq

def PathSyscall.call (path : List Char) : PathSyscall → VfsCall
  | .openFile oflags => .openFile path oflags
  | .mkdir => .mkdir path
  | .mknod mode devid => .mknod path mode devid
  | .rmdir => .rmdir path
  | .unlink => .unlink path
  | .stat => .stat path

/-- The call comes to give the path to `dir_namev` whatever its length. `do_stat` compares the
length first, `do_open` looks for a descriptor and `do_mknod` at the mode. -/
def PathSyscall.PassesOn (s : VState) (cur : ℕ) : PathSyscall → Prop
  | .openFile _ => HasSlot s cur
  | .mknod mode _ => isChr mode ∨ isBlk mode
  | .stat => False
  | _ => True

instance (s : VState) (cur : ℕ) (c : PathSyscall) : Decidable (c.PassesOn s cur) := by
  cases c <;> unfold PathSyscall.PassesOn <;> infer_instance

section Syscalls

variable (kmalloc : ℕ → Bool) (copyFromUser : ℕ → ℕ → Except Errno (List UInt8))
  (behind : List UInt8)

/-- The path that a call gets; the bytes `behind` follow the memory that was allocated. -/
def passed (ustr : Argstr) : Option (List Char) :=
  match userStrdup kmalloc copyFromUser ustr with
  | .ok bytes => cString (bytes++behind)
  | .error _ => none

/-- The system call after its arguments have been copied; `none` is -1 with `EINVAL`, when there
is no string. -/
def sysPath (c : PathSyscall) (cur : ℕ) (ustr : Argstr) : Vfs (Option Reply) :=
  match passed kmalloc copyFromUser behind ustr with
  | some path => some <$> perform cur (c.call path)
  | none => return none

variable {kmalloc copyFromUser behind} {c : PathSyscall} {ustr : Argstr}

theorem passed_null (h : passed kmalloc copyFromUser behind ustr = some path) : '\x00' ∉ path := by
  unfold passed cString at h
  split at h
  · split at h
    · cases h
      intro hmem
      simpa using mem_takeWhile_imp hmem
    · cases h
  · cases h

end Syscalls

/-! ### Calls that stay inside the buffer -/

/-- The call did not stop at a write outside the buffer. -/
def Inside (h : Halt) : Prop := h.fault ≠ .overrun

instance : Allows Inside .panic := ⟨fun _ => by simp [Inside]⟩

instance : Allows Inside .nullOp := ⟨fun _ => by simp [Inside]⟩

instance : Allows Inside .nullVput := ⟨fun _ => by simp [Inside]⟩

instance : Allows Inside .unsetRead := ⟨fun _ => by simp [Inside]⟩

theorem inside_of_panic {α : Type} {r : Except Halt (α×VState)} {Q : α → VState → Prop}
    (h : Ends r (fun h => h.fault = .panic) Q) : Ends r Inside Q := by
  refine h.mono (fun _ he => ?_) fun _ _ hq => hq
  rw [Inside, he]
  decide

section Syscalls

variable {kmalloc : ℕ → Bool} {copyFromUser : ℕ → ℕ → Except Errno (List UInt8)}
  {behind : List UInt8} {c : PathSyscall} {ustr : Argstr}

theorem perform_fits (s : VState) (cur : ℕ) (hfit : Fits path) :
    Ends (perform cur (c.call path) s.enter) Inside fun _ _ => True := by
  have hs := sane_enter s
  have R : VnodeRules Inside (fun _ => True) := guarded_rules
  have : AllowsPath Inside path := ⟨fun hlong => absurd hfit (not_le.mpr hlong)⟩
  cases c with
  | openFile oflags =>
    exact (inside_of_panic (doOpen_quiet oflags hs hfit)).map fun _ _ _ => trivial
  | mkdir => exact (R.doMkdir cur path _ trivial).wrap
  | mknod mode devid => exact (R.doMknod cur path mode devid _ trivial).wrap
  | rmdir => exact (R.doRmdir cur path _ trivial).wrap
  | unlink => exact (R.doUnlink cur path _ trivial).wrap
  | stat => exact (inside_of_panic (quietly (doStat_spec hs))).map fun _ _ _ => trivial

/-- The call stops where `dir_namev` stops. -/
theorem perform_stops {e : VfsFault} (hpass : c.PassesOn s cur)
    (hc : ∀ oflags, c ≠ .openFile oflags) (h : faultOf (dirNamev cur path none s) = some e) :
    faultOf (perform cur (c.call path) s) = some e := by
  cases c with
  | openFile oflags => exact absurd rfl (hc oflags)
  | mkdir => exact faultOf_map.trans (faultOf_bind h)
  | mknod mode devid =>
    refine faultOf_map.trans ?_
    unfold doMknod
    rw [if_neg (by simpa [PathSyscall.PassesOn, or_iff_not_imp_left] using hpass)]
    exact faultOf_bind h
  | rmdir => exact faultOf_map.trans (faultOf_bind h)
  | unlink => exact faultOf_map.trans (faultOf_bind h)
  | stat => exact hpass.elim

theorem perform_inside (s : VState) (cur : ℕ)
    (h : c.PassesOn s.enter cur → ¬Overruns s.enter cur path) :
    Ends (perform cur (c.call path) s.enter) Inside fun _ _ => True := by
  have hs := sane_enter s
  by_cases hfit : Fits path
  · exact perform_fits s cur hfit
  by_cases hpass : c.PassesOn s.enter cur
  · by_cases hopen : ∃ oflags, c = .openFile oflags
    · obtain ⟨oflags, rfl⟩ := hopen
      exact (inside_of_panic (doOpen_safe hs oflags h)).map fun _ _ _ => trivial
    · exact inside_of_panic (ends_of_fault (perform_stops hpass
        (fun oflags hc => hopen ⟨oflags, hc⟩) (dirNamev_panic hfit (h hpass))))
  -- the call returns before it looks at the path, or at its length only
  cases c with
  | openFile oflags => exact (inside_of_panic (doOpen_full hpass oflags)).map fun _ _ _ => trivial
  | mknod mode devid =>
    refine Ends.map (Q := fun _ _ => True) ?_ fun _ _ _ => trivial
    unfold doMknod
    rw [if_pos (by simpa [PathSyscall.PassesOn] using hpass)]
    trivial
  | stat => exact (inside_of_panic (quietly (doStat_spec hs))).map fun _ _ _ => trivial
  | _ => exact absurd trivial hpass

theorem perform_overrun (hpass : c.PassesOn s cur) (h : Overruns s cur path) :
    faultOf (perform cur (c.call path) s) = some .overrun := by
  by_cases hopen : ∃ oflags, c = .openFile oflags
  · obtain ⟨oflags, rfl⟩ := hopen
    exact faultOf_map.trans (doOpen_overrun hpass h oflags)
  · exact perform_stops hpass (fun oflags hc => hopen ⟨oflags, hc⟩) (dirNamev_overrun h)

/-- The path that a call passes down is resolved in the buffer. No byte outside it is written
exactly if the path fits or the call does not come to copy it. -/
theorem path_stays_in_buffer (s : VState) (cur : ℕ) :
    (∀ path ∈ passed kmalloc copyFromUser behind ustr, ∀ buffer : List Char,
      buffer.length = MAXPATHLEN+1 → ∀ base,
        bufferedNamev buffer cur path base = dirNamev cur path base) ∧
    ((∀ h, sysPath kmalloc copyFromUser behind c cur ustr s.enter = .error h →
        h.fault ≠ .overrun) ↔
      ∀ path ∈ passed kmalloc copyFromUser behind ustr,
        c.PassesOn s.enter cur → ¬Overruns s.enter cur path) := by
  refine ⟨fun path hpath buffer hb base => bufferedNamev_eq hb (passed_null hpath) cur base, ?_⟩
  unfold sysPath
  cases hpath : passed kmalloc copyFromUser behind ustr with
  | none => exact iff_of_true (fun h hr => by cases hr) fun path hp => by cases hp
  | some path =>
    constructor
    · intro hin path' hp hpass hover
      obtain rfl := Option.some.inj hp
      have hfault := faultOf_map (g := some) |>.trans (perform_overrun hpass hover)
      cases hr : (some <$> perform cur (c.call path)) s.enter with
      | ok p => simp [hr, faultOf] at hfault
      | error h =>
        rw [hr] at hfault
        exact hin h hr (Option.some.inj hfault)
    · intro hcond h hr
      have hin := (perform_inside s cur (hcond path rfl)).map (g := some)
        (R := fun _ _ => True) fun _ _ _ => trivial
      exact hin.of_error hr

/-- The memory of a process with a string of `n` letters. -/
def letters (n : ℕ) (uaddr nbytes : ℕ) : Except Errno (List UInt8) :=
  .ok ((range nbytes).map fun i => if uaddr+i < n then 97 else 0)

/-- Every descriptor is in use. -/
def fullTable : VState :=
  { booted with procs := [⟨replicate NFILES (some 0), some 0⟩] }

/-- The longest path that fits, and a longer one for which there is no descriptor. -/
theorem longest_path_fits :
    (∀ h, sysPath (fun _ => true) (letters 1024) [] .mkdir 0 ⟨0, 1024⟩ booted.enter = .error h →
      h.fault ≠ .overrun) ∧
    ∀ h, sysPath (fun _ => true) (letters 1025) [] (.openFile 0) 0 ⟨0, 1025⟩ fullTable.enter =
      .error h → h.fault ≠ .overrun :=
  ⟨(path_stays_in_buffer booted 0).2.mpr (by decide +kernel),
    (path_stays_in_buffer fullTable 0).2.mpr (by decide +kernel)⟩

/-- A string with one letter more goes past the end of the buffer in every call but `do_stat`. -/
theorem long_paths_overrun : (∀ buffer : List Char, buffer.length = MAXPATHLEN+1 →
      faultOf (bufferedNamev buffer 0 (replicate 1025 'a') none booted) = some .overrun) ∧
    passed (fun _ => true) (letters 1025) [] ⟨0, 1025⟩ = some (replicate 1025 'a') ∧
    ∀ c ∈ [PathSyscall.openFile 0, .mkdir, .mknod 0x100 0, .rmdir, .unlink],
      faultOf (sysPath (fun _ => true) (letters 1025) [] c 0 ⟨0, 1025⟩ booted.enter)
        = some .overrun := by
  refine ⟨fun buffer hb => ?_, by decide +kernel, by decide +kernel⟩
  rw [bufferedNamev_eq hb (by decide +kernel)]
  decide +kernel

end Syscalls

end SystemsProjects.PathBuffers
