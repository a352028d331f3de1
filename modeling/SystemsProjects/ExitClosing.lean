import SystemsProjects.OpenDescriptors
import SystemsProjects.ProcessLifecycle

/-!
# The descriptors of a process that exits

`proc_cleanup` closes the descriptors with `while(curproc->p_files[fd])`. The loop ends at the
first free slot, whatever lies behind it, and when no slot is free it goes on with the words that
follow the table in the process: the working directory, the break and so on.
-/
namespace SystemsProjects.ExitClosing
open List
open CallOutcomes VfsState PathCalls FileCalls VfsCalls FileReferences DescriptorCalls
open VnodeBalance VnodeCache OpenDescriptors GuardedRuns

/-- Whether the word at `p_files[fd]` is set. Behind the table come the working directory and
then the words `behind`. -/
def wordAt (cur : ℕ) (behind : ℕ → Bool) (fd : ℕ) : Vfs Bool := do
  let p ← procAt cur
  return if fd < NFILES then (p.pFiles.getD fd none).isSome
    else if fd = NFILES then p.pCwd.isSome
    else behind fd

/-- The loop of `proc_cleanup` from `fd` on, for at most as many rounds as the first argument
says; it gives back the indices at which it looked. -/
def closeLoop (cur : ℕ) (behind : ℕ → Bool) : ℕ → ℕ → Vfs (List ℕ)
  | 0, _ => stop .panic
  | n+1, fd => do
    let used ← wordAt cur behind fd
    if used then do
      let _ ← doClose cur fd
      let rest ← closeLoop cur behind n (fd+1)
      return fd::rest
    else return [fd]

def refsOf (s : VState) (f : ℕ) : ℕ := ((s.files f).map File.fRefcount).getD 0

variable {s t : VState} {cur f v : ℕ} {fd : ℤ} {x : File} {vn : Vnode}

theorem refsOf_eq (h : FilesOk [] s) (f : ℕ) : refsOf s f = slots s f := by
  have hpresent := h.present f
  unfold refsOf
  cases hx : s.files f with
  | none =>
    rw [hx] at hpresent
    simpa [eq_comm] using hpresent
  | some x => simpa using h.counted f x hx

theorem fput_returns (hs : Stored s) (hx : s.files f = some x) (hmode : x.fMode < 8)
    (hpos : 0 ≤ x.fPos) (hcount : 0 < x.fRefcount) (hv : x.fVnode = some v)
    (hused : 0 < s.refs v) : ∃ t, fput f s = .ok ((), t) ∧ t.procs = s.procs := by
  have hok : x.fMode < 8 ∧ -1 ≤ x.fPos ∧ 0 < x.fRefcount ∧
      (x.fRefcount = 1 ∨ x.fVnode.isSome) :=
    ⟨hmode, by omega, hcount, .inr (by rw [hv]; rfl)⟩
  rw [fput, bind_ok (fileAt_eq hx), if_pos hok]
  split
  · obtain ⟨t, hdrop, hgave⟩ := dropRef_eq hs hused
    have hput : putVnodeOf f x.fVnode s = .ok ((), { t with closed := (f, v)::t.closed }) := by
      rw [hv, putVnodeOf, bind_ok hdrop]
    rw [bind_ok hput]
    exact ⟨_, rfl, hgave.files.procs⟩
  · exact ⟨_, rfl, rfl⟩

structure Exiting (s : VState) : Prop where
  ready : Ready s
  balanced : Balanced [] s

theorem Exiting.doClose (h : Exiting s) (ho : Opened s cur fd f x v vn) :
    ∃ t, doClose cur fd s = .ok (.val 0, t) ∧ Exiting t ∧
      t.procs = (withSlot s cur fd.toNat none).procs := by
  have hx : (withSlot s cur fd.toNat none).files f = some x := ho.file
  have hused : 0 < (withSlot s cur fd.toNat none).refs v := h.ready.used ho.file ho.vnode
  have hstored : Stored (withSlot s cur fd.toNat none) := h.ready.kept.stored.congr rfl rfl
  obtain ⟨t, hput, hprocs⟩ := fput_returns hstored hx ho.mode ho.pos ho.count ho.vnode hused
  have hrun : FileCalls.doClose cur fd s = .ok (.val 0, t) := by
    unfold FileCalls.doClose
    rw [if_neg (by have := ho.range; omega), bind_ok (fget_eq ho)]
    dsimp only
    rw [bind_ok (fput_taken ho), bind_ok (setSlot_eq s cur fd.toNat none), bind_ok hput]
    rfl
  have hb : Balanced [] t := (keeps_doClose (balanced_rules []) cur fd s h.balanced).of_ok hrun
  have husable := keeps_doClose usable_rules.descriptors cur fd s
    ⟨h.ready.kept, Nat.zero_le _, h.ready.usable⟩
  refine ⟨t, hrun, ⟨⟨(husable.of_ok hrun).1, ?_, (husable.of_ok hrun).2.files, fun v => ?_⟩, hb⟩,
    hprocs⟩
  · exact ((doClose_spec h.ready.files cur fd).of_ok hrun).1
  · have hcount := hb.counts v
    rwa [count_nil, Nat.add_zero] at hcount

theorem wordAt_slot {p : VProc} {n : ℕ} {slot : Option ℕ} (hp : s.procs[cur]? = some p)
    (hn : n < NFILES) (hslot : p.pFiles[n]? = some slot) (behind : ℕ → Bool) :
    wordAt cur behind n s = .ok (slot.isSome, s) := by
  have hproc : procAt cur s = .ok (p, s) := by rw [procAt, hp]
  rw [wordAt, bind_ok hproc, if_pos hn, getD_eq_getElem?_getD, hslot]
  rfl

/-- The loop closes the slots that are in use one after the other and goes on behind them. -/
theorem closeLoop_slots (behind : ℕ → Bool) (fs : List ℕ) {rest : List (Option ℕ)}
    {cwd : Option ℕ} (n : ℕ) (h : Exiting s)
    (hp : s.procs[cur]? = some ⟨replicate n none++(fs.map some++rest), cwd⟩) (k : ℕ) :
    ∃ t, closeLoop cur behind (fs.length+k) n s =
        ((range' n fs.length++·) <$> closeLoop cur behind k (n+fs.length)) t ∧
      Exiting t ∧ (∀ g, slots t g+fs.count g = slots s g) ∧
      t.procs[cur]? = some ⟨replicate (n+fs.length) none++rest, cwd⟩ := by
  induction fs generalizing n s with
  | nil =>
    refine ⟨s, ?_, h, fun _ => rfl, hp⟩
    rw [length_nil, Nat.zero_add, run_map]
    cases closeLoop cur behind k (n+0) s <;> rfl
  | cons f fs ih =>
    have hlen := h.ready.files.sized _ (mem_of_getElem? hp)
    simp only [length_append, length_replicate, length_map, length_cons] at hlen
    have hget : (replicate n none++((f::fs).map some++rest))[n]? = some (some f) := by simp
    have hword := wordAt_slot hp (by omega : n < NFILES) hget behind
    have hslot : SlotIs s cur n (some f) := ⟨_, hp, hget⟩
    obtain ⟨x, v, vn, inode, ho, -⟩ := h.ready.opened
      (show 0 ≤ (n : ℤ) ∧ (n : ℤ) < NFILES by omega) hslot
    obtain ⟨u, hclose, hu, hprocs⟩ := h.doClose ho
    have hpu : u.procs[cur]? = some ⟨replicate (n+1) none++(fs.map some++rest), cwd⟩ := by
      rw [hprocs]
      simp [withSlot, hp, replicate_succ']
    obtain ⟨t, hloop, ht, hcount, hpt⟩ := ih (n+1) hu hpu
    have hnext : n+(f::fs).length = n+1+fs.length := by
      rw [length_cons]
      omega
    refine ⟨t, ?_, ht, fun g => ?_, by rw [hpt, hnext]⟩
    · rw [length_cons, Nat.add_right_comm fs.length 1 k, closeLoop, bind_ok hword]
      simp only [Option.isSome_some, if_true]
      rw [bind_ok hclose, run_bind, hloop, ← length_cons (a := f), hnext, run_map, run_map]
      cases closeLoop cur behind k (n+1+fs.length) t <;> rfl
    · have hg := slots_withSlot (y := none) hslot g
      rw [show slots (withSlot s cur n none) g = slots u g by rw [slots, slots, hprocs]; rfl] at hg
      have := hcount g
      simp only [Option.some.injEq, reduceCtorEq, if_false] at hg
      rw [count_cons]
      simp only [beq_iff_eq]
      omega

/-- The loop looks no further than the first free slot. -/
theorem closeLoop_returns (behind : ℕ → Bool) {fs : List ℕ} {rest : List (Option ℕ)}
    {cwd : Option ℕ} (h : Exiting s)
    (hp : s.procs[cur]? = some ⟨fs.map some++none::rest, cwd⟩) (k : ℕ) :
    ∃ t, closeLoop cur behind (fs.length+(k+1)) 0 s = .ok (range' 0 (fs.length+1), t) ∧
      Exiting t ∧ (∀ g, slots t g+fs.count g = slots s g) ∧
      t.procs[cur]? = some ⟨replicate fs.length none++none::rest, cwd⟩ := by
  obtain ⟨t, hloop, ht, hcount, hpt⟩ := closeLoop_slots behind fs 0 h hp (k+1)
  rw [Nat.zero_add] at hpt hloop
  have hlen := ht.ready.files.sized _ (mem_of_getElem? hpt)
  simp only [length_append, length_replicate, length_cons] at hlen
  have hword := wordAt_slot hpt (by omega : fs.length < NFILES)
    (show (replicate fs.length none++none::rest)[fs.length]? = some none by simp) behind
  refine ⟨t, ?_, ht, hcount, hpt⟩
  rw [hloop, run_map, closeLoop, bind_ok hword, range'_concat]
  simp
  rfl

/-- If all slots are in use, a loop that returns has looked behind the table. -/
theorem closeLoop_full (behind : ℕ → Bool) {fs : List ℕ} {cwd : Option ℕ} {k : ℕ} {is : List ℕ}
    (h : Exiting s) (hp : s.procs[cur]? = some ⟨fs.map some, cwd⟩)
    (hloop : closeLoop cur behind (fs.length+k) 0 s = .ok (is, t)) : fs.length ∈ is := by
  have hp' : s.procs[cur]? = some ⟨replicate 0 none++(fs.map some++[]), cwd⟩ := by simpa using hp
  obtain ⟨u, hslots, -⟩ := closeLoop_slots behind fs 0 h hp' k
  rw [hslots, run_map, Nat.zero_add] at hloop
  cases hrest : closeLoop cur behind k fs.length u with
  | error e => simp [hrest] at hloop
  | ok r =>
    have hmem : fs.length ∈ r.1 := by
      cases k with
      | zero => cases hrest
      | succ k =>
        obtain ⟨used, w, -, hrest⟩ := run_bind_eq_ok.mp hrest
        split_ifs at hrest
        · obtain ⟨_, _, -, hrest⟩ := run_bind_eq_ok.mp hrest
          obtain ⟨_, _, -, hrest⟩ := run_bind_eq_ok.mp hrest
          rw [← congrArg Prod.fst (Except.ok.inj hrest)]
          exact mem_cons_self
        · rw [← congrArg Prod.fst (Except.ok.inj hrest)]
          exact mem_cons_self
    rw [hrest] at hloop
    rw [← (outcome_inj hloop).1]
    exact mem_append_right _ hmem

/-- A loop that stops among the slots in use for want of rounds does not return. -/
theorem closeLoop_rounds (behind : ℕ → Bool) {fs : List ℕ} {rest : List (Option ℕ)}
    {cwd : Option ℕ} {rounds : ℕ} {is : List ℕ} (h : Exiting s)
    (hp : s.procs[cur]? = some ⟨fs.map some++rest, cwd⟩)
    (hloop : closeLoop cur behind rounds 0 s = .ok (is, t)) : fs.length < rounds := by
  by_contra hle
  have hp' : s.procs[cur]? = some ⟨replicate 0 none++((fs.take rounds).map some++
      ((fs.drop rounds).map some++rest)), cwd⟩ := by
    rw [hp, ← append_assoc (map some _), ← map_append, take_append_drop]
    rfl
  obtain ⟨u, hslots, -⟩ := closeLoop_slots behind (fs.take rounds) 0 h hp' 0
  rw [length_take, Nat.min_eq_left (by omega), Nat.add_zero, hloop] at hslots
  cases hslots

/-! ### The whole table -/

/-- The loop looks at slots of the table only, drops one reference for each open slot and leaves
the table empty. -/
def ClosesAll (cur : ℕ) (behind : ℕ → Bool) (s : VState) (p : VProc) : Prop :=
  ∃ rounds is t, closeLoop cur behind rounds 0 s.enter = .ok (is, t) ∧ (∀ i ∈ is, i < NFILES) ∧
    (∀ f, refsOf t f+p.pFiles.count (some f) = refsOf s f) ∧
    t.procs[cur]? = some ⟨replicate NFILES none, p.pCwd⟩

/-- A slot is free, and no open slot lies behind a free one. -/
def OpenFirst (l : List (Option ℕ)) : Prop :=
  none ∈ l ∧ l.Pairwise fun x y => x = none → y = none

instance (l : List (Option ℕ)) : Decidable (OpenFirst l) := inferInstanceAs (Decidable (_ ∧ _))

theorem openFirst_iff {fs : List ℕ} {rest : List (Option ℕ)} :
    OpenFirst (fs.map some++none::rest) ↔ rest = replicate rest.length none := by
  have hsome : (fs.map some).Pairwise fun x y : Option ℕ => x = none → y = none :=
    pairwise_of_forall_mem_list (by simp)
  rw [OpenFirst, and_iff_right (by simp), pairwise_append, pairwise_cons, eq_replicate_iff]
  constructor
  · rintro ⟨-, ⟨hrest, -⟩, -⟩
    exact ⟨rfl, fun x hx => hrest x hx rfl⟩
  · rintro ⟨-, hrest⟩
    refine ⟨hsome, ⟨fun x hx _ => hrest x hx, ?_⟩, by simp⟩
    exact pairwise_of_forall_mem_list fun x _ y hy _ => hrest y hy

/-- A table is full, or has a first free slot. -/
theorem full_or_free : ∀ l : List (Option ℕ),
    (∃ fs : List ℕ, l = fs.map some) ∨ ∃ (fs : List ℕ) (rest : _), l = fs.map some++none::rest
  | [] => .inl ⟨[], rfl⟩
  | none::rest => .inr ⟨[], rest, rfl⟩
  | some f::l => by
    obtain ⟨fs, rfl⟩ | ⟨fs, rest, rfl⟩ := full_or_free l
    · exact .inl ⟨f::fs, rfl⟩
    · exact .inr ⟨f::fs, rest, rfl⟩

/-- The exit closes everything exactly if no open slot lies behind a free one and the table is
not full. -/
theorem exit_closes_everything (h : Ready s) {p : VProc} (hp : s.procs[cur]? = some p)
    (behind : ℕ → Bool) : ClosesAll cur behind s p ↔ OpenFirst p.pFiles := by
  have hstart : Exiting s.enter := ⟨h.enter, h.balanced⟩
  have hlen := h.files.sized _ (mem_of_getElem? hp)
  obtain ⟨l, cwd⟩ := p
  dsimp only at hlen ⊢
  obtain ⟨fs, rfl⟩ | ⟨fs, rest, rfl⟩ := full_or_free l
  · refine iff_of_false ?_ ?_
    · rintro ⟨rounds, is, t, hloop, hin, -⟩
      have hp' : s.enter.procs[cur]? = some ⟨fs.map some++[], cwd⟩ := by rwa [append_nil]
      have hrounds := closeLoop_rounds behind hstart hp' hloop
      obtain ⟨k, rfl⟩ := Nat.exists_eq_add_of_lt hrounds
      have := hin _ (closeLoop_full behind hstart hp (k := k+1) hloop)
      rw [length_map] at hlen
      omega
    · simp [OpenFirst]
  -- what the loop does up to the first free slot
  simp only [length_append, length_map, length_cons] at hlen
  have hends : ∀ k, ∃ t, closeLoop cur behind (fs.length+(k+1)) 0 s.enter =
      .ok (range' 0 (fs.length+1), t) ∧ (∀ g, refsOf t g+fs.count g = refsOf s g) ∧
      t.procs[cur]? = some ⟨replicate fs.length none++none::rest, cwd⟩ := by
    intro k
    obtain ⟨t, hloop, ht, hcount, hpt⟩ := closeLoop_returns behind hstart hp k
    refine ⟨t, hloop, fun g => ?_, hpt⟩
    rw [refsOf_eq ht.ready.files, refsOf_eq h.files]
    exact hcount g
  rw [openFirst_iff]
  constructor
  · rintro ⟨rounds, is, t, hloop, -, -, hpt⟩
    obtain ⟨k, rfl⟩ := Nat.exists_eq_add_of_lt (closeLoop_rounds behind hstart hp hloop)
    obtain ⟨t', hloop', -, hpt'⟩ := hends k
    obtain ⟨-, rfl⟩ := outcome_inj (hloop'.symm.trans hloop)
    have heq := congrArg VProc.pFiles (Option.some.inj (hpt'.symm.trans hpt))
    exact eq_replicate_iff.mpr ⟨rfl, fun x hx => (eq_replicate_iff.mp heq).2 x (by simp [hx])⟩
  · intro hrest
    obtain ⟨t, hloop, hcount, hpt⟩ := hends 0
    refine ⟨_, _, t, hloop, fun i hi => ?_, fun f => ?_, ?_⟩
    · have := (mem_range'_1.mp hi).2
      omega
    · rw [← hcount f, hrest]
      simp [count_map_of_injective _ _ (Option.some_injective ℕ), count_replicate]
    · rw [hpt, hrest, ← replicate_succ, replicate_append_replicate]
      congr 3

/-- The loop as the exit of a process uses it: what it finds behind the table is refused by
`do_close` and has no effect. -/
theorem closeFiles_of_loop (behind : ℕ → Bool) {n fd : ℕ} {is : List ℕ}
    (h : closeLoop cur behind n fd s = .ok (is, t)) :
    ProcessLifecycle.closeFiles cur fd (NFILES-fd) s = .ok ((), t) := by
  induction n generalizing fd s is with
  | zero => cases h
  | succ n ih =>
    obtain ⟨used, u, hword, h⟩ := run_bind_eq_ok.mp h
    obtain ⟨p, w, hproc, hword⟩ := run_bind_eq_ok.mp hword
    obtain ⟨rfl, hp⟩ := (procAt_spec cur s).of_ok hproc
    obtain ⟨rfl, rfl⟩ := outcome_inj hword
    by_cases hfd : fd < NFILES
    · have hslot : slotAt cur fd s = .ok (p.pFiles.getD fd none, s) := by
        rw [slotAt, if_neg (by omega), bind_ok hproc, Int.toNat_natCast]
        rfl
      rw [if_pos hfd] at h
      rw [show NFILES-fd = NFILES-(fd+1)+1 by omega, ProcessLifecycle.closeFiles, bind_ok hslot]
      cases hget : p.pFiles.getD fd none with
      | none =>
        rw [hget] at h
        obtain ⟨-, rfl⟩ := outcome_inj h
        rfl
      | some f =>
        rw [hget] at h
        obtain ⟨r, u, hclose, h⟩ := run_bind_eq_ok.mp h
        obtain ⟨is', u', hloop, h⟩ := run_bind_eq_ok.mp h
        obtain ⟨-, rfl⟩ := outcome_inj h
        dsimp only
        rw [bind_ok hclose]
        exact ih hloop
    · have hclose : doClose cur fd s = .ok (.err .ebadf, s) := by
        rw [doClose, if_pos (by omega)]
        rfl
      rw [if_neg hfd] at h
      rw [show NFILES-fd = 0 by omega]
      generalize (if fd = NFILES then p.pCwd.isSome else behind fd) = used at h
      cases used with
      | true =>
        rw [if_pos rfl, bind_ok hclose] at h
        obtain ⟨is', u, hloop, h⟩ := run_bind_eq_ok.mp h
        obtain ⟨-, rfl⟩ := outcome_inj h
        have hrest := ih hloop
        rw [show NFILES-(fd+1) = 0 by omega] at hrest
        exact hrest
      | false =>
        obtain ⟨-, rfl⟩ := outcome_inj h
        rfl

/-- Descriptors 0 and 1 are open on one file, which has two references. -/
theorem exit_closes_two : ∃ s p, Ready s ∧ s.procs[0]? = some p ∧ refsOf s 0 = 2 ∧
    p.pFiles.count (some 0) = 2 ∧ ClosesAll 0 (fun _ => false) s p := by
  obtain ⟨s, hrun, p, hp, hrefs, hcount, hfirst⟩ := exists_run_vfs
    (fun s e => FairCall s.enter e.1 e.2) [(0, .openFile ['f'] 0x102), (0, .dup 0)]
    (P := fun s => ∃ p, s.procs[0]? = some p ∧ refsOf s 0 = 2 ∧ p.pFiles.count (some 0) = 2 ∧
      OpenFirst p.pFiles) (by decide +kernel)
  exact ⟨s, p, ready_booted.run hrun, hp, hrefs, hcount,
    (exit_closes_everything (ready_booted.run hrun) hp fun _ => false).mpr hfirst⟩

/-- A hole in the table keeps what lies behind it open, and a full table sends the loop past the
end. -/
theorem hole_and_full_table : (∃ s t, Run VfsStep (fun _ _ => True) booted
        [(0, .openFile ['f'] 0x102), (0, .dup 0), (0, .close 0)] s ∧
      closeLoop 0 (fun _ => false) (NFILES+1) 0 s.enter = .ok ([0], t) ∧
      (t.procs[0]?.bind fun p => p.pFiles[1]?) = some (some 0) ∧ refsOf t 0 = 1) ∧
    ∃ s is t, Run VfsStep (fun _ _ => True) booted
        ((0, .openFile ['f'] 0x102)::replicate 31 (0, .dup 0)) s ∧
      closeLoop 0 (fun _ => false) (NFILES+2) 0 s.enter = .ok (is, t) ∧ NFILES ∈ is := by
  simp only [exists_and_left]
  refine ⟨exists_run_vfs _ _ (by decide +kernel), (exists_run_vfs _ _ (P := fun s =>
    (closeLoop 0 (fun _ => false) (NFILES+2) 0 s.enter).toOption.any fun p => NFILES ∈ p.1)
    (by decide +kernel)).imp fun s h => ⟨h.1, ?_⟩⟩
  have hq := h.2
  cases hloop : closeLoop 0 (fun _ => false) (NFILES+2) 0 s.enter with
  | error e => simp [hloop, Except.toOption] at hq
  | ok p => exact ⟨p.1, p.2, rfl, by simpa [hloop, Except.toOption] using hq⟩

end SystemsProjects.ExitClosing
