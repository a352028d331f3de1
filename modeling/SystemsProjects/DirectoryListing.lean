import Mathlib.Data.List.Forall2
import SystemsProjects.DirectorySlots
import SystemsProjects.IoBounds

/-!
# Listing a directory

Each call of `do_getdent` returns the first entry from the position of the file on and moves the
position behind it. Whatever is created in the directory or removed from it between the calls, an
entry stays in its slot as long as it is there, since no operation moves it (`DirectorySlots`). So
the calls return slots in increasing order, and the slot of an entry that is there all the time
cannot be passed over.
-/
namespace SystemsProjects.DirectoryListing
open List
open CallOutcomes VfsState FileCalls FileReferences OpenDescriptors IoBounds DirectorySlots VfsCalls

variable {s t : VState} {cur f v m n : ℕ} {fd : ℤ} {es : List Dirent}

/-- The descriptor is open on a directory with these slots, at slot `m`. -/
def At (cur : ℕ) (fd : ℤ) (f v : ℕ) (s : VState) (m : ℕ) (es : List Dirent) : Prop :=
  ∃ x vn size links, Opened s cur fd f x v vn ∧ vn.vnMode = .dir ∧ x.fPos = direntSize*m ∧
    s.inodes v = some ⟨size, links, .dir es⟩ ∧ es.length = RAMFS_MAX_DIRENT

/-- The call returns the first entry from slot `m` on, which it moves behind, or 0 if there is
none. -/
theorem doGetdent_at (h : At cur fd f v s m es) :
    (∃ k e t y, m ≤ k ∧ k < RAMFS_MAX_DIRENT ∧ Used es k e ∧
      (∀ j e', m ≤ j → j < k → ¬Used es j e') ∧
      doGetdent cur fd s = .ok ((.val direntT, some e), t) ∧ t.files f = some y ∧
      y.fPos = direntSize*(k+1)) ∨
    (∀ j e, m ≤ j → ¬Used es j e) ∧ doGetdent cur fd s = .ok ((.val 0, none), s) := by
  obtain ⟨x, vn, size, links, ho, hdir, hpos, hi, hlen⟩ := h
  have hsize : (direntSize : ℤ) = 32 := rfl
  have halign : x.fPos%direntSize = 0 := by
    rw [hpos]
    exact Int.mul_emod_right _ _
  have hslot : (x.fPos/direntSize).toNat = m := by
    rw [hpos, Int.mul_ediv_cancel_left _ (by decide)]
    rfl
  have hrun := doGetdent_eq ho hdir hi hlen halign
  rw [hslot] at hrun
  split at hrun
  next k hk =>
    left
    obtain ⟨hlt, hused, hfirst⟩ := findIdx?_eq_some_iff_getElem.mp hk
    rw [length_drop] at hlt
    rw [getElem_drop] at hused
    have he : es[m+k]? = some es[m+k] := getElem?_eq_getElem (by omega)
    rw [getElem?_drop, he] at hrun
    refine ⟨m+k, _, _, _, by omega, by omega, ⟨he, by simpa using hused⟩, fun j e' hmj hjk hu => ?_,
      hrun, Function.update_self _ _ _, ?_⟩
    · have hj := hfirst (j-m) (by omega)
      obtain ⟨hbound, rfl⟩ := List.getElem?_eq_some_iff.mp hu.1
      simp only [List.getElem_drop, Nat.add_sub_cancel' hmj] at hj
      exact hu.2 (by simpa using hj)
    · dsimp only
      rw [hpos, hsize]
      push_cast
      omega
  next hk =>
    right
    refine ⟨fun j e hmj hu => ?_, hrun⟩
    rw [findIdx?_eq_none_iff] at hk
    have hmem : e ∈ es.drop m := by
      rw [mem_iff_getElem?]
      exact ⟨j-m, by rw [getElem?_drop, Nat.add_sub_cancel' hmj, hu.1]⟩
    simpa [hu.2] using hk e hmem

/-- Calls that return entries, each with the slots of the directory at that moment, from one slot
to another. Between two calls everything may change but the file of the descriptor. -/
inductive Listing (cur : ℕ) (fd : ℤ) (f v : ℕ) : ℕ → List (List Dirent×Dirent) → ℕ → Prop
  | start (m : ℕ) : Listing cur fd f v m [] m
  | call {s t : VState} {m m' n : ℕ} {es : List Dirent} {e : Dirent} {y : File}
      {calls : List (List Dirent×Dirent)} : At cur fd f v s m es →
      doGetdent cur fd s = .ok ((.val direntT, some e), t) → t.files f = some y →
      y.fPos = direntSize*m' → Listing cur fd f v m' calls n →
      Listing cur fd f v m ((es, e)::calls) n

/-- The slots that are returned are in increasing order and have the entries at that moment, and
an entry that is in a slot at every call is passed only by being returned. -/
theorem Listing.slots {calls : List (List Dirent×Dirent)} (h : Listing cur fd f v m calls n)
    (hm : m ≤ RAMFS_MAX_DIRENT) : ∃ ks : List ℕ, ks.Pairwise (· < ·) ∧ (∀ k ∈ ks, m ≤ k) ∧
      List.Forall₂ (fun c k => Used c.1 k c.2) calls ks ∧ m+ks.length ≤ n ∧ n ≤ RAMFS_MAX_DIRENT ∧
      ∀ k e, m ≤ k → k < n → (∀ c ∈ calls, Used c.1 k e) → k ∈ ks := by
  induction h with
  | start m => exact ⟨[], .nil, nofun, .nil, le_rfl, hm, fun k e h1 h2 => absurd h2 (by omega)⟩
  | @call s t m m' n es e y calls hat hrun hy hpos _ ih =>
    rcases doGetdent_at hat with
      ⟨k, e', t', y', hmk, hk, hused, hfirst, hrun', hy', hpos'⟩ | ⟨-, hend⟩
    · rw [hrun] at hrun'
      obtain ⟨he, rfl⟩ := outcome_inj hrun'
      obtain rfl := Option.some.inj (Prod.mk.inj he).2
      obtain rfl := Option.some.inj (hy.symm.trans hy')
      obtain rfl : m' = k+1 := by
        have hsize : (direntSize : ℤ) = 32 := rfl
        rw [hpos, hsize] at hpos'
        omega
      obtain ⟨ks, hord, hge, hall, hle, hn, hpass⟩ := ih hk
      refine ⟨k::ks, pairwise_cons.mpr ⟨fun j hj => hge j hj, hord⟩, ?_, .cons hused hall, ?_, hn,
        fun j d hmj hjn hstay => ?_⟩
      · rintro j (_ | ⟨_, hj⟩)
        · exact hmk
        · exact hmk.trans (Nat.le_of_succ_le (hge j hj))
      · rw [length_cons]
        omega
      · rcases Nat.lt_trichotomy j k with hlt | rfl | hgt
        · exact absurd (hstay _ mem_cons_self) (hfirst j d hmj hlt)
        · exact mem_cons_self
        · exact mem_cons_of_mem _ (hpass j d hgt hjn fun c hc =>
            hstay c (mem_cons_of_mem _ hc))
    · rw [hrun] at hend
      exact nomatch (Prod.mk.inj (outcome_inj hend).1).2

/-- At most 128 calls return entries, all of them then in the directory, from different slots. If
the next call returns 0, every entry that was in a slot during all calls has been returned once. -/
theorem listing_exact {calls : List (List Dirent×Dirent)} (h : Listing cur fd f v 0 calls n) :
    ∃ ks : List ℕ, ks.Nodup ∧ List.Forall₂ (fun c k => Used c.1 k c.2) calls ks ∧
      calls.length ≤ RAMFS_MAX_DIRENT ∧ ∀ s es, At cur fd f v s n es →
        (∃ r t, doGetdent cur fd s = .ok (r, t)) ∧
        ∀ t, doGetdent cur fd s = .ok ((.val 0, none), t) → ∀ k e, Used es k e →
          (∀ c ∈ calls, Used c.1 k e) → k ∈ ks := by
  obtain ⟨ks, hord, -, hall, hle, hn, hpass⟩ := h.slots (Nat.zero_le _)
  refine ⟨ks, hord.imp ne_of_lt, hall, ?_, fun s es hat => ⟨?_, fun t hrun k e hu hstay => ?_⟩⟩
  · rw [hall.length_eq]
    omega
  · rcases doGetdent_at hat with ⟨_, _, _, _, _, _, _, _, hrun, _⟩ | ⟨-, hrun⟩
    · exact ⟨_, _, hrun⟩
    · exact ⟨_, _, hrun⟩
  · rcases doGetdent_at hat with ⟨_, _, _, _, _, _, _, _, hrun', _⟩ | ⟨hnone, -⟩
    · rw [hrun] at hrun'
      exact nomatch (Prod.mk.inj (outcome_inj hrun').1).2
    · have hlt : k < n := Nat.lt_of_not_le fun hnk => hnone k e hnk hu
      exact hpass k e (Nat.zero_le _) hlt hstay

/-- Descriptor 0 of process 0 is open on the root, at this slot. -/
def OnRoot (s : VState) (m : ℕ) : Prop :=
  (s.procs[0]?.bind fun p => p.pFiles[0]?) = some (some 0) ∧
    (∃ x ∈ s.files 0, x.fMode < 8 ∧ 0 < x.fRefcount ∧ x.fVnode = some 0 ∧
      x.fPos = direntSize*m) ∧
    (∃ vn ∈ s.vnodes 0, vn.vnMode = .dir) ∧ ∃ es ∈ slotsAt s 0, es.length = RAMFS_MAX_DIRENT

instance (m : ℕ) : DecidablePred (OnRoot · m) := fun _ =>
  inferInstanceAs (Decidable (_ ∧ _ ∧ _ ∧ _))

theorem OnRoot.isAt (h : OnRoot s m) : At 0 0 0 0 s m ((slotsAt s 0).getD []) := by
  obtain ⟨hslot, ⟨x, hx, hmode, hcount, hv, hpos⟩, ⟨vn, hvn, hdir⟩, es, hes, hlen⟩ := h
  obtain ⟨p, hp, hfile⟩ := Option.bind_eq_some_iff.mp hslot
  have ho : Opened s 0 0 0 x 0 vn := by
    refine ⟨by decide, ⟨p, hp, hfile⟩, hx, hmode, ?_, hcount, hv, hvn⟩
    rw [hpos]
    exact Int.mul_nonneg (by decide) (Int.natCast_nonneg m)
  obtain ⟨size, links, hi⟩ : ∃ size links, s.inodes 0 = some ⟨size, links, .dir es⟩ :=
    inode_of_slots hes
  rw [show slotsAt s 0 = some es from hes, Option.getD_some]
  exact ⟨x, vn, size, links, ho, hdir, hpos, hi, hlen⟩

theorem OnRoot.call {k : ℕ} {e : Dirent} {calls : List (List Dirent×Dirent)} (h : OnRoot s m)
    (hget : ∃ t, doGetdent 0 0 s = .ok ((.val direntT, some e), t) ∧
      ∃ y ∈ t.files 0, y.fPos = direntSize*k) (hrest : Listing 0 0 0 0 k calls n) :
    Listing 0 0 0 0 m (((slotsAt s 0).getD [], e)::calls) n := by
  obtain ⟨t, hrun, y, hy, hpos⟩ := hget
  exact .call h.isAt hrun hy hpos hrest

/-- The root is listed while a directory is made in it and another one is removed. -/
def listingCalls : List (ℕ×VfsCall) :=
  [(0, .mkdir ['a']), (0, .mkdir ['b']), (0, .openFile ['/'] 0), (0, .getdent 0),
    (0, .mkdir ['c']), (0, .getdent 0), (0, .rmdir ['b']), (0, .getdent 0), (0, .getdent 0)]

def afterCalls (k : ℕ) : VState :=
  (GuardedRuns.exec vfsNext (fun _ _ => True) booted (listingCalls.take k)).getD booted

def names (es : List Dirent) : List Name := (es.map Dirent.rdName).filter (· ≠ [])

/-- The new directory is listed and the removed one is not, and the next call returns 0. -/
theorem root_listed : ∃ calls n, Listing 0 0 0 0 0 calls n ∧
    calls.map (fun c => (names c.1, c.2.rdName)) =
      [([['.'], ['.', '.'], ['a'], ['b']], ['.']),
        ([['.'], ['.', '.'], ['a'], ['b'], ['c']], ['.', '.']),
        ([['.'], ['.', '.'], ['a'], ['c']], ['a']), ([['.'], ['.', '.'], ['a'], ['c']], ['c'])] ∧
    (∃ t, doGetdent 0 0 (afterCalls 9) = .ok ((.val 0, none), t)) ∧ ∃ ks : List ℕ, ks.Nodup ∧
      List.Forall₂ (fun c k => Used c.1 k c.2) calls ks ∧
      ∀ k e, Used ((slotsAt (afterCalls 9) 0).getD []) k e → (∀ c ∈ calls, Used c.1 k e) →
        k ∈ ks := by
  have hl := OnRoot.call (s := afterCalls 3) (m := 0) (k := 1) (e := ⟨0, ['.']⟩)
    (by decide +kernel) (by decide +kernel) <|
    OnRoot.call (s := afterCalls 5) (k := 2) (e := ⟨0, ['.', '.']⟩)
      (by decide +kernel) (by decide +kernel) <|
    OnRoot.call (s := afterCalls 7) (k := 3) (e := ⟨1, ['a']⟩)
      (by decide +kernel) (by decide +kernel) <|
    OnRoot.call (s := afterCalls 8) (k := 5) (e := ⟨3, ['c']⟩)
      (by decide +kernel) (by decide +kernel) (.start 5)
  obtain ⟨ks, hnodup, hall, -, hend⟩ := listing_exact hl
  have hlast : ∃ t, doGetdent 0 0 (afterCalls 9) = .ok ((.val 0, none), t) := by decide +kernel
  refine ⟨_, _, hl, by decide +kernel, hlast, ks, hnodup, hall, ?_⟩
  obtain ⟨t, hrun⟩ := hlast
  exact (hend _ _ (OnRoot.isAt (by decide +kernel))).2 t hrun

end SystemsProjects.DirectoryListing
