import SystemsProjects.KeptInodes

/-!
# Conditions on single files

A condition on each open file holds after every run of calls if it survives what a call can make
of a file: a new count or position, and the mode and the vnode that `do_open` enters at its end.
The numbers of files are never given out twice, so the condition may speak of one number.
-/
namespace SystemsProjects.FileConditions
open Function CallOutcomes VfsState VfsCalls VfsFrames
open FileReferences DescriptorCalls KeptInodes GuardedRuns

/-- Every file meets `P`, and the numbers below `n` are given out. -/
structure Each (n : ℕ) (P : ℕ → File → Prop) (s : VState) : Prop where
  numbers : n ≤ s.nextFile
  files : ∀ f x, s.files f = some x → P f x

/-- The condition `P` survives what calls do to a file. -/
structure FileRules (n : ℕ) (P : ℕ → File → Prop) : Prop where
  turned : ∀ {s : VState} {f : ℕ} {x y : File}, Kept s → P f x → Turned s x y → P f y
  fresh : ∀ {f : ℕ}, n ≤ f → P f ⟨0, 0, 0, none⟩
  finish : ∀ {f v m : ℕ} {x : File}, P f x → x.fVnode = none → x.fPos = 0 → m < 8 →
    P f { x with fMode := m, fVnode := some v }

variable {n f : ℕ} {P : ℕ → File → Prop} {s t : VState} {x y : File}

instance : OfFiles (Each n P) := ⟨fun hs h => ⟨hs.nextFile ▸ h.numbers, hs.files ▸ h.files⟩⟩

theorem Each.congr (h : Each n P s) (hn : s.nextFile ≤ t.nextFile) (hf : t.files = s.files) :
    Each n P t := ⟨h.numbers.trans hn, hf ▸ h.files⟩

theorem Each.setFile (h : Each n P s) (f : ℕ) {z : Option File} (hz : ∀ y, z = some y → P f y) :
    Each n P (s.setFile f z) where
  numbers := h.numbers
  files g w hw := by
    change update s.files f z g = some w at hw
    by_cases hg : g = f
    · subst hg
      rw [update_self] at hw
      exact hz w hw
    · rw [update_of_ne hg] at hw
      exact h.files g w hw

theorem keeps_each {α : Type} {m : Vfs α} (hk : Keeps Kept m) (hs : Keeps (Each n P) m) :
    Keeps (fun s => Kept s ∧ Each n P s) m := fun s h => (hk s h.1).and (hs s h.2)

theorem each_vnodes : VnodeRules (fun _ => True) (fun s => Kept s ∧ Each n P s) where
  touch v := keeps_each (kept_touch v) (keeps_touch v)
  vget v := keeps_each (kept_vget v) (keeps_vget v)
  dropRef v := keeps_each (kept_dropRef v) (keeps_dropRef v)
  release v := keeps_each (kept_release v) (keeps_release v)
  create d name r := keeps_each (kept_ramfsCreate d name r) (keeps_ramfsCreate d name r)
  mknod d name m i := keeps_each (kept_ramfsMknod d name m i) (keeps_ramfsMknod d name m i)
  mkdir d name := keeps_each (kept_ramfsMkdir d name) (keeps_ramfsMkdir d name)
  unlink d name := keeps_each (kept_ramfsUnlink d name) (guarded_rules.unlink d name)
  rmdir d name := keeps_each (kept_ramfsRmdir d name) (guarded_rules.rmdir d name)

theorem FileRules.descriptors (F : FileRules n P) :
    DescriptorRules (fun s => Kept s ∧ Each n P s) where
  file h hx hy := ⟨kept_descriptors.file h.1 hx hy, h.2.setFile _ fun z hz => by
    obtain rfl := Option.some.inj hz
    exact F.turned h.1 (h.2.files _ _ hx) hy⟩
  fresh h := by
    refine ⟨kept_descriptors.fresh h.1, ?_⟩
    refine (h.2.setFile _ fun z hz => ?_).congr (Nat.le_succ _) rfl
    obtain rfl := Option.some.inj hz
    exact F.fresh h.2.numbers
  empty h hx hv := ⟨kept_descriptors.empty h.1 hx hv, h.2.setFile _ fun _ hz => nomatch hz⟩
  last := by
    intro s f v x h hx hv
    refine ((kept_descriptors.last h.1 hx hv).and (keeps_dropRef v s h.2)).mono
      (fun _ he => he) fun _ t ht => ⟨ht.1, ?_⟩
    have hgone : Each n P (t.setFile f none) := ht.2.setFile f fun _ hz => nomatch hz
    exact hgone.congr le_rfl rfl
  slot cur fd x h := ⟨kept_descriptors.slot cur fd x h.1, h.2.congr le_rfl rfl⟩
  write v pos buf := keeps_each (kept_ramfsWrite v pos buf) (keeps_ramfsWrite v pos buf)
  process p h hv := by
    refine ((kept_descriptors.process p h.1 hv).and (keeps_vref _ _ h.2)).mono
      (fun _ he => he) fun _ t ht => ⟨ht.1, ht.2.congr le_rfl rfl⟩
  daemon p h hv := ⟨kept_descriptors.daemon p h.1 hv, h.2.congr le_rfl rfl⟩

theorem FileRules.calls (F : FileRules n P) : CallRules (fun s => Kept s ∧ Each n P s) where
  toVnodeRules := each_vnodes
  toDescriptorRules := F.descriptors
  vref v := keeps_each (kept_vref v) (keeps_vref v)
  cwd cur v _ h := ⟨kept_calls.cwd cur v _ h.1, h.2.congr le_rfl rfl⟩
  finish h hx hv hp hm := by
    refine ⟨kept_calls.finish h.1 hx hv hp hm, (h.2.setFile _ fun z hz => ?_).congr le_rfl rfl⟩
    obtain rfl := Option.some.inj hz
    exact F.finish (h.2.files _ _ hx) hv hp hm
  enter h := ⟨kept_calls.enter h.1, h.2.congr le_rfl rfl⟩
  memory left h := ⟨kept_calls.memory left h.1, h.2.congr le_rfl rfl⟩

theorem FileRules.step (F : FileRules n P) {e : ℕ × VfsCall} (h : Kept s ∧ Each n P s)
    (hs : VfsStep s e t) : Kept t ∧ Each n P t := by
  have he := F.calls.enter h
  refine hs.of_ends (F.calls.perform h e.1 (fun source target => ?_) e.2)
  exact (doLink_kept he.1 ⟨rfl, fun _ => Nat.zero_le _⟩ source target).and
    (guarded_rules.doLink e.1 keeps_ramfsLink source target _ he.2)

theorem FileRules.run (F : FileRules n P) {good : VState → ℕ × VfsCall → Prop}
    {es : List (ℕ × VfsCall)} (h : Kept s ∧ Each n P s) (hrun : Run VfsStep good s es t) :
    Kept t ∧ Each n P t :=
  hrun.invariant (fun _ _ _ _ hstep hi => F.step hi hstep) h

end SystemsProjects.FileConditions
