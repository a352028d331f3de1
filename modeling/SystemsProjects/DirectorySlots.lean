import SystemsProjects.DescriptorCalls

/-!
# The slots of directories

An entry is put into a slot that is free and is taken away where it is: none of the operations of
the file system that create or remove entries, or give vnodes back, moves one. After an operation
each slot of each directory that is still there has the entry that it had, or was free before or
is free afterwards.
-/
namespace SystemsProjects.DirectorySlots
open Function CallOutcomes VfsState RamfsOperations PathCalls VfsFrames DescriptorCalls

/-- The slot has an entry. -/
def Used (es : List Dirent) (k : ℕ) (e : Dirent) : Prop := es[k]? = some e ∧ e.rdName ≠ []

def Free (es : List Dirent) (k : ℕ) : Prop := ∀ e, ¬Used es k e

def slotsOf (x : Option Inode) : Option (List Dirent) :=
  x.bind fun x => match x.rfNode with
    | .dir es => some es
    | _ => none

def slotsAt (s : VState) : ℕ → Option (List Dirent) := slotsOf ∘ s.inodes

/-- The slots of a directory before and after an operation. -/
def Edited (es es' : List Dirent) : Prop := ∀ k, es'[k]? = es[k]? ∨ Free es k ∨ Free es' k

/-- Every directory that stays one is edited. -/
def Edit (s t : VState) : Prop :=
  ∀ v es es', slotsAt s v = some es → slotsAt t v = some es' → Edited es es'

variable {s t u : VState} {v d i k : ℕ} {es : List Dirent} {e : Dirent} {name : Name}

/-- An entry is where it was unless it has been removed. -/
theorem Edited.used {es' : List Dirent} (h : Edited es es') (hk : Used es k e) :
    Used es' k e ∨ Free es' k := by
  rcases h k with heq | hfree | hfree
  · exact .inl ⟨heq.trans hk.1, hk.2⟩
  · exact absurd hk (hfree e)
  · exact .inr hfree

theorem edit_of_same (h : slotsAt t = slotsAt s) : Edit s t := fun v es es' hes hes' k => by
  rw [h, hes] at hes'
  exact .inl (by rw [Option.some.inj hes'])

theorem Edit.same (h : Edit s t) (hu : slotsAt u = slotsAt t) : Edit s u := by
  unfold Edit
  rwa [hu]

theorem slots_setInode (t : VState) (v : ℕ) (y : Option Inode) :
    slotsAt (t.setInode v y) = update (slotsAt t) v (slotsOf y) := comp_update slotsOf _ _ _

theorem slots_setInode_same {x y : Inode} (hx : t.inodes v = some x) (hy : y.rfNode = x.rfNode) :
    slotsAt (t.setInode v (some y)) = slotsAt t := by
  have hsame : slotsOf (some y) = slotsAt t v := by
    rw [slotsAt, comp_apply, hx]
    simp only [slotsOf, Option.bind_some, hy]
  rw [slots_setInode, hsame, update_eq_self]

theorem Edit.setInode (h : Edit s t) {y : Option Inode}
    (hy : ∀ es es', slotsAt s v = some es → slotsOf y = some es' → Edited es es') :
    Edit s (t.setInode v y) := fun w es es' hes hes' => by
  rw [slots_setInode] at hes'
  by_cases hw : w = v
  · subst hw
    rw [update_self] at hes'
    exact hy es es' hes hes'
  · rw [update_of_ne hw] at hes'
    exact h w es es' hes hes'

theorem slots_of_dir {size links : ℤ} (h : s.inodes d = some ⟨size, links, .dir es⟩) :
    slotsAt s d = some es := by
  rw [slotsAt, comp_apply, h]
  rfl

theorem inode_of_slots (h : slotsAt s v = some es) :
    ∃ size links, s.inodes v = some ⟨size, links, .dir es⟩ := by
  obtain ⟨⟨size, links, node⟩, hi, hnode⟩ := Option.bind_eq_some_iff.mp h
  cases node with
  | dir es' => exact ⟨size, links, Option.some.inj hnode ▸ hi⟩
  | _ => cases hnode

/-! ### References -/

theorem vget_slots (v : ℕ) (t : VState) : Gives (vget v t) fun _ u => slotsAt u = slotsAt t := by
  unfold vget
  split
  · split
    · exact rfl
    · trivial
  · split
    next inode hi => exact slots_setInode_same hi rfl
    · trivial

theorem edit_vget (v : ℕ) : Keeps (Edit s) (vget v) := fun t h =>
  (vget_slots v t).imp fun _ _ hu => h.same hu

theorem edit_touch (v : ℕ) : Keeps (Edit s) (touch v) := fun _ h => h.same rfl

theorem edit_dropRef (v : ℕ) : Keeps (Edit s) (dropRef v) := by
  intro t h
  unfold dropRef
  split
  · trivial
  · split
    · trivial
    · split
      · exact h.same rfl
      · split
        · trivial
        next inode hi =>
          have hdel : Edit s (ramfsDeleteVnode t v inode) := by
            unfold ramfsDeleteVnode
            split
            · exact h.setInode fun _ _ _ hy => nomatch hy
            · exact h.same (slots_setInode_same hi rfl)
          exact hdel.same rfl

theorem edit_vput (v : Option ℕ) : Keeps (Edit s) (vput v) :=
  vput_keeps edit_touch edit_dropRef (fun _ _ h => h.same rfl) v

theorem inodeAt_run (v : ℕ) (t : VState) :
    Gives (inodeAt v t) fun x u => u = t ∧ t.inodes v = some x := by
  unfold inodeAt
  split
  next x hx => exact ⟨rfl, hx⟩
  · trivial

theorem edit_addLinks (v : ℕ) (n : ℤ) : Keeps (Edit s) (addLinks v n) := by
  intro t h
  refine (inodeAt_run v t).bind ?_
  rintro x _ ⟨rfl, hx⟩
  exact h.same (slots_setInode_same hx rfl)

/-! ### Entries -/

theorem edit_setEntry (hi : ∀ es, slotsAt s d = some es → Free es i) (name : Name) (ino : ℕ) :
    Keeps (Edit s) (setEntry d i name ino) := by
  intro t h
  unfold setEntry
  split
  next size links l hl =>
    refine h.setInode fun es₁ es₂ h₁ h₂ k => ?_
    obtain rfl := Option.some.inj h₂
    by_cases hk : i = k
    · exact .inr (.inl (hk ▸ hi es₁ h₁))
    · have hold := h d es₁ l h₁ (slots_of_dir hl) k
      have hset : (l.set i ⟨ino, name.take (NAME_LEN-1)⟩)[k]? = l[k]? := List.getElem?_set_ne hk
      unfold Free Used at hold ⊢
      rwa [hset]
  · trivial

theorem edit_clearEntry (d : ℕ) (name : Name) : Keeps (Edit s) (clearEntry d name) := by
  intro t h
  unfold clearEntry
  split
  next size links l hl =>
    refine h.setInode fun es₁ es₂ h₁ h₂ k => ?_
    obtain rfl := Option.some.inj h₂
    have hold := h d es₁ l h₁ (slots_of_dir hl) k
    unfold Free Used at hold ⊢
    rw [List.getElem?_modify]
    split
    · refine .inr (.inr ?_)
      rintro e ⟨hget, hname⟩
      obtain ⟨x, -, rfl⟩ := Option.map_eq_some_iff.mp hget
      exact hname rfl
    · simpa using hold
  · trivial

/-! ### Operations -/

/-- The slot that is found is free. -/
theorem edit_nameSlot {α : Type} {f : Option ℕ → Vfs α} (hnone : Keeps (Edit s) (f none))
    (hsome : ∀ {i u}, slotsAt u = slotsAt s → (∀ es, slotsAt s d = some es → Free es i) →
      Gives (f (some i) u) fun _ w => Edit s w) :
    Gives ((nameSlot d name >>= f) s) fun _ w => Edit s w := by
  have hlookup : Keeps (slotsAt · = slotsAt s) (ramfsLookup d name none) :=
    ramfsLookup_keeps (fun v t h => (vget_slots v t).imp fun _ _ hu => hu.trans h) d name none
  have hslot : Gives (nameSlot d name s) fun slot u => slotsAt u = slotsAt s ∧
      ∀ i, slot = some i → ∀ es, slotsAt s d = some es → Free es i := by
    refine (hlookup s rfl).bind fun r u hu => ?_
    split
    · trivial
    · unfold dirents
      rw [run_bind]
      split
      next p hp =>
        split at hp
        next size links l hl =>
          obtain rfl := Except.ok.inj hp
          refine ends_pure ⟨hu, fun i hslot es hes e he => he.2 ?_⟩
          obtain rfl := Option.some.inj ((slots_of_dir hl).symm.trans (hu ▸ hes))
          obtain ⟨hlt, hname, -⟩ := List.findIdx?_eq_some_iff_getElem.mp hslot
          obtain rfl := Option.some.inj ((List.getElem?_eq_getElem hlt).symm.trans he.1)
          simpa using hname
        · cases hp
      · trivial
  refine hslot.bind fun slot u hu => ?_
  cases slot with
  | none => exact hnone u (edit_of_same hu.1)
  | some i => exact hsome hu.1 (hu.2 i rfl)

/-- The new inode is one that no directory had. -/
theorem edit_alloc (h : slotsAt t = slotsAt s) (node : RamfsNode) :
    Gives (ramfsAllocInode node t) fun ino u => Edit s u ∧ ∀ i, ino = some i →
      slotsAt s i = none := by
  unfold ramfsAllocInode
  split
  next i hfind =>
    have hnone : slotsAt s i = none := by
      have hfree : t.inodes i = none := by simpa using List.find?_some hfind
      rw [← h, slotsAt, comp_apply, hfree]
      rfl
    split
    · refine ⟨(edit_of_same h).setInode fun _ _ hes => ?_, fun j hj => Option.some.inj hj ▸ hnone⟩
      exact nomatch hnone.symm.trans hes
    · exact ⟨edit_of_same h, fun _ hi => nomatch hi⟩
  · exact ⟨edit_of_same h, fun _ hi => nomatch hi⟩

theorem ramfsCreate_edit (d : ℕ) (name : Name) (result : Option ℕ) (s : VState) :
    Gives (ramfsCreate d name result s) fun _ t => Edit s t := by
  refine edit_nameSlot (keeps_pure _) fun {i u} hu hi => ?_
  refine (edit_alloc hu _).bind fun ino w hw => ?_
  cases ino with
  | none => exact hw.1
  | some ino => exact (edit_vget ino).bind (fun _ => (edit_setEntry hi name ino).ret) w hw.1

theorem ramfsMknod_edit (d : ℕ) (name : Name) (mode devid : ℕ) (s : VState) :
    Gives (ramfsMknod d name mode devid s) fun _ t => Edit s t := by
  refine edit_nameSlot (keeps_pure _) fun {i u} hu hi => ?_
  dsimp only
  split
  · refine (edit_alloc hu _).bind fun ino w hw => ?_
    cases ino with
    | none => exact hw.1
    | some ino => exact (edit_setEntry hi name ino).ret w hw.1
  · trivial

theorem ramfsMkdir_edit (d : ℕ) (name : Name) (s : VState) :
    Gives (ramfsMkdir d name s) fun _ t => Edit s t := by
  refine edit_nameSlot (keeps_pure _) fun {i u} hu hi => ?_
  refine (edit_alloc hu _).bind fun ino w hw => ?_
  cases ino with
  | none => exact hw.1
  | some ino =>
    refine (edit_setEntry hi name ino w hw.1).bind fun _ x hx => (inodeAt_run ino x).bind ?_
    rintro y _ ⟨rfl, -⟩
    exact hx.setInode fun _ _ hes => nomatch (hw.2 ino rfl).symm.trans hes

theorem ramfsLink_edit (old d : ℕ) (name : Name) (s : VState) :
    Gives (ramfsLink old d name s) fun _ t => Edit s t :=
  edit_nameSlot (keeps_pure _) fun {_ u} hu hi =>
    (edit_setEntry hi name old).bind (fun _ => (edit_addLinks old 1).ret) u (edit_of_same hu)

theorem ramfsUnlink_edit (d : ℕ) (name : Name) (s : VState) :
    Gives (ramfsUnlink d name s) fun _ t => Edit s t :=
  ramfsUnlink_keeps edit_touch edit_vget edit_vput edit_addLinks d name (edit_clearEntry d name) s
    (edit_of_same rfl)

theorem ramfsRmdir_edit (d : ℕ) (name : Name) (s : VState) :
    Gives (ramfsRmdir d name s) fun _ t => Edit s t :=
  ramfsRmdir_keeps edit_touch edit_vget edit_vput edit_addLinks d name (edit_clearEntry d name) s
    (edit_of_same rfl)

end SystemsProjects.DirectorySlots
