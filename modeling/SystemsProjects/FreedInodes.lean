import SystemsProjects.FreeBlocks

/-!
# Inodes and their blocks

`s5_free_inode` frees the blocks of an inode, those in its indirect block too, and puts the inode
at the front of the list of free inodes. While the indirect block is read, the words of blocks that
have just been freed may be overwritten by the list of free blocks. The indirect block is freed
last, so its own words are still there.
-/
namespace SystemsProjects.FreeBlocks

open Function LinkedStacks List

def S5_NDIRECT_BLOCKS : ℕ := 28

def S5_NIDIRECT_BLOCKS : ℕ := 1024

/-- An entry is freed unless it is 0. -/
def freeEntry (s : Disk) (b : UInt32) : Option Disk := if b ≠ 0 then s5FreeBlock b s else some s

def hasIndirect (inode : Inode) : Prop :=
  (inode.type = .data ∨ inode.type = .dir) ∧ inode.indirectBlock ≠ 0

instance (inode : Inode) : Decidable (hasIndirect inode) := inferInstanceAs (Decidable (_ ∧ _))

/-- The loop over the indirect block reads each entry when it comes to it. -/
def freeIndirect (inode : Inode) (s : Disk) : Option Disk :=
  if hasIndirect inode then do
    let s ← (range S5_NIDIRECT_BLOCKS).foldlM (fun s i =>
      if s.block inode.indirectBlock i = inode.indirectBlock then none
      else freeEntry s (s.block inode.indirectBlock i)) s
    s5FreeBlock inode.indirectBlock s
  else some s

/-- The inode in its unused state. -/
def Inode.freed (inode : Inode) (nextFree : UInt32) : Inode :=
  { inode with
    nextFree := nextFree
    type := .free
    directBlocks := inode.directBlocks.map fun _ => 0
    indirectBlock := 0 }

def s5FreeInode (i : UInt32) (s : Disk) : Option Disk :=
  if (s.inode i).type = .free then none
  else do
    let inode := s.inode i
    let s ← inode.directBlocks.foldlM freeEntry s
    let s ← freeIndirect inode s
    return { s with
      inode := update s.inode i (inode.freed s.freeInode)
      freeInode := inode.number }

/-- The number of the new inode, or none for `-ENOSPC`. -/
def s5AllocInode (type : S5Type) (devid : UInt32) (s : Disk) : Option (Option UInt32×Disk) :=
  let inode := s.inode s.freeInode
  if type = .free then none
  else if s.freeInode = endMark then some (none, s)
  else if inode.number ≠ s.freeInode then none
  else some (some inode.number, { s with
    freeInode := inode.nextFree
    inode := update s.inode s.freeInode { inode with
      nextFree := 0
      type := type
      linkcount := 0
      directBlocks := replicate S5_NDIRECT_BLOCKS 0
      indirectBlock := if type = .chr ∨ type = .blk then devid else 0 } })

/-! ### The blocks of an inode -/

def entries (l : List UInt32) : List UInt32 := l.filter (· ≠ 0)

/-- The words of the indirect block. -/
def indirectWords (s : Disk) (inode : Inode) : List UInt32 :=
  (range S5_NIDIRECT_BLOCKS).map (s.block inode.indirectBlock)

def indirectBlocks (s : Disk) (inode : Inode) : List UInt32 :=
  if hasIndirect inode then entries (indirectWords s inode)++[inode.indirectBlock] else []

def blocksOf (s : Disk) (inode : Inode) : List UInt32 :=
  entries inode.directBlocks++indirectBlocks s inode

/-- The blocks have been put on the list of free blocks, and only their words have changed. -/
structure Freed (bs : List UInt32) (s t : Disk) (l : List UInt32) : Prop where
  list : FreeList t (bs.reverse++l)
  words : ∀ c ∉ bs, t.block c = s.block c
  inode : t.inode = s.inode
  freeInode : t.freeInode = s.freeInode

variable {s t u : Disk} {b : UInt32} {l bs cs : List UInt32}

theorem Freed.trans (h : Freed bs s t l) (h' : Freed cs t u (bs.reverse++l)) :
    Freed (bs++cs) s u l where
  list := by
    rw [reverse_append, append_assoc]
    exact h'.list
  words c hc := by
    rw [mem_append, not_or] at hc
    rw [h'.words c hc.2, h.words c hc.1]
  inode := h'.inode.trans h.inode
  freeInode := h'.freeInode.trans h.freeInode

theorem s5FreeBlock_freed (h : FreeList s l) (hb : b ∉ l) (hne : b ≠ endMark) :
    ∃ t, s5FreeBlock b s = some t ∧ Freed [b] s t l := by
  refine ⟨_, s5FreeBlock_eq h.count_le, h.pushed hb hne, fun c hc => ?_, rfl, rfl⟩
  rw [mem_singleton] at hc
  change (Rows.push _ _ _).held c = _
  unfold Rows.push
  split
  · exact update_of_ne hc _ _
  · rfl

/-- The blocks are different from each other and from the free ones. -/
structure Owned (bs l : List UInt32) : Prop where
  nodup : bs.Nodup
  apart : ∀ b ∈ bs, b ∉ l ∧ b ≠ endMark

theorem Owned.append (h : Owned (bs++cs) l) : Owned bs l ∧ Owned cs (bs.reverse++l) := by
  obtain ⟨hbs, hcs, hapart⟩ := nodup_append.mp h.nodup
  refine ⟨⟨hbs, fun b hb => h.apart b (mem_append_left _ hb)⟩, hcs, fun c hc => ?_⟩
  obtain ⟨hcl, hce⟩ := h.apart c (mem_append_right _ hc)
  refine ⟨fun hmem => ?_, hce⟩
  rcases mem_append.mp hmem with hmem | hmem
  · exact hapart c (mem_reverse.mp hmem) c hc rfl
  · exact hcl hmem

theorem entries_cons : entries (b::bs) = (if b ≠ 0 then [b] else [])++entries bs := by
  by_cases hb : b = 0 <;> simp [entries, hb]

theorem freeEntry_freed (h : FreeList s l) (ho : Owned (if b ≠ 0 then [b] else []) l) :
    ∃ t, freeEntry s b = some t ∧ Freed (if b ≠ 0 then [b] else []) s t l := by
  unfold freeEntry
  split at ho
  · rename_i hb
    rw [if_pos hb, if_pos hb]
    obtain ⟨hbl, hbe⟩ := ho.apart b mem_cons_self
    exact s5FreeBlock_freed h hbl hbe
  · rename_i hb
    rw [if_neg hb, if_neg hb]
    exact ⟨s, rfl, h, fun _ _ => rfl, rfl, rfl⟩

theorem foldlM_freed (h : FreeList s l) (ho : Owned (entries bs) l) :
    ∃ t, bs.foldlM freeEntry s = some t ∧ Freed (entries bs) s t l := by
  induction bs generalizing s l with
  | nil => exact ⟨s, rfl, h, fun _ _ => rfl, rfl, rfl⟩
  | cons b bs ih =>
    rw [entries_cons] at ho ⊢
    obtain ⟨t, ht, hf⟩ := freeEntry_freed h ho.append.1
    obtain ⟨u, hu, hg⟩ := ih hf.list ho.append.2
    refine ⟨u, ?_, hf.trans hg⟩
    rw [foldlM_cons, ht]
    exact hu

/-- Reading the entries one by one is the same as reading them all before. -/
theorem foldlM_indirect {indirect : UInt32} {w : ℕ → UInt32} (is : List ℕ) (h : FreeList s l)
    (hw : s.block indirect = w) (ho : Owned (entries (is.map w)) l) (hz : indirect ≠ 0)
    (hi : indirect ∉ entries (is.map w)) :
    is.foldlM (fun s i => if s.block indirect i = indirect then none
      else freeEntry s (s.block indirect i)) s = (is.map w).foldlM freeEntry s := by
  induction is generalizing s l with
  | nil => rfl
  | cons i is ih =>
    rw [map_cons, entries_cons] at ho hi
    rw [mem_append, not_or] at hi
    obtain ⟨t, ht, hf⟩ := freeEntry_freed h ho.append.1
    have hne : w i ≠ indirect := by
      rintro rfl
      exact hi.1 (by simp [hz])
    rw [map_cons, foldlM_cons, foldlM_cons, hw, if_neg hne, ht]
    exact ih hf.list ((hf.words _ hi.1).trans hw) ho.append.2 hi.2

/-! ### The list of free inodes -/

inductive InodeChain (inode : UInt32 → Inode) : UInt32 → List UInt32 → Prop
  | nil : InodeChain inode endMark []
  | cons {i : UInt32} {l : List UInt32} : i ≠ endMark → (inode i).number = i →
      InodeChain inode (inode i).nextFree l → InodeChain inode i (i::l)

/-- The free inodes, the one that is taken next first. -/
def InodeList (s : Disk) (l : List UInt32) : Prop := InodeChain s.inode s.freeInode l ∧ l.Nodup

theorem InodeChain.update {inode : UInt32 → Inode} {i j : UInt32} (h : InodeChain inode j l)
    (hi : i ∉ l) (x : Inode) : InodeChain (update inode i x) j l := by
  induction h with
  | nil => exact .nil
  | @cons j l hne hn _ ih =>
    rw [mem_cons, not_or] at hi
    have hj : Function.update inode i x j = inode j := update_of_ne (Ne.symm hi.1) _ _
    have htail := ih hi.2
    rw [← hj] at hn htail
    exact .cons hne hn htail

theorem freeIndirect_freed {inode : Inode} (h : FreeList s l)
    (ho : Owned (indirectBlocks s inode) l) :
    ∃ t, freeIndirect inode s = some t ∧ Freed (indirectBlocks s inode) s t l := by
  unfold freeIndirect
  unfold indirectBlocks at ho ⊢
  split at ho
  · rename_i hi
    rw [if_pos hi, if_pos hi]
    obtain ⟨hwords, hlast⟩ := ho.append
    obtain ⟨hout, hne⟩ := hlast.apart _ mem_cons_self
    rw [mem_append, mem_reverse, not_or] at hout
    obtain ⟨t, ht, hf⟩ := foldlM_freed h hwords
    obtain ⟨u, hu, hg⟩ := s5FreeBlock_freed hf.list (by simpa using hout) hne
    refine ⟨u, ?_, hf.trans hg⟩
    rw [foldlM_indirect _ h rfl hwords hi.2 hout.1]
    rw [indirectWords] at ht
    rw [ht]
    exact hu
  · rename_i hi
    rw [if_neg hi, if_neg hi]
    exact ⟨s, rfl, h, fun _ _ => rfl, rfl, rfl⟩

/-- Freeing the direct blocks leaves the words of the indirect block. -/
theorem indirectBlocks_kept {inode : Inode} (hf : Freed bs s t l)
    (ho : Owned (indirectBlocks s inode) (bs.reverse++l)) :
    indirectBlocks t inode = indirectBlocks s inode := by
  unfold indirectBlocks at ho ⊢
  split at ho
  · rename_i hi
    have hout := (ho.apart inode.indirectBlock (mem_append_right _ mem_cons_self)).1
    rw [mem_append, mem_reverse, not_or] at hout
    rw [if_pos hi, if_pos hi, indirectWords, indirectWords, hf.words _ hout.1]
  · rename_i hi
    rw [if_neg hi, if_neg hi]

/-- The blocks of the inode are freed one after the other, and the inode is put before the free
ones. -/
theorem s5FreeInode_eq {i : UInt32} (h : FreeList s l) (htype : (s.inode i).type ≠ .free)
    (ho : Owned (blocksOf s (s.inode i)) l) :
    ∃ t, s5FreeInode i s = some { t with
        inode := update s.inode i ((s.inode i).freed s.freeInode)
        freeInode := (s.inode i).number } ∧ Freed (blocksOf s (s.inode i)) s t l := by
  obtain ⟨hdirect, hrest⟩ := Owned.append ho
  obtain ⟨t, ht, hf⟩ := foldlM_freed h hdirect
  have hkept := indirectBlocks_kept hf hrest
  rw [← hkept] at hrest
  obtain ⟨u, hu, hg⟩ := freeIndirect_freed hf.list hrest
  rw [hkept] at hg
  have hall := hf.trans hg
  refine ⟨u, ?_, hall⟩
  rw [s5FreeInode, if_neg htype]
  dsimp only
  rw [ht, Option.bind_eq_bind, Option.bind_some, hu, Option.bind_some, hall.inode, hall.freeInode]
  rfl

theorem s5AllocInode_first {i devid : UInt32} {type : S5Type} (h : InodeList s (i::l))
    (ht : type ≠ .free) : ∃ x, s5AllocInode type devid s = some (some i, x) ∧ InodeList x l ∧
      x.rows = s.rows := by
  obtain ⟨hchain, hnodup⟩ := h
  obtain ⟨hi, hnodup⟩ := nodup_cons.mp hnodup
  generalize hj : s.freeInode = j at hchain
  cases hchain with
  | cons hne hn hrest =>
    unfold s5AllocInode
    rw [if_neg ht, hj, if_neg hne, if_neg (not_not.mpr hn), hn]
    exact ⟨_, rfl, ⟨hrest.update hi _, hnodup⟩, rfl⟩

/-- Every block of the inode is free afterwards, each once, and the inode is the first one that is
taken. -/
theorem free_inode_returns_blocks {i : UInt32} {il : List UInt32} (h : FreeList s l)
    (hil : InodeList s il) (htype : (s.inode i).type ≠ .free) (hnum : (s.inode i).number = i)
    (hi : i ∉ il) (hne : i ≠ endMark) (ho : Owned (blocksOf s (s.inode i)) l) :
    ∃ t, s5FreeInode i s = some t ∧ FreeList t ((blocksOf s (s.inode i)).reverse++l) ∧
      InodeList t (i::il) ∧ ∀ type devid, type ≠ .free → ∃ u,
        s5AllocInode type devid t = some (some i, u) ∧ InodeList u il := by
  obtain ⟨t, hrun, hf⟩ := s5FreeInode_eq h htype ho
  have hlist : InodeList { t with
      inode := update s.inode i ((s.inode i).freed s.freeInode)
      freeInode := (s.inode i).number } (i::il) := by
    refine ⟨?_, nodup_cons.mpr ⟨hi, hil.2⟩⟩
    dsimp only
    rw [hnum]
    refine .cons hne ?_ ?_
    · rwa [update_self]
    · rw [update_self]
      exact hil.1.update hi _
  refine ⟨_, hrun, hf.list, hlist, fun type devid ht => ?_⟩
  obtain ⟨u, hu, hul, -⟩ := s5AllocInode_first hlist ht
  exact ⟨u, hu, hul⟩

/-- Inode 5 has the blocks 8 and 9 and the indirect block 10 with the block 11, and freeing the
first of them fills a superblock that has 28 free blocks. -/
def oneFile : Disk :=
  { fullSuper with
    nfree := 28
    block := update fullSuper.block 10 (update (fun _ => 0) 3 11)
    inode := update fullSuper.inode 5 ⟨9000, 5, .data, 1, [8, 0, 9], 10⟩ }

theorem file_blocks_returned : ∃ l t, s5FreeInode 5 oneFile = some t ∧
    FreeList t ([10, 11, 9, 8]++l) ∧ InodeList t [5] := by
  have h : FreeList oneFile (stacked 28 oneFile.freeBlocks) :=
    ⟨by decide, by decide +kernel, [], .nil, (append_nil _).symm⟩
  have hblocks : blocksOf oneFile (oneFile.inode 5) = [8, 9, 11, 10] := by decide +kernel
  have ho : Owned (blocksOf oneFile (oneFile.inode 5)) (stacked 28 oneFile.freeBlocks) := by
    rw [hblocks]
    refine ⟨by decide, fun b hb => ?_⟩
    have hall : [8, 9, 11, 10].all
        fun b => b ∉ stacked 28 oneFile.freeBlocks ∧ b ≠ endMark := by decide +kernel
    exact of_decide_eq_true (all_eq_true.mp hall b hb)
  obtain ⟨t, hrun, hl, hil, -⟩ := free_inode_returns_blocks h ⟨.nil, nodup_nil⟩ (by decide) rfl
    (by decide) (by decide) ho
  rw [hblocks] at hl
  exact ⟨_, t, hrun, hl, hil⟩

end SystemsProjects.FreeBlocks
