import Mathlib.Data.UInt
import SystemsProjects.LinkedStacks

/-!
# The free blocks of a disk

The superblock has the numbers of up to 29 free blocks and the number of a block that has 30 words
of this kind, which is free itself. The kernel and `fsmaker` put a block on this list, and
`fsmaker` takes blocks from it. A disk is known here by words of four bytes, which both read and
write at the same places. The superblock is block 0, apart from the blocks that are freed.
-/
namespace SystemsProjects.FreeBlocks

open Function LinkedStacks List

/-- `S5_TYPE_FREE`, `S5_TYPE_DATA` and so on. -/
inductive S5Type
  | free
  | data
  | dir
  | chr
  | blk
deriving DecidableEq

/-- An inode. The next free inode and the size of a file are at the same place. -/
structure Inode where
  nextFree : UInt32
  number : UInt32
  type : S5Type
  linkcount : ℤ
  directBlocks : List UInt32
  indirectBlock : UInt32

structure Disk where
  freeInode : UInt32
  nfree : ℕ
  freeBlocks : ℕ → UInt32
  block : UInt32 → ℕ → UInt32
  inode : UInt32 → Inode

def S5_NBLKS_PER_FNODE : ℕ := 30

/-! ### The kernel -/

/-- The result is `none` where the assertion fails. -/
def s5FreeBlock (blockno : UInt32) (s : Disk) : Option Disk :=
  if ¬S5_NBLKS_PER_FNODE > s.nfree then none
  else if S5_NBLKS_PER_FNODE-1 = s.nfree then
    some { s with
      block := update s.block blockno (copy S5_NBLKS_PER_FNODE s.freeBlocks (s.block blockno))
      nfree := 0
      freeBlocks := update s.freeBlocks (S5_NBLKS_PER_FNODE-1) blockno }
  else some { s with freeBlocks := update s.freeBlocks s.nfree blockno, nfree := s.nfree+1 }

/-! ### fsmaker -/

inductive S5fsException
  | other
  | diskSpace
deriving DecidableEq

def endMark : UInt32 := 0xffffffff

def getFreeBlock (index : ℕ) (s : Disk) : Except S5fsException UInt32 :=
  if index < S5_NBLKS_PER_FNODE-1 then .ok (s.freeBlocks index) else .error .other

def setFreeBlock (index : ℕ) (val : UInt32) (s : Disk) : Except S5fsException Disk :=
  if index < S5_NBLKS_PER_FNODE-1 then
    .ok { s with freeBlocks := update s.freeBlocks index val }
  else .error .other

/-- `Block.write` of a word. -/
def write (blockno : UInt32) (i : ℕ) (val : UInt32) (s : Disk) : Disk :=
  { s with block := update s.block blockno (update (s.block blockno) i val) }

/-- `Block.free`. -/
def free (blockno : UInt32) (s : Disk) : Except S5fsException Disk :=
  if s.nfree < S5_NBLKS_PER_FNODE-1 then do
    let s ← setFreeBlock s.nfree blockno s
    return { s with nfree := s.nfree+1 }
  else do
    let s ← (range (S5_NBLKS_PER_FNODE-1)).foldlM
      (fun s i => do return write blockno i (← getFreeBlock i s) s) s
    let s := write blockno (S5_NBLKS_PER_FNODE-1) (s.freeBlocks (S5_NBLKS_PER_FNODE-1)) s
    return { s with freeBlocks := update s.freeBlocks (S5_NBLKS_PER_FNODE-1) blockno, nfree := 0 }

def allocBlock (s : Disk) : Except S5fsException (UInt32×Disk) :=
  if s.nfree > S5_NBLKS_PER_FNODE-1 then .error .other
  else if s.nfree = 0 then
    if s.freeBlocks (S5_NBLKS_PER_FNODE-1) = endMark then .error .diskSpace
    else do
      let block := s.freeBlocks (S5_NBLKS_PER_FNODE-1)
      let s ← (range (S5_NBLKS_PER_FNODE-1)).foldlM
        (fun s i => setFreeBlock i (s.block block i) s) s
      return (block, { s with
        freeBlocks := update s.freeBlocks (S5_NBLKS_PER_FNODE-1)
          (s.block block (S5_NBLKS_PER_FNODE-1))
        nfree := S5_NBLKS_PER_FNODE-1 })
  else do
    let s := { s with nfree := s.nfree-1 }
    return (← getFreeBlock s.nfree s, s)

/-! ### The list -/

def Disk.rows (s : Disk) : Rows UInt32 := ⟨s.nfree, s.freeBlocks, s.block⟩

/-- The disk with other free blocks. -/
def Disk.withRows (s : Disk) (r : Rows UInt32) : Disk :=
  { s with nfree := r.count, freeBlocks := r.row, block := r.held }

/-- The free blocks, the one that is taken next first. -/
def FreeList (s : Disk) (l : List UInt32) : Prop := Stack (S5_NBLKS_PER_FNODE-1) endMark s.rows l

variable {s : Disk} {b : UInt32} {l : List UInt32}

theorem s5FreeBlock_eq (h : s.nfree ≤ S5_NBLKS_PER_FNODE-1) :
    s5FreeBlock b s = some (s.withRows (s.rows.push (S5_NBLKS_PER_FNODE-1) b)) := by
  have hlt : S5_NBLKS_PER_FNODE > s.nfree := Nat.lt_succ_of_le h
  rw [s5FreeBlock, if_neg (not_not.mpr hlt)]
  unfold Rows.push
  split
  · rename_i hfull
    rw [if_pos (show s.rows.count = _ from hfull.symm)]
    rfl
  · rename_i hfull
    rw [if_neg (show s.rows.count ≠ _ from Ne.symm hfull)]
    rfl

theorem writeLoop_eq {n : ℕ} (hn : n ≤ S5_NBLKS_PER_FNODE-1) :
    (range n).foldlM (fun s i => do return write b i (← getFreeBlock i s) s) s =
      .ok { s with block := update s.block b (copy n s.freeBlocks (s.block b)) } := by
  induction n with
  | zero => simp [pure, Except.pure]
  | succ n ih =>
    rw [range_succ, foldlM_append, ih (Nat.le_of_succ_le hn)]
    simp [getFreeBlock, Nat.lt_of_succ_le hn, write, copy_succ, bind, Except.bind, pure,
      Except.pure]

theorem readLoop_eq {n : ℕ} (hn : n ≤ S5_NBLKS_PER_FNODE-1) :
    (range n).foldlM (fun s i => setFreeBlock i (s.block b i) s) s =
      .ok { s with freeBlocks := copy n (s.block b) s.freeBlocks } := by
  induction n with
  | zero => simp [pure, Except.pure]
  | succ n ih =>
    rw [range_succ, foldlM_append, ih (Nat.le_of_succ_le hn)]
    simp [setFreeBlock, Nat.lt_of_succ_le hn, copy_succ, bind, Except.bind, pure, Except.pure]

theorem free_eq (h : s.nfree ≤ S5_NBLKS_PER_FNODE-1) :
    free b s = .ok (s.withRows (s.rows.push (S5_NBLKS_PER_FNODE-1) b)) := by
  unfold free Rows.push
  split
  · rename_i hlt
    rw [setFreeBlock, if_pos hlt, if_neg (show s.rows.count ≠ _ from Nat.ne_of_lt hlt)]
    rfl
  · rename_i hge
    have hfull : s.rows.count = S5_NBLKS_PER_FNODE-1 := Nat.le_antisymm h (Nat.le_of_not_lt hge)
    rw [writeLoop_eq le_rfl, if_pos hfull]
    simp [write, copy_succ, bind, Except.bind, pure, Except.pure, Disk.withRows, Disk.rows]

theorem allocBlock_eq (h : s.nfree ≤ S5_NBLKS_PER_FNODE-1) : allocBlock s =
    (s.rows.pop (S5_NBLKS_PER_FNODE-1) endMark).elim (.error .diskSpace) fun p =>
      .ok (p.1, s.withRows p.2) := by
  rw [allocBlock, if_neg (Nat.not_lt.mpr h), Rows.pop]
  by_cases hn : s.nfree = 0
  · rw [if_pos hn, if_pos (show s.rows.count = 0 from hn)]
    by_cases hlast : s.freeBlocks (S5_NBLKS_PER_FNODE-1) = endMark
    · rw [if_pos hlast, if_pos (show s.rows.row _ = endMark from hlast)]
      rfl
    · rw [if_neg hlast, if_neg (show s.rows.row _ ≠ endMark from hlast), ← copy_succ]
      dsimp only
      rw [readLoop_eq le_rfl]
      rfl
  · have hlt : s.nfree-1 < S5_NBLKS_PER_FNODE-1 := by omega
    rw [if_neg hn, if_neg (show s.rows.count ≠ 0 from hn)]
    simp only [getFreeBlock, if_pos hlt]
    rfl

theorem FreeList.pushed (h : FreeList s l) (hb : b ∉ l) (hne : b ≠ endMark) :
    FreeList (s.withRows (s.rows.push (S5_NBLKS_PER_FNODE-1) b)) (b::l) := Stack.push h hb hne

/-- Both free a block in the same way, so that the free blocks are this one and those before, all
different. One of them is taken if there is one, and then the others are left. -/
theorem free_lists_agree (h : FreeList s l) :
    (∀ b, b ∉ l → b ≠ 0 → b ≠ endMark → ∃ t, s5FreeBlock b s = some t ∧ free b s = .ok t ∧
      FreeList t (b::l) ∧ (b::l).Nodup) ∧
    (l = [] → allocBlock s = .error .diskSpace) ∧
    ∀ b l', l = b::l' → ∃ t, allocBlock s = .ok (b, t) ∧ FreeList t l' := by
  refine ⟨fun b hb _ hne => ⟨_, s5FreeBlock_eq h.count_le, free_eq h.count_le, h.pushed hb hne,
    (h.pushed hb hne).nodup⟩, fun hl => ?_, fun b l' hl => ?_⟩
  · subst hl
    rw [allocBlock_eq h.count_le, h.pop_nil]
    rfl
  · subst hl
    obtain ⟨r, hpop, hr, -⟩ := Stack.pop_cons h
    rw [allocBlock_eq h.count_le, hpop]
    exact ⟨_, rfl, hr⟩

/-- A superblock with 29 blocks, from 101 on. -/
def fullSuper : Disk where
  freeInode := endMark
  nfree := 29
  freeBlocks i := if i = 29 then endMark else 100+1+UInt32.ofNat i
  block _ _ := 0
  inode _ := ⟨0, 0, .free, 0, [], 0⟩

theorem spilled_lists_agree : ∃ l t, FreeList fullSuper l ∧ s5FreeBlock 7 fullSuper = some t ∧
    free 7 fullSuper = .ok t ∧ FreeList t (7::l) := by
  have h : FreeList fullSuper (stacked 29 fullSuper.freeBlocks) :=
    ⟨by decide, by decide +kernel, [], .nil, (append_nil _).symm⟩
  obtain ⟨t, hk, hf, ht, -⟩ := (free_lists_agree h).1 7 (by decide +kernel) (by decide)
    (by decide)
  exact ⟨_, t, h, hk, hf, ht⟩

end SystemsProjects.FreeBlocks
