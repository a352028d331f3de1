import SystemsProjects.GuardedRuns
import SystemsProjects.VmState

/-!
# The page allocator

A page group is a range of memory from which blocks of `1`, `2`, up to `128` pages
are handed out. Its free blocks are kept in one list for each order, and for each
pair of buddies below the largest order there is a bit in a map. The group structure
and the maps are carved out of the end of the range, and what is left at the end
below a whole block of the largest order is put on no list.

`none` as a result of a function stands for a failed assertion, a panic, or the
removal of a block from a list on which it is not. Lists are threaded through the
free blocks themselves, which shows in that a list holds addresses. When no block is
left, `_page_split` asks the slab allocators to free pages before it reports failure;
these calls of `page_free_n` are calls like any other and come next in a sequence.
-/
namespace SystemsProjects.PageAllocator

open Function VmState

/-- `PAGE_NSIZES - 1`. -/
def maxOrder : ℕ := 7

/-- `sizeof(struct pagegroup)`: eight list heads, eight pointers to maps, two addresses
and a link. -/
def sizeofPagegroup : ℕ := 112

structure PageGroup where
  pgFreelist : ℕ → List ℕ
  pgMap : ℕ → ℕ → Bool
  pgBaseaddr : ℕ
  pgEndaddr : ℕ

structure PageState where
  pagegroupList : List PageGroup
  pageFreecount : ℕ

def pageAlignDown (x : ℕ) : ℕ := x/pageSize*pageSize

/-- The number of bytes of the map for one order, rounded up to whole bytes. -/
def mapBytes (npages order : ℕ) : ℕ := (sub32 (npages/2^order) 1/8*8+8)%word/8

def mapsStart (npages stop : ℕ) : ℕ :=
  (List.range maxOrder).foldl (fun e i => sub32 e (mapBytes npages (i+1)))
    (sub32 stop sizeofPagegroup)

/-- Takes off the pages that do not fit into blocks of the largest order. -/
def trim (npages stop : ℕ) : ℕ :=
  (List.range maxOrder).foldl
    (fun e order => if npages.testBit order then sub32 e (2^order*pageSize) else e) stop

def topSize : ℕ := 2^maxOrder*pageSize

/-- The blocks that the last loop of `_pagegroup_create` inserts, each at the head. -/
def topBlocks (start stop : ℕ) : List ℕ :=
  ((List.range ((stop-start+(topSize-1))/topSize)).map fun i => start+i*topSize).reverse

def pagegroupCreate (start stop : ℕ) : Option PageGroup :=
  let stop1 := pageAlignDown (mapsStart (sub32 stop start/pageSize) stop)
  let stop2 := trim (sub32 stop1 start/pageSize) stop1
  if sub32 stop2 start%2^maxOrder = 0 then
    some ⟨fun order => if order = maxOrder then topBlocks start stop2 else [],
      fun _ _ => false, start, stop1⟩
  else none

def pageInit : PageState := ⟨[], 0⟩

def pageAddRange (s : PageState) (start stop : ℕ) : Option PageState := do
  let g ← pagegroupCreate (pageAlignDown start) (pageAlignDown stop)
  return if g.pgBaseaddr < g.pgEndaddr then
    ⟨s.pagegroupList++[g], (s.pageFreecount+sub32 g.pgEndaddr g.pgBaseaddr/pageSize)%word⟩
  else s

def PageGroup.contains (g : PageGroup) (addr : ℕ) : Bool :=
  g.pgBaseaddr ≤ addr && addr < g.pgEndaddr

def calculateIndex (g : PageGroup) (order addr : ℕ) : Option ℕ :=
  if addr%pageSize = 0 ∧ order ≤ maxOrder ∧ g.contains addr ∧
      (addr-g.pgBaseaddr)%2^order = 0 then
    some ((addr-g.pgBaseaddr)/2^order/pageSize)
  else none

namespace PageGroup

def setList (g : PageGroup) (order : ℕ) (l : List ℕ) : PageGroup :=
  { g with pgFreelist := update g.pgFreelist order l }

def bitFlip (g : PageGroup) (order index : ℕ) : PageGroup :=
  { g with
    pgMap := update g.pgMap order (update (g.pgMap order) index (!g.pgMap order index)) }

/-- `bit_flip` in the map of the order above, which orders below the largest have. -/
def flipAbove (g : PageGroup) (order addr : ℕ) : Option PageGroup :=
  if order < maxOrder then (calculateIndex g (order+1) addr).map (g.bitFlip (order+1) ·)
  else some g

end PageGroup

/-- `__page_split` for the order `order+1`. -/
def pageSplitOnce (g : PageGroup) (order : ℕ) : Option PageGroup :=
  match g.pgFreelist (order+1) with
  | [] => none
  | target :: rest =>
    if order+1 ≤ maxOrder then do
      let g1 ← (g.setList (order+1) rest).flipAbove (order+1) target
      let index ← calculateIndex g1 (order+1) target
      if g1.pgMap (order+1) index then none
      else
        let halves := (target+2^order*pageSize) :: target :: g1.pgFreelist order
        some (g1.setList order halves)
    else none

/-- The loop of `_page_split` that splits `k` times down to `order`. -/
def splitDown (order : ℕ) : ℕ → PageGroup → Option PageGroup
  | 0, g => some g
  | k+1, g => do splitDown order k (← pageSplitOnce g (order+k))

/-- The first group that has a free block of the order. -/
def groupWith (s : PageState) (order : ℕ) : Option ℕ :=
  s.pagegroupList.findIdx? fun g => g.pgFreelist order ≠ []

def setGroup (s : PageState) (i : ℕ) (g : PageGroup) : PageState :=
  { s with pagegroupList := s.pagegroupList.set i g }

/-- The smallest order above the given one for which some group has a free block, as the
distance to it, with the first such group. -/
def largerBlock (s : PageState) (order : ℕ) : Option (ℕ × ℕ) :=
  (List.range (maxOrder-order)).findSome? fun k =>
    (groupWith s (order+(k+1))).map fun i => (k+1, i)

/-- The group in which `_page_split` has split a block, with the state after it. -/
def pageSplit (s : PageState) (order : ℕ) : Option (Option ℕ × PageState) :=
  match largerBlock s order with
  | none => some (none, s)
  | some (k, i) => do
    let g ← s.pagegroupList[i]?
    let g1 ← splitDown order k g
    if g1.pgFreelist order = [] then none else some (some i, setGroup s i g1)

/-- `_page_alloc_order` from the label `found` on. -/
def takeFrom (s : PageState) (i order : ℕ) : Option (Option ℕ × PageState) := do
  let g ← s.pagegroupList[i]?
  let addr ← (g.pgFreelist order).head?
  let g1 ← (g.setList order (g.pgFreelist order).tail).flipAbove order addr
  return (some addr, { setGroup s i g1 with pageFreecount := sub32 s.pageFreecount (2^order) })

def pageAllocOrder (s : PageState) (order : ℕ) : Option (Option ℕ × PageState) :=
  match groupWith s order with
  | some i => takeFrom s i order
  | none => do
    match ← pageSplit s order with
    | (none, s1) => return (none, s1)
    | (some i, s1) => takeFrom s1 i order

/-- The address of the buddy, as `__page_join` computes it. -/
def buddyAddr (g : PageGroup) (order addr : ℕ) : ℕ :=
  if (addr-g.pgBaseaddr)/pageSize/2^order%2 = 1 then addr-2^order*pageSize
  else addr+2^order*pageSize

/-- `__page_join`; the first argument is the number of orders above `order`, at whose end
the loop stops. -/
def pageJoin : ℕ → PageGroup → ℕ → ℕ → Option PageGroup
  | 0, g, _, _ => some g
  | k+1, g, order, addr => do
    let index ← calculateIndex g (order+1) addr
    if g.pgMap (order+1) index then return g
    let buddy := buddyAddr g order addr
    if (addr-g.pgBaseaddr)%2^order ≠ 0 ∨ addr ∉ g.pgFreelist order ∨
        buddy ∉ g.pgFreelist order then none
    else
      let g1 := g.setList order (((g.pgFreelist order).erase addr).erase buddy)
      let addr1 := min addr buddy
      let g2 := g1.setList (order+1) (addr1 :: g1.pgFreelist (order+1))
      let g3 ← g2.flipAbove (order+1) addr1
      pageJoin k g3 (order+1) addr1

def pageFreeOrder (s : PageState) (addr order : ℕ) : Option PageState :=
  match s.pagegroupList.findIdx? (·.contains addr) with
  | none => some s
  | some i => do
    let g ← s.pagegroupList[i]?
    let g1 := g.setList order (addr :: g.pgFreelist order)
    let s1 := { s with pageFreecount := (s.pageFreecount+2^order)%word }
    if order < maxOrder then do
      let g2 ← g1.flipAbove order addr
      let g3 ← pageJoin (maxOrder-order) g2 order addr
      return setGroup s1 i g3
    else return setGroup s1 i g1

def int32 (n : ℕ) : ℤ := if n < 2^31 then (n : ℤ) else (n : ℤ)-2^32

/-- The first order whose block is large enough; there is a panic if there is none. -/
def orderFor (npages : ℕ) : Option ℕ :=
  (List.range (maxOrder+1)).find? fun order => int32 npages ≤ 2^order

def pageAllocN (s : PageState) (npages : ℕ) : Option (Option ℕ × PageState) := do
  pageAllocOrder s (← orderFor npages)

def pageFreeN (s : PageState) (addr npages : ℕ) : Option PageState := do
  pageFreeOrder s addr (← orderFor npages)

/-- The allocator with the blocks that were handed out and not given back, each with the
number of pages that was asked for, and the ranges that were added, from page to page. -/
structure PageHeap where
  pages : PageState
  live : List (ℕ × ℕ)
  given : List (ℕ × ℕ)

inductive PageEvent where
  | addRange (start stop : ℕ)
  | alloc (npages : ℕ)
  | free (addr npages : ℕ)
  deriving DecidableEq, Repr

/-- A range has a page, and none in common with a range that was added before: the group
structure and the maps are written at the end of the range whatever lies there. -/
def NewRange (h : PageHeap) (start stop : ℕ) : Prop :=
  stop < word ∧ pageAlignDown start < pageAlignDown stop ∧
    ∀ r ∈ h.given, pageAlignDown stop ≤ r.1 ∨ r.2 ≤ pageAlignDown start

instance (h : PageHeap) (start stop : ℕ) : Decidable (NewRange h start stop) :=
  inferInstanceAs (Decidable (_ ∧ _ ∧ _))

/-- Calls that return; a block is given back only while it is live, with its own size. -/
def stepPages (h : PageHeap) : PageEvent → Option PageHeap
  | .addRange start stop =>
    if NewRange h start stop then
      (pageAddRange h.pages start stop).map fun s =>
        ⟨s, h.live, (pageAlignDown start, pageAlignDown stop)::h.given⟩
    else none
  | .alloc npages =>
    if npages < word then
      (pageAllocN h.pages npages).map fun r =>
        ⟨r.2, (r.1.map fun addr => (addr, npages)).toList++h.live, h.given⟩
    else none
  | .free addr npages =>
    if (addr, npages) ∈ h.live then
      (pageFreeN h.pages addr npages).map fun s =>
        ⟨s, h.live.erase (addr, npages), h.given⟩
    else none

def PageSteps (h : PageHeap) (e : PageEvent) (h' : PageHeap) : Prop := stepPages h e = some h'

def bootPages : PageHeap := ⟨pageInit, [], []⟩

end SystemsProjects.PageAllocator
