import SystemsProjects.MemoryObjects
import SystemsProjects.IntervalLists

/-!
# Maps of areas

The operations of `vmmap.c` on the ordered list of areas of a process. The list
itself is edited by pure functions; the operations around them keep the objects,
the lists of areas of the bottom objects and the page directory in step. Arguments
are machine words, so sums and differences of page numbers are taken modulo the
word size.
-/
namespace SystemsProjects.AddressSpaces

open PageTables VmState MemoryObjects

/-- Before the first area that starts at or after its end, else at the tail. -/
def vmmapInsert (l : List Vmarea) (a : Vmarea) : List Vmarea :=
  IntervalLists.insertInterval Vmarea.vmaStart Vmarea.vmaEnd l a

def covers (a : Vmarea) (vfn : ℕ) : Prop := a.vmaStart ≤ vfn ∧ vfn < a.vmaEnd

instance (a : Vmarea) (vfn : ℕ) : Decidable (covers a vfn) :=
  inferInstanceAs (Decidable (_ ∧ _))

def vmmapLookup (l : List Vmarea) (vfn : ℕ) : Option Vmarea := l.find? fun a => covers a vfn

/-- `VMMAP_DIR_LOHI` and `VMMAP_DIR_HILO`. -/
inductive Dir where
  | lohi
  | hilo
  deriving DecidableEq, Repr

def findLohi (npages : ℕ) : ℕ → List Vmarea → Option ℕ
  | prevEnd, [] => if npages ≤ sub32 userHigh prevEnd then some prevEnd else none
  | prevEnd, a :: as =>
    if npages ≤ sub32 a.vmaStart prevEnd then some prevEnd else findLohi npages a.vmaEnd as

def findHilo (npages : ℕ) : ℕ → List Vmarea → Option ℕ
  | prevEnd, [] => if npages ≤ sub32 prevEnd userLow then some (sub32 prevEnd npages) else none
  | prevEnd, a :: as =>
    if npages ≤ sub32 prevEnd a.vmaEnd then some (sub32 prevEnd npages)
    else findHilo npages a.vmaStart as

/-- `none` is `-EINVAL`. -/
def vmmapFindRange (l : List Vmarea) (npages : ℕ) : Dir → Option ℕ
  | .lohi => findLohi npages userLow l
  | .hilo => findHilo npages userHigh l.reverse

def vmmapIsRangeEmpty (l : List Vmarea) (startvfn npages : ℕ) : Kern Bool := do
  let endvfn := (startvfn+npages)%word
  kassert (startvfn < endvfn ∧ userLow ≤ startvfn ∧ endvfn ≤ userHigh) .vmmapIsRangeEmpty
  return l.all fun a => ¬(startvfn < a.vmaEnd ∧ a.vmaStart < endvfn)

def setAreas (s : Vm) (p : ℕ) (r : Proc) (map : Vmmap) (l : List Vmarea) : Vm :=
  s.setProc p { r with pVmmap := some { map with vmmList := l } }

def editAreas (s : Vm) (p : ℕ) (f : List Vmarea → List Vmarea) : Kern Vm := do
  let r ← getProc s p
  let map ← getMap r
  return setAreas s p r map (f map.vmmList)

def editArea (id : ℕ) (f : Vmarea → Vmarea) (l : List Vmarea) : List Vmarea :=
  l.map fun b => if b.vmaId = id then f b else b

def unmapRange (s : Vm) (p lo hi : ℕ) : Kern Vm := do
  let r ← getProc s p
  let pd ← need (.kassert .ptUnmapRange) (ptUnmapRange r.pPagedir lo hi)
  return setPagedir s p r pd

def upperPart (a : Vmarea) (id hi : ℕ) : Vmarea :=
  { a with vmaId := id, vmaStart := hi, vmaOff := a.vmaOff + (hi-a.vmaStart) }

/-- `list_insert_tail` on the list of the object that the union of `o` names, as if `o` were
a shadow object in every case. -/
def linkOnBottom (s : Vm) (o : ℕ) (v : ℕ × ℕ) : Kern Vm := do
  let ob ← getObj s o
  match ob.mmoUn with
  | .vmas _ => .error .wildPointer
  | .bottomObj b => linkVma s b v

/-- The first case of `vmmap_remove`: the range lies inside the area. An area without an
object does not get past the insertion in the list of areas. -/
def splitArea (p lo hi : ℕ) (s : Vm) (a : Vmarea) : Kern Vm := do
  let o ← need .nullMmobj a.vmaObj
  let s ← refChain s o
  let new := upperPart a s.nextVma hi
  let s ← editAreas { s with nextVma := s.nextVma+1 } p fun l =>
    vmmapInsert (editArea a.vmaId (fun b => { b with vmaEnd := lo }) l) new
  let s ← linkOnBottom s o (p, new.vmaId)
  unmapRange s p lo hi

/-- The second case: the range covers the end of the area. -/
def cutTail (p lo : ℕ) (s : Vm) (a : Vmarea) : Kern Vm := do
  let s ← unmapRange s p lo a.vmaEnd
  editAreas s p (editArea a.vmaId fun b => { b with vmaEnd := lo })

/-- The third case: the range covers the start of the area. -/
def cutHead (p hi : ℕ) (s : Vm) (a : Vmarea) : Kern Vm := do
  let s ← unmapRange s p a.vmaStart hi
  editAreas s p (editArea a.vmaId fun b =>
    { b with vmaOff := b.vmaOff + (hi-b.vmaStart), vmaStart := hi })

/-- The fourth case: the range covers the whole area. An area without an object is on no
list of areas. -/
def dropArea (p : ℕ) (s : Vm) (a : Vmarea) : Kern Vm := do
  let o ← need .wildPointer a.vmaObj
  let s ← putChain s o
  let s ← editAreas s p (·.filter (·.vmaId ≠ a.vmaId))
  unmapRange (unlinkVma s (p, a.vmaId)) p a.vmaStart a.vmaEnd

/-- One round of the loop of `vmmap_remove`. -/
def removeArea (p lo hi : ℕ) (s : Vm) (a : Vmarea) : Kern Vm :=
  if a.vmaStart < lo ∧ hi < a.vmaEnd then splitArea p lo hi s a
  else if a.vmaStart < lo ∧ lo < a.vmaEnd then cutTail p lo s a
  else if hi < a.vmaEnd ∧ a.vmaStart < hi ∧ lo ≤ a.vmaStart then cutHead p hi s a
  else if a.vmaEnd ≤ hi ∧ lo ≤ a.vmaStart then dropArea p s a
  else return s

/-- Which allocations of a call succeed: of the new area, of the second part of a split area, of
an anonymous object and of a shadow object. -/
structure Allocs where
  area : Bool
  split : Bool
  anon : Bool
  shadow : Bool

def allAllocs : Allocs := ⟨true, true, true, true⟩

/-- The loop of `vmmap_remove`. A round changes the area it is at, and may insert an area that the
iteration does not come to; without memory for that area the call returns. -/
def removeAreas (split : Bool) (p lo hi : ℕ) : List Vmarea → Vm → Kern (Except Errno Unit × Vm)
  | [], s => return (.ok (), s)
  | a::rest, s =>
    if (a.vmaStart < lo ∧ hi < a.vmaEnd) ∧ ¬split then return (.error .enomem, s)
    else do
      let s ← removeArea p lo hi s a
      removeAreas split p lo hi rest s

def readAreas (s : Vm) (p : ℕ) : Kern (List Vmarea) := do
  let r ← getProc s p
  let map ← getMap r
  return map.vmmList

def vmmapRemoveAlloc (split : Bool) (s : Vm) (p lopage npages : ℕ) :
    Kern (Except Errno Unit × Vm) := do
  let l ← readAreas s p
  let empty ← vmmapIsRangeEmpty l lopage npages
  if empty then return (.ok (), s)
  else removeAreas split p lopage ((lopage+npages)%word) l s

/-- A removal for which there is memory. -/
def vmmapRemove (s : Vm) (p lopage npages : ℕ) : Kern Vm := do
  let (_, s) ← vmmapRemoveAlloc true s p lopage npages
  return s

def vmmapDestroy (s : Vm) (p : ℕ) : Kern Vm := do
  let s ← vmmapRemove s p userLow (userHigh-userLow)
  let r ← getProc s p
  return s.setProc p { r with pVmmap := none }

/-- The accesses of the calls to the list of a map and to the list of areas of an object. -/
structure Accesses where
  walk : Vm → ℕ → Kern (List Vmarea)
  remove : Vm → ℕ → ℕ → ℕ → Kern (Except Errno Unit × Vm)
  link : Vm → ℕ → ℕ × ℕ → Kern Vm

def plain (split : Bool) : Accesses := ⟨readAreas, vmmapRemoveAlloc split, linkVma⟩

/-- Where a new mapping goes: the range that is free, or the given one, which is cleared
first. -/
def placeMappingWith (ac : Accesses) (s : Vm) (p lopage npages : ℕ) (dir : Dir) :
    Kern (Except Errno ℕ × Vm) := do
  let l ← ac.walk s p
  if lopage = 0 then
    match vmmapFindRange l npages dir with
    | none => return (.error .einval, s)
    | some v => if 2^31 ≤ v then return (.error (.other v), s) else return (.ok v, s)
  else do
    let empty ← vmmapIsRangeEmpty l lopage npages
    if empty then return (.ok lopage, s)
    else do
      let (res, s) ← ac.remove s p lopage npages
      match res with
      | .error e => return (.error e, s)
      | .ok _ => return (.ok lopage, s)

def placeMapping (s : Vm) (p lopage npages : ℕ) (dir : Dir) : Kern (Except Errno ℕ × Vm) :=
  placeMappingWith (plain true) s p lopage npages dir

/-- The object of a new mapping. A vnode's `mmap` operation is called without a test for
`NULL`, and takes no reference. -/
def mappingObj (s : Vm) : Option VnodeMmap → Kern (Except Errno ℕ × Vm)
  | none => return (.ok (anonCreate s).1, (anonCreate s).2)
  | some .null => .error .nullVnodeOp
  | some (.fails e) => return (.error (.other e), s)
  | some (.gives o) => return (.ok o, s)

def mappingObjAlloc (anon : Bool) (s : Vm) (file : Option VnodeMmap) :
    Kern (Except Errno ℕ × Vm) :=
  if file.isNone ∧ ¬anon then return (.error .enomem, s) else mappingObj s file

/-- The assertions on the arguments of `vmmap_map`. -/
def mapArgsOk (lopage npages prot flags off : ℕ) : Prop :=
  0 < npages ∧ prot &&& 0xfffffff8 = 0 ∧ (hasFlag flags mapShared || hasFlag flags mapPrivate) ∧
    (lopage = 0 ∨ userLow ≤ lopage) ∧ (lopage = 0 ∨ (lopage+npages)%word ≤ userHigh) ∧
    off % pageSize = 0

instance (lopage npages prot flags off : ℕ) :
    Decidable (mapArgsOk lopage npages prot flags off) :=
  inferInstanceAs (Decidable (_ ∧ _ ∧ _ ∧ _ ∧ _ ∧ _))

/-- A private mapping goes through a shadow object of its own. -/
def mappingTop (s : Vm) (flags o : ℕ) : ℕ × Vm :=
  if hasFlag flags mapPrivate then shadowCreate s o o else (o, s)

/-- The area is on the list before its object is known. If it gets no object, it is freed and stays
on the list; without a shadow object, the object of the mapping is put as well. -/
def vmmapMapWith (ac : Accesses) (al : Allocs) (s : Vm) (p : ℕ) (file : Option VnodeMmap)
    (lopage npages prot flags off : ℕ) (dir : Dir) : Kern (Except Errno Vmarea × Vm) := do
  kassert (mapArgsOk lopage npages prot flags off) .vmmapMap
  if ¬al.area then return (.error .enomem, s)
  else do
    let (place, s) ← placeMappingWith ac s p lopage npages dir
    match place with
    | .error e => return (.error e, s)
    | .ok start => do
      let id := s.nextVma
      let new : Vmarea := ⟨id, start, start+npages, off/pageSize, prot, flags, none, false⟩
      let _ ← ac.walk s p
      let s ← editAreas { s with nextVma := id+1 } p (vmmapInsert · new)
      let (obj, s) ← mappingObjAlloc al.anon s file
      match obj with
      | .error e => do
        let s ← editAreas s p (editArea id fun b => { b with vmaFreed := true })
        return (.error e, s)
      | .ok o =>
        if hasFlag flags mapPrivate ∧ ¬al.shadow then do
          let s ← mmobjPut 2 s o
          let s ← editAreas s p (editArea id fun b => { b with vmaFreed := true })
          return (.error .enomem, s)
        else do
          let b ← mmobjBottomObj s o
          let top := mappingTop s flags o
          let s ← editAreas top.2 p (editArea id fun b => { b with vmaObj := some top.1 })
          let s ← ac.link s b (p, id)
          return (.ok { new with vmaObj := some top.1 }, s)

def vmmapMapAlloc (al : Allocs) (s : Vm) (p : ℕ) (file : Option VnodeMmap)
    (lopage npages prot flags off : ℕ) (dir : Dir) : Kern (Except Errno Vmarea × Vm) :=
  vmmapMapWith (plain al.split) al s p file lopage npages prot flags off dir

/-- A call for which there is memory. -/
def vmmapMap (s : Vm) (p : ℕ) (file : Option VnodeMmap) (lopage npages prot flags off : ℕ)
    (dir : Dir) : Kern (Except Errno Vmarea × Vm) :=
  vmmapMapAlloc allAllocs s p file lopage npages prot flags off dir

/-- The areas of the copy of a map, with numbers from `id` on and no objects. -/
def vmmapClone (id : ℕ) (l : List Vmarea) : List Vmarea × ℕ :=
  l.foldl (fun c a => (vmmapInsert c.1 { a with vmaId := c.2, vmaObj := none }, c.2+1)) ([], id)

/-! ### Calls for which there is memory -/

theorem removeAreas_true {p lo hi : ℕ} (l : List Vmarea) (s : Vm) : removeAreas true p lo hi l s =
    (l.foldlM (removeArea p lo hi) s >>= fun t => .ok (.ok (), t)) := by
  induction l generalizing s with
  | nil => rfl
  | cons a l ih =>
    rw [removeAreas, if_neg (by simp), List.foldlM_cons]
    cases removeArea p lo hi s a with
    | error e => rfl
    | ok s1 => exact ih s1

/-- The loop comes to all areas. -/
theorem vmmapRemove_eq (s : Vm) (p lopage npages : ℕ) : vmmapRemove s p lopage npages = (do
    let l ← readAreas s p
    let empty ← vmmapIsRangeEmpty l lopage npages
    if empty then return s else l.foldlM (removeArea p lopage ((lopage+npages)%word)) s) := by
  simp only [vmmapRemove, vmmapRemoveAlloc, bind_assoc, removeAreas_true]
  congr 1
  funext l
  congr 1
  funext empty
  cases empty with
  | true => rfl
  | false => cases l.foldlM (removeArea p lopage ((lopage+npages)%word)) s <;> rfl

theorem vmmapRemoveAlloc_true (s : Vm) (p lopage npages : ℕ) :
    vmmapRemoveAlloc true s p lopage npages =
      (vmmapRemove s p lopage npages >>= fun t => .ok (.ok (), t)) := by
  simp only [vmmapRemove_eq, vmmapRemoveAlloc, bind_assoc, removeAreas_true]
  congr 1
  funext l
  congr 1
  funext empty
  cases empty <;> rfl

theorem mappingObjAlloc_true (s : Vm) (file : Option VnodeMmap) :
    mappingObjAlloc true s file = mappingObj s file :=
  if_neg (by simp)

end SystemsProjects.AddressSpaces
