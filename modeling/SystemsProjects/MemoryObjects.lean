import SystemsProjects.VmState
import SystemsProjects.ParentChains

/-!
# Memory objects and their pages

The operations of anonymous, shadow and vnode objects, and the part of the page
frame code on which they rest. An object counts its users and, in the same number,
its resident pages, each of which refers back to it; it is freed when only its own
pages are left.

A lookup for reading walks down the chain of shadow objects and takes the first
page that is resident. A lookup for writing first makes the page of the bottom
object resident and then gives the top object a page of its own, filled from the
first object below it that has one.
-/
namespace SystemsProjects.MemoryObjects

open PageTables VmState

def getObj (s : Vm) (o : ℕ) : Kern Mmobj := need .stalePointer (s.objs o)

def getProc (s : Vm) (p : ℕ) : Kern Proc := need .stalePointer (s.procs p)

def getMap (r : Proc) : Kern Vmmap := need .stalePointer r.pVmmap

/-- `mmo_shadowed`. -/
def below (s : Vm) (o : ℕ) : Option ℕ := (s.objs o).bind Mmobj.mmoShadowed

/-- The walk along `mmo_shadowed`. An object is younger than the one it shadows, so its
number bounds the length of the walk. -/
def chain (s : Vm) (o : ℕ) : List ℕ := ParentChains.chain (below s) o

def bottom (s : Vm) (o : ℕ) : ℕ := ParentChains.root (below s) o

def pageOf (ob : Mmobj) (n : ℕ) : Option Pframe := ob.mmoRespages.find? (·.pfPagenum == n)

def pframeGetResident (s : Vm) (o n : ℕ) : Option Pframe := (s.objs o).bind (pageOf · n)

/-- `anon_ref`, `shadow_ref` and `vo_vref`. -/
def mmobjRef (s : Vm) (o : ℕ) : Kern Vm := do
  let ob ← getObj s o
  kassert (0 < ob.mmoRefcount) .mmobjRef
  return s.setObj o (some { ob with mmoRefcount := ob.mmoRefcount+1 })

/-- The loop that takes a reference to every object of a chain. -/
def refChain (s : Vm) (o : ℕ) : Kern Vm := (chain s o).foldlM mmobjRef s

def mmobjBottomObj (s : Vm) (o : ℕ) : Kern ℕ := do
  let ob ← getObj s o
  match ob.mmoShadowed, ob.mmoUn with
  | none, _ => return o
  | some _, .bottomObj b => return b
  | some _, .vmas _ => .error .wildPointer

/-- The list head `mmo_vmas` of an object, if its union holds one. -/
def vmasOf (s : Vm) (b : ℕ) : Kern (List (ℕ × ℕ)) := do
  let ob ← getObj s b
  match ob.mmoUn with
  | .vmas l => return l
  | .bottomObj _ => .error .wildPointer

def mmobjBottomVmas (s : Vm) (o : ℕ) : Kern (List (ℕ × ℕ)) := do
  let b ← mmobjBottomObj s o
  vmasOf s b

/-- `list_insert_tail` of `vma_olink` on the list head of `b`. -/
def linkVma (s : Vm) (b : ℕ) (v : ℕ × ℕ) : Kern Vm := do
  let ob ← getObj s b
  match ob.mmoUn with
  | .vmas l => return s.setObj b (some { ob with mmoUn := .vmas (l ++ [v]) })
  | .bottomObj _ => .error .wildPointer

/-- A list of areas without an area; the union of a shadow object has no list. -/
def unlinkUn (v : ℕ × ℕ) : MmobjUn → MmobjUn
  | .vmas l => .vmas (l.filter (· ≠ v))
  | .bottomObj b => .bottomObj b

/-- `list_remove` of `vma_olink`, from whichever list it is on. -/
def unlinkVma (s : Vm) (v : ℕ × ℕ) : Vm :=
  { s with objs := fun o => (s.objs o).map fun ob => { ob with mmoUn := unlinkUn v ob.mmoUn } }

def setPagedir (s : Vm) (p : ℕ) (r : Proc) (pd : Pagedir) : Vm :=
  s.setProc p { r with pPagedir := pd }

/-- The area that a list entry leads to, unless it has been freed. -/
def liveArea (l : List Vmarea) (id : ℕ) : Option Vmarea :=
  l.find? fun a => a.vmaId = id && !a.vmaFreed

/-- One round of the loop of `pframe_remove_from_pts`, for page `n` and one area. -/
def removeFromPt (n : ℕ) (s : Vm) (v : ℕ × ℕ) : Kern Vm := do
  let r ← getProc s v.1
  let map ← getMap r
  let vma ← need .stalePointer (liveArea map.vmmList v.2)
  if vma.vmaOff ≤ n ∧ n < vma.vmaOff + sub32 vma.vmaEnd vma.vmaStart then
    match map.vmmProc with
    | none => return s
    | some q => do
      let r' ← getProc s q
      let pd ← need (.kassert .ptUnmap) (ptUnmap r'.pPagedir (vma.vmaStart + n - vma.vmaOff))
      return setPagedir s q r' pd
  else return s

def pframeRemoveFromPts (s : Vm) (o n : ℕ) : Kern Vm := do
  let l ← mmobjBottomVmas s o
  l.foldlM (removeFromPt n) s

/-- Changes the frame structure of a resident page. -/
def editPage (s : Vm) (o n : ℕ) (f : Pframe → Pframe) : Vm :=
  { s with objs := Function.update s.objs o ((s.objs o).map fun ob =>
      { ob with mmoRespages := ob.mmoRespages.map fun pf =>
          if pf.pfPagenum = n then f pf else pf }) }

/-- The function that drops a reference is a parameter, since it calls this one. -/
def pframeFree (put : Vm → ℕ → Kern Vm) (s : Vm) (o n : ℕ) : Kern Vm := do
  let pf ← need .stalePointer (pframeGetResident s o n)
  kassert (pf.pfPincount = 0) .pframeFree
  let s ← pframeRemoveFromPts s o n
  let ob ← getObj s o
  put (s.setObj o (some { ob with
    mmoNrespages := ob.mmoNrespages-1
    mmoRespages := ob.mmoRespages.filter (·.pfPagenum ≠ n) })) o

/-- `anon_put`, `shadow_put` and `vo_vput`. Freeing a page of an object that is on its way
out drops one more reference of it, but this never frees the object a second time, so that
a depth of two suffices. What the last active user of a file sets off is left to the file
system. -/
def mmobjPut : ℕ → Vm → ℕ → Kern Vm
  | 0, _, _ => .error .depth
  | d+1, s, o => do
    let ob ← getObj s o
    let less := s.setObj o (some { ob with mmoRefcount := ob.mmoRefcount-1 })
    if ob.mmoOps = .vnode then do
      kassert (ob.mmoNrespages < ob.mmoRefcount) .vnodePut
      if ob.mmoRefcount - 1 = ob.mmoNrespages then .error .vnodeInactive else return less
    else do
      kassert (0 < ob.mmoRefcount) .mmobjPut
      if ob.mmoRefcount - 1 = ob.mmoNrespages then do
        let s ← ob.mmoRespages.foldlM (fun s pf =>
          pframeFree (mmobjPut d) (editPage s o pf.pfPagenum fun pf => { pf with pfPincount := 0 })
            o pf.pfPagenum) s
        return s.setObj o none
      else return less

/-- The loop that drops a reference to every object of a chain. It reads `mmo_shadowed`
of an object before it drops the reference, and no reference that is dropped changes
another object's `mmo_shadowed`. -/
def putChain (s : Vm) (o : ℕ) : Kern Vm := (chain s o).foldlM (mmobjPut 2) s

def pframeAlloc (s : Vm) (o n : ℕ) : Kern Vm := do
  let s ← mmobjRef s o
  let ob ← getObj s o
  return { s.setObj o (some { ob with
      mmoNrespages := ob.mmoNrespages+1
      mmoRespages := ⟨n, s.nextFrame, false, 0⟩ :: ob.mmoRespages }) with
    nextFrame := s.nextFrame+1 }

/-- `fillpage` of the bottom objects: what is put into the page, and its pin count. -/
def bottomFill (s : Vm) (b n : ℕ) : Kern (Page × ℕ) := do
  let ob ← getObj s b
  match ob.mmoOps with
  | .anon => return (zeroPage, 1)
  | .vnode => return (s.vnData b n, 0)
  | .shadow => .error .wildPointer

/-- `shadow_fillpage`: the first object below that has the page, else the bottom object. -/
def shadowFill (s : Vm) (o n : ℕ) : Kern (Page × ℕ) :=
  match (chain s o).tail.findSome? (pframeGetResident s · n) with
  | some pf => return (s.mem pf.pfAddr, 0)
  | none => bottomFill s (bottom s o) n

def fillpage (s : Vm) (o n : ℕ) : Kern (Page × ℕ) := do
  let ob ← getObj s o
  if ob.mmoOps = .shadow then shadowFill s o n else bottomFill s o n

/-- A page that is not resident is allocated and filled. -/
def pframeGet (s : Vm) (o n : ℕ) : Kern (Pframe × Vm) :=
  match pframeGetResident s o n with
  | some pf => return (pf, s)
  | none => do
    let s1 ← pframeAlloc s o n
    let (c, pin) ← fillpage s1 o n
    let s2 := (editPage s1 o n fun pf => { pf with pfPincount := pin }).setMem s.nextFrame c
    return (⟨n, s.nextFrame, false, pin⟩, s2)

/-- `lookuppage` of the bottom objects. -/
def bottomLookup (s : Vm) (b n : ℕ) : Kern (Except Errno Pframe × Vm) := do
  let ob ← getObj s b
  if ob.mmoOps = .vnode ∧ s.vnLen b % word ≤ n*pageSize % word then
    return (.error .einval, s)
  else do
    let (pf, s1) ← pframeGet s b n
    return (.ok pf, s1)

def shadowLookuppage (s : Vm) (o n : ℕ) (forwrite : Bool) : Kern (Except Errno Pframe × Vm) :=
  match if forwrite then none else (chain s o).dropLast.findSome? (pframeGetResident s · n) with
  | some pf => return (.ok pf, s)
  | none => do
    let (res, s1) ← bottomLookup s (bottom s o) n
    match res with
    | .error e => return (.error e, s1)
    | .ok pf =>
      if forwrite then do
        let (pf', s2) ← pframeGet s1 o n
        return (.ok pf', s2)
      else return (.ok pf, s1)

/-- `pframe_lookup`. -/
def lookuppage (s : Vm) (o n : ℕ) (forwrite : Bool) : Kern (Except Errno Pframe × Vm) := do
  let ob ← getObj s o
  if ob.mmoOps = .shadow then shadowLookuppage s o n forwrite else bottomLookup s o n

/-- `pframe_dirty`: pages of anonymous and shadow objects are pinned as well. -/
def pframeDirty (s : Vm) (o n : ℕ) : Vm :=
  match (s.objs o).map Mmobj.mmoOps with
  | some .vnode => editPage s o n fun pf => { pf with pfDirty := true }
  | _ => editPage s o n fun pf =>
      { pf with pfDirty := true, pfPincount := if pf.pfPincount = 0 then 1 else pf.pfPincount }

def anonCreate (s : Vm) : ℕ × Vm :=
  (s.nextObj, { s.setObj s.nextObj (some ⟨.anon, 1, 0, [], .vmas [], none⟩) with
    nextObj := s.nextObj+1 })

/-- `shadow_create` and the assignments by its callers. -/
def shadowCreate (s : Vm) (shadowed bottom : ℕ) : ℕ × Vm :=
  (s.nextObj, { s.setObj s.nextObj (some ⟨.shadow, 1, 0, [], .bottomObj bottom, some shadowed⟩) with
    nextObj := s.nextObj+1 })

end SystemsProjects.MemoryObjects
