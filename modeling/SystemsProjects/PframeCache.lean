import Mathlib.Data.Int.Notation
import SystemsProjects.GuardedRuns
import SystemsProjects.IntrusiveLists

/-!
# The cache of page frames

A page frame has three links: one for the allocated or the pinned list, one for the chain of its
hash bucket and one for the list of the resident pages of its object. The functions of `pframe.c`
change them one after the other and are interrupted only where a thread blocks: asleep on a page
that is busy, or inside an operation of a memory object (`fillpage`, `dirtypage`, `cleanpage` and
`put`), which may itself call the functions of the cache again. So every thread has a stack of
the calls that it is inside of, and the events are the pieces of code between these points.

The objects are known by their addresses. An object that has no resident pages is as `mmobj_init`
leaves it. What an operation does to its object and to the page tables is not part of the cache.
-/
namespace SystemsProjects.PframeCache

open Function IntrusiveLists

/-! ### Page frames and lists -/

inductive Head
  | allocList
  | pinnedList
  | pframeHash (i : ℕ)
  | mmoRespages (o : UInt32)
deriving DecidableEq

inductive Field
  | pfLink
  | pfHlink
  | pfOlink
deriving DecidableEq

inductive Link
  | head (h : Head)
  | field (f : Field) (pf : ℕ)
deriving DecidableEq

/-- A page frame; the object is null in memory that is free. The threads in `pfWaitq` are
asleep. -/
structure Pframe where
  pfObj : Option UInt32
  pfPagenum : UInt32
  busy : Bool
  dirty : Bool
  pfPincount : Int32
  pfWaitq : List ℕ
deriving DecidableEq

def pfHashSize : UInt32 := 17

def hashPage (o pagenum : UInt32) : ℕ := ((o+pagenum)%pfHashSize).toNat

/-- A call that a thread is inside of: an operation of an object, or the sleep on a busy page. -/
inductive Call
  | fillpage (pf : ℕ)
  | dirtypage (pf : ℕ)
  | cleanpage (pf : ℕ)
  | put (o : UInt32)
  | getSleep (pf : ℕ)
  | pageoutSleep (pf : ℕ)
deriving DecidableEq

def Call.asleep : Call → Bool
  | .getSleep _ => true
  | .pageoutSleep _ => true
  | _ => false

structure Cache where
  links : Links Link
  frame : ℕ → Pframe
  nallocated : ℤ
  npinned : ℤ
  mmoNrespages : UInt32 → ℤ
  stack : ℕ → List Call
  pageoutdAsleep : Bool

/-- Why the code does not go on: a failed assertion, a null pointer in a list or as the object of
a page, a chain without an end, an object of the slab allocator that is in use, or a thread that
does not run. -/
inductive Fault
  | assertion
  | brokenList
  | noObject
  | endlessChain
  | slabInUse
  | notRunning
deriving DecidableEq

def pageoutd : ℕ := 0

def linked : Option (Links Link) → Except Fault (Links Link)
  | none => .error .brokenList
  | some links => .ok links

namespace Cache

variable (s : Cache)

def listRemove (f : Field) (pf : ℕ) : Except Fault Cache := do
  let links ← linked (s.links.remove (.field f pf))
  return { s with links := links }

def listInsertTail (h : Head) (f : Field) (pf : ℕ) : Except Fault Cache := do
  let links ← linked (s.links.insertTail (.head h) (.field f pf))
  return { s with links := links }

def listInsertHead (h : Head) (f : Field) (pf : ℕ) : Except Fault Cache := do
  let links ← linked (s.links.insertHead (.head h) (.field f pf))
  return { s with links := links }

def setFrame (pf : ℕ) (frame : Pframe) : Cache :=
  { s with frame := update s.frame pf frame }

def enter (t : ℕ) (call : Call) : Cache :=
  { s with stack := update s.stack t (call::s.stack t) }

def leave (t : ℕ) : Cache := { s with stack := update s.stack t (s.stack t).tail }

def addNrespages (o : UInt32) (n : ℤ) : Cache :=
  { s with mmoNrespages := update s.mmoNrespages o (s.mmoNrespages o+n) }

/-- Whether a thread can call a function of the cache. The daemon does so only inside of
operations. -/
def mayCall (t : ℕ) : Bool :=
  match s.stack t with
  | [] => decide (t ≠ pageoutd)
  | call::_ => !call.asleep

end Cache

/-! ### The functions of the cache -/

def chainBound (s : Cache) : ℕ := (s.nallocated+s.npinned).toNat+1

def hasIdentity (s : Cache) (o pagenum : UInt32) : Link → Bool
  | .field .pfHlink pf =>
    decide ((s.frame pf).pfObj = some o ∧ (s.frame pf).pfPagenum = pagenum)
  | _ => false

def pframeGetResident (s : Cache) (o pagenum : UInt32) : Except Fault (Cache×Option ℕ) :=
  match s.links.search (hasIdentity s o pagenum) (chainBound s)
      (.head (.pframeHash (hashPage o pagenum))) with
  | some (some (.field _ pf)) =>
    if (s.frame pf).pfPincount = 0 then do
      let s ← s.listRemove .pfLink pf
      let s ← s.listInsertTail .allocList .pfLink pf
      return (s, some pf)
    else return (s, some pf)
  | some _ => return (s, none)
  | none => .error .endlessChain

/-- The memory for the frame comes from the slab allocator, which returns nothing that is in use.
There is none if it or the page allocator has none. -/
def pframeAlloc (s : Cache) (o pagenum : UInt32) : Option ℕ → Except Fault (Cache×Option ℕ)
  | none => return (s, none)
  | some pf => do
    if (s.frame pf).pfObj ≠ none then throw .slabInUse
    let s := { s with nallocated := s.nallocated+1 }
    let s ← s.listInsertTail .allocList .pfLink pf
    let s := s.setFrame pf ⟨some o, pagenum, false, false, 0, []⟩
    let s ← s.listInsertHead (.pframeHash (hashPage o pagenum)) .pfHlink pf
    let s := s.addNrespages o 1
    let s ← s.listInsertHead (.mmoRespages o) .pfOlink pf
    return (s, some pf)

/-- The number of free pages is the one that the page allocator has. -/
def pageoutdNeeded (s : Cache) (pageFreeCount : ℕ) : Bool :=
  decide (pageFreeCount ≤ 0) && !s.links.isEmpty (.head .allocList)

def pageoutdWakeup (s : Cache) : Cache := { s with pageoutdAsleep := false }

def setBusy (s : Cache) (pf : ℕ) : Cache := s.setFrame pf { s.frame pf with busy := true }

/-- The end of an operation on a page: it is no longer busy and all threads that wait for it are
woken up. -/
def clearBusy (s : Cache) (pf : ℕ) : Cache :=
  s.setFrame pf { s.frame pf with busy := false, pfWaitq := [] }

def setDirty (s : Cache) (pf : ℕ) (dirty : Bool) : Cache :=
  s.setFrame pf { s.frame pf with dirty := dirty }

def sleepOn (s : Cache) (t pf : ℕ) : Cache :=
  s.setFrame pf { s.frame pf with pfWaitq := (s.frame pf).pfWaitq++[t] }

/-- Up to the sleep on a busy page, to the operation that fills the page, or to the end. -/
def pframeGet (s : Cache) (t : ℕ) (o pagenum : UInt32) (pageFreeCount : ℕ) (slab : Option ℕ) :
    Except Fault Cache := do
  let (s, pageFrame) ← pframeGetResident s o pagenum
  match pageFrame with
  | some pf =>
    if (s.frame pf).busy then return (sleepOn s t pf).enter t (.getSleep pf)
    else return s
  | none =>
    let s := if pageoutdNeeded s pageFreeCount then pageoutdWakeup s else s
    let (s, pageFrame) ← pframeAlloc s o pagenum slab
    match pageFrame with
    | none => return s
    | some pf => return (setBusy s pf).enter t (.fillpage pf)

def pframePin (s : Cache) (pf : ℕ) : Except Fault Cache := do
  if (s.frame pf).pfObj = none then throw .assertion
  if (s.frame pf).pfPincount < 0 then throw .assertion
  let s ← if (s.frame pf).pfPincount = 0 then do
      let s ← s.listRemove .pfLink pf
      let s ← s.listInsertTail .pinnedList .pfLink pf
      pure { s with nallocated := s.nallocated-1, npinned := s.npinned+1 }
    else pure s
  return s.setFrame pf { s.frame pf with pfPincount := (s.frame pf).pfPincount+1 }

def pframeUnpin (s : Cache) (pf : ℕ) : Except Fault Cache := do
  let s := s.setFrame pf { s.frame pf with pfPincount := (s.frame pf).pfPincount-1 }
  if (s.frame pf).pfPincount = 0 then
    let s ← s.listRemove .pfLink pf
    let s ← s.listInsertTail .allocList .pfLink pf
    return { s with npinned := s.npinned-1, nallocated := s.nallocated+1 }
  else return s

/-- Up to the operation that makes the page writable. -/
def pframeDirty (s : Cache) (t pf : ℕ) : Except Fault Cache := do
  if (s.frame pf).busy then throw .assertion
  if (s.frame pf).pfObj = none then throw .noObject
  return (setBusy s pf).enter t (.dirtypage pf)

/-- Up to the operation that writes the page back. -/
def pframeClean (s : Cache) (t pf : ℕ) : Except Fault Cache := do
  if (s.frame pf).dirty = false then throw .assertion
  if (s.frame pf).pfPincount ≠ 0 then throw .assertion
  let s := setDirty s pf false
  if (s.frame pf).pfObj = none then throw .noObject
  return (setBusy s pf).enter t (.cleanpage pf)

/-- Up to the operation that drops the reference to the object. -/
def pframeFree (s : Cache) (t pf : ℕ) : Except Fault Cache := do
  if (s.frame pf).pfPincount ≠ 0 then throw .assertion
  match (s.frame pf).pfObj with
  | none => throw .assertion
  | some o =>
    if (s.frame pf).busy then throw .assertion
    let s ← s.listRemove .pfHlink pf
    let s := s.setFrame pf { s.frame pf with pfObj := none }
    let s := { s with nallocated := s.nallocated-1 }
    let s ← s.listRemove .pfLink pf
    let s := s.addNrespages o (-1)
    let s ← s.listRemove .pfOlink pf
    return s.enter t (.put o)

/-- One round of the loop of `pageoutd_run`. -/
def pageoutdRun (s : Cache) (pageFreeCount nfreepagesTarget : ℕ) : Except Fault Cache :=
  if pageFreeCount ≥ nfreepagesTarget ∨ s.links.isEmpty (.head .allocList) = true then
    .ok { s with pageoutdAsleep := true }
  else match s.links.next (.head .allocList) with
    | some (.field .pfLink pf) =>
      if (s.frame pf).busy then .ok ((sleepOn s pageoutd pf).enter pageoutd (.pageoutSleep pf))
      else if (s.frame pf).dirty then pframeClean s pageoutd pf
      else pframeFree s pageoutd pf
    | _ => .error .brokenList

/-- An operation of an object returns a value. -/
def returned (s : Cache) (t : ℕ) (ret : ℤ) : Except Fault Cache :=
  match s.stack t with
  | .fillpage pf::_ => .ok ((clearBusy s pf).leave t)
  | .dirtypage pf::_ =>
    .ok ((clearBusy (if ret = 0 then setDirty s pf true else s) pf).leave t)
  | .cleanpage pf::_ =>
    .ok ((clearBusy (if ret < 0 then setDirty s pf true else s) pf).leave t)
  | .put _::_ => .ok (s.leave t)
  | _ => .error .notRunning

/-- The operations of anonymous and shadow objects set and clear the dirty bit themselves. -/
def marked (s : Cache) (t : ℕ) (dirty : Bool) : Except Fault Cache :=
  match s.stack t with
  | .dirtypage pf::_ => .ok (setDirty s pf dirty)
  | .cleanpage pf::_ => .ok (setDirty s pf dirty)
  | _ => .error .notRunning

/-- A thread that has been woken up goes on: `pframe_get` looks at the page again, and the daemon
goes round its loop. -/
def woken (s : Cache) (t : ℕ) : Except Fault Cache :=
  match s.stack t with
  | .getSleep pf::_ =>
    if t ∈ (s.frame pf).pfWaitq then .error .notRunning
    else if (s.frame pf).busy then .ok (sleepOn s t pf)
    else .ok (s.leave t)
  | .pageoutSleep pf::_ =>
    if t ∈ (s.frame pf).pfWaitq then .error .notRunning else .ok (s.leave t)
  | _ => .error .notRunning

/-! ### Events -/

inductive Event
  | get (t : ℕ) (o pagenum : UInt32) (pageFreeCount : ℕ) (slab : Option ℕ)
  | pin (t pf : ℕ)
  | unpin (t pf : ℕ)
  | dirty (t pf : ℕ)
  | clean (t pf : ℕ)
  | free (t pf : ℕ)
  | pageout (pageFreeCount nfreepagesTarget : ℕ)
  | marked (t : ℕ) (dirty : Bool)
  | returned (t : ℕ) (ret : ℤ)
  | woken (t : ℕ)

def calling (s : Cache) (t : ℕ) (next : Except Fault Cache) : Except Fault Cache :=
  if s.mayCall t then next else .error .notRunning

def cacheNext (s : Cache) : Event → Except Fault Cache
  | .get t o pagenum pageFreeCount slab =>
    calling s t (pframeGet s t o pagenum pageFreeCount slab)
  | .pin t pf => calling s t (pframePin s pf)
  | .unpin t pf => calling s t (pframeUnpin s pf)
  | .dirty t pf => calling s t (pframeDirty s t pf)
  | .clean t pf => calling s t (pframeClean s t pf)
  | .free t pf => calling s t (pframeFree s t pf)
  | .pageout pageFreeCount nfreepagesTarget =>
    if s.stack pageoutd = [] ∧ s.pageoutdAsleep = false then
      pageoutdRun s pageFreeCount nfreepagesTarget
    else .error .notRunning
  | .marked t dirty => marked s t dirty
  | .returned t ret => returned s t ret
  | .woken t => woken s t

def CacheStep (s : Cache) (e : Event) (s' : Cache) : Prop := cacheNext s e = .ok s'

/-- The lists as `list_init` makes them. -/
def selfLinked : Link → Option Link
  | .head h => some (.head h)
  | .field _ _ => none

/-- The cache after `pframe_init`. -/
def pframeInit : Cache where
  links := ⟨selfLinked, selfLinked⟩
  frame _ := ⟨none, 0, false, false, 0, []⟩
  nallocated := 0
  npinned := 0
  mmoNrespages _ := 0
  stack _ := []
  pageoutdAsleep := false

end SystemsProjects.PframeCache
