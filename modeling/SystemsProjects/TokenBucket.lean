import Mathlib.Algebra.Group.Nat.Defs
import Mathlib.Algebra.Group.Int.Defs

/-!
# The token bucket emulation of `warmup2.c`

Three threads share two queues, a server and a bucket of tokens. `Arrive` puts packets into
Q1 or drops them, `Token` puts tokens into the bucket, both move the first packet of Q1 to Q2
as soon as there are enough tokens for it, and `Server` takes packets from Q2. A critical
section is one step, except for that of `Token`, which ends with a step of its own: `Token`
can be cancelled at a `printf` while it holds the mutex. The branch of `Arrive` that drops a
packet does not take the mutex. The model begins when the lists have been initialised and
leaves out the times, the statistics and the interrupt by the user.

Packets know their number and the tokens they need. The queues are lists with the next packet
to leave at the front, and the lines that are printed when tokens and packets move are kept in
the order in which they are printed. The variables of type `int` come round at 2^31.
-/
namespace SystemsProjects.TokenBucket

structure Packet where
  num : ℕ
  P : ℤ
  deriving DecidableEq, Repr

/-- The parameters that are read by `atoi`, and the packets that are made from them or from
the lines of the trace file. -/
structure Parameters where
  B : ℤ
  n : ℤ
  P : ℕ → ℤ
  B_lt : B < 2^31

inductive Line where
  | tokenArrives
  | tokenDropped
  | leavesQ1 (p : Packet)
  | leavesQ2 (p : Packet)
  | departs (p : Packet)
  deriving DecidableEq, Repr

/-- Where `Token` is: in `usleep`, at a `printf` with the mutex, behind its loop, or cancelled
without or with the mutex. -/
inductive TokenAt where
  | asleep
  | inside
  | left
  | cancelled
  | cancelledInside
  deriving DecidableEq, Repr

/-- Where `Server` is: before it takes the mutex at the top of its loop or after it was woken,
in `pthread_cond_wait`, in the service of a packet, in `handler` before and after it has
cancelled the other threads, in the wait of `handler`, or at `exit`. -/
inductive ServerAt where
  | top
  | waiting
  | serving
  | handler
  | locking
  | draining
  | ended
  deriving DecidableEq, Repr

structure Emulation where
  line : ℕ
  arriveNum : ℤ
  packetDrop : ℤ
  tokenG : ℤ
  tokenProduce : ℤ
  tokenDrop : ℤ
  q1 : List Packet
  q2 : List Packet
  serverBottle : Option Packet
  server : List Packet
  b : Bool
  token : TokenAt
  serverAt : ServerAt
  out : List Line
  deriving DecidableEq, Repr

def start : Emulation := ⟨0, 0, 0, 0, 0, 0, [], [], none, [], false, .asleep, .top, []⟩

/-- The value of an `int` after an operation. -/
def int (z : ℤ) : ℤ := Int.bmod z (2^32)

def node (par : Parameters) (k : ℕ) : Packet := ⟨k, par.P k⟩

namespace Emulation

def print (s : Emulation) (l : Line) : Emulation := { s with out := s.out++[l] }

/-- The first packet of Q1 enters Q2 if there are enough tokens, in `Arrive` and in `Token`. -/
def leaveQ1 (s : Emulation) : Emulation :=
  match s.q1 with
  | [] => s
  | p::q => if s.tokenG ≥ p.P then
      { s with tokenG := int (s.tokenG-p.P), q1 := q, q2 := s.q2++[p], b := true }.print
        (.leavesQ1 p)
    else s

/-- The effect of `pthread_cond_broadcast` on `Server`. -/
def broadcast (s : Emulation) : Emulation :=
  if s.serverAt = .waiting then { s with serverAt := .top } else s

def Unlocked (s : Emulation) : Prop := s.token ≠ .inside ∧ s.token ≠ .cancelledInside

instance (s : Emulation) : Decidable s.Unlocked := inferInstanceAs (Decidable (_ ∧ _))

end Emulation

def dropPacket (s : Emulation) : Emulation :=
  { s with packetDrop := s.packetDrop+1, line := s.line+1, arriveNum := s.line+1 }

def enterQ1 (par : Parameters) (s : Emulation) : Emulation :=
  { s with line := s.line+1, arriveNum := s.line+1, q1 := s.q1++[node par s.line] }

/-- One round of the loop of `Arrive`. -/
def arrive (par : Parameters) (s : Emulation) : Option Emulation :=
  if s.line < par.n then
    if (node par s.line).P > par.B then some (dropPacket s)
    else if s.Unlocked then some (enterQ1 par s).leaveQ1.broadcast
    else none
  else none

def addToken (par : Parameters) (s : Emulation) : Emulation :=
  if s.tokenG < par.B then
    { s with tokenG := s.tokenG+1, tokenProduce := int (s.tokenProduce+1) }.print .tokenArrives
  else
    { s with tokenProduce := int (s.tokenProduce+1), tokenDrop := int (s.tokenDrop+1) }.print
      .tokenDropped

/-- A round of the loop of `Token` up to the end of the move to Q2. -/
def tokenEnter (par : Parameters) (s : Emulation) : Option Emulation :=
  if s.token = .asleep then some { (addToken par s).leaveQ1 with token := .inside } else none

/-- The end of the critical section of `Token`. -/
def tokenLeave (par : Parameters) (s : Emulation) : Option Emulation :=
  if s.token = .inside then
    some { s with token := if s.q1 = [] ∧ s.arriveNum = par.n then .left else .asleep }.broadcast
  else none

/-- `Token` acts upon the request of `handler` that it be cancelled. -/
def tokenCancelled (s : Emulation) : Option Emulation :=
  if s.serverAt = .locking ∨ s.serverAt = .draining then
    match s.token with
    | .asleep | .left => some { s with token := .cancelled }
    | .inside => some { s with token := .cancelledInside }
    | .cancelled | .cancelledInside => none
  else none

/-- The end of the loop of `Server`. -/
def endRound (par : Parameters) (s : Emulation) : Emulation :=
  if s.q1 = [] ∧ s.q2 = [] ∧ s.arriveNum = par.n then { s with serverAt := .handler }
  else { s with serverAt := .top }

/-- `Server` from one place at which it is left alone to the next one. -/
def serve (par : Parameters) (s : Emulation) : Option Emulation :=
  match s.serverAt with
  | .top =>
    if s.Unlocked then
      if s.b = true then
        match s.q2, s.serverBottle with
        | p::q, none =>
          some
            ({ s with serverBottle := some p, q2 := q, serverAt := .serving }.print (.leavesQ2 p))
        | _, _ => some (endRound par s)
      else some { s with serverAt := .waiting }
    else none
  | .serving =>
    if s.Unlocked then
      s.serverBottle.map fun p =>
        endRound par ({ s with serverBottle := none, server := s.server++[p] }.print (.departs p))
    else none
  | .handler => some { s with serverAt := .locking }
  | .locking =>
    if s.Unlocked then
      some { s with serverAt := if s.serverBottle.isSome then .draining else .ended }
    else none
  | .waiting | .draining | .ended => none

inductive Act where
  | arrive
  | tokenEnter
  | tokenLeave
  | tokenCancelled
  | serve
  deriving DecidableEq, Repr

/-- A step of the emulation, which is over when `Server` has called `exit`. -/
def act (par : Parameters) (s : Emulation) (a : Act) : Option Emulation :=
  if s.serverAt = .ended then none
  else match a with
    | .arrive => arrive par s
    | .tokenEnter => tokenEnter par s
    | .tokenLeave => tokenLeave par s
    | .tokenCancelled => tokenCancelled s
    | .serve => serve par s

def EmulationStep (par : Parameters) (s : Emulation) (a : Act) (t : Emulation) : Prop :=
  act par s a = some t

end SystemsProjects.TokenBucket
