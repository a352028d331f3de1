import Mathlib.Data.List.Basic

/-!
# Lines that are served in order

A line has the one who is served at its head and behind it those who wait, in the order in
which they came. One joins at the end, the head leaves, or nothing happens. Whoever comes to
the head is served, so that the served are a first part of those who came.
-/
namespace SystemsProjects.WaitingLines

variable {T : Type*}

inductive Move (T : Type*) where
  | joins (t : T)
  | leaves
  | stays

def Move.apply (l : List T) : Move T → List T
  | .joins t => l++[t]
  | .leaves => l.tail
  | .stays => l

def Move.serves (l : List T) : Move T → List T
  | .joins t => if l.isEmpty then [t] else []
  | .leaves => l.tail.head?.toList
  | .stays => []

def Move.brings : Move T → List T
  | .joins t => [t]
  | .leaves => []
  | .stays => []

/-- The head, whoever comes to the head, and who is left behind it are the line and whoever
comes: one move. -/
theorem Move.in_order (l : List T) (m : Move T) (served rest brought : List T)
    (h : (m.apply l).head?.toList++served++rest = m.apply l++brought) :
    l.head?.toList++(m.serves l++served)++rest = l++(m.brings++brought) := by
  cases m with
  | joins t =>
    cases l with
    | nil => simpa [Move.apply, Move.serves, Move.brings] using h
    | cons a l => simpa [Move.apply, Move.serves, Move.brings] using h
  | leaves =>
    cases l with
    | nil => simpa [Move.apply, Move.serves, Move.brings] using h
    | cons a l =>
      simp only [Move.apply, List.tail_cons] at h
      simp [Move.serves, Move.brings, ← h]
  | stays => simpa [Move.apply, Move.serves, Move.brings] using h

end SystemsProjects.WaitingLines
