import SystemsProjects.PageFaults

/-!
# Copies between the kernel and user memory

`vmmap_write` and `vmmap_read` copy bytes to and from the pages of an address space. Both copy
all the bytes at once to or from the first page; a range that goes on in the next page makes this
copy leave the frame, which is a fault of the model. `vmmap_read` goes on to the next page also
when the range ends with the first one, unless it begins with it, too.
-/
namespace SystemsProjects.UserCopies

open List
open PageTables VmState MemoryObjects AddressSpaces VmSystemCalls ObjectHeap PageLookup AreaMaps
  PageFaults

/-- The page of the object of an area that is behind an address. -/
abbrev pageOf (a : Vmarea) (vaddr : ℕ) : ℕ := a.vmaOff + (vaddr/pageSize-a.vmaStart)

/-- Of all that is seen through objects and of all frames in use, at most the bytes of a range of
page `n` of the object `o` have changed. -/
structure Within (o n lo hi : ℕ) (s t : Vm) : Prop where
  procs : t.procs = s.procs
  shown : ∀ x m i, view t x m i = view s x m i ∨ (o ∈ chain s x ∧ m = n ∧ lo ≤ i ∧ i < hi)
  frames : ∀ x m f, frameAt s x m = some f → frameAt t x m = some f ∧
    ∀ i, t.mem f i = s.mem f i ∨ (x = o ∧ m = n ∧ lo ≤ i ∧ i < hi)

section Pages

variable {c : Page} {offset i : ℕ} {buf : List UInt8}

end Pages

variable {buf : List UInt8} {f : ℕ}

section Bytes

variable {s t u : Vm} {o n lo hi : ℕ}

theorem Within.trans (h : Within o n lo hi s t) (h' : Within o n lo hi t u)
    (hb : below t = below s) : Within o n lo hi s u := by
  have hchain : chain t = chain s := by
    funext x
    rw [chain, chain, hb]
  constructor
  · exact h'.procs.trans h.procs
  · intro x m i
    rcases h'.shown x m i with heq | hin
    · rw [heq]
      exact h.shown x m i
    · rw [hchain] at hin
      exact .inr hin
  · intro x m f hx
    obtain ⟨hx1, hmem1⟩ := h.frames x m f hx
    obtain ⟨hx2, hmem2⟩ := h'.frames x m f hx1
    refine ⟨hx2, fun i => ?_⟩
    rcases hmem2 i with heq | hin
    · rw [heq]
      exact hmem1 i
    · exact .inr hin

end Bytes

/-- The state after a lookup for writing: what is seen is the same, and the page is resident in
the object, in frame `f`, and in the bottom object. -/
structure Reached (o n f : ℕ) (s t : Vm) : Prop where
  heap : Heap t
  referenced : Referenced t
  brought : Brought s t
  within : ∀ m lo hi, Within o m lo hi s t
  frame : frameAt t o n = some f
  bottom : (frameAt t (bottom s o) n).isSome

variable {count : ℕ}

section Rounds

variable {s : Vm} {p vaddr o : ℕ} {a : Vmarea}

end Rounds

end SystemsProjects.UserCopies
