import Mathlib.Algebra.BigOperators.Ring.Finset
import Mathlib.Order.Interval.Finset.Nat
import Mathlib.Tactic.Ring

/-!
# Buddy systems

Pages are numbers. A block of order `o` is a run of `2^o` pages whose first page is
a multiple of `2^o`; two blocks of one order that make up a block of the next order
are buddies. A buddy system keeps, for each order up to a largest one, a list of
free blocks, and for each pair of buddies below the largest order one bit, which
is to say whether exactly one of the two is free.

Free blocks and the blocks handed out are kept in one account: every page below a
bound is covered exactly once by the free and the live blocks together. Splitting a
block and joining buddies do not change what is covered, and taking a block out of
the free lists moves it from one side of the account to the other. A system in
which no two buddies are both free has only blocks of the largest order once
nothing is live.
-/
namespace SystemsProjects.BuddySystems
open Function List

structure Block where
  order : ℕ
  start : ℕ
  deriving DecidableEq, Repr

namespace Block

def Covers (b : Block) (n : ℕ) : Prop := b.start ≤ n ∧ n < b.start+2^b.order

instance (b : Block) (n : ℕ) : Decidable (b.Covers n) := inferInstanceAs (Decidable (_ ∧ _))

def Aligned (b : Block) : Prop := 2^b.order ∣ b.start

def Apart (b c : Block) : Prop := ∀ n, b.Covers n → ¬c.Covers n

end Block

def cover (l : List Block) (n : ℕ) : ℕ := l.countP fun b => b.Covers n

def pages (l : List Block) : ℕ := (l.map fun b => 2^b.order).sum

@[ext]
structure Buddies where
  free : ℕ → List ℕ
  bit : ℕ → ℕ → Bool

namespace Buddies

/-- The free blocks of order at most `m`. -/
def blocks (m : ℕ) (a : Buddies) : List Block :=
  (range (m+1)).flatMap fun o => (a.free o).map (Block.mk o)

def insert (a : Buddies) (o p : ℕ) : Buddies :=
  { a with free := update a.free o (p :: a.free o) }

def remove (a : Buddies) (o p : ℕ) : Buddies :=
  { a with free := update a.free o ((a.free o).erase p) }

def flip (a : Buddies) (o i : ℕ) : Buddies :=
  { a with bit := update a.bit o (update (a.bit o) i (!a.bit o i)) }

/-- Flips the bit of the pair to which a block belongs; blocks of the largest order have
no buddy. -/
def mark (m : ℕ) (a : Buddies) (o p : ℕ) : Buddies :=
  if o < m then a.flip (o+1) (p/2^(o+1)) else a

def give (m : ℕ) (a : Buddies) (o p : ℕ) : Buddies := (a.insert o p).mark m o p

def take (m : ℕ) (a : Buddies) (o p : ℕ) : Buddies := (a.remove o p).mark m o p

/-- A free block of order `o+1` is replaced by its two halves. -/
def split (m : ℕ) (a : Buddies) (o p : ℕ) : Buddies :=
  ((a.take m (o+1) p).insert o p).insert o (p+2^o)

end Buddies


/-- The block that makes up a block of the next order together with the given one. -/
def buddy (o p : ℕ) : ℕ := if p/2^o%2 = 1 then p-2^o else p+2^o

namespace Buddies

/-- Two free buddies are replaced by the block they make up. -/
def merge (m : ℕ) (a : Buddies) (o p : ℕ) : Buddies :=
  ((a.remove o p).remove o (buddy o p)).give m (o+1) (min p (buddy o p))

/-- Merges upwards as long as the bit of the pair says that both are free; `k` bounds the
number of rounds. -/
def join (m : ℕ) : ℕ → Buddies → ℕ → ℕ → Buddies
  | 0, a, _, _ => a
  | k+1, a, o, p =>
    if a.bit (o+1) (p/2^(o+1)) then a
    else join m k (a.merge m o p) (o+1) (min p (buddy o p))

end Buddies

/-- Each bit tells whether exactly one of the two blocks of its pair is free. -/
def Bits (m : ℕ) (a : Buddies) : Prop :=
  ∀ o < m, ∀ i, a.bit (o+1) i =
    xor (decide (2*i*2^o ∈ a.free o)) (decide ((2*i+1)*2^o ∈ a.free o))

/-- Every page below `N` is covered once, and no other. -/
def Exact (N : ℕ) (l : List Block) : Prop := ∀ n, cover l n = if n < N then 1 else 0

structure Account (m N : ℕ) (a : Buddies) (live : List Block) : Prop where
  fits : ∀ b ∈ a.blocks m ++ live, b.order ≤ m ∧ b.Aligned
  exact : Exact N (a.blocks m ++ live)
  bits : Bits m a

/-- No two buddies are both free, but for a block that has just been freed. -/
def CoalescedBut (m : ℕ) (a : Buddies) (r s : ℕ) : Prop :=
  ∀ o < m, ∀ p ∈ a.free o, buddy o p ∈ a.free o → o = r ∧ (p = s ∨ buddy o p = s)

def Coalesced (m : ℕ) (a : Buddies) : Prop := ∀ o < m, ∀ p ∈ a.free o, buddy o p ∉ a.free o

section Lists

variable {l l' : List Block} {b c : Block} {N n : ℕ}

theorem cover_append (l l' : List Block) (n : ℕ) : cover (l++l') n = cover l n+cover l' n :=
  countP_append

theorem cover_cons (b : Block) (l : List Block) (n : ℕ) :
    cover (b::l) n = (if b.Covers n then 1 else 0)+cover l n := by
  simp [cover, countP_cons, add_comm]

theorem pages_cons (b : Block) (l : List Block) : pages (b::l) = 2^b.order+pages l := rfl

theorem pages_append (l l' : List Block) : pages (l++l') = pages l+pages l' := by
  rw [pages, map_append, sum_append]
  rfl

theorem pages_perm (h : l.Perm l') : pages l = pages l' := (h.map _).sum_eq

theorem Exact.perm (h : Exact N l) (hp : l.Perm l') : Exact N l' := fun n => by
  rw [← h n]
  exact (hp.countP_eq _).symm

theorem Exact.halves {o p : ℕ} : Exact N (⟨o+1,p⟩::l) ↔ Exact N (⟨o,p⟩::⟨o,p+2^o⟩::l) := by
  refine forall_congr' fun n => ?_
  have h : (if (⟨o+1,p⟩ : Block).Covers n then 1 else 0) =
      (if (⟨o,p⟩ : Block).Covers n then 1 else 0)+
        (if (⟨o,p+2^o⟩ : Block).Covers n then 1 else 0) := by
    have hpow : 2^(o+1) = 2^o+2^o := by ring
    by_cases hl : p ≤ n ∧ n < p+2^o <;> by_cases hr : p+2^o ≤ n ∧ n < p+2^o+2^o <;>
      by_cases hw : p ≤ n ∧ n < p+(2^o+2^o) <;> simp only [Block.Covers, hpow, hl, hr, hw] <;>
      simp <;> omega
  rw [cover_cons, cover_cons, cover_cons, h, add_assoc]

theorem Exact.pairwise (h : Exact N l) : l.Pairwise Block.Apart := by
  have hle : ∀ n, cover l n ≤ 1 := fun n => by
    rw [h n]
    split_ifs <;> omega
  clear h
  induction l with
  | nil => exact .nil
  | cons b l ih =>
    refine .cons (fun c hc n hb hcn => ?_) (ih fun n => ?_)
    · have hn := hle n
      rw [cover_cons, if_pos hb] at hn
      have hpos : 0 < cover l n := countP_pos_iff.mpr ⟨c, hc, by simpa using hcn⟩
      omega
    · have hn := hle n
      rw [cover_cons] at hn
      omega

theorem Exact.apart (h : Exact N (b::l)) (hc : c ∈ l) : b.Apart c :=
  rel_of_pairwise_cons h.pairwise hc

theorem Block.covers_start (b : Block) : b.Covers b.start :=
  ⟨le_refl _, Nat.lt_add_of_pos_right (Nat.two_pow_pos _)⟩

theorem Block.Apart.le (h : b.Apart c) :
    b.start+2^b.order ≤ c.start ∨ c.start+2^c.order ≤ b.start := by
  by_contra hlt
  have hb := Nat.two_pow_pos b.order
  have hc := Nat.two_pow_pos c.order
  exact h (max b.start c.start) ⟨by omega, by omega⟩ ⟨by omega, by omega⟩

theorem Exact.stop_le (h : Exact N l) (hb : b ∈ l) : b.start+2^b.order ≤ N := by
  have hpos := Nat.two_pow_pos b.order
  by_contra hlt
  have hcov : b.Covers (b.start+2^b.order-1) := ⟨by omega, by omega⟩
  have hpos' : 0 < cover l (b.start+2^b.order-1) :=
    countP_pos_iff.mpr ⟨b, hb, by simpa using hcov⟩
  rw [h, if_neg (by omega)] at hpos'
  omega

theorem Exact.nodup (h : Exact N l) : l.Nodup :=
  h.pairwise.imp fun {b c} hbc (heq : b = c) =>
    hbc b.start b.covers_start (heq ▸ b.covers_start)

theorem Exact.lt (h : Exact N l) (hb : b ∈ l) (hn : b.Covers n) : n < N :=
  hn.2.trans_le (h.stop_le hb)

theorem Exact.exists_covers (h : Exact N l) (hn : n < N) : ∃ b ∈ l, b.Covers n := by
  have hpos : 0 < cover l n := by
    rw [h n, if_pos hn]
    omega
  obtain ⟨b, hb, hcov⟩ := countP_pos_iff.mp hpos
  exact ⟨b, hb, by simpa using hcov⟩

theorem Exact.eq (h : Exact N l) (hb : b ∈ l) (hc : c ∈ l) (hbn : b.Covers n)
    (hcn : c.Covers n) : b = c := by
  by_contra hne
  have hp := perm_cons_erase hb
  exact (h.perm hp).apart ((mem_erase_of_ne (Ne.symm hne)).mpr hc) n hbn hcn

theorem sum_cover {M : ℕ} (h : ∀ b ∈ l, b.start+2^b.order ≤ M) :
    ((Finset.range M).sum fun n => cover l n) = pages l := by
  induction l with
  | nil => simp [cover, pages]
  | cons b l ih =>
    have hfilter : (Finset.range M).filter b.Covers =
        Finset.Ico b.start (b.start+2^b.order) := by
      have hb := h b mem_cons_self
      ext n
      simp only [Finset.mem_filter, Finset.mem_range, Finset.mem_Ico, Block.Covers]
      omega
    simp only [cover_cons, Finset.sum_add_distrib, pages_cons]
    rw [ih fun c hc => h c (mem_cons_of_mem _ hc), ← Finset.card_filter, hfilter,
      Nat.card_Ico, Nat.add_sub_cancel_left]

theorem Exact.pages_eq (h : Exact N l) : pages l = N := by
  have hone : ∀ n ∈ Finset.range N, cover l n = 1 := fun n hn => by
    rw [h n, if_pos (Finset.mem_range.mp hn)]
  rw [← sum_cover fun b hb => h.stop_le hb, Finset.sum_congr rfl hone, ← Finset.card_eq_sum_ones,
    Finset.card_range]

end Lists

section Lookup

variable {m o p q : ℕ} {a : Buddies}

theorem mem_blocks {b : Block} : b ∈ a.blocks m ↔ b.order ≤ m ∧ b.start ∈ a.free b.order := by
  constructor
  · intro h
    obtain ⟨o, ho, hb⟩ := mem_flatMap.mp h
    obtain ⟨p, hp, rfl⟩ := mem_map.mp hb
    exact ⟨by simpa [Nat.lt_succ_iff] using ho, hp⟩
  · rintro ⟨ho, hp⟩
    exact mem_flatMap.mpr ⟨b.order, by simpa [Nat.lt_succ_iff] using ho,
      mem_map.mpr ⟨b.start, hp, rfl⟩⟩

theorem mem_covered {live : List Block} (ho : o ≤ m) (hp : p ∈ a.free o) :
    ⟨o,p⟩ ∈ a.blocks m ++ live := mem_append_left _ (mem_blocks.mpr ⟨ho, hp⟩)

theorem blocks_succ : a.blocks (m+1) = a.blocks m ++ (a.free (m+1)).map (Block.mk (m+1)) := by
  simp [Buddies.blocks, range_succ]

theorem blocks_congr {a' : Buddies} (h : ∀ o ≤ m, a.free o = a'.free o) :
    a.blocks m = a'.blocks m := by
  refine flatMap_congr fun o ho => ?_
  rw [h o (by simpa [Nat.lt_succ_iff] using ho)]

theorem blocks_insert (ho : o ≤ m) : ((a.insert o p).blocks m).Perm (⟨o,p⟩ :: a.blocks m) := by
  induction m with
  | zero =>
    obtain rfl : o = 0 := by omega
    simp [Buddies.blocks, Buddies.insert]
  | succ m ih =>
    rw [blocks_succ, blocks_succ]
    by_cases h : o = m+1
    · subst h
      have hlow : (a.insert (m+1) p).blocks m = a.blocks m := blocks_congr fun o' ho' => by
        simp [Buddies.insert, update_of_ne (show o' ≠ m+1 by omega)]
      rw [hlow]
      simp only [Buddies.insert, update_self, map_cons]
      exact perm_middle
    · have hlast : (a.insert o p).free (m+1) = a.free (m+1) := by
        simp [Buddies.insert, update_of_ne (show m+1 ≠ o by omega)]
      rw [hlast]
      exact (ih (by omega)).append_right _

theorem blocks_remove (ho : o ≤ m) (hp : p ∈ a.free o) :
    (a.blocks m).Perm (⟨o,p⟩ :: (a.remove o p).blocks m) := by
  have hfree : ∀ r, (a.free r).Perm (((a.remove o p).insert o p).free r) := by
    intro r
    by_cases hr : r = o
    · subst hr
      simpa [Buddies.insert, Buddies.remove] using perm_cons_erase hp
    · simp [Buddies.insert, Buddies.remove, update_of_ne hr]
  refine List.Perm.trans ?_ (blocks_insert ho)
  exact List.Perm.flatMap_left _ fun r _ => (hfree r).map _

@[simp] theorem free_mark : (a.mark m o p).free = a.free := by
  unfold Buddies.mark
  split <;> rfl

@[simp] theorem free_insert (r : ℕ) :
    (a.insert o p).free r = if r = o then p :: a.free o else a.free r := by
  simp [Buddies.insert, update_apply]

@[simp] theorem free_remove (r : ℕ) :
    (a.remove o p).free r = if r = o then (a.free o).erase p else a.free r := by
  simp [Buddies.remove, update_apply]

@[simp] theorem bit_insert : (a.insert o p).bit = a.bit := rfl

@[simp] theorem bit_remove : (a.remove o p).bit = a.bit := rfl

theorem bit_mark (r i : ℕ) : (a.mark m o p).bit r i =
    if o < m ∧ r = o+1 ∧ i = p/2^(o+1) then !a.bit r i else a.bit r i := by
  unfold Buddies.mark Buddies.flip
  by_cases hm : o < m
  · by_cases hr : r = o+1
    · subst hr
      by_cases hi : i = p/2^(o+1) <;> simp [hm, hi]
    · simp [hm, hr]
  · simp [hm]

@[simp] theorem blocks_mark : (a.mark m o p).blocks m = a.blocks m :=
  blocks_congr fun _ _ => by rw [free_mark]

end Lookup

section Pairs

variable {m o p q : ℕ} {a : Buddies}

theorem div_two_pow_succ (c : ℕ) : c*2^o/2^(o+1) = c/2 := by
  rw [pow_succ, mul_comm (2^o) 2, Nat.mul_div_mul_right _ _ (Nat.two_pow_pos o)]

theorem mul_two_pow_inj {c d : ℕ} : c*2^o = d*2^o ↔ c = d :=
  Nat.mul_left_inj (Nat.two_pow_pos o).ne'

theorem div_div_two_pow {r n : ℕ} (h : o < r) : n/2^(o+1)/2^(r-(o+1)) = n/2^r := by
  rw [Nat.div_div_eq_div_mul, ← pow_add, Nat.add_sub_cancel' h]

theorem lt_iff_div_lt {d n N : ℕ} (h : d ∣ N) : n < N ↔ n/d < N/d := by
  obtain ⟨e, rfl⟩ := h
  rcases Nat.eq_zero_or_pos d with rfl | hd
  · simp
  · rw [Nat.mul_div_cancel_left e hd, Nat.div_lt_iff_lt_mul hd, mul_comm]

theorem Block.Aligned.covers_iff {b : Block} {n : ℕ} (h : b.Aligned) :
    b.Covers n ↔ n/2^b.order = b.start/2^b.order := by
  obtain ⟨c, hc⟩ := h
  rw [Block.Covers, hc, Nat.mul_div_cancel_left c (Nat.two_pow_pos _),
    Nat.div_eq_iff (Nat.two_pow_pos _), mul_comm c]
  have := Nat.two_pow_pos b.order
  constructor <;> rintro ⟨h1, h2⟩ <;> constructor <;> omega

theorem Block.Aligned.eq_of_covers {n : ℕ} (h : (⟨o,p⟩ : Block).Aligned) (hn : 2^o ∣ n)
    (hcov : (⟨o,p⟩ : Block).Covers n) : n = p := by
  have hdiv : n/2^o = p/2^o := h.covers_iff.mp hcov
  rw [← Nat.div_mul_cancel hn, hdiv, Nat.div_mul_cancel h]

/-- `a'` differs from `a` in whether one block is free, and in the bit of its pair. -/
structure Toggled (m : ℕ) (a a' : Buddies) (o p : ℕ) : Prop where
  mem_self : p ∈ a'.free o ↔ p ∉ a.free o
  mem_ne : ∀ q, q ≠ p → (q ∈ a'.free o ↔ q ∈ a.free o)
  free_ne : ∀ r, r ≠ o → a'.free r = a.free r
  bit_eq : a'.bit = (a.mark m o p).bit

theorem Bits.toggled {a' : Buddies} (h : Bits m a) (ht : Toggled m a a' o p) (hp : 2^o ∣ p) :
    Bits m a' := by
  intro r hr i
  rw [ht.bit_eq, bit_mark]
  by_cases hro : r = o
  · subst hro
    obtain ⟨c, rfl⟩ := hp
    rw [mul_comm (2^r) c] at ht ⊢
    have hb := h r hr i
    rw [div_two_pow_succ]
    have hmem : ∀ d, decide (d*2^r ∈ a'.free r) =
        if d = c then !decide (d*2^r ∈ a.free r) else decide (d*2^r ∈ a.free r) := by
      intro d
      by_cases hd : d = c
      · subst hd
        simp [ht.mem_self]
      · simp [hd, ht.mem_ne _ fun he => hd (mul_two_pow_inj.mp he)]
    rw [hmem, hmem]
    by_cases hi : i = c/2
    · rcases Nat.mod_two_eq_zero_or_one c with hc | hc
      · rw [if_pos ⟨hr, rfl, hi⟩, if_pos (by omega), if_neg (by omega), hb]
        simp
      · rw [if_pos ⟨hr, rfl, hi⟩, if_neg (by omega), if_pos (by omega), hb]
        simp
    · rw [if_neg fun hc => hi hc.2.2, if_neg (by omega), if_neg (by omega), hb]
  · rw [if_neg fun hc => hro (by omega), ht.free_ne r hro]
    exact h r hr i

theorem toggled_give (hp : p ∉ a.free o) : Toggled m a (a.give m o p) o p where
  mem_self := by simp [Buddies.give, hp]
  mem_ne q hq := by simp [Buddies.give, hq]
  free_ne r hr := by simp [Buddies.give, hr]
  bit_eq := by
    funext r i
    rw [Buddies.give, bit_mark, bit_mark, bit_insert]

theorem toggled_take (hp : p ∈ a.free o) (hn : (a.free o).Nodup) :
    Toggled m a (a.take m o p) o p where
  mem_self := by simp [Buddies.take, hp, hn.mem_erase_iff]
  mem_ne q hq := by simp [Buddies.take, hn.mem_erase_iff, hq]
  free_ne r hr := by simp [Buddies.take, hr]
  bit_eq := by
    funext r i
    rw [Buddies.take, bit_mark, bit_mark, bit_remove]

end Pairs

section Buddy

variable {o p : ℕ}

theorem buddy_cases (hp : 2^o ∣ p) : ∃ c,
    (p = 2*c*2^o ∧ buddy o p = 2*c*2^o+2^o ∧ min p (buddy o p) = 2*c*2^o) ∨
      (p = 2*c*2^o+2^o ∧ buddy o p = 2*c*2^o ∧ min p (buddy o p) = 2*c*2^o) := by
  obtain ⟨d, rfl⟩ := hp
  have hdiv : 2^o*d/2^o = d := Nat.mul_div_cancel_left d (Nat.two_pow_pos o)
  unfold buddy
  rw [hdiv]
  rcases Nat.mod_two_eq_zero_or_one d with hd | hd
  · obtain ⟨c, rfl⟩ : 2 ∣ d := Nat.dvd_of_mod_eq_zero hd
    refine ⟨c, .inl ⟨by ring, ?_, ?_⟩⟩
    · rw [if_neg (by omega)]
      ring
    · rw [if_neg (by omega), Nat.min_eq_left (Nat.le_add_right _ _)]
      ring
  · obtain ⟨c, rfl⟩ : ∃ c, d = 2*c+1 := ⟨d/2, by omega⟩
    have hval : 2^o*(2*c+1) = 2*c*2^o+2^o := by ring
    refine ⟨c, .inr ⟨hval, ?_, ?_⟩⟩
    · rw [if_pos hd, hval, Nat.add_sub_cancel]
    · rw [if_pos hd, hval, Nat.add_sub_cancel, Nat.min_eq_right (Nat.le_add_right _ _)]

theorem buddy_aligned (hp : 2^o ∣ p) : 2^o ∣ buddy o p := by
  obtain ⟨c, ⟨-, h, -⟩ | ⟨-, h, -⟩⟩ := buddy_cases hp
  · exact h ▸ ⟨2*c+1, by ring⟩
  · exact h ▸ ⟨2*c, by ring⟩

theorem min_buddy_aligned (hp : 2^o ∣ p) : 2^(o+1) ∣ min p (buddy o p) := by
  obtain ⟨c, ⟨-, -, h⟩ | ⟨-, -, h⟩⟩ := buddy_cases hp <;> exact h ▸ ⟨c, by ring⟩

theorem buddy_div (hp : 2^o ∣ p) : buddy o p/2^(o+1) = p/2^(o+1) := by
  have hlow : ∀ c, 2*c*2^o/2^(o+1) = c := fun c => by
    rw [div_two_pow_succ]
    omega
  have hhigh : ∀ c, (2*c*2^o+2^o)/2^(o+1) = c := fun c => by
    rw [← Nat.succ_mul, div_two_pow_succ]
    omega
  obtain ⟨c, ⟨h, h', -⟩ | ⟨h, h', -⟩⟩ := buddy_cases hp <;> rw [h', h, hlow, hhigh]

theorem buddy_ne (hp : 2^o ∣ p) : buddy o p ≠ p := by
  obtain ⟨c, ⟨h, h', -⟩ | ⟨h, h', -⟩⟩ := buddy_cases hp <;> omega

theorem buddy_mul (c : ℕ) : buddy o (c*2^o) = (if c%2 = 1 then c-1 else c+1)*2^o := by
  rw [buddy, Nat.mul_div_cancel c (Nat.two_pow_pos o)]
  split
  · rw [Nat.sub_mul, one_mul]
  · ring

theorem buddy_buddy (hp : 2^o ∣ p) : buddy o (buddy o p) = p := by
  obtain ⟨c, rfl⟩ := hp
  rw [mul_comm, buddy_mul, buddy_mul]
  congr 1
  split_ifs <;> omega

end Buddy

section Accounts

variable {m N o p : ℕ} {a a' : Buddies} {live live' : List Block}

theorem Account.of_perm (h : Account m N a live)
    (hp : (a'.blocks m ++ live').Perm (a.blocks m ++ live)) (hbits : Bits m a') :
    Account m N a' live' :=
  ⟨fun b hb => h.fits b (hp.mem_iff.mp hb), h.exact.perm hp.symm, hbits⟩

theorem Account.free_nodup (h : Account m N a live) (ho : o ≤ m) : (a.free o).Nodup := by
  have hblocks := (nodup_append.mp h.exact.nodup).1
  exact ((nodup_flatMap.mp hblocks).1 o (by simpa [Nat.lt_succ_iff] using ho)).of_map

theorem Account.aligned (h : Account m N a live) (ho : o ≤ m) (hp : p ∈ a.free o) : 2^o ∣ p :=
  (h.fits ⟨o,p⟩ (mem_covered ho hp)).2

theorem Account.take (h : Account m N a live) (ho : o ≤ m) (hp : p ∈ a.free o) :
    Account m N (a.take m o p) (⟨o,p⟩::live) := by
  refine h.of_perm ?_ (h.bits.toggled (toggled_take hp (h.free_nodup ho)) (h.aligned ho hp))
  rw [Buddies.take, blocks_mark]
  exact perm_middle.trans ((blocks_remove ho hp).append_right live).symm

theorem Account.give (h : Account m N a (⟨o,p⟩::live)) : Account m N (a.give m o p) live := by
  obtain ⟨ho, halign⟩ := h.fits ⟨o,p⟩ (by simp)
  have hp : p ∉ a.free o := fun hp =>
    (nodup_append.mp h.exact.nodup).2.2 _ (mem_blocks.mpr ⟨ho, hp⟩) _ (by simp) rfl
  refine h.of_perm ?_ (h.bits.toggled (toggled_give hp) halign)
  rw [Buddies.give, blocks_mark]
  exact ((blocks_insert ho).append_right live).trans perm_middle.symm

theorem Account.halve (h : Account m N a (⟨o+1,p⟩::live)) :
    Account m N a (⟨o,p⟩::⟨o,p+2^o⟩::live) := by
  obtain ⟨ho, halign⟩ := h.fits ⟨o+1,p⟩ (by simp)
  have hlow : 2^o ∣ p := (pow_dvd_pow 2 (Nat.le_succ o)).trans halign
  refine ⟨fun b hb => ?_, ?_, h.bits⟩
  · simp only [mem_append, mem_cons] at hb
    rcases hb with hb | rfl | rfl | hb
    · exact h.fits b (mem_append_left _ hb)
    · exact ⟨Nat.le_of_succ_le ho, hlow⟩
    · exact ⟨Nat.le_of_succ_le ho, (Nat.dvd_add_right hlow).mpr (dvd_refl _)⟩
    · exact h.fits b (by simp [hb])
  · have hx := Exact.halves.mp (h.exact.perm perm_middle)
    exact hx.perm (perm_middle.trans (perm_middle.cons _)).symm

theorem Account.unite (h : Account m N a (⟨o,p⟩::⟨o,p+2^o⟩::live)) (ho : o < m)
    (hp : 2^(o+1) ∣ p) : Account m N a (⟨o+1,p⟩::live) := by
  refine ⟨fun b hb => ?_, ?_, h.bits⟩
  · simp only [mem_append, mem_cons] at hb
    rcases hb with hb | rfl | hb
    · exact h.fits b (mem_append_left _ hb)
    · exact ⟨ho, hp⟩
    · exact h.fits b (by simp [hb])
  · have hx := h.exact.perm (perm_middle.trans (perm_middle.cons _))
    exact (Exact.halves.mpr hx).perm perm_middle.symm

theorem split_eq (hp : 2^(o+1) ∣ p) :
    a.split m o p = ((a.take m (o+1) p).give m o p).give m o (p+2^o) := by
  have hdiv : (p+2^o)/2^(o+1) = p/2^(o+1) := by
    obtain ⟨c, rfl⟩ := hp
    have hval : 2^(o+1)*c+2^o = (2*c+1)*2^o := by ring
    rw [hval, div_two_pow_succ, Nat.mul_div_cancel_left c (Nat.two_pow_pos _)]
    omega
  refine Buddies.ext ?_ ?_
  · funext r
    simp [Buddies.split, Buddies.give]
  · funext r i
    simp only [Buddies.split, Buddies.give, bit_insert, bit_mark, hdiv]
    by_cases h : o < m ∧ r = o+1 ∧ i = p/2^(o+1) <;> simp [h]

theorem Account.split (h : Account m N a live) (ho : o < m) (hp : p ∈ a.free (o+1)) :
    Account m N (a.split m o p) live := by
  rw [split_eq (h.aligned ho hp)]
  have htaken := (h.take ho hp).halve
  exact htaken.give.give

theorem merge_eq (hp : 2^o ∣ p) : a.merge m o p =
      ((a.take m o p).take m o (buddy o p)).give m (o+1) (min p (buddy o p)) := by
  refine Buddies.ext ?_ ?_
  · funext r
    by_cases hr : r = o <;> simp [Buddies.merge, Buddies.give, Buddies.take, hr]
  · funext r i
    simp only [Buddies.merge, Buddies.give, Buddies.take, bit_insert, bit_remove, bit_mark,
      buddy_div hp]
    by_cases h : o < m ∧ r = o+1 ∧ i = p/2^(o+1) <;> simp [h]

theorem Account.buddy_taken (h : Account m N a live) (ho : o ≤ m) (hp : p ∈ a.free o)
    (hq : buddy o p ∈ a.free o) : buddy o p ∈ (a.take m o p).free o :=
  ((toggled_take hp (h.free_nodup ho)).mem_ne _ (buddy_ne (h.aligned ho hp))).mpr hq

theorem Account.merge (h : Account m N a live) (ho : o < m) (hp : p ∈ a.free o)
    (hq : buddy o p ∈ a.free o) : Account m N (a.merge m o p) live := by
  have halign := h.aligned ho.le hp
  have hboth := (h.take ho.le hp).take ho.le (h.buddy_taken ho.le hp hq)
  rw [merge_eq halign]
  refine (Account.unite ?_ ho (min_buddy_aligned halign)).give
  obtain ⟨c, ⟨h1, h2, h3⟩ | ⟨h1, h2, h3⟩⟩ := buddy_cases halign
  · refine hboth.of_perm (List.Perm.append_left _ ?_) hboth.bits
    rw [h3, h2, ← h1]
    exact List.Perm.swap _ _ _
  · refine hboth.of_perm (List.Perm.append_left _ ?_) hboth.bits
    rw [h3, ← h1, h2]

theorem Account.start_lt (h : Account m N a live) (ho : o ≤ m) (hp : p ∈ a.free o) : p < N :=
  h.exact.lt (mem_covered ho hp) (Block.covers_start ⟨o,p⟩)

/-- The halves of a free block are not free themselves, so that their bit is clear. -/
theorem Account.bit_halves (h : Account m N a live) (ho : o < m) (hp : p ∈ a.free (o+1)) :
    a.bit (o+1) (p/2^(o+1)) = false := by
  have hsucc : o+1 ≤ m := ho
  have hnot : ∀ q, (⟨o+1,p⟩ : Block).Covers q → q ∉ a.free o := fun q hcov hq => by
    have heq := h.exact.eq (mem_covered ho.le hq) (mem_covered hsucc hp)
      (Block.covers_start ⟨o,q⟩) hcov
    injection heq with horder
    omega
  obtain ⟨c, rfl⟩ := h.aligned hsucc hp
  have hpos := Nat.two_pow_pos o
  have hlow : 2*c*2^o = 2^(o+1)*c := by ring
  have hhigh : (2*c+1)*2^o = 2^(o+1)*c+2^o := by ring
  rw [Nat.mul_div_cancel_left c (Nat.two_pow_pos _), h.bits o ho, hlow, hhigh]
  have h1 := hnot (2^(o+1)*c) ⟨le_refl _, by dsimp only; omega⟩
  have h2 := hnot (2^(o+1)*c+2^o) ⟨Nat.le_add_right _ _, by dsimp only; omega⟩
  simp [h1, h2]

/-- The bit of a free block is clear exactly if its buddy is free as well. -/
theorem Account.bit_iff (h : Account m N a live) (ho : o < m) (hp : p ∈ a.free o) :
    a.bit (o+1) (p/2^(o+1)) = false ↔ buddy o p ∈ a.free o := by
  have hhigh : ∀ c, (2*c+1)*2^o = 2*c*2^o+2^o := fun c => by ring
  obtain ⟨c, ⟨h1, h2, -⟩ | ⟨h1, h2, -⟩⟩ := buddy_cases (h.aligned ho.le hp)
  · have hidx : p/2^(o+1) = c := by
      rw [h1, div_two_pow_succ]
      omega
    rw [hidx, h.bits o ho, hhigh, ← h2, ← h1]
    simp [hp]
  · have hidx : p/2^(o+1) = c := by
      rw [h1, ← hhigh, div_two_pow_succ]
      omega
    rw [hidx, h.bits o ho, hhigh, ← h1, ← h2]
    simp [hp]

end Accounts

section Pages

variable {m N o p : ℕ} {a : Buddies} {live : List Block}

theorem pages_blocks (m : ℕ) (a : Buddies) : pages (a.blocks m) =
    ((range (m+1)).map fun o => 2^o*(a.free o).length).sum := by
  have hmap : ∀ o, pages ((a.free o).map (Block.mk o)) = 2^o*(a.free o).length := fun o => by
    simp [pages, Function.comp_def, mul_comm]
  induction m with
  | zero => simp [Buddies.blocks, hmap]
  | succ m ih =>
    rw [blocks_succ, pages_append, ih, hmap, range_succ (n := m+1), map_append,
      sum_append, map_singleton, sum_singleton]

theorem pages_take (ho : o ≤ m) (hp : p ∈ a.free o) :
    pages (a.blocks m) = 2^o+pages ((a.take m o p).blocks m) := by
  rw [Buddies.take, blocks_mark, pages_perm (blocks_remove ho hp), pages_cons]

theorem pages_give (ho : o ≤ m) : pages ((a.give m o p).blocks m) = 2^o+pages (a.blocks m) := by
  rw [Buddies.give, blocks_mark, pages_perm (blocks_insert ho), pages_cons]

theorem Account.pages_split (h : Account m N a live) (ho : o < m) (hp : p ∈ a.free (o+1)) :
    pages ((a.split m o p).blocks m) = pages (a.blocks m) := by
  rw [split_eq (h.aligned ho hp), pages_give ho.le, pages_give ho.le, pages_take (o := o+1) ho hp]
  ring

theorem Account.pages_merge (h : Account m N a live) (ho : o < m) (hp : p ∈ a.free o)
    (hq : buddy o p ∈ a.free o) :
    pages ((a.merge m o p).blocks m) = pages (a.blocks m) := by
  rw [merge_eq (h.aligned ho.le hp), pages_give (o := o+1) ho, pages_take ho.le hp,
    pages_take ho.le (h.buddy_taken ho.le hp hq)]
  ring

end Pages

section Coalescing

variable {m N o p : ℕ} {a : Buddies} {live : List Block}

theorem CoalescedBut.of_bit (hc : CoalescedBut m a o p) (h : Account m N a live)
    (hq : buddy o p ∉ a.free o) : Coalesced m a := by
  intro r hr s hs hbs
  obtain ⟨rfl, rfl | rfl⟩ := hc r hr s hs hbs
  · exact hq hbs
  · rw [buddy_buddy (h.aligned hr.le hs)] at hq
    exact hq hs

theorem Coalesced.give (hc : Coalesced m a) : CoalescedBut m (a.give m o p) o p := by
  intro r hr s hs hbs
  simp only [Buddies.give, free_mark, free_insert] at hs hbs
  by_cases h : r = o
  · subst h
    simp only [if_true, mem_cons] at hs hbs
    rcases hs with rfl | hs
    · exact ⟨rfl, .inl rfl⟩
    · rcases hbs with hbs | hbs
      · exact ⟨rfl, .inr hbs⟩
      · exact absurd hbs (hc r hr s hs)
  · rw [if_neg h] at hs hbs
    exact absurd hbs (hc r hr s hs)

theorem CoalescedBut.remove (hc : CoalescedBut m a o p) (hnd : (a.free o).Nodup) :
    Coalesced m (a.remove o p) := by
  intro r hr s hs hbs
  simp only [free_remove] at hs hbs
  by_cases h : r = o
  · subst h
    simp only [if_true, hnd.mem_erase_iff] at hs hbs
    obtain ⟨-, h | h⟩ := hc r hr s hs.2 hbs.2
    · exact hs.1 h
    · exact hbs.1 h
  · rw [if_neg h] at hs hbs
    exact h (hc r hr s hs hbs).1

theorem CoalescedBut.take (hc : CoalescedBut m a o p) (hnd : (a.free o).Nodup) :
    Coalesced m (a.take m o p) := by
  have h := hc.remove hnd
  simpa only [Coalesced, Buddies.take, free_mark] using h

/-- After a split the two halves are the only buddies that are both free. -/
theorem CoalescedBut.split (hc : CoalescedBut m a (o+1) p) (hacc : Account m N a live)
    (ho : o < m) (hmem : p ∈ a.free (o+1)) : CoalescedBut m (a.split m o p) o (p+2^o) := by
  have hsucc : o+1 ≤ m := ho
  have hp := hacc.aligned hsucc hmem
  have htaken := hc.take (hacc.free_nodup hsucc)
  have hbuddy : buddy o p = p+2^o := by
    obtain ⟨c, rfl⟩ := hp
    have hval : 2^(o+1)*c = 2*c*2^o := by ring
    rw [hval, buddy_mul, if_neg (by omega)]
    ring
  intro r hr s hs hbs
  simp only [Buddies.split, free_insert] at hs hbs
  by_cases h : r = o
  · subst h
    simp only [if_true, mem_cons] at hs hbs
    rcases hs with rfl | rfl | hs
    · exact ⟨rfl, .inl rfl⟩
    · exact ⟨rfl, .inr hbuddy⟩
    · rcases hbs with hbs | hbs | hbs
      · exact ⟨rfl, .inr hbs⟩
      · have hs' : s ∈ a.free r := by simpa [Buddies.take] using hs
        rw [← hbuddy, ← hbs, buddy_buddy (hacc.aligned ho.le hs')]
        exact ⟨rfl, .inl rfl⟩
      · exact absurd hbs (htaken r hr s hs)
  · rw [if_neg h, if_neg h] at hs hbs
    exact absurd hbs (htaken r hr s hs)

theorem Coalesced.remove (hc : Coalesced m a) : Coalesced m (a.remove o p) := by
  intro r hr s hs hbs
  simp only [free_remove] at hs hbs
  split_ifs at hs hbs with hro
  · subst hro
    exact hc r hr s (mem_of_mem_erase hs) (mem_of_mem_erase hbs)
  · exact hc r hr s hs hbs

theorem CoalescedBut.merge (hc : CoalescedBut m a o p) (h : Account m N a live) (ho : o < m) :
    CoalescedBut m (a.merge m o p) (o+1) (min p (buddy o p)) :=
  Coalesced.give (hc.remove (h.free_nodup ho.le)).remove

/-- Joining keeps the account and the number of free pages, and leaves no two buddies free. -/
theorem Account.join {k : ℕ} (h : Account m N a live) (hc : CoalescedBut m a o p)
    (hp : p ∈ a.free o) (hk : o+k = m) :
    Account m N (a.join m k o p) live ∧ Coalesced m (a.join m k o p) ∧
      pages ((a.join m k o p).blocks m) = pages (a.blocks m) := by
  induction k generalizing a o p with
  | zero => exact ⟨h, fun r hr s hs hbs => by have := (hc r hr s hs hbs).1; omega, rfl⟩
  | succ k ih =>
    have ho : o < m := by omega
    rw [Buddies.join]
    by_cases hbit : a.bit (o+1) (p/2^(o+1)) = true
    · rw [if_pos hbit]
      refine ⟨h, hc.of_bit h fun hq => ?_, rfl⟩
      rw [(h.bit_iff ho hp).mpr hq] at hbit
      cases hbit
    · rw [if_neg hbit]
      have hq := (h.bit_iff ho hp).mp (by simpa using hbit)
      have hmem : min p (buddy o p) ∈ (a.merge m o p).free (o+1) := by
        simp [Buddies.merge, Buddies.give]
      obtain ⟨hacc, hco, hpg⟩ := ih (h.merge ho hp hq) (hc.merge h ho) hmem (by omega)
      exact ⟨hacc, hco, hpg.trans (h.pages_merge ho hp hq)⟩

theorem Account.free_eq_nil (h : Account m N a []) (hc : Coalesced m a) (hN : 2^m ∣ N)
    (ho : o < m) : a.free o = [] := by
  have hexact : Exact N (a.blocks m) := by simpa using h.exact
  induction o using Nat.strong_induction_on with
  | _ o ih =>
    rw [eq_nil_iff_forall_not_mem]
    intro p hp
    have halign := h.aligned ho.le hp
    have hmem : (⟨o,p⟩ : Block) ∈ a.blocks m := mem_blocks.mpr ⟨ho.le, hp⟩
    have hpN : p < N := hexact.lt hmem (Block.covers_start ⟨o,p⟩)
    have hbN : buddy o p < N := by
      have hdvd : 2^(o+1) ∣ N := (pow_dvd_pow 2 ho).trans hN
      rw [lt_iff_div_lt hdvd, buddy_div halign]
      exact (lt_iff_div_lt hdvd).mp hpN
    obtain ⟨⟨r,q⟩, hb, hcov⟩ := hexact.exists_covers hbN
    obtain ⟨hrm, hq⟩ : r ≤ m ∧ q ∈ a.free r := mem_blocks.mp hb
    have hqalign : (⟨r,q⟩ : Block).Aligned := h.aligned hrm hq
    rcases lt_trichotomy r o with hr | hr | hr
    · rw [ih r hr (by omega)] at hq
      cases hq
    · -- a block of the same order that covers the buddy is the buddy
      subst hr
      have heq := hqalign.eq_of_covers (buddy_aligned halign) hcov
      exact hc r ho p hp (by rwa [heq])
    · -- a larger one covers the block itself as well
      have hpcov : (⟨r,q⟩ : Block).Covers p := by
        rw [hqalign.covers_iff] at hcov ⊢
        rw [← hcov, ← div_div_two_pow hr, ← div_div_two_pow hr, buddy_div halign]
      have heq := hexact.eq hmem hb (Block.covers_start ⟨o,p⟩) hpcov
      injection heq with hor
      omega

/-- The blocks of the largest order below a bound. -/
def tops (m k : ℕ) : List ℕ := (range k).map (·*2^m)

theorem mem_tops {k : ℕ} : p ∈ tops m k ↔ ∃ i < k, i*2^m = p := by simp [tops]

theorem tops_nodup (m k : ℕ) : (tops m k).Nodup :=
  nodup_range.map fun _ _ h => mul_two_pow_inj.mp h

theorem Account.free_perm_tops {k : ℕ} (h : Account m (k*2^m) a []) (hc : Coalesced m a) :
    (a.free m).Perm (tops m k) := by
  have hexact : Exact (k*2^m) (a.blocks m) := by simpa using h.exact
  refine (perm_ext_iff_of_nodup (h.free_nodup le_rfl) (tops_nodup m k)).mpr fun p => ?_
  rw [mem_tops]
  constructor
  · intro hp
    obtain ⟨i, rfl⟩ := h.aligned le_rfl hp
    have hlt := hexact.lt (mem_blocks.mpr ⟨le_refl m, hp⟩) (Block.covers_start ⟨m, 2^m*i⟩)
    rw [mul_comm k] at hlt
    exact ⟨i, Nat.lt_of_mul_lt_mul_left hlt, mul_comm _ _⟩
  · rintro ⟨i, hi, rfl⟩
    obtain ⟨⟨r,q⟩, hb, hcov⟩ := hexact.exists_covers
      (Nat.mul_lt_mul_of_pos_right hi (Nat.two_pow_pos m))
    obtain ⟨hrm, hq⟩ : r ≤ m ∧ q ∈ a.free r := mem_blocks.mp hb
    rcases Nat.lt_or_eq_of_le hrm with hr | rfl
    · rw [h.free_eq_nil hc ⟨k, mul_comm _ _⟩ hr] at hq
      cases hq
    · have hqalign : (⟨r,q⟩ : Block).Aligned := h.aligned le_rfl hq
      rwa [hqalign.eq_of_covers ⟨i, mul_comm _ _⟩ hcov]

end Coalescing

section Initial

variable {m k : ℕ} {a : Buddies}

theorem exact_tops (m k : ℕ) : Exact (k*2^m) ((tops m k).map (Block.mk m)) := by
  intro n
  induction k with
  | zero => simp [tops, cover]
  | succ k ih =>
    have hrange : tops m (k+1) = tops m k ++ [k*2^m] := by simp [tops, range_succ]
    rw [hrange, map_append, cover_append, ih, map_singleton, cover_cons, Nat.succ_mul]
    simp only [Block.Covers, cover, countP_nil]
    have hpos := Nat.two_pow_pos m
    by_cases h1 : n < k*2^m <;> by_cases h2 : k*2^m ≤ n ∧ n < k*2^m+2^m <;>
      by_cases h3 : n < k*2^m+2^m <;> simp [h1, h2, h3] <;> omega

/-- The free lists of a system in which everything is free and nothing is split. -/
structure Unsplit (m k : ℕ) (a : Buddies) : Prop where
  top : (a.free m).Perm (tops m k)
  low : ∀ o < m, a.free o = []
  bit : ∀ o i, a.bit o i = false

theorem Unsplit.blocks_perm (h : Unsplit m k a) :
    (a.blocks m).Perm ((tops m k).map (Block.mk m)) := by
  cases m with
  | zero => simpa [Buddies.blocks] using h.top.map (Block.mk 0)
  | succ m =>
    have hlow : a.blocks m = [] := by
      rw [eq_nil_iff_forall_not_mem]
      intro b hb
      obtain ⟨ho, hb⟩ := mem_blocks.mp hb
      rw [h.low _ (by omega)] at hb
      cases hb
    rw [blocks_succ, hlow, nil_append]
    exact h.top.map _

theorem Unsplit.account (h : Unsplit m k a) : Account m (k*2^m) a [] where
  fits b hb := by
    rw [append_nil, h.blocks_perm.mem_iff, mem_map] at hb
    obtain ⟨p, hp, rfl⟩ := hb
    obtain ⟨i, -, rfl⟩ := mem_tops.mp hp
    exact ⟨le_refl m, ⟨i, mul_comm _ _⟩⟩
  exact := by
    rw [append_nil]
    exact (exact_tops m k).perm h.blocks_perm.symm
  bits o ho i := by simp [h.bit, h.low o ho]

theorem Unsplit.coalesced (h : Unsplit m k a) : Coalesced m a := fun o ho p hp => by
  rw [h.low o ho] at hp
  cases hp

theorem pages_tops (m k : ℕ) : pages ((tops m k).map (Block.mk m)) = k*2^m := by
  simp [pages, tops, Function.comp_def]

end Initial

end SystemsProjects.BuddySystems
