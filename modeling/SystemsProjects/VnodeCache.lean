import Mathlib.Order.Nat
import SystemsProjects.VfsFrames

/-!
# Vnodes as a cache of inodes

A vnode is in memory while it is referenced, agrees with its inode and adds one to the link
count of the inode. The tree of a state is the table of inodes with that one taken off
again: it does not depend on which vnodes are in memory. Taking and giving back references
leaves the tree as it is, up to an inode without names that goes with its last reference.
-/
namespace SystemsProjects.VnodeCache
open Function CallOutcomes VfsState VfsFrames Option

variable {s t u : VState} {l : List ℕ} {v : ℕ}

/-- The inodes, each with the links that do not come from a vnode. -/
def treeOf (s : VState) (i : ℕ) : Option Inode :=
  (s.inodes i).map fun x =>
    { x with rfLinkcount := x.rfLinkcount-if 0 < s.refs i then 1 else 0 }

/-- Vnodes in use agree with their inodes, and an inode without a vnode is linked. -/
structure Stored (s : VState) : Prop where
  inUse : ∀ v, 0 < s.refs v → ∃ x vn, s.inodes v = some x ∧ s.vnodes v = some vn ∧
    vn.vnMode = x.rfNode.kind ∧ (vn.vnMode = .reg → vn.vnLen = x.rfSize)
  linked : ∀ v x, s.inodes v = some x → s.refs v = 0 → x.rfLinkcount ≠ 0

theorem isSome_treeOf (s : VState) (i : ℕ) : (treeOf s i).isSome = (s.inodes i).isSome :=
  isSome_map ..

variable {x : Inode}

theorem treeOf_eq (h : s.inodes v = some x) : treeOf s v = some
    { x with rfLinkcount := x.rfLinkcount-if 0 < s.refs v then 1 else 0 } := by
  simp [treeOf, h]

theorem exists_inode (h : treeOf s v = some x) :
    ∃ y, s.inodes v = some y ∧ y.rfSize = x.rfSize ∧ y.rfNode = x.rfNode ∧
      y.rfLinkcount = x.rfLinkcount+if 0 < s.refs v then 1 else 0 := by
  obtain ⟨y, hy, rfl⟩ := map_eq_some_iff.mp h
  exact ⟨y, hy, rfl, rfl, by simp⟩

theorem treeOf_congr (hi : ∀ i, t.inodes i = s.inodes i) (hr : ∀ i, 0 < t.refs i ↔ 0 < s.refs i) :
    treeOf t = treeOf s := by
  funext i
  simp only [treeOf, hi, hr]

theorem treeOf_at {w : ℕ} (hi : t.inodes w = s.inodes w) (hr : t.refs w = s.refs w) :
    treeOf t w = treeOf s w := by
  rw [treeOf, treeOf, hi, hr]

theorem Stored.congr (h : Stored s) (hi : t.inodes = s.inodes) (hv : t.vnodes = s.vnodes) :
    Stored t where
  inUse v hpos := by
    rw [hi, hv]
    exact h.inUse v (by rwa [VState.refs, hv] at hpos)
  linked v x hx h0 := h.linked v x (hi ▸ hx) (by rwa [VState.refs, hv] at h0)

theorem Stored.exists_vnode (h : Stored s) (hpos : 0 < s.refs v) :
    ∃ x vn, s.inodes v = some x ∧ s.vnodes v = some vn ∧ vn.vnRefcount = s.refs v ∧
      vn.vnMode = x.rfNode.kind ∧ (vn.vnMode = .reg → vn.vnLen = x.rfSize) := by
  obtain ⟨x, vn, hx, hvn, hmode, hlen⟩ := h.inUse v hpos
  exact ⟨x, vn, hx, hvn, by simp [VState.refs, hvn], hmode, hlen⟩

theorem Stored.refs_of_free (h : Stored s) (hv : s.inodes v = none) : s.refs v = 0 := by
  by_contra hne
  obtain ⟨x, vn, hx, -⟩ := h.inUse v (Nat.pos_of_ne_zero hne)
  rw [hv] at hx
  cases hx

variable {n : Vnode}

theorem refs_update (hv : t.vnodes = update s.vnodes v (some n)) (w : ℕ) :
    t.refs w = if w = v then n.vnRefcount else s.refs w := by
  by_cases hw : w = v
  · simp [VState.refs, hv, hw]
  · simp [VState.refs, hv, hw]

theorem Stored.change (h : Stored s) {i : Option Inode} (hi : t.inodes = update s.inodes v i)
    (hv : t.vnodes = update s.vnodes v (some n))
    (huse : 0 < n.vnRefcount → ∃ x, i = some x ∧ n.vnMode = x.rfNode.kind ∧
      (n.vnMode = .reg → n.vnLen = x.rfSize))
    (hlink : n.vnRefcount = 0 → ∀ x, i = some x → x.rfLinkcount ≠ 0) : Stored t := by
  constructor
  case inUse =>
    intro w hpos
    rw [refs_update hv] at hpos
    split_ifs at hpos with hw
    · obtain ⟨x, rfl, hagree⟩ := huse hpos
      subst hw
      exact ⟨x, n, by simp [hi], by simp [hv], hagree⟩
    · rw [hi, hv, update_of_ne hw, update_of_ne hw]
      exact h.inUse w hpos
  case linked =>
    intro w y hy h0
    rw [refs_update hv] at h0
    rw [hi] at hy
    split_ifs at h0 with hw
    · subst hw
      exact hlink h0 y (by rwa [update_self] at hy)
    · exact h.linked w y (by rwa [update_of_ne hw] at hy) h0

theorem Stored.replace (h : Stored s) (hi : t.inodes = update s.inodes v (some x))
    (hv : t.vnodes = update s.vnodes v (some n)) (hmode : n.vnMode = x.rfNode.kind)
    (hlen : n.vnMode = .reg → n.vnLen = x.rfSize) (hlink : n.vnRefcount = 0 → x.rfLinkcount ≠ 0) :
    Stored t := by
  refine h.change hi hv (fun _ => ⟨x, rfl, hmode, hlen⟩) ?_
  rintro h0 _ ⟨⟩
  exact hlink h0

theorem Stored.recount (h : Stored s) (hpos : 0 < s.refs v) (hvn : s.vnodes v = some n) {k : ℕ}
    (hk : 0 < k) (hi : t.inodes = s.inodes)
    (hv : t.vnodes = update s.vnodes v (some { n with vnRefcount := k })) :
    Stored t ∧ treeOf t = treeOf s := by
  obtain ⟨x, vn, hx, hvn', -, hmode, hlen⟩ := h.exists_vnode hpos
  obtain rfl := some.inj (hvn.symm.trans hvn')
  have hself : t.inodes = update s.inodes v (some x) := by
    rw [hi, ← hx, update_eq_self]
  refine ⟨h.replace hself hv hmode hlen fun h0 => absurd h0 hk.ne', ?_⟩
  refine treeOf_congr (fun w => by rw [hi]) fun w => ?_
  rw [refs_update hv]
  split_ifs with hw
  · exact iff_of_true hk (hw ▸ hpos)
  · rfl

/-! ### Taking references -/

/-- One reference more to `v`; the tree and the files are the same. -/
structure Got (v : ℕ) (s t : VState) : Prop where
  stored : Stored t
  tree : treeOf t = treeOf s
  refs : ∀ w, t.refs w = s.refs w+if w = v then 1 else 0
  files : SameFiles s t

theorem Stored.got_of_vnode (h : Stored s) (hpos : 0 < s.refs v) (hvn : s.vnodes v = some n)
    (hi : t.inodes = s.inodes)
    (hv : t.vnodes = update s.vnodes v (some { n with vnRefcount := n.vnRefcount+1 }))
    (hf : SameFiles s t) : Got v s t := by
  obtain ⟨hst, htree⟩ := h.recount hpos hvn (Nat.succ_pos _) hi hv
  refine ⟨hst, htree, fun w => ?_, hf⟩
  rw [refs_update hv]
  split_ifs with hw
  · simp [hw, VState.refs, hvn]
  · rfl

theorem vget_eq (hs : Stored s) (hx : s.inodes v = some x) :
    ∃ t, vget v s = .ok ((), t) ∧ Got v s t := by
  unfold vget
  by_cases hpos : 0 < s.refs v
  · obtain ⟨-, vn, -, hvn, -⟩ := hs.exists_vnode hpos
    rw [if_pos hpos, hvn]
    exact ⟨_, rfl, hs.got_of_vnode hpos hvn rfl rfl ⟨rfl, rfl, rfl, rfl, rfl, rfl⟩⟩
  · rw [if_neg hpos, hx]
    have h0 : s.refs v = 0 := Nat.eq_zero_of_not_pos hpos
    refine ⟨_, rfl, ?_, ?_, ?_, ⟨rfl, rfl, rfl, rfl, rfl, rfl⟩⟩
    · exact hs.replace (v := v) (x := { x with rfLinkcount := x.rfLinkcount+1 })
        (n := ⟨1, x.rfNode.kind, x.rfSize⟩) rfl rfl rfl (fun _ => rfl)
        (fun h => absurd h Nat.one_ne_zero)
    · funext w
      by_cases hw : w = v
      · subst hw
        rw [treeOf_eq hx, if_neg hpos]
        exact (treeOf_eq (s := ramfsReadVnode s w x) (update_self ..)).trans
          (by simp [ramfsReadVnode, VState.refs_setVnode_self])
      · exact treeOf_at (t := ramfsReadVnode s v x) (update_of_ne hw _ _)
          (VState.refs_setVnode_of_ne _ _ hw)
    · intro w
      refine (refs_update rfl w).trans ?_
      split_ifs with hw
      · rw [hw, h0]
      · rfl

theorem vget_free (hs : Stored s) (hv : s.inodes v = none) : ∃ h, vget v s = .error h := by
  unfold vget
  rw [if_neg (by rw [hs.refs_of_free hv]; exact lt_irrefl 0), hv]
  exact ⟨_, rfl⟩

/-! ### Giving references back -/

/-- The inode of `v` has no names left. -/
def Unnamed (T : ℕ → Option Inode) (v : ℕ) : Prop := ∃ x, T v = some x ∧ x.rfLinkcount = 0

/-- One reference less to `v`; an inode without names goes with the last one. -/
structure Gave (v : ℕ) (s t : VState) : Prop where
  stored : Stored t
  refs : ∀ w, t.refs w+(if w = v then 1 else 0) = s.refs w
  kept : ¬(s.refs v = 1 ∧ Unnamed (treeOf s) v) → treeOf t = treeOf s
  freed : s.refs v = 1 → Unnamed (treeOf s) v → treeOf t = update (treeOf s) v none
  files : SameFiles s t

theorem dropRef_eq (hs : Stored s) (hpos : 0 < s.refs v) :
    ∃ t, dropRef v s = .ok ((), t) ∧ Gave v s t := by
  obtain ⟨x, vn, hx, hvn, hcount, hmode, hlen⟩ := hs.exists_vnode hpos
  have hnamed : Unnamed (treeOf s) v ↔ x.rfLinkcount-1 = 0 := by
    simp [Unnamed, treeOf, hx, hpos]
  unfold dropRef
  simp only [hvn]
  rw [if_neg (by omega)]
  by_cases hmore : 1 < vn.vnRefcount
  · rw [if_pos hmore]
    obtain ⟨hst, htree⟩ := hs.recount (t := s.setVnode v _) hpos hvn (k := vn.vnRefcount-1)
      (by omega) rfl rfl
    refine ⟨_, rfl, hst, fun w => ?_, fun _ => htree, fun h1 => ?_,
      ⟨rfl, rfl, rfl, rfl, rfl, rfl⟩⟩
    · rw [refs_update rfl w]
      split_ifs with hw
      · subst hw
        change vn.vnRefcount-1+1 = _
        omega
      · rfl
    · omega
  · have hone : vn.vnRefcount = 1 := by omega
    rw [if_neg hmore]
    simp only [hx]
    have hrefs : ∀ (y : Option Inode) (w : ℕ),
        ((s.setInode v y).setVnode v { vn with vnRefcount := 0 }).refs w
          +(if w = v then 1 else 0) = s.refs w := by
      intro y w
      rw [refs_update rfl w]
      split_ifs with hw
      · rw [hw, ← hcount, hone]
      · rfl
    have htree : ∀ (y : Option Inode) (w : ℕ), w ≠ v →
        treeOf ((s.setInode v y).setVnode v { vn with vnRefcount := 0 }) w = treeOf s w :=
      fun y w hw => treeOf_at (update_of_ne hw _ _) (VState.refs_setVnode_of_ne _ _ hw)
    by_cases hdel : x.rfLinkcount-1 = 0
    · have hd : ramfsDeleteVnode s v x = s.setInode v none := if_pos hdel
      rw [hd]
      refine ⟨_, rfl, ?_, hrefs none, ?_, ?_, ⟨rfl, rfl, rfl, rfl, rfl, rfl⟩⟩
      · exact hs.change (v := v) (i := none) (n := { vn with vnRefcount := 0 }) rfl rfl
          (fun h => absurd h (lt_irrefl 0)) nofun
      · intro hnot
        exact absurd ⟨by omega, hnamed.mpr hdel⟩ hnot
      · intro _ _
        funext w
        by_cases hw : w = v
        · subst hw
          simp [treeOf, VState.setVnode, VState.setInode]
        · rw [htree none w hw, update_of_ne hw]
    · have hd : ramfsDeleteVnode s v x
          = s.setInode v (some { x with rfLinkcount := x.rfLinkcount-1 }) := if_neg hdel
      rw [hd]
      refine ⟨_, rfl, ?_, hrefs _, ?_, ?_, ⟨rfl, rfl, rfl, rfl, rfl, rfl⟩⟩
      · exact hs.replace (v := v) (x := { x with rfLinkcount := x.rfLinkcount-1 })
          (n := { vn with vnRefcount := 0 }) rfl rfl hmode hlen (fun _ => hdel)
      · intro _
        funext w
        by_cases hw : w = v
        · subst hw
          rw [treeOf_eq hx, if_pos hpos]
          exact (treeOf_eq (update_self ..)).trans (by simp [VState.refs_setVnode_self])
        · exact htree _ w hw
      · intro _ hun
        exact absurd (hnamed.mp hun) hdel

theorem vref_eq (hs : Stored s) (hpos : 0 < s.refs v) :
    ∃ t, vref v s = .ok ((), t) ∧ Got v s t := by
  obtain ⟨-, vn, -, hvn, hcount, -⟩ := hs.exists_vnode hpos
  unfold vref
  simp only [hvn]
  rw [if_pos (by omega)]
  exact ⟨_, rfl, hs.got_of_vnode hpos hvn rfl rfl ⟨rfl, rfl, rfl, rfl, rfl, rfl⟩⟩

/-! ### References lent to a call -/

/-- From `s` to `t` the call has taken the references in `l` and done nothing else. -/
structure Lent (l : List ℕ) (s t : VState) : Prop where
  stored : Stored t
  tree : treeOf t = treeOf s
  refs : ∀ w, t.refs w = s.refs w+l.count w
  files : SameFiles s t

theorem Lent.refl (hs : Stored s) : Lent [] s s := ⟨hs, rfl, fun _ => rfl, .refl s⟩

theorem Lent.noted (h : Lent l s t) (hi : u.inodes = t.inodes) (hv : u.vnodes = t.vnodes)
    (hf : SameFiles t u) : Lent l s u where
  stored := h.stored.congr hi hv
  tree := by
    rw [← h.tree]
    exact treeOf_congr (fun i => by rw [hi]) fun i => by rw [VState.refs, VState.refs, hv]
  refs w := by
    rw [← h.refs w, VState.refs, VState.refs, hv]
  files := h.files.trans hf

theorem Lent.isSome (h : Lent l s t) (v : ℕ) : (t.inodes v).isSome = (s.inodes v).isSome := by
  rw [← isSome_treeOf, ← isSome_treeOf, h.tree]

theorem Lent.got (h : Lent l s t) (hg : Got v t u) : Lent (v :: l) s u where
  stored := hg.stored
  tree := hg.tree.trans h.tree
  refs w := by
    rw [hg.refs, h.refs, List.count_cons]
    simp only [beq_iff_eq, eq_comm (a := v)]
    omega
  files := h.files.trans hg.files

theorem vget_lent (h : Lent l s t) (hv : (s.inodes v).isSome) :
    ∃ u, vget v t = .ok ((), u) ∧ Lent (v :: l) s u := by
  rw [← h.isSome v] at hv
  obtain ⟨x, hx⟩ := isSome_iff_exists.mp hv
  obtain ⟨u, hu, hg⟩ := vget_eq h.stored hx
  exact ⟨u, hu, h.got hg⟩

theorem vget_lost (h : Lent l s t) (hv : (s.inodes v).isNone) : ∃ halt, vget v t = .error halt := by
  refine vget_free h.stored ?_
  rw [← isNone_iff_eq_none, ← not_isSome, h.isSome v, not_isSome]
  exact hv

/-- A reference that was lent comes back: the vnode was in use before, or its inode has a
name. -/
theorem dropRef_lent (hs : Stored s) (h : Lent (v :: l) s t) :
    ∃ u, dropRef v t = .ok ((), u) ∧ Lent l s u := by
  have hrefs := h.refs v
  rw [List.count_cons_self] at hrefs
  obtain ⟨u, hu, hg⟩ := dropRef_eq h.stored (by omega : 0 < t.refs v)
  refine ⟨u, hu, hg.stored, ?_, fun w => ?_, h.files.trans hg.files⟩
  · rw [hg.kept, h.tree]
    rintro ⟨hone, x, hx, hzero⟩
    rw [h.tree] at hx
    obtain ⟨y, hy, -, -, hlinks⟩ := exists_inode hx
    have h0 : s.refs v = 0 := by omega
    rw [if_neg (by omega), hzero] at hlinks
    exact hs.linked v y hy h0 (by omega)
  · have hw := hg.refs w
    rw [h.refs w, List.count_cons] at hw
    simp only [beq_iff_eq, eq_comm (a := v)] at hw
    omega

theorem vput_lent (hs : Stored s) (h : Lent (v :: l) s t) :
    ∃ u, vput (some v) t = .ok ((), u) ∧ Lent l s u := by
  rw [vput, bind_ok (rfl : touch v t = .ok ((), _))]
  have ht : Lent (v :: l) s { t with late := t.late || !t.held.contains v } :=
    h.noted rfl rfl ⟨rfl, rfl, rfl, rfl, rfl, rfl⟩
  obtain ⟨u, hu, hl⟩ := dropRef_lent hs ht
  rw [bind_ok hu]
  exact ⟨_, rfl, hl.noted rfl rfl ⟨rfl, rfl, rfl, rfl, rfl, rfl⟩⟩

theorem put_lent {α : Type} (hs : Stored s) (h : Lent (v :: l) s t) (a : α) : ∃ u, (do
      vput (some v)
      return a : Vfs α) t = .ok (a, u) ∧ Lent l s u := by
  obtain ⟨u, hu, hl⟩ := vput_lent hs h
  exact ⟨u, bind_ok hu, hl⟩

theorem Lent.perm {l' : List ℕ} (h : Lent l s t) (hl : l.Perm l') : Lent l' s t where
  stored := h.stored
  tree := h.tree
  refs w := by rw [h.refs, hl.count_eq]
  files := h.files

end SystemsProjects.VnodeCache
