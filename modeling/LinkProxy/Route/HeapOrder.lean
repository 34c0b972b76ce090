import LinkProxy.Route.HeapCells

/-!
# The order of the heap

`downheap` promotes the child with the smaller position, not the one with the smaller distance, so
it goes down the leftmost path, the positions `2^k - 1`. It restores the heap exactly if on this
path no right child had to be promoted (`restoresHeap_iff`). In a heap of `2^31` or more entries the
right child of the position `2^31 - 1` is the root, and an entry that gets there goes round forever.

What follows for `heap_delete`, called again and again, is `heapDeletes_sorted`.
-/

namespace LinkProxy.Route.Heap

open Wire ArrayHeap

/-- On the leftmost path, a right child that is less than the root is not less than its sibling; and
where there is a position `2^31 - 1`, the root is not greater. -/
structure LeftFirst (hp : Heap) : Prop where
  first : ∀ k, 2 ^ (k + 1) < hp.size.toNat → hp.dist (2 ^ (k + 1)) < hp.dist 0 →
    hp.dist (2 ^ (k + 1) - 1) ≤ hp.dist (2 ^ (k + 1))
  last : 2 ^ 31 ≤ hp.size.toNat → hp.dist 0 ≤ hp.dist (2 ^ 31 - 1)

/-- `downheap` returns, and leaves a heap. -/
def RestoresHeap (mac : VertexPtr → MAC) (hp : Heap) : Prop :=
  ∃ fuel hp', hp.downheap mac fuel 0 1 2 = some hp' ∧ Ordered hp'.dist hp'.size.toNat

/-! ## The leftmost path -/

section

variable {mac : VertexPtr → MAC} {fuel k : ℕ} {hp hp' : Heap} {index : UInt32} {ps : List ℕ}

/-- The path has at most 32 positions. -/
theorem depth_le {size : UInt32} (h : leftmost k < size.toNat) : k ≤ 31 := by
  by_contra hgt
  have hle := leftmost_strictMono.monotone (show 32 ≤ k by omega)
  have hsize := size.toNat_lt
  have : leftmost 32 = 4294967295 := rfl
  omega

/-- The child that is promoted is the next one of the path, and after the last one the root. -/
theorem toNat_promoted (hindex : index.toNat < hp.size.toNat) (hk : index.toNat = leftmost k) :
    (promoted (2 * index + 1) (2 * index + 2)).toNat = leftmost (if k < 31 then k + 1 else 0) := by
  have hle := depth_le (hk ▸ hindex)
  have hlast : leftmost 31 = 2147483647 := rfl
  split_ifs with hlt
  · have hmono := leftmost_strictMono hlt
    have hindex' : index.toNat < 2147483647 := by omega
    rw [promoted_children hindex', toNat_left hindex', hk, leftmost_succ]
  · obtain rfl : k = 31 := by omega
    obtain rfl : index = 2147483647 := UInt32.toNat_inj.1 (hk.trans hlast)
    rfl

theorem toNat_promoted_ne (hindex : index.toNat < hp.size.toNat) (hk : index.toNat = leftmost k) :
    (promoted (2 * index + 1) (2 * index + 2)).toNat ≠ index.toNat := by
  rw [toNat_promoted hindex hk, hk]
  intro heq
  have := leftmost_strictMono.injective heq
  split_ifs at this <;> omega

/-- A pass that goes on stays on the path. -/
theorem promoted_mem (hindex : index.toNat ∈ leftPath hp.size.toNat)
    (hgoes : hp.Less index (2 * index + 1) ∨ hp.Less index (2 * index + 2)) :
    (promoted (2 * index + 1) (2 * index + 2)).toNat ∈ leftPath hp.size.toNat := by
  obtain ⟨hlt, k, hk⟩ := hindex
  have hpromoted := toNat_promoted hlt hk
  refine ⟨?_, _, hpromoted⟩
  by_cases hlast : index.toNat < 2147483647
  · rw [promoted_children hlast]
    rcases hgoes with h | h
    · exact h.1
    · have := h.1
      rw [toNat_right hlast] at this
      rw [toNat_left hlast]
      omega
  · have hmono : ¬k < 31 := fun hk31 => hlast (hk ▸ leftmost_strictMono hk31)
    rw [if_neg hmono] at hpromoted
    rw [hpromoted]
    exact (Nat.zero_le _).trans_lt hlt

/-- **What every pass preserves holds where the loop ends.** -/
theorem downheapAt_rule {P : Heap → UInt32 → Prop}
    (hstep : ∀ (hp : Heap) (index : UInt32) (ent : Heapent), hp.Entries hp.size.toNat →
      index.toNat ∈ leftPath hp.size.toNat → hp.heap index.toNat = some ent →
      (promoted (2 * index + 1) (2 * index + 2)).toNat ∈ leftPath hp.size.toNat → P hp index →
      P (hp.pass (mac ent.node) index (promoted (2 * index + 1) (2 * index + 2)))
        (promoted (2 * index + 1) (2 * index + 2)))
    (hcells : hp.Entries hp.size.toNat) (hent : (hp.heap index.toNat).isSome)
    (hindex : index.toNat = 0 ∨ index.toNat ∈ leftPath hp.size.toNat) (hP : P hp index)
    (hrun : hp.downheapAt mac fuel index (2 * index + 1) (2 * index + 2) = some (ps, hp')) :
    ∃ hp₁ last ent, P hp₁ last ∧ hp₁.heap last.toNat = some ent ∧
      (last.toNat = 0 ∨ last.toNat ∈ leftPath hp₁.size.toNat) ∧
      ¬hp₁.Less last (2 * last + 1) ∧ ¬hp₁.Less last (2 * last + 2) ∧
      hp' = hp₁.setIndex (mac ent.node) last := by
  induction fuel generalizing hp index ps with
  | zero => cases hrun
  | succ fuel ih =>
    obtain ⟨ent, hent⟩ := Option.isSome_iff_exists.1 hent
    by_cases hgoes : hp.Less index (2 * index + 1) ∨ hp.Less index (2 * index + 2)
    · have hpos : 0 < hp.size.toNat := by
        rcases hgoes with h | h <;> exact (Nat.zero_le _).trans_lt h.1
      have hmem : index.toNat ∈ leftPath hp.size.toNat :=
        hindex.elim (fun hzero => ⟨hzero ▸ hpos, 0, hzero⟩) id
      have hmem' := promoted_mem hmem hgoes
      obtain ⟨child, hchild⟩ := Option.isSome_iff_exists.1 (hcells _ hmem'.1)
      rw [downheapAt_of_less mac fuel hent hcells hgoes hchild] at hrun
      obtain ⟨⟨ps', hp''⟩, hrun', heq⟩ := Option.map_eq_some_iff.1 hrun
      obtain rfl : hp'' = hp' := (Prod.mk.inj heq).2
      have hcells' := hcells.pass (mac ent.node) hmem.1 hmem'.1
      exact ih hcells' (hcells' _ hmem'.1) (.inr hmem') (hstep hp index ent hcells hmem hent hmem' hP)
        hrun'
    · obtain ⟨hleft, hright⟩ := not_or.1 hgoes
      rw [downheapAt_of_not_less mac fuel hent hcells hleft hright] at hrun
      exact ⟨hp, index, ent, hP, hent, hindex, hleft, hright,
        (Prod.mk.inj (Option.some.inj hrun)).2.symm⟩

/-- **`downheap` rearranges the leftmost path**, if it returns. -/
theorem downheapAt_leftPath (hcells : hp.Entries hp.size.toNat)
    (hent : (hp.heap index.toNat).isSome)
    (hindex : index.toNat = 0 ∨ index.toNat ∈ leftPath hp.size.toNat)
    (hrun : hp.downheapAt mac fuel index (2 * index + 1) (2 * index + 2) = some (ps, hp')) :
    Rearranged (leftPath hp.size.toNat) hp hp' := by
  obtain ⟨hp₁, last, ent, hP, -, -, -, -, rfl⟩ :=
    @downheapAt_rule mac fuel hp hp' index ps (fun hp₁ _ => Rearranged (leftPath hp.size.toNat) hp hp₁)
      (fun hp₁ i ent _ hmem _ hmem' hP => by
        rw [hP.size] at hmem hmem'
        exact hP.pass hmem hmem') hcells hent hindex (.refl _ _) hrun
  exact hP.setIndex _ _

/-- **An entry that is greater than all others of the path goes round forever** if the path has 32
positions. -/
theorem downheapAt_forever (mac : VertexPtr → MAC) (fuel : ℕ) (hsize : 2 ^ 31 ≤ hp.size.toNat)
    (hcells : hp.Entries hp.size.toNat) (hindex : index.toNat ∈ leftPath hp.size.toNat)
    (hgreatest : ∀ p ∈ leftPath hp.size.toNat, p ≠ index.toNat → hp.dist index.toNat > hp.dist p) :
    hp.downheapAt mac fuel index (2 * index + 1) (2 * index + 2) = none := by
  induction fuel generalizing hp index with
  | zero => rfl
  | succ fuel ih =>
    obtain ⟨ent, hent⟩ := Option.isSome_iff_exists.1 (hcells _ hindex.1)
    obtain ⟨hlt, k, hk⟩ := id hindex
    have hle := depth_le (hk ▸ hlt)
    have hpromoted := toNat_promoted hlt hk
    have hne := toNat_promoted_ne hlt hk
    have hmem' : (promoted (2 * index + 1) (2 * index + 2)).toNat ∈ leftPath hp.size.toNat := by
      refine ⟨?_, _, hpromoted⟩
      have hmono := leftmost_strictMono.monotone (show (if k < 31 then k + 1 else 0) ≤ 31 by
        split_ifs <;> omega)
      have hlast : leftmost 31 = 2147483647 := rfl
      omega
    have hless : hp.Less index (promoted (2 * index + 1) (2 * index + 2)) :=
      ⟨hmem'.1, hgreatest _ hmem' hne⟩
    have hgoes : hp.Less index (2 * index + 1) ∨ hp.Less index (2 * index + 2) := by
      unfold promoted at hless
      split_ifs at hless
      · exact .inl hless
      · exact .inr hless
    obtain ⟨child, hchild⟩ := Option.isSome_iff_exists.1 (hcells _ hmem'.1)
    rw [downheapAt_of_less mac fuel hent hcells hgoes hchild]
    have hnone := @ih (hp.pass (mac ent.node) index (promoted (2 * index + 1) (2 * index + 2)))
      (promoted (2 * index + 1) (2 * index + 2)) hsize
      (hcells.pass (mac ent.node) hlt hmem'.1) hmem'
      (exchange_extreme (r := (· > ·)) (S := leftPath hp.size.toNat) hmem' hgreatest)
    rw [hnone]
    rfl

end

/-! ## The way down -/

/-- **What holds while `downheap` goes down**: the entry is at depth `k` of the leftmost path, the
order holds but for it, and from there on the left children come first. -/
structure Descent (hp : Heap) (index : UInt32) (k : ℕ) : Prop where
  position : index.toNat = leftmost k
  depth : k ≤ 30
  sift : SiftDown hp.dist hp.size.toNat index.toNat
  first : ∀ j, k ≤ j → 2 ^ (j + 1) < hp.size.toNat → hp.dist (2 ^ (j + 1)) < hp.dist index.toNat →
    hp.dist (leftmost (j + 1)) ≤ hp.dist (2 ^ (j + 1))
  last : 2 ^ 31 ≤ hp.size.toNat → hp.dist index.toNat ≤ hp.dist (leftmost 31)

namespace Descent

variable {hp : Heap} {index : UInt32} {k : ℕ}

theorem lt_last (h : Descent hp index k) : index.toNat < 2147483647 := by
  have hmono : leftmost k < leftmost 31 := leftmost_strictMono (Nat.lt_succ_of_le h.depth)
  rw [h.position]
  exact hmono

theorem left_eq (h : Descent hp index k) : (2 * index + 1).toNat = leftmost (k + 1) := by
  rw [toNat_left h.lt_last, h.position, leftmost_succ]

theorem right_eq (h : Descent hp index k) : (2 * index + 2).toNat = 2 ^ (k + 1) := by
  rw [toNat_right h.lt_last, h.position, ← leftmost_add_one, leftmost_succ]

theorem child_eq (h : Descent hp index k) {c : ℕ} (hpos : 0 < c)
    (hparent : parent c = index.toNat) :
    c = (2 * index + 1).toNat ∨ c = (2 * index + 2).toNat := by
  rw [toNat_left h.lt_last, toNat_right h.lt_last, ← hparent]
  exact eq_of_parent hpos

/-- In a pass that goes on, the left child is less than the entry, also if the right one decides. -/
theorem less (h : Descent hp index k)
    (hgoes : hp.Less index (2 * index + 1) ∨ hp.Less index (2 * index + 2)) :
    hp.Less index (2 * index + 1) := by
  rcases hgoes with hleft | ⟨hsize, hdist⟩
  · exact hleft
  · rw [h.right_eq] at hsize hdist
    rw [Less, h.left_eq]
    have hsucc := leftmost_add_one (k + 1)
    exact ⟨by omega, (h.first k le_rfl hsize hdist).trans_lt hdist⟩

/-- It is not greater than its sibling. -/
theorem left_le (h : Descent hp index k) (hless : hp.Less index (2 * index + 1)) {c : ℕ}
    (hpos : 0 < c) (hc : c < hp.size.toNat) (hparent : parent c = index.toNat) :
    hp.dist (2 * index + 1).toNat ≤ hp.dist c := by
  rcases h.child_eq hpos hparent with rfl | rfl
  · exact le_rfl
  · by_cases hdist : hp.dist (2 * index + 2).toNat < hp.dist index.toNat
    · rw [h.right_eq] at hc hdist ⊢
      rw [h.left_eq]
      exact h.first k le_rfl hc hdist
    · exact hless.2.le.trans (Nat.not_lt.1 hdist)

/-- The last position is not reached. -/
theorem depth_succ (h : Descent hp index k) (hless : hp.Less index (2 * index + 1)) :
    k + 1 ≤ 30 := by
  by_contra hnot
  have hdepth := h.depth
  have hk : k + 1 = 31 := by omega
  obtain ⟨hsize, hdist⟩ := hless
  rw [h.left_eq, hk] at hsize hdist
  exact absurd (h.last (Nat.succ_le_of_lt hsize)) (Nat.not_le.2 hdist)

/-- **A pass moves the entry down.** -/
theorem pass (h : Descent hp index k) (hless : hp.Less index (2 * index + 1)) (m : MAC) :
    Descent (hp.pass m index (2 * index + 1)) (2 * index + 1) (k + 1) := by
  have hlt : index.toNat < (2 * index + 1).toNat := by
    rw [toNat_left h.lt_last]
    omega
  have hself : (hp.pass m index (2 * index + 1)).dist (2 * index + 1).toNat =
      hp.dist index.toNat := by
    rw [pass_dist, Function.comp_apply, Equiv.swap_apply_right]
  have hbelow (p : ℕ) (hp' : leftmost (k + 1) < p) :
      (hp.pass m index (2 * index + 1)).dist p = hp.dist p := by
    rw [← h.left_eq] at hp'
    rw [pass_dist, Function.comp_apply, Equiv.swap_apply_of_ne_of_ne (by omega) (by omega)]
  refine ⟨h.left_eq, h.depth_succ hless, ?_, fun j hj hjn => ?_, fun hbig => ?_⟩
  · refine h.sift.exchange (by omega) hless.1 ?_ hless.2 fun c hpos hc => h.left_le hless hpos hc
    rw [h.left_eq, parent_leftmost, h.position]
  · have hmono : leftmost (k + 1) < leftmost (j + 1) := leftmost_strictMono (Nat.lt_succ_of_le hj)
    have hsucc := leftmost_add_one (j + 1)
    rw [hself, hbelow _ hmono, hbelow _ (by omega)]
    exact h.first j (by omega) hjn
  · have hdepth := h.depth_succ hless
    rw [hself, hbelow _ (leftmost_strictMono (by omega))]
    exact h.last hbig

/-- A pass that does not go on leaves a heap. -/
theorem ordered (h : Descent hp index k) (hleft : ¬hp.Less index (2 * index + 1))
    (hright : ¬hp.Less index (2 * index + 2)) : Ordered hp.dist hp.size.toNat := by
  refine h.sift.ordered fun c hpos hc hparent => Nat.not_lt.1 fun hdist => ?_
  rcases h.child_eq hpos hparent with rfl | rfl
  · exact hleft ⟨hc, hdist⟩
  · exact hright ⟨hc, hdist⟩

end Descent

/-- **`downheap` restores the heap on its way down the leftmost path.** -/
theorem downheapAt_ordered (mac : VertexPtr → MAC) {fuel k : ℕ} {hp : Heap} {index : UInt32}
    (hcells : hp.Entries hp.size.toNat) (hent : (hp.heap index.toNat).isSome)
    (hdescent : Descent hp index k) (hfuel : 31 ≤ fuel + k) :
    ∃ ps hp', hp.downheapAt mac fuel index (2 * index + 1) (2 * index + 2) = some (ps, hp') ∧
      Ordered hp'.dist hp.size.toNat := by
  induction fuel generalizing hp index k with
  | zero =>
    have := hdescent.depth
    omega
  | succ fuel ih =>
    obtain ⟨ent, hent⟩ := Option.isSome_iff_exists.1 hent
    by_cases hgoes : hp.Less index (2 * index + 1) ∨ hp.Less index (2 * index + 2)
    · have hless := hdescent.less hgoes
      have hlt : index.toNat < hp.size.toNat := by
        have := toNat_left hdescent.lt_last
        have := hless.1
        omega
      obtain ⟨child, hchild⟩ := Option.isSome_iff_exists.1 (hcells _ hless.1)
      have hpass := downheapAt_of_less mac fuel hent hcells hgoes
        (by rw [promoted_children hdescent.lt_last]; exact hchild)
      rw [promoted_children hdescent.lt_last] at hpass
      have hcells' := hcells.pass (mac ent.node) hlt hless.1
      obtain ⟨ps, hp', hrun, hordered⟩ := ih hcells' (hcells' _ hless.1)
        (hdescent.pass hless (mac ent.node)) (by omega)
      exact ⟨_, hp', by rw [hpass, hrun, Option.map_some], hordered⟩
    · obtain ⟨hleft, hright⟩ := not_or.1 hgoes
      exact ⟨_, _, downheapAt_of_not_less mac fuel hent hcells hleft hright,
        hdescent.ordered hleft hright⟩

/-! ## One call -/

instance (hp : Heap) : Decidable hp.LeftFirst :=
  decidable_of_iff ((∀ k < 32, 2 ^ (k + 1) < hp.size.toNat → hp.dist (2 ^ (k + 1)) < hp.dist 0 →
      hp.dist (2 ^ (k + 1) - 1) ≤ hp.dist (2 ^ (k + 1))) ∧
    (2 ^ 31 ≤ hp.size.toNat → hp.dist 0 ≤ hp.dist (2 ^ 31 - 1))) <| by
    constructor
    · rintro ⟨hfirst, hlast⟩
      refine ⟨fun k hk => hfirst k ?_ hk, hlast⟩
      have hle : leftmost k < hp.size.toNat :=
        (leftmost_strictMono.monotone (Nat.le_succ k)).trans_lt ((Nat.pred_le _).trans_lt hk)
      exact Nat.lt_succ_of_le (depth_le hle)
    · rintro ⟨hfirst, hlast⟩
      exact ⟨fun k _ => hfirst k, hlast⟩

section

variable {mac : VertexPtr → MAC} {fuel : ℕ} {hp hp' : Heap}

theorem downheapAt_root (hroot : (hp.heap 0).isSome) (hcells : hp.Entries hp.size.toNat)
    (hexcept : OrderedExcept hp.dist hp.size.toNat 0) (hfirst : hp.LeftFirst) (hfuel : 31 ≤ fuel) :
    ∃ ps hp', hp.downheapAt mac fuel 0 1 2 = some (ps, hp') ∧ Ordered hp'.dist hp.size.toNat :=
  @downheapAt_ordered mac fuel 0 hp 0 hcells hroot
    ⟨rfl, by omega, siftDown_root.2 hexcept, fun j _ => hfirst.first j, hfirst.last⟩ hfuel

theorem leftPath_of_downheap (hroot : (hp.heap 0).isSome) (hcells : hp.Entries hp.size.toNat)
    (hrun : hp.downheap mac fuel 0 1 2 = some hp') :
    Rearranged (leftPath hp.size.toNat) hp hp' := by
  rw [← downheapAt_map] at hrun
  obtain ⟨⟨ps, hp''⟩, hrun', rfl⟩ := Option.map_eq_some_iff.1 hrun
  exact @downheapAt_leftPath mac fuel hp hp'' 0 ps hcells hroot (.inl rfl) hrun'

/-- If `downheap` returns, the entry at the root has not gone round. -/
theorem dist_root_le_last (hcells : hp.Entries hp.size.toNat)
    (hexcept : OrderedExcept hp.dist hp.size.toNat 0)
    (hrun : hp.downheap mac fuel 0 1 2 = some hp') (hbig : 2 ^ 31 ≤ hp.size.toNat) :
    hp.dist 0 ≤ hp.dist (leftmost 31) := by
  by_contra hgt
  have hlast : leftmost 31 = 2147483647 := rfl
  have hgreatest : ∀ p ∈ leftPath hp.size.toNat, p ≠ 0 → hp.dist 0 > hp.dist p := by
    rintro p ⟨hlt, k, rfl⟩ hne
    have hpos : 1 ≤ k := Nat.one_le_iff_ne_zero.2 fun hzero => hne (by rw [hzero]; rfl)
    exact (hexcept.leftmost_le hpos (depth_le hlt) (by omega)).trans_lt (Nat.not_le.1 hgt)
  have hnone := @downheapAt_forever hp 0 mac fuel hbig hcells ⟨by
    change 0 < _
    omega, 0, rfl⟩ hgreatest
  rw [← downheapAt_map, show hp.downheapAt mac fuel 0 1 2 = none from hnone] at hrun
  cases hrun

/-- **`downheap` restores the heap exactly if the left children come first.** -/
theorem restoresHeap_iff (hroot : (hp.heap 0).isSome) (hcells : hp.Entries hp.size.toNat)
    (hexcept : OrderedExcept hp.dist hp.size.toNat 0) : hp.RestoresHeap mac ↔ hp.LeftFirst := by
  constructor
  · rintro ⟨fuel, hp', hrun, hordered⟩
    obtain ⟨hsize, σ, hσ, hheap⟩ := leftPath_of_downheap hroot hcells hrun
    have hdist : hp'.dist = hp.dist ∘ σ := by
      funext i
      rw [Function.comp_apply, dist, dist, hheap, Function.comp_apply]
    rw [hsize, hdist] at hordered
    exact ⟨fun k hk hlt => leftmost_le_of_ordered hexcept hσ hordered hk hlt,
      dist_root_le_last hcells hexcept hrun⟩
  · intro hfirst
    obtain ⟨ps, hp', hrun, hordered⟩ :=
      @downheapAt_root mac 31 hp hroot hcells hexcept hfirst le_rfl
    have hrun' : hp.downheap mac 31 0 1 2 = some hp' := by
      rw [← downheapAt_map, hrun, Option.map_some]
    refine ⟨31, hp', hrun', ?_⟩
    rwa [(leftPath_of_downheap hroot hcells hrun').size]

end

/-! ## Repeated calls -/

section

variable (mac : VertexPtr → MAC) (fuel : ℕ)

/-- `heap_delete`, called so many times, with what it returns. -/
def heapDeletes : ℕ → Heap → Option (List (Option Heapent) × Heap)
  | 0, hp => some ([], hp)
  | n + 1, hp => do
    let (ent, hp) ← hp.heapDelete mac fuel
    let (ents, hp) ← heapDeletes n hp
    return (ent :: ents, hp)

/-- In each of so many calls of `heap_delete`, `downheap` finds the left children first. -/
def LeftFirstRun : ℕ → Heap → Prop
  | 0, _ => True
  | n + 1, hp => hp.moved.LeftFirst ∧
    ∀ ent hp', hp.heapDelete mac fuel = some (ent, hp') → LeftFirstRun n hp'

variable {mac fuel} {hp : Heap}

theorem moved_dist_of_pos {k : ℕ} (hk : 0 < k) : hp.moved.dist k = hp.dist k := by
  rw [dist, moved_heap_of_pos hk, dist]

/-- With the last entry at the root, the order may be violated there only. -/
theorem orderedExcept_moved (hsize : 1 ≤ hp.size.toNat) (hordered : Ordered hp.dist hp.size.toNat) :
    OrderedExcept hp.moved.dist hp.moved.size.toNat 0 := by
  rw [toNat_moved_size hsize, orderedExcept_iff]
  intro c hpos hc hne
  rw [moved_dist_of_pos hpos, moved_dist_of_pos (Nat.pos_of_ne_zero hne)]
  exact ordered_iff.1 hordered c hpos (by omega)

/-- An entry of a heap is not less than the root. -/
theorem dist_root_le {n : ℕ} (hordered : Ordered hp.dist n) {root ent : Heapent}
    (hroot : hp.heap 0 = some root) (hent : some ent ∈ hp.cells n) : root.dist ≤ ent.dist := by
  obtain ⟨i, hi, heq⟩ := List.mem_map.1 hent
  have hle := hordered.root_le (List.mem_range.1 hi)
  rwa [dist_of_eq_some hroot, dist_of_eq_some heq, ← UInt32.le_iff_toNat_le] at hle

/-- **One call** returns the root and leaves a heap of the other entries. -/
theorem heapDelete_ordered (hsize : 1 ≤ hp.size.toNat) (hcells : hp.Entries hp.size.toNat)
    (hordered : Ordered hp.dist hp.size.toNat) (hfirst : hp.moved.LeftFirst) (hfuel : 31 ≤ fuel) :
    ∃ ent hp', hp.heap 0 = some ent ∧ hp.heapDelete mac fuel = some (some ent, hp') ∧
      hp'.size.toNat = hp.size.toNat - 1 ∧ hp'.Entries hp'.size.toNat ∧
      Ordered hp'.dist hp'.size.toNat ∧
      (some ent :: hp'.cells hp'.size.toNat).Perm (hp.cells hp.size.toNat) := by
  obtain ⟨hentries, hroot⟩ := entries_moved hsize hcells
  obtain ⟨ent, hent⟩ := Option.isSome_iff_exists.1 (hcells 0 hsize)
  obtain ⟨ps, hp', hrun, hordered'⟩ := @downheapAt_root mac fuel hp.moved hroot hentries
    (orderedExcept_moved hsize hordered) hfirst hfuel
  have hdownheap : hp.moved.downheap mac fuel 0 1 2 = some hp' := by
    rw [← downheapAt_map, hrun, Option.map_some]
  have hpath := leftPath_of_downheap hroot hentries hdownheap
  have hrearranged := hpath.mono (T := {k | k < hp.moved.size.toNat}) fun k hk => hk.1
  have hsize' : hp'.size.toNat = hp.size.toNat - 1 := by rw [hpath.size, toNat_moved_size hsize]
  refine ⟨ent, hp', hent, ?_, hsize', ?_, ?_, ?_⟩
  · rw [heapDelete_eq hsize, hrun, Option.map_some, hent]
  · rw [hpath.size]
    obtain ⟨-, σ, hσ, hheap⟩ := hrearranged
    intro k hk
    rw [hheap]
    exact hentries _ (mem_of_fixes hσ hk)
  · rwa [hpath.size]
  · rw [← hent, hsize']
    exact cells_perm_of_moved hsize hrearranged

/-- **Repeated calls** return entries that do not decrease, and leave a heap of the others. -/
theorem heapDeletes_sorted {n : ℕ} (hn : n ≤ hp.size.toNat) (hcells : hp.Entries hp.size.toNat)
    (hordered : Ordered hp.dist hp.size.toNat) (hfirst : hp.LeftFirstRun mac fuel n)
    (hfuel : 31 ≤ fuel) :
    ∃ (ents : List Heapent) (hp' : Heap),
      hp.heapDeletes mac fuel n = some (ents.map some, hp') ∧ ents.length = n ∧
      ents.Pairwise (fun a b => a.dist ≤ b.dist) ∧ Ordered hp'.dist hp'.size.toNat ∧
      (ents.map some ++ hp'.cells hp'.size.toNat).Perm (hp.cells hp.size.toNat) := by
  induction n generalizing hp with
  | zero => exact ⟨[], hp, rfl, rfl, .nil, hordered, .refl _⟩
  | succ n ih =>
    obtain ⟨hleft, hrest⟩ := hfirst
    obtain ⟨ent, hp₁, hent, hrun, hsize, hcells₁, hordered₁, hperm⟩ :=
      heapDelete_ordered (Nat.one_le_of_lt hn) hcells hordered hleft hfuel
    obtain ⟨ents, hp', hruns, hlength, hsorted, hordered', hperm'⟩ :=
      ih (by omega) hcells₁ hordered₁ (hrest _ _ hrun)
    have hperm'' := (hperm'.cons (some ent)).trans hperm
    refine ⟨ent :: ents, hp', ?_, congrArg Nat.succ hlength, .cons (fun e he => ?_) hsorted,
      hordered', hperm''⟩
    · rw [heapDeletes, hrun]
      simp only [Option.bind_eq_bind, Option.bind_some, hruns, Option.pure_def, List.map_cons]
    · have hmem : some e ∈ hp.cells hp.size.toNat := by
        refine hperm''.mem_iff.1 (List.mem_cons_of_mem _ (List.mem_append_left _ ?_))
        exact List.mem_map_of_mem he
      exact dist_root_le hordered hent hmem

end

/-- **`downheap` restores a heap whose root may be out of order exactly if the left children come
first**, and where they do so in every call, `heap_delete` called again and again returns entries
that do not decrease. -/
theorem restores_and_sorts (mac : VertexPtr → MAC) (hp : Heap) (hroot : (hp.heap 0).isSome)
    (hcells : hp.Entries hp.size.toNat) :
    (OrderedExcept hp.dist hp.size.toNat 0 → (hp.RestoresHeap mac ↔ hp.LeftFirst)) ∧
    (Ordered hp.dist hp.size.toNat → ∀ fuel ≥ 31, ∀ n ≤ hp.size.toNat, hp.LeftFirstRun mac fuel n →
      ∃ (ents : List Heapent) (hp' : Heap),
      hp.heapDeletes mac fuel n = some (ents.map some, hp') ∧ ents.length = n ∧
        ents.Pairwise (fun a b => a.dist ≤ b.dist) ∧ Ordered hp'.dist hp'.size.toNat ∧
        (ents.map some ++ hp'.cells hp'.size.toNat).Perm (hp.cells hp.size.toNat)) :=
  ⟨fun hexcept => restoresHeap_iff hroot hcells hexcept,
    fun hordered _ hfuel _ hn hfirst => heapDeletes_sorted hn hcells hordered hfirst hfuel⟩

/-- A root that is exchanged with its left child; and two entries of four, in order. -/
theorem restores_and_sorts_four : (ofDists [3, 1, 2]).RestoresHeap (fun _ => .replicate 6 0) ∧
    ∃ (ents : List Heapent) (hp' : Heap),
      (ofDists [1, 2, 3, 4]).heapDeletes (fun _ => .replicate 6 0) 31 2 =
          some (ents.map some, hp') ∧
        ents.length = 2 ∧ ents.Pairwise (fun a b => a.dist ≤ b.dist) := by
  have hrun : (ofDists [1, 2, 3, 4]).LeftFirstRun (fun _ => .replicate 6 0) 31 2 := by
    refine ⟨by decide, fun ent hp' h => ⟨?_, fun _ _ _ => trivial⟩⟩
    have heq : hp' = (((ofDists [1, 2, 3, 4]).heapDelete (fun _ => .replicate 6 0) 31).map
        Prod.snd).getD (ofDists []) := by
      rw [h]
      rfl
    rw [heq]
    decide
  obtain ⟨ents, hp', hruns, hlength, hsorted, -⟩ := (restores_and_sorts (fun _ => .replicate 6 0)
    (ofDists [1, 2, 3, 4]) (by decide) (by decide)).2 (by decide) 31 le_rfl 2 (by decide) hrun
  exact ⟨((restores_and_sorts _ (ofDists [3, 1, 2]) (by decide) (by decide)).1 (by decide)).2
    (by decide), ents, hp', hruns, hlength, hsorted⟩

/-- The left child is promoted over a right child that is less; three calls return 0, 2 and 1. -/
theorem not_restores_right_first :
    OrderedExcept (ofDists [3, 2, 1]).dist 3 0 ∧
    ¬(ofDists [3, 2, 1]).RestoresHeap (fun _ => .replicate 6 0) ∧
    Ordered (ofDists [0, 2, 1, 3]).dist 4 ∧
    ((ofDists [0, 2, 1, 3]).heapDeletes (fun _ => .replicate 6 0) 31 3).map
      (fun r => r.1.map (·.map Heapent.dist)) = some [some 0, some 2, some 1] := by
  refine ⟨by decide, fun h => ?_, by decide, by decide⟩
  have hfirst := (restoresHeap_iff (by decide) (by decide) (by decide)).1 h
  exact absurd hfirst (by decide)

end LinkProxy.Route.Heap
