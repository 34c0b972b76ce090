import Mathlib

/-!
# Heaps in arrays

A binary tree in an array: the children of position `i` are `2i+1` and `2i+2`, and the parent of a
position `c` other than the root is `(c-1)/2`. The cells are ordered by keys; the first `n` of them
are a heap if no key is greater than those of the children (`Ordered`).

A heap in which the order may be violated at one position is repaired by exchanges along a path.
What holds on the way are `SiftDown` and `SiftUp`: the order everywhere else, and between the
children of the position and its parent. One exchange moves the position (`SiftDown.exchange`,
`SiftUp.exchange`), and a position at which the order holds ends the repair (`SiftDown.ordered`,
`SiftUp.ordered`). Exchanges permute the first `n` cells (`perm_range_of_fixes`).

A repair that always takes the left child stays on the leftmost path, the positions `2^k - 1`. Its
result is a heap only if no right child of the path has been the one to take
(`leftmost_le_of_ordered`).
-/

namespace LinkProxy.ArrayHeap

section Order

variable {κ : Type*} [LinearOrder κ] {key : ℕ → κ} {n i : ℕ}

/-- No key among the first `n` is greater than those of its children. -/
def Ordered (key : ℕ → κ) (n : ℕ) : Prop :=
  ∀ i, (2 * i + 1 < n → key i ≤ key (2 * i + 1)) ∧ (2 * i + 2 < n → key i ≤ key (2 * i + 2))

/-- The same for all positions but one. -/
def OrderedExcept (key : ℕ → κ) (n i : ℕ) : Prop :=
  ∀ j, j ≠ i → (2 * j + 1 < n → key j ≤ key (2 * j + 1)) ∧ (2 * j + 2 < n → key j ≤ key (2 * j + 2))

/-- The parent of a position. -/
def parent (c : ℕ) : ℕ := (c - 1) / 2

theorem parent_lt {c : ℕ} (h : 0 < c) : parent c < c := by
  rw [parent]
  omega

theorem eq_of_parent {c : ℕ} (h : 0 < c) : c = 2 * parent c + 1 ∨ c = 2 * parent c + 2 := by
  rw [parent]
  omega

theorem parent_left (i : ℕ) : parent (2 * i + 1) = i := by
  rw [parent]
  omega

theorem parent_right (i : ℕ) : parent (2 * i + 2) = i := by
  rw [parent]
  omega

/-- The order, seen from the children. -/
theorem ordered_iff : Ordered key n ↔ ∀ c, 0 < c → c < n → key (parent c) ≤ key c := by
  constructor
  · intro h c hpos hc
    rcases eq_of_parent hpos with heq | heq
    · have hle := (h (parent c)).1 (by omega)
      rwa [← heq] at hle
    · have hle := (h (parent c)).2 (by omega)
      rwa [← heq] at hle
  · intro h i
    refine ⟨fun hi => ?_, fun hi => ?_⟩
    · have hle := h (2 * i + 1) (by omega) hi
      rwa [parent_left] at hle
    · have hle := h (2 * i + 2) (by omega) hi
      rwa [parent_right] at hle

theorem orderedExcept_iff :
    OrderedExcept key n i ↔ ∀ c, 0 < c → c < n → parent c ≠ i → key (parent c) ≤ key c := by
  constructor
  · intro h c hpos hc hne
    rcases eq_of_parent hpos with heq | heq
    · have hle := (h (parent c) hne).1 (by omega)
      rwa [← heq] at hle
    · have hle := (h (parent c) hne).2 (by omega)
      rwa [← heq] at hle
  · intro h j hj
    refine ⟨fun hi => ?_, fun hi => ?_⟩
    · have hle := h (2 * j + 1) (by omega) hi (by rwa [parent_left])
      rwa [parent_left] at hle
    · have hle := h (2 * j + 2) (by omega) hi (by rwa [parent_right])
      rwa [parent_right] at hle

instance (key : ℕ → κ) (n : ℕ) : Decidable (Ordered key n) :=
  decidable_of_iff (∀ c < n, 0 < c → key (parent c) ≤ key c)
    (Iff.trans ⟨fun h c hpos hc => h c hc hpos, fun h c hc hpos => h c hpos hc⟩ ordered_iff.symm)

instance (key : ℕ → κ) (n i : ℕ) : Decidable (OrderedExcept key n i) :=
  decidable_of_iff (∀ c < n, 0 < c → parent c ≠ i → key (parent c) ≤ key c)
    (Iff.trans ⟨fun h c hpos hc => h c hc hpos, fun h c hc hpos => h c hpos hc⟩
      orderedExcept_iff.symm)

/-- **The root of a heap is first.** -/
theorem Ordered.root_le (h : Ordered key n) {i : ℕ} (hi : i < n) : key 0 ≤ key i := by
  rw [ordered_iff] at h
  induction i using Nat.strong_induction_on with
  | _ i ih =>
    rcases Nat.eq_zero_or_pos i with rfl | hpos
    · exact le_rfl
    · have hlt := parent_lt hpos
      exact (ih _ hlt (by omega)).trans (h i hpos hi)

/-! ## Sifting down -/

/-- The order holds everywhere but at `i`, and between the children of `i` and its parent. -/
structure SiftDown (key : ℕ → κ) (n i : ℕ) : Prop where
  except : ∀ c, 0 < c → c < n → parent c ≠ i → key (parent c) ≤ key c
  grand : 0 < i → ∀ c, 0 < c → c < n → parent c = i → key (parent i) ≤ key c

theorem siftDown_root : SiftDown key n 0 ↔ OrderedExcept key n 0 := by
  rw [orderedExcept_iff]
  exact ⟨fun h => h.except, fun h => ⟨h, fun hpos => absurd hpos (lt_irrefl 0)⟩⟩

/-- A position whose key is not greater than those of its children ends the repair. -/
theorem SiftDown.ordered (h : SiftDown key n i)
    (hi : ∀ c, 0 < c → c < n → parent c = i → key i ≤ key c) : Ordered key n := by
  rw [ordered_iff]
  intro c hpos hc
  by_cases hp : parent c = i
  · rw [hp]
    exact hi c hpos hc hp
  · exact h.except c hpos hc hp

/-- **An exchange with the least child moves the position down.** -/
theorem SiftDown.exchange (h : SiftDown key n i) {c : ℕ} (hpos : 0 < c) (hc : c < n)
    (hp : parent c = i) (hlt : key c < key i)
    (hmin : ∀ c', 0 < c' → c' < n → parent c' = i → key c ≤ key c') :
    SiftDown (key ∘ Equiv.swap i c) n c := by
  have hic : i < c := hp ▸ parent_lt hpos
  constructor
  · intro b hb hbn hbc
    simp only [Function.comp_apply]
    by_cases hbi : b = i
    · -- the parent of `i` is compared with the child that has moved up
      subst hbi
      have hlt' := parent_lt hb
      rw [Equiv.swap_apply_left, Equiv.swap_apply_of_ne_of_ne (by omega) (by omega)]
      exact h.grand hb c hpos hc hp
    by_cases hbp : parent b = i
    · rw [hbp, Equiv.swap_apply_left]
      by_cases hbc' : b = c
      · rw [hbc', Equiv.swap_apply_right]
        exact hlt.le
      · rw [Equiv.swap_apply_of_ne_of_ne hbi hbc']
        exact hmin b hb hbn hbp
    · have hbc' : b ≠ c := fun heq => hbp (heq ▸ hp)
      rw [Equiv.swap_apply_of_ne_of_ne hbp hbc, Equiv.swap_apply_of_ne_of_ne hbi hbc']
      exact h.except b hb hbn hbp
  · intro _ b hb hbn hbc
    have hcb : c < b := hbc ▸ parent_lt hb
    simp only [Function.comp_apply]
    rw [hp, Equiv.swap_apply_left, Equiv.swap_apply_of_ne_of_ne (by omega) (by omega)]
    have hle := h.except b hb hbn (by omega)
    rwa [hbc] at hle

/-! ## Sifting up -/

/-- The order holds everywhere but between `i` and its parent, and between the children of `i` and
its parent. -/
structure SiftUp (key : ℕ → κ) (n i : ℕ) : Prop where
  except : ∀ c, 0 < c → c < n → c ≠ i → key (parent c) ≤ key c
  grand : 0 < i → ∀ c, 0 < c → c < n → parent c = i → key (parent i) ≤ key c

/-- A position whose key is not less than that of its parent ends the repair. -/
theorem SiftUp.ordered (h : SiftUp key n i) (hi : 0 < i → key (parent i) ≤ key i) :
    Ordered key n := by
  rw [ordered_iff]
  intro c hpos hc
  by_cases hci : c = i
  · subst hci
    exact hi hpos
  · exact h.except c hpos hc hci

/-- **An exchange with the parent moves the position up.** -/
theorem SiftUp.exchange (h : SiftUp key n i) (hpos : 0 < i) (hi : i < n)
    (hlt : key i < key (parent i)) :
    SiftUp (key ∘ Equiv.swap i (parent i)) n (parent i) := by
  have hpi := parent_lt hpos
  constructor
  · intro b hb hbn hbp
    have hbb := parent_lt hb
    simp only [Function.comp_apply]
    by_cases hbi : b = i
    · subst hbi
      rw [Equiv.swap_apply_left, Equiv.swap_apply_right]
      exact hlt.le
    rw [Equiv.swap_apply_of_ne_of_ne hbi hbp]
    by_cases hpb : parent b = i
    · rw [hpb, Equiv.swap_apply_left]
      exact h.grand hpos b hb hbn hpb
    by_cases hpp : parent b = parent i
    · -- the other child of the parent, which has moved down
      rw [hpp, Equiv.swap_apply_right]
      have hle := h.except b hb hbn hbi
      rw [hpp] at hle
      exact hlt.le.trans hle
    · rw [Equiv.swap_apply_of_ne_of_ne hpb hpp]
      exact h.except b hb hbn hbi
  · intro hpp c hc hcn hcp
    have hgp := parent_lt hpp
    have hpc := parent_lt hc
    have hparent := h.except (parent i) hpp (by omega) (by omega)
    simp only [Function.comp_apply]
    rw [Equiv.swap_apply_of_ne_of_ne (x := parent (parent i)) (by omega) (by omega)]
    by_cases hci : c = i
    · rw [hci, Equiv.swap_apply_left]
      exact hparent
    · rw [Equiv.swap_apply_of_ne_of_ne hci (by omega)]
      have hle := h.except c hc hcn hci
      rw [hcp] at hle
      exact hparent.trans hle

end Order

/-! ## The contents -/

section Contents

variable {α : Type*} {n : ℕ}

/-- A permutation that leaves the cells outside a set in place keeps the others among themselves. -/
theorem mem_of_fixes {S : Set ℕ} {σ : Equiv.Perm ℕ} (hσ : ∀ i ∉ S, σ i = i) {i : ℕ} (hi : i ∈ S) :
    σ i ∈ S := by
  by_contra hnot
  have heq : σ i = i := σ.injective (hσ (σ i) hnot)
  exact hnot (heq.symm ▸ hi)

theorem lt_of_fixes {σ : Equiv.Perm ℕ} (hσ : ∀ i, n ≤ i → σ i = i) {i : ℕ} (hi : i < n) : σ i < n :=
  mem_of_fixes (S := {k | k < n}) (fun k hk => hσ k (Nat.not_lt.1 hk)) hi

/-- **Exchanges among the first `n` cells lose and duplicate nothing.** -/
theorem perm_range_of_fixes (f : ℕ → α) {σ : Equiv.Perm ℕ} (hσ : ∀ i, n ≤ i → σ i = i) :
    ((List.range n).map (f ∘ σ)).Perm ((List.range n).map f) := by
  have hfix : ∀ i, n ≤ i → σ.symm i = i := fun i hi => by rw [Equiv.symm_apply_eq, hσ i hi]
  have hperm : ((List.range n).map σ).Perm (List.range n) := by
    refine (List.perm_ext_iff_of_nodup (List.nodup_range.map σ.injective) List.nodup_range).2 ?_
    intro i
    rw [List.mem_map, List.mem_range]
    constructor
    · rintro ⟨j, hj, rfl⟩
      exact lt_of_fixes hσ (List.mem_range.1 hj)
    · intro hi
      exact ⟨σ.symm i, List.mem_range.2 (lt_of_fixes hfix hi), σ.apply_symm_apply i⟩
  rw [← List.map_map]
  exact hperm.map f

/-- A cell that stands in some relation to all others in a set still does so when it has been
exchanged with one of them. -/
theorem exchange_extreme {r : α → α → Prop} {S : Set ℕ} {f : ℕ → α} {i j : ℕ} (hj : j ∈ S)
    (h : ∀ k ∈ S, k ≠ i → r (f i) (f k)) :
    ∀ k ∈ S, k ≠ j → r ((f ∘ Equiv.swap i j) j) ((f ∘ Equiv.swap i j) k) := by
  intro k hk hkj
  simp only [Function.comp_apply, Equiv.swap_apply_right]
  by_cases hki : k = i
  · rw [hki, Equiv.swap_apply_left]
    exact h j hj fun heq => hkj (hki.trans heq.symm)
  · rw [Equiv.swap_apply_of_ne_of_ne hki hkj]
    exact h k hk hki

/-- An exchange of two cells in a set leaves the others in place. -/
theorem swap_of_notMem {S : Set ℕ} {i j k : ℕ} (hi : i ∈ S) (hj : j ∈ S) (hk : k ∉ S) :
    Equiv.swap i j k = k := by
  have hki : k ≠ i := fun heq => hk (heq ▸ hi)
  have hkj : k ≠ j := fun heq => hk (heq ▸ hj)
  exact Equiv.swap_apply_of_ne_of_ne hki hkj

end Contents

/-! ## The leftmost path -/

section Leftmost

/-- The position at depth `k` of the path that goes to the left child at every step. -/
def leftmost (k : ℕ) : ℕ := 2 ^ k - 1

/-- The positions of the leftmost path among the first `n`. -/
def leftPath (n : ℕ) : Set ℕ := {p | p < n ∧ ∃ k, p = leftmost k}

theorem leftmost_succ (k : ℕ) : leftmost (k + 1) = 2 * leftmost k + 1 := by
  have := Nat.one_le_two_pow (n := k)
  rw [leftmost, leftmost, pow_succ]
  omega

/-- The sibling of a position of the path. -/
theorem leftmost_add_one (k : ℕ) : leftmost k + 1 = 2 ^ k :=
  Nat.sub_add_cancel Nat.one_le_two_pow

theorem leftmost_strictMono : StrictMono leftmost := by
  refine strictMono_nat_of_lt_succ fun k => ?_
  rw [leftmost_succ]
  omega

theorem parent_leftmost (k : ℕ) : parent (leftmost (k + 1)) = leftmost k := by
  rw [leftmost_succ, parent_left]

theorem parent_two_pow (k : ℕ) : parent (2 ^ (k + 1)) = leftmost k := by
  rw [← leftmost_add_one, leftmost_succ]
  exact parent_right _

/-- The right children of the path are not on it. -/
theorem two_pow_notMem_leftPath (n k : ℕ) : 2 ^ (k + 1) ∉ leftPath n := by
  rintro ⟨-, j, hj⟩
  have hsucc := leftmost_add_one (k + 1)
  cases j with
  | zero => exact absurd hj (Nat.two_pow_pos _).ne'
  | succ j =>
    rw [leftmost_succ] at hsucc hj
    omega

variable {κ : Type*} [LinearOrder κ] {key : ℕ → κ} {n : ℕ}

/-- The keys of the path from depth `a` on do not decrease. -/
theorem leftmost_le {a : ℕ}
    (h : ∀ c, leftmost a < c → c < n → leftmost a ≤ parent c → key (parent c) ≤ key c) {i j : ℕ}
    (hi : a ≤ i) (hij : i ≤ j) (hj : leftmost j < n) : key (leftmost i) ≤ key (leftmost j) := by
  induction j, hij using Nat.le_induction with
  | base => exact le_rfl
  | succ j hij ih =>
    have hlt := leftmost_strictMono (Nat.lt_add_one j)
    have haj := leftmost_strictMono.monotone (hi.trans hij)
    have hle := h (leftmost (j + 1)) (haj.trans_lt hlt) hj (by rwa [parent_leftmost])
    rw [parent_leftmost] at hle
    exact (ih (hlt.trans hj)).trans hle

theorem OrderedExcept.leftmost_le (h : OrderedExcept key n 0) {i j : ℕ} (hi : 1 ≤ i) (hij : i ≤ j)
    (hj : leftmost j < n) : key (leftmost i) ≤ key (leftmost j) := by
  refine ArrayHeap.leftmost_le (a := 1) (fun c hc hcn hpc => ?_) hi hij hj
  have hne : parent c ≠ 0 := Nat.ne_of_gt (lt_of_lt_of_le Nat.zero_lt_one hpc)
  exact orderedExcept_iff.1 h c (Nat.zero_lt_of_lt hc) hcn hne

/-- **A heap that has been rearranged along the leftmost path has been repaired by left children
only**: a right child of the path that is less than the root was not less than its sibling. -/
theorem leftmost_le_of_ordered (hexcept : OrderedExcept key n 0) {σ : Equiv.Perm ℕ}
    (hσ : ∀ i ∉ leftPath n, σ i = i) (hordered : Ordered (key ∘ σ) n) {k : ℕ}
    (hk : 2 ^ (k + 1) < n) (hlt : key (2 ^ (k + 1)) < key 0) :
    key (leftmost (k + 1)) ≤ key (2 ^ (k + 1)) := by
  by_contra hgt
  have hsucc := leftmost_add_one (k + 1)
  rw [ordered_iff] at hordered
  -- the first `k + 1` cells of the path come from the `k` cells between the root and the sibling
  have hmaps : ∀ i ∈ Finset.range (k + 1),
      σ (leftmost i) ∈ (Finset.range k).image fun j => leftmost (j + 1) := by
    intro i hi
    have hik : i ≤ k := Nat.lt_succ_iff.1 (Finset.mem_range.1 hi)
    have hkn : leftmost k < n := by
      have := leftmost_strictMono (Nat.lt_add_one k)
      omega
    have hin : leftmost i < n := (leftmost_strictMono.monotone hik).trans_lt hkn
    have hpath : (key ∘ σ) (leftmost i) ≤ (key ∘ σ) (leftmost k) :=
      leftmost_le (fun c hc hcn _ => hordered c (by omega) hcn) (Nat.zero_le i) hik hkn
    have hright := hordered (2 ^ (k + 1)) (Nat.two_pow_pos _) hk
    rw [parent_two_pow] at hright
    have hle : key (σ (leftmost i)) ≤ key (2 ^ (k + 1)) := by
      have := hpath.trans hright
      rwa [Function.comp_apply, Function.comp_apply, hσ _ (two_pow_notMem_leftPath n k)] at this
    obtain ⟨hjn, j, hj⟩ := mem_of_fixes hσ (show leftmost i ∈ leftPath n from ⟨hin, i, rfl⟩)
    rw [hj] at hle hjn ⊢
    rcases Nat.eq_zero_or_pos j with rfl | hpos
    · exact absurd hlt (not_lt.2 hle)
    have hjk : j ≤ k := by
      by_contra hnot
      exact hgt ((hexcept.leftmost_le (Nat.succ_pos k) (Nat.not_le.1 hnot) hjn).trans hle)
    refine Finset.mem_image.2 ⟨j - 1, Finset.mem_range.2 (by omega), ?_⟩
    rw [Nat.sub_add_cancel hpos]
  have hcard : ((Finset.range k).image fun j => leftmost (j + 1)).card <
      (Finset.range (k + 1)).card := by
    refine Finset.card_image_le.trans_lt ?_
    rw [Finset.card_range, Finset.card_range]
    exact Nat.lt_succ_self k
  obtain ⟨i, -, j, -, hne, heq⟩ := Finset.exists_ne_map_eq_of_card_lt_of_maps_to hcard hmaps
  exact hne (leftmost_strictMono.injective (σ.injective heq))

end Leftmost

end LinkProxy.ArrayHeap
