import LinkProxy.Foundations.ArrayHeap
import LinkProxy.Route.Search

/-!
# The cells of the heap

What `upheap` and `downheap` do to the array of a `Heap`: every pass of their loops exchanges two
cells. The two functions once more, with the positions that they look at (`upheapAt`, `downheapAt`);
without these they are the functions of `Route.Heap`.

`heap_delete` loses and duplicates nothing, and terminates, for every heap of less than `2^31`
entries, ordered or not (`heapDelete_perm`). `heap_insert` stays in the array exactly if the new
entry does not become the root: the root has no parent, and its position is not tested
(`insertsInPlace_iff`).
-/

namespace LinkProxy.Route.Heap

open Wire

/-- The distance in a cell. -/
def dist (hp : Heap) (i : ℕ) : ℕ := ((hp.heap i).map fun ent => ent.dist.toNat).getD 0

/-- The first `n` cells are entries. -/
def Entries (hp : Heap) (n : ℕ) : Prop := ∀ i < n, (hp.heap i).isSome

instance (hp : Heap) (n : ℕ) : Decidable (hp.Entries n) :=
  inferInstanceAs (Decidable (∀ i < n, _))

/-- The first `n` cells, in order. -/
def cells (hp : Heap) (n : ℕ) : List (Option Heapent) := (List.range n).map hp.heap

/-- Two cells are exchanged. -/
def exchange (i j : ℕ) (hp : Heap) : Heap := { hp with heap := hp.heap ∘ Equiv.swap i j }

/-- A pass of a loop: two cells are exchanged, and the position of the second one is noted. -/
def pass (m : MAC) (i j : UInt32) (hp : Heap) : Heap := (hp.exchange i.toNat j.toNat).setIndex m j

section

variable {hp : Heap} {i j : ℕ} {ent : Heapent}

@[simp] theorem pass_size (m : MAC) (i j : UInt32) : (hp.pass m i j).size = hp.size := rfl

@[simp] theorem pass_heap (m : MAC) (i j : UInt32) :
    (hp.pass m i j).heap = hp.heap ∘ Equiv.swap i.toNat j.toNat := rfl

@[simp] theorem pass_dist (m : MAC) (i j : UInt32) :
    (hp.pass m i j).dist = hp.dist ∘ Equiv.swap i.toNat j.toNat := rfl

theorem dist_of_eq_some (h : hp.heap i = some ent) : hp.dist i = ent.dist.toNat := by
  rw [dist, h]
  rfl

/-- The assignments of a pass are an exchange. -/
theorem set_set {i j : UInt32} {a b : Heapent} (hi : hp.heap i.toNat = some a)
    (hj : hp.heap j.toNat = some b) : (hp.set i b).set j a = hp.exchange i.toNat j.toNat := by
  have hheap : Function.update (Function.update hp.heap i.toNat (some b)) j.toNat (some a) =
      hp.heap ∘ Equiv.swap i.toNat j.toNat := by
    rw [← hi, ← hj, Equiv.swap_comm]
    exact (Equiv.comp_swap_eq_update j.toNat i.toNat hp.heap).symm
  rw [exchange, ← hheap]
  rfl

theorem Entries.pass {n : ℕ} {i j : UInt32} (h : hp.Entries n) (m : MAC) (hi : i.toNat < n)
    (hj : j.toNat < n) : (hp.pass m i j).Entries n := by
  intro k hk
  rw [pass_heap]
  refine h _ (ArrayHeap.mem_of_fixes (S := {k | k < n}) (fun k hk => ?_) hk)
  exact ArrayHeap.swap_of_notMem hi hj hk

end

/-- The cells in a set have been rearranged, and the others are as they were. -/
structure Rearranged (S : Set ℕ) (hp hp' : Heap) : Prop where
  size : hp'.size = hp.size
  perm : ∃ σ : Equiv.Perm ℕ, (∀ k ∉ S, σ k = k) ∧ hp'.heap = hp.heap ∘ σ

section

variable {S : Set ℕ} {hp hp' : Heap} {n : ℕ}

theorem rearranged_setIndex (S : Set ℕ) (m : MAC) (k : UInt32) :
    Rearranged S hp (hp.setIndex m k) :=
  ⟨rfl, 1, fun _ _ => rfl, rfl⟩

/-- A pass before a rearrangement. -/
theorem Rearranged.of_pass {i j : UInt32} {m : MAC} (hi : i.toNat ∈ S) (hj : j.toNat ∈ S)
    (h : Rearranged S (hp.pass m i j) hp') : Rearranged S hp hp' := by
  obtain ⟨hsize, σ, hσ, hheap⟩ := h
  refine ⟨hsize, Equiv.swap i.toNat j.toNat * σ, fun k hk => ?_, hheap⟩
  rw [Equiv.Perm.mul_apply, hσ k hk]
  exact ArrayHeap.swap_of_notMem hi hj hk

theorem Rearranged.refl (S : Set ℕ) (hp : Heap) : Rearranged S hp hp :=
  ⟨rfl, 1, fun _ _ => rfl, rfl⟩

theorem Rearranged.setIndex (h : Rearranged S hp hp') (m : MAC) (k : UInt32) :
    Rearranged S hp (hp'.setIndex m k) :=
  ⟨h.size, h.perm⟩

/-- A pass behind a rearrangement. -/
theorem Rearranged.pass {i j : UInt32} {m : MAC} (h : Rearranged S hp hp') (hi : i.toNat ∈ S)
    (hj : j.toNat ∈ S) : Rearranged S hp (hp'.pass m i j) := by
  obtain ⟨hsize, σ, hσ, hheap⟩ := h
  refine ⟨hsize, σ * Equiv.swap i.toNat j.toNat, fun k hk => ?_, ?_⟩
  · rw [Equiv.Perm.mul_apply, ArrayHeap.swap_of_notMem hi hj hk, hσ k hk]
  · rw [pass_heap, hheap]
    rfl

theorem Rearranged.mono {T : Set ℕ} (h : Rearranged S hp hp') (hST : S ⊆ T) :
    Rearranged T hp hp' := by
  obtain ⟨hsize, σ, hσ, hheap⟩ := h
  exact ⟨hsize, σ, fun k hk => hσ k fun hS => hk (hST hS), hheap⟩

/-- **Nothing is lost and nothing is duplicated.** -/
theorem Rearranged.cells_perm (h : Rearranged {k | k < n} hp hp') :
    (hp'.cells n).Perm (hp.cells n) := by
  obtain ⟨-, σ, hσ, hheap⟩ := h
  rw [cells, cells, hheap]
  exact ArrayHeap.perm_range_of_fixes hp.heap fun k hk => hσ k (Nat.not_lt.2 hk)

end

/-! ## The positions of the loops -/

section

variable (mac : VertexPtr → MAC)

/-- `upheap`, with the positions of the array that it reads or writes. -/
def upheapAt : ℕ → UInt32 → Heap → Option (List ℕ × Heap)
  | 0, _, _ => none
  | fuel + 1, index, hp => do
    let parent := (index - 1) / 2
    let ent ← hp.heap index.toNat
    let above ← hp.heap parent.toNat
    if ent.dist < above.dist then
      let hp := (hp.set index above).set parent ent
      let (ps, hp) ← upheapAt fuel parent (hp.setIndex (mac ent.node) parent)
      return (index.toNat :: parent.toNat :: ps, hp)
    else return ([index.toNat, parent.toNat], hp.setIndex (mac ent.node) index)

/-- The positions that the condition of the loop of `downheap` reads, given whether the left child
decides. -/
def conditionAt (index left right : UInt32) (l : Bool) (hp : Heap) : List ℕ :=
  (if left < hp.size then [index.toNat, left.toNat] else []) ++
    if l then [] else if right < hp.size then [index.toNat, right.toNat] else []

/-- `downheap`, with the positions of the array that its loop reads or writes. -/
def downheapAt : ℕ → UInt32 → UInt32 → UInt32 → Heap → Option (List ℕ × Heap)
  | 0, _, _, _, _ => none
  | fuel + 1, index, left, right, hp => do
    let l ← hp.below index left
    let goes ← if l then some true else hp.below index right
    let ent ← hp.heap index.toNat
    if goes then
      let j := if left < right then left else right
      let child ← hp.heap j.toNat
      let hp' := (hp.set index child).set j ent
      let (ps, hp') ← downheapAt fuel j (2 * j + 1) (2 * j + 2) (hp'.setIndex (mac ent.node) j)
      return (hp.conditionAt index left right l ++ index.toNat :: j.toNat :: ps, hp')
    else return (hp.conditionAt index left right l, hp.setIndex (mac ent.node) index)

variable {mac} {fuel : ℕ} {hp : Heap}

/-- The rest of a computation behind a branch. -/
theorem bind_ite {α β : Type} (c : Prop) [Decidable c] (a b : Option α) (f : α → Option β) :
    (if c then a else b).bind f = if c then a.bind f else b.bind f := by
  split_ifs <;> rfl

/-- Without the positions it is `upheap`. -/
theorem upheapAt_map (index : UInt32) :
    (hp.upheapAt mac fuel index).map Prod.snd = hp.upheap mac fuel index := by
  induction fuel generalizing hp index with
  | zero => rfl
  | succ fuel ih =>
    rw [upheapAt, upheap]
    simp only [Option.bind_eq_bind, Option.pure_def, ← ih, Option.map_eq_bind, Option.bind_assoc,
      bind_ite, Option.bind_some, Function.comp_def]

/-- Without the positions it is `downheap`. -/
theorem downheapAt_map (index left right : UInt32) :
    (hp.downheapAt mac fuel index left right).map Prod.snd =
      hp.downheap mac fuel index left right := by
  induction fuel generalizing hp index left right with
  | zero => rfl
  | succ fuel ih =>
    rw [downheapAt, downheap]
    simp only [Option.bind_eq_bind, Option.pure_def, ← ih, Option.map_eq_bind, Option.bind_assoc,
      bind_ite, Option.bind_some, Function.comp_def]

end

/-! ## The passes of `downheap` -/

/-- The left child is below the size, and its distance is less. -/
def Less (index child : UInt32) (hp : Heap) : Prop :=
  child.toNat < hp.size.toNat ∧ hp.dist child.toNat < hp.dist index.toNat

instance (index child : UInt32) (hp : Heap) : Decidable (hp.Less index child) :=
  inferInstanceAs (Decidable (_ ∧ _))

/-- The child that is promoted: the one with the smaller position. -/
def promoted (left right : UInt32) : UInt32 := if left < right then left else right

section

variable {hp : Heap} {index left right : UInt32} {ent child : Heapent}

theorem below_eq (hent : hp.heap index.toNat = some ent) (hcells : hp.Entries hp.size.toNat)
    (c : UInt32) : hp.below index c = some (decide (hp.Less index c)) := by
  unfold below
  by_cases hc : c < hp.size
  · have hlt : c.toNat < hp.size.toNat := UInt32.lt_iff_toNat_lt.1 hc
    obtain ⟨entc, hentc⟩ := Option.isSome_iff_exists.1 (hcells _ hlt)
    have hless : entc.dist < ent.dist ↔ hp.Less index c := by
      rw [Less, dist_of_eq_some hent, dist_of_eq_some hentc, UInt32.lt_iff_toNat_lt]
      exact (and_iff_right hlt).symm
    rw [if_pos hc, hent, hentc]
    exact congrArg some (decide_eq_decide.2 hless)
  · have hnot : ¬hp.Less index c := fun h => hc (UInt32.lt_iff_toNat_lt.2 h.1)
    rw [if_neg hc, decide_eq_false hnot]

/-- **A pass that goes on** exchanges the entry with the child that is promoted. -/
theorem downheapAt_of_less (mac : VertexPtr → MAC) (fuel : ℕ)
    (hent : hp.heap index.toNat = some ent) (hcells : hp.Entries hp.size.toNat)
    (hgoes : hp.Less index left ∨ hp.Less index right)
    (hchild : hp.heap (promoted left right).toNat = some child) :
    hp.downheapAt mac (fuel + 1) index left right =
      ((hp.pass (mac ent.node) index (promoted left right)).downheapAt mac fuel
          (promoted left right) (2 * promoted left right + 1)
          (2 * promoted left right + 2)).map fun r =>
        (hp.conditionAt index left right (decide (hp.Less index left)) ++
          index.toNat :: (promoted left right).toNat :: r.1, r.2) := by
  have hset := set_set hent hchild
  rw [downheapAt, below_eq hent hcells, below_eq hent hcells, hent]
  unfold promoted at *
  by_cases hleft : hp.Less index left
  · simp only [hleft, decide_true, Option.bind_eq_bind, Option.bind_some, if_true, hchild, hset,
      Option.pure_def, Option.map_eq_bind, Function.comp_def, pass]
  · have hright := hgoes.resolve_left hleft
    simp only [hleft, hright, decide_true, decide_false, Bool.false_eq_true, if_false,
      Option.bind_eq_bind, Option.bind_some, if_true, hchild, hset, Option.pure_def,
      Option.map_eq_bind, Function.comp_def, pass]

/-- A pass that ends the loop. -/
theorem downheapAt_of_not_less (mac : VertexPtr → MAC) (fuel : ℕ)
    (hent : hp.heap index.toNat = some ent) (hcells : hp.Entries hp.size.toNat)
    (hleft : ¬hp.Less index left) (hright : ¬hp.Less index right) :
    hp.downheapAt mac (fuel + 1) index left right =
      some (hp.conditionAt index left right false, hp.setIndex (mac ent.node) index) := by
  rw [downheapAt, below_eq hent hcells, below_eq hent hcells, hent]
  simp only [hleft, hright, decide_false, Option.bind_eq_bind, Option.bind_some,
    Bool.false_eq_true, if_false, Option.pure_def]

theorem mem_conditionAt {l : Bool} {p : ℕ} (h : p ∈ hp.conditionAt index left right l) :
    p = index.toNat ∧ (left.toNat < hp.size.toNat ∨ right.toNat < hp.size.toNat) ∨
      p = left.toNat ∧ left.toNat < hp.size.toNat ∨
      p = right.toNat ∧ right.toNat < hp.size.toNat := by
  simp only [conditionAt, UInt32.lt_iff_toNat_lt] at h
  rcases List.mem_append.1 h with h | h
  · split_ifs at h with hlt
    · rcases List.mem_pair.1 h with rfl | rfl
      · exact .inl ⟨rfl, .inl hlt⟩
      · exact .inr (.inl ⟨rfl, hlt⟩)
    · cases h
  · split_ifs at h with hl hlt
    · cases h
    · rcases List.mem_pair.1 h with rfl | rfl
      · exact .inl ⟨rfl, .inr hlt⟩
      · exact .inr (.inr ⟨rfl, hlt⟩)
    · cases h

theorem toNat_left (h : index.toNat < 2147483647) :
    (2 * index + 1).toNat = 2 * index.toNat + 1 := by
  rw [UInt32.toNat_add, UInt32.toNat_mul]
  simp only [UInt32.reduceToNat]
  omega

theorem toNat_right (h : index.toNat < 2147483647) :
    (2 * index + 2).toNat = 2 * index.toNat + 2 := by
  rw [UInt32.toNat_add, UInt32.toNat_mul]
  simp only [UInt32.reduceToNat]
  omega

/-- The left child is promoted, whatever the distances are. -/
theorem promoted_children (h : index.toNat < 2147483647) :
    promoted (2 * index + 1) (2 * index + 2) = 2 * index + 1 := by
  refine if_pos (UInt32.lt_iff_toNat_lt.2 ?_)
  rw [toNat_left h, toNat_right h]
  omega

end

/-! ## Deletion -/

/-- `heap_delete` before it calls `downheap`: the last entry is at the root. -/
def moved (hp : Heap) : Heap :=
  { hp with size := hp.size - 1, heap := Function.update hp.heap 0 (hp.heap (hp.size - 1).toNat) }

section

variable {mac : VertexPtr → MAC} {fuel : ℕ} {hp hp' : Heap} {index : UInt32}

/-- **The loop of `downheap` terminates** in every heap of less than `2^31` entries, looks at the
entries only and rearranges them. -/
theorem downheapAt_rearranged (hsize : hp.size.toNat ≤ 2147483647)
    (hcells : hp.Entries hp.size.toNat) (hent : (hp.heap index.toNat).isSome)
    (hindex : index.toNat = 0 ∨ index.toNat < hp.size.toNat)
    (hfuel : hp.size.toNat < fuel + index.toNat) :
    ∃ ps hp', hp.downheapAt mac fuel index (2 * index + 1) (2 * index + 2) = some (ps, hp') ∧
      Rearranged {k | k < hp.size.toNat} hp hp' ∧ ∀ p ∈ ps, p < hp.size.toNat := by
  induction fuel generalizing hp index with
  | zero => omega
  | succ fuel ih =>
    obtain ⟨ent, hent⟩ := Option.isSome_iff_exists.1 hent
    have hlt : index.toNat < 2147483647 := by omega
    have hleft := toNat_left hlt
    have hright := toNat_right hlt
    have hcondition (l : Bool) (p : ℕ)
        (hp' : p ∈ hp.conditionAt index (2 * index + 1) (2 * index + 2) l) : p < hp.size.toNat := by
      rcases mem_conditionAt hp' with ⟨rfl, h | h⟩ | ⟨rfl, h⟩ | ⟨rfl, h⟩ <;> omega
    by_cases hgoes : hp.Less index (2 * index + 1) ∨ hp.Less index (2 * index + 2)
    · -- the left child is below the size if the right one is
      have hj : (2 * index + 1).toNat < hp.size.toNat := by
        rcases hgoes with h | h
        · exact h.1
        · have := h.1
          omega
      have hindex' : index.toNat < hp.size.toNat := by omega
      obtain ⟨child, hchild⟩ := Option.isSome_iff_exists.1 (hcells _ hj)
      have hpass := downheapAt_of_less mac fuel hent hcells hgoes
        (by rw [promoted_children hlt]; exact hchild)
      rw [promoted_children hlt] at hpass
      have hcells' := hcells.pass (mac ent.node) hindex' hj
      obtain ⟨ps, hp', hrun, hrearranged, hps⟩ := @ih (hp.pass (mac ent.node) index (2 * index + 1))
        (2 * index + 1) hsize hcells' (hcells' _ hj) (.inr hj) (by
          rw [pass_size]
          omega)
      rw [hpass, hrun]
      refine ⟨_, hp', rfl, hrearranged.of_pass hindex' hj, ?_⟩
      rw [List.forall_mem_append, List.forall_mem_cons, List.forall_mem_cons]
      exact ⟨hcondition _, hindex', hj, hps⟩
    · obtain ⟨hnleft, hnright⟩ := not_or.1 hgoes
      exact ⟨_, _, downheapAt_of_not_less mac fuel hent hcells hnleft hnright,
        rearranged_setIndex _ _ _, hcondition _⟩

theorem toNat_moved_size {hp : Heap} (hsize : 1 ≤ hp.size.toNat) :
    hp.moved.size.toNat = hp.size.toNat - 1 := by
  have hone : (1 : UInt32) ≤ hp.size := UInt32.le_iff_toNat_le.2 hsize
  exact UInt32.toNat_sub_of_le _ _ hone

@[simp] theorem moved_heap_zero : hp.moved.heap 0 = hp.heap hp.moved.size.toNat := by
  simp only [moved, Function.update_self]

theorem moved_heap_of_pos {k : ℕ} (hk : 0 < k) : hp.moved.heap k = hp.heap k := by
  simp only [moved, Function.update_of_ne (Nat.ne_of_gt hk)]

/-- The entry at the root and the entries that are left are those of the heap. -/
theorem cells_moved {n : ℕ} (hn : hp.size.toNat = n + 1) :
    (hp.heap 0 :: hp.moved.cells n).Perm (hp.cells (n + 1)) := by
  have hlast := @toNat_moved_size hp (by omega)
  rw [hn, Nat.add_sub_cancel] at hlast
  cases n with
  | zero => exact .refl _
  | succ m =>
    have hmoved : hp.moved.cells (m + 1) =
        hp.heap (m + 1) :: (List.range m).map (hp.heap ∘ Nat.succ) := by
      rw [cells, List.range_succ_eq_map, List.map_cons, moved_heap_zero, hlast, List.map_map]
      rfl
    have hold : hp.cells (m + 1 + 1) =
        hp.heap 0 :: ((List.range m).map (hp.heap ∘ Nat.succ) ++ [hp.heap (m + 1)]) := by
      rw [cells, List.range_succ, List.map_append, List.range_succ_eq_map, List.map_cons,
        List.map_map]
      rfl
    rw [hmoved, hold]
    exact (List.perm_append_singleton _ _).symm.cons _

/-- They still are when the entries that are left have been rearranged. -/
theorem cells_perm_of_moved (hsize : 1 ≤ hp.size.toNat)
    (h : Rearranged {k | k < hp.moved.size.toNat} hp.moved hp') :
    (hp.heap 0 :: hp'.cells (hp.size.toNat - 1)).Perm (hp.cells hp.size.toNat) := by
  obtain ⟨n, hn⟩ : ∃ n, hp.size.toNat = n + 1 := ⟨hp.size.toNat - 1, by omega⟩
  rw [toNat_moved_size hsize, hn, Nat.add_sub_cancel] at h
  rw [hn, Nat.add_sub_cancel]
  exact (h.cells_perm.cons _).trans (cells_moved hn)

/-- `heap_delete` is `downheap` on the heap with the last entry at the root. -/
theorem heapDelete_eq (hsize : 1 ≤ hp.size.toNat) : hp.heapDelete mac fuel =
    (hp.moved.downheapAt mac fuel 0 1 2).map fun r => (hp.heap 0, r.2) := by
  have hne : hp.size ≠ 0 := by
    rintro hzero
    rw [hzero] at hsize
    exact absurd hsize (by decide)
  rw [heapDelete, if_neg hne]
  change (hp.moved.downheap mac fuel 0 1 2).bind (fun hp' => some (hp.heap 0, hp')) = _
  rw [← downheapAt_map, Option.map_eq_bind, Option.map_eq_bind, Option.bind_assoc]
  rfl

theorem entries_moved (hsize : 1 ≤ hp.size.toNat) (hcells : hp.Entries hp.size.toNat) :
    hp.moved.Entries hp.moved.size.toNat ∧ (hp.moved.heap 0).isSome := by
  have hmoved := toNat_moved_size hsize
  have hroot : (hp.moved.heap 0).isSome := by
    rw [moved_heap_zero]
    exact hcells _ (by omega)
  refine ⟨fun k hk => ?_, hroot⟩
  rcases Nat.eq_zero_or_pos k with rfl | hpos
  · exact hroot
  · rw [moved_heap_of_pos hpos]
    exact hcells k (by omega)

end

/-- **`heap_delete` loses and duplicates nothing.** For every heap of less than `2^31` entries,
ordered or not, it terminates and returns an entry; its loop looks only at positions below the new
size; and the entry and the entries that are left are those that have been there. -/
theorem heapDelete_perm (mac : VertexPtr → MAC) (hp : Heap) (hsize : 1 ≤ hp.size.toNat)
    (hsize' : hp.size.toNat < 2147483648) (hcells : hp.Entries hp.size.toNat) {fuel : ℕ}
    (hfuel : hp.size.toNat ≤ fuel) :
    ∃ (ps : List ℕ) (ent : Heapent) (hp' : Heap),
      hp.moved.downheapAt mac fuel 0 1 2 = some (ps, hp') ∧
      hp.heapDelete mac fuel = some (some ent, hp') ∧
      hp'.size.toNat = hp.size.toNat - 1 ∧
      (∀ p ∈ ps, p < hp.size.toNat - 1) ∧
      (some ent :: hp'.cells (hp.size.toNat - 1)).Perm (hp.cells hp.size.toNat) := by
  have hmoved := toNat_moved_size hsize
  obtain ⟨hentries, hroot⟩ := entries_moved hsize hcells
  obtain ⟨ps, hp', hrun, hrearranged, hps⟩ := @downheapAt_rearranged mac fuel hp.moved 0 (by omega)
    hentries hroot (.inl rfl) (by
      rw [hmoved]
      change _ < fuel + 0
      omega)
  obtain ⟨ent, hent⟩ := Option.isSome_iff_exists.1 (hcells 0 (by omega))
  refine ⟨ps, ent, hp', hrun, ?_, ?_, ?_, ?_⟩
  · rw [heapDelete_eq hsize, show hp.moved.downheapAt mac fuel 0 1 2 = some (ps, hp') from hrun,
      Option.map_some, hent]
  · rw [hrearranged.size, hmoved]
  · rwa [← hmoved]
  · rw [← hent]
    exact cells_perm_of_moved hsize hrearranged

/-- A heap with the given distances. -/
def ofDists (ds : List UInt32) : Heap where
  size := .ofNat ds.length
  max := .ofNat (ds.length + 1)
  heap i := ds[i]?.map fun d => ⟨i, none, d, 0⟩
  index := []

/-- The last of three entries goes to the root, and down again. -/
theorem heapDelete_perm_three : ∃ ps ent hp',
    (ofDists [1, 2, 3]).moved.downheapAt (fun _ => .replicate 6 0) 3 0 1 2 = some (ps, hp') ∧
      (some ent :: hp'.cells 2).Perm ((ofDists [1, 2, 3]).cells 3) := by
  obtain ⟨ps, ent, hp', hrun, -, -, -, hperm⟩ := @heapDelete_perm (fun _ => .replicate 6 0)
    (ofDists [1, 2, 3]) (by decide) (by decide) (by decide) 3 (by decide)
  exact ⟨ps, ent, hp', hrun, hperm⟩

/-! ## The passes of `upheap` -/

section

variable {hp : Heap} {index : UInt32} {ent above : Heapent} {n : ℕ}

/-- **A pass that goes on** exchanges the entry with its parent. -/
theorem upheapAt_of_lt (mac : VertexPtr → MAC) (fuel : ℕ) (hent : hp.heap index.toNat = some ent)
    (habove : hp.heap ((index - 1) / 2).toNat = some above)
    (hlt : hp.dist index.toNat < hp.dist ((index - 1) / 2).toNat) :
    hp.upheapAt mac (fuel + 1) index =
      ((hp.pass (mac ent.node) index ((index - 1) / 2)).upheapAt mac fuel
          ((index - 1) / 2)).map fun r =>
        (index.toNat :: ((index - 1) / 2).toNat :: r.1, r.2) := by
  rw [dist_of_eq_some hent, dist_of_eq_some habove, ← UInt32.lt_iff_toNat_lt] at hlt
  rw [upheapAt, hent, habove]
  simp only [Option.bind_eq_bind, Option.bind_some, if_pos hlt, set_set hent habove,
    Option.pure_def, Option.map_eq_bind, Function.comp_def, pass]

/-- A pass that ends the loop. -/
theorem upheapAt_of_le (mac : VertexPtr → MAC) (fuel : ℕ) (hent : hp.heap index.toNat = some ent)
    (habove : hp.heap ((index - 1) / 2).toNat = some above)
    (hle : hp.dist ((index - 1) / 2).toNat ≤ hp.dist index.toNat) :
    hp.upheapAt mac (fuel + 1) index =
      some ([index.toNat, ((index - 1) / 2).toNat], hp.setIndex (mac ent.node) index) := by
  rw [dist_of_eq_some hent, dist_of_eq_some habove] at hle
  have hnot : ¬ent.dist < above.dist := fun h => Nat.not_lt.2 hle (UInt32.lt_iff_toNat_lt.1 h)
  rw [upheapAt, hent, habove]
  simp only [Option.bind_eq_bind, Option.bind_some, if_neg hnot, Option.pure_def]

/-- The parent of an entry other than the root. -/
theorem toNat_parent_of_pos (h : 0 < index.toNat) :
    ((index - 1) / 2).toNat = ArrayHeap.parent index.toNat := by
  have hne : index ≠ 0 := by
    rintro rfl
    exact absurd h (by decide)
  rw [toNat_parent, if_neg hne, ArrayHeap.parent]

/-- **An entry that is not less than the root is sifted up in place**: the loop ends below the root,
looks at the first `n` cells only, and leaves a heap. -/
theorem upheapAt_ordered (mac : VertexPtr → MAC) {fuel : ℕ} (hcells : hp.Entries n)
    (hpos : 0 < index.toNat) (hindex : index.toNat < n) (hfuel : index.toNat ≤ fuel)
    (hsift : ArrayHeap.SiftUp hp.dist n index.toNat) (hroot : hp.dist 0 ≤ hp.dist index.toNat) :
    ∃ ps hp', hp.upheapAt mac fuel index = some (ps, hp') ∧ Rearranged {k | k < n} hp hp' ∧
      ArrayHeap.Ordered hp'.dist n ∧ ∀ p ∈ ps, p < n := by
  induction fuel generalizing hp index with
  | zero => omega
  | succ fuel ih =>
    have hparent := toNat_parent_of_pos hpos
    have hlt := ArrayHeap.parent_lt hpos
    have hplt : ((index - 1) / 2).toNat < n := by omega
    obtain ⟨ent, hent⟩ := Option.isSome_iff_exists.1 (hcells _ hindex)
    obtain ⟨above, habove⟩ := Option.isSome_iff_exists.1 (hcells _ hplt)
    by_cases hgoes : hp.dist index.toNat < hp.dist ((index - 1) / 2).toNat
    · -- the parent is not the root, since the entry is not less than the root
      have hppos : 0 < ((index - 1) / 2).toNat := by
        refine Nat.pos_of_ne_zero fun hzero => ?_
        rw [hzero] at hgoes
        exact absurd hgoes (Nat.not_lt.2 hroot)
      have hsift' := hsift.exchange hpos hindex (by rwa [← hparent])
      rw [← hparent] at hsift'
      have hroot' : (hp.pass (mac ent.node) index ((index - 1) / 2)).dist 0 ≤
          (hp.pass (mac ent.node) index ((index - 1) / 2)).dist ((index - 1) / 2).toNat := by
        rw [pass_dist, Function.comp_apply, Function.comp_apply, Equiv.swap_apply_right,
          Equiv.swap_apply_of_ne_of_ne (by omega) (by omega)]
        exact hroot
      obtain ⟨ps, hp', hrun, hrearranged, hordered, hps⟩ :=
        ih (hcells.pass (mac ent.node) hindex hplt) hppos hplt (by omega) hsift' hroot'
      rw [upheapAt_of_lt mac fuel hent habove hgoes, hrun]
      refine ⟨_, hp', rfl, hrearranged.of_pass hindex hplt, hordered, ?_⟩
      rw [List.forall_mem_cons, List.forall_mem_cons]
      exact ⟨hindex, hplt, hps⟩
    · have hle : hp.dist ((index - 1) / 2).toNat ≤ hp.dist index.toNat := Nat.not_lt.1 hgoes
      refine ⟨_, _, upheapAt_of_le mac fuel hent habove hle, rearranged_setIndex _ _ _, ?_, ?_⟩
      · exact hsift.ordered fun _ => by rwa [← hparent]
      · rw [List.forall_mem_cons, List.forall_mem_singleton]
        exact ⟨hindex, hplt⟩

/-- **An entry that is less than all others climbs to the root and beyond**: if the loop ends at
all, it has looked behind the first `n` cells. -/
theorem upheapAt_beyond (mac : VertexPtr → MAC) {fuel : ℕ} {ps : List ℕ} {hp' : Heap}
    (hcells : hp.Entries n) (hindex : index.toNat < n)
    (hleast : ∀ k ∈ {k | k < n}, k ≠ index.toNat → hp.dist index.toNat < hp.dist k)
    (hrun : hp.upheapAt mac fuel index = some (ps, hp')) : ∃ p ∈ ps, n ≤ p := by
  induction fuel generalizing hp index ps with
  | zero => cases hrun
  | succ fuel ih =>
    by_cases hin : ((index - 1) / 2).toNat < n
    · -- the cell above is another entry, which is greater
      have hne : ((index - 1) / 2).toNat ≠ index.toNat := by
        rw [toNat_parent]
        split_ifs with hzero
        · rw [hzero]
          decide
        · have : index.toNat ≠ 0 := fun heq => hzero (UInt32.toNat_inj.1 heq)
          omega
      obtain ⟨ent, hent⟩ := Option.isSome_iff_exists.1 (hcells _ hindex)
      obtain ⟨above, habove⟩ := Option.isSome_iff_exists.1 (hcells _ hin)
      rw [upheapAt_of_lt mac fuel hent habove (hleast _ hin hne)] at hrun
      obtain ⟨⟨ps', hp''⟩, hrun', heq⟩ := Option.map_eq_some_iff.1 hrun
      obtain ⟨p, hp, hle⟩ := ih (hcells.pass (mac ent.node) hindex hin) hin
        (ArrayHeap.exchange_extreme (S := {k | k < n}) hin hleast)
        (by rw [hrun', ← (Prod.mk.inj heq).2])
      refine ⟨p, ?_, hle⟩
      rw [← (Prod.mk.inj heq).1]
      exact List.mem_cons_of_mem _ (List.mem_cons_of_mem _ hp)
    · refine ⟨((index - 1) / 2).toNat, ?_, Nat.not_lt.1 hin⟩
      obtain ⟨ent, -, hrun⟩ := Option.bind_eq_some_iff.1 hrun
      obtain ⟨above, -, hrun⟩ := Option.bind_eq_some_iff.1 hrun
      split_ifs at hrun
      · obtain ⟨r, -, heq⟩ := Option.bind_eq_some_iff.1 hrun
        rw [← (Prod.mk.inj (Option.some.inj heq)).1]
        simp
      · rw [← (Prod.mk.inj (Option.some.inj hrun)).1]
        simp

end

/-! ## Insertion -/

section

variable {hp : Heap} {ent : Heapent}

@[simp] theorem set_heap (i : UInt32) :
    (hp.set i ent).heap = Function.update hp.heap i.toNat (some ent) := rfl

theorem set_heap_self : (hp.set hp.size ent).heap hp.size.toNat = some ent := by
  rw [set_heap, Function.update_self]

theorem set_heap_of_lt {k : ℕ} (hk : k < hp.size.toNat) :
    (hp.set hp.size ent).heap k = hp.heap k := by
  rw [set_heap, Function.update_of_ne (Nat.ne_of_lt hk)]

theorem set_dist_self : (hp.set hp.size ent).dist hp.size.toNat = ent.dist.toNat :=
  dist_of_eq_some set_heap_self

theorem set_dist_of_lt {k : ℕ} (hk : k < hp.size.toNat) :
    (hp.set hp.size ent).dist k = hp.dist k := by
  rw [dist, set_heap_of_lt hk, dist]

theorem entries_set (hcells : hp.Entries hp.size.toNat) :
    (hp.set hp.size ent).Entries (hp.size.toNat + 1) := by
  intro k hk
  rcases Nat.lt_succ_iff_lt_or_eq.1 hk with hk | rfl
  · rw [set_heap_of_lt hk]
    exact hcells k hk
  · rw [set_heap_self]
    rfl

theorem cells_set : (hp.set hp.size ent).cells (hp.size.toNat + 1) =
    hp.cells hp.size.toNat ++ [some ent] := by
  have hold : (List.range hp.size.toNat).map (hp.set hp.size ent).heap = hp.cells hp.size.toNat :=
    List.map_congr_left fun k hk => set_heap_of_lt (List.mem_range.1 hk)
  rw [cells, List.range_succ, List.map_append, List.map_singleton, set_heap_self, hold]

/-- A new entry at the end of a heap is compared with its parent only. -/
theorem siftUp_set (hordered : ArrayHeap.Ordered hp.dist hp.size.toNat) :
    ArrayHeap.SiftUp (hp.set hp.size ent).dist (hp.size.toNat + 1) hp.size.toNat := by
  constructor
  · intro c hpos hc hne
    have hlt : c < hp.size.toNat := by omega
    have hparent := ArrayHeap.parent_lt hpos
    rw [set_dist_of_lt hlt, set_dist_of_lt (by omega)]
    exact ArrayHeap.ordered_iff.1 hordered c hpos hlt
  · intro _ c hpos hc hparent
    have := ArrayHeap.parent_lt hpos
    omega

/-- An entry less than the root, if there is one, is less than all others. -/
theorem set_least (hordered : ArrayHeap.Ordered hp.dist hp.size.toNat)
    (hroot : 0 < hp.size.toNat → ent.dist.toNat < hp.dist 0) :
    ∀ k ∈ {k | k < hp.size.toNat + 1}, k ≠ hp.size.toNat →
      (hp.set hp.size ent).dist hp.size.toNat < (hp.set hp.size ent).dist k := by
  intro k hk hne
  have hk : k < hp.size.toNat := Nat.lt_of_le_of_ne (Nat.lt_succ_iff.1 hk) hne
  rw [set_dist_self, set_dist_of_lt hk]
  exact Nat.lt_of_lt_of_le (hroot (by omega)) (hordered.root_le hk)

end

section

variable (mac : VertexPtr → MAC) (node : VertexPtr) (dist : UInt32) (hp : Heap)

/-- `heap_insert` before it calls `upheap`: the new entry is behind the others. -/
def appended : Heap := hp.set hp.size ⟨node, none, dist, 0⟩

/-- `heap_insert` returns, having read and written the positions up to `size` only, and leaves a
heap of the old entries and the new one. -/
def InsertsInPlace : Prop :=
  ∃ (fuel : ℕ) (ps : List ℕ) (hp₁ hp' : Heap),
    (hp.appended node dist).upheapAt mac fuel hp.size = some (ps, hp₁) ∧
    (∀ p ∈ ps, p ≤ hp.size.toNat) ∧
    hp.heapInsert mac fuel node dist = some (0, hp') ∧
    hp'.size = hp.size + 1 ∧
    ArrayHeap.Ordered hp'.dist (hp.size.toNat + 1) ∧
    (hp'.cells (hp.size.toNat + 1)).Perm (hp.cells hp.size.toNat ++ [some ⟨node, none, dist, 0⟩])

variable {mac node dist hp}

/-- `heap_insert` is `upheap` on the heap with the new entry. -/
theorem heapInsert_eq {fuel : ℕ} (hmax : hp.size < hp.max) : hp.heapInsert mac fuel node dist =
    ((hp.appended node dist).upheapAt mac fuel hp.size).map fun r =>
      (0, { r.2 with size := r.2.size + 1 }) := by
  have hnot : ¬hp.max ≤ hp.size := by
    rw [UInt32.le_iff_toNat_le, Nat.not_le]
    exact UInt32.lt_iff_toNat_lt.1 hmax
  rw [heapInsert, if_neg hnot]
  change ((hp.appended node dist).upheap mac fuel hp.size).bind _ = _
  rw [← upheapAt_map, Option.map_eq_bind, Option.map_eq_bind, Option.bind_assoc]
  rfl

theorem insertsInPlace_of_le (hmax : hp.size < hp.max) (hcells : hp.Entries hp.size.toNat)
    (hordered : ArrayHeap.Ordered hp.dist hp.size.toNat) (hpos : 0 < hp.size.toNat)
    (hroot : hp.dist 0 ≤ dist.toNat) : hp.InsertsInPlace mac node dist := by
  have hcells' : (hp.appended node dist).Entries (hp.size.toNat + 1) := entries_set hcells
  have hle : (hp.appended node dist).dist 0 ≤ (hp.appended node dist).dist hp.size.toNat := by
    rw [appended, set_dist_self, set_dist_of_lt hpos]
    exact hroot
  obtain ⟨ps, hp₁, hrun, hrearranged, hordered', hps⟩ := upheapAt_ordered mac hcells' hpos
    (Nat.lt_succ_self _) le_rfl (siftUp_set hordered) hle
  refine ⟨_, ps, hp₁, { hp₁ with size := hp₁.size + 1 }, hrun, fun p hp => ?_, ?_, ?_, hordered',
    ?_⟩
  · exact Nat.lt_succ_iff.1 (hps p hp)
  · rw [heapInsert_eq hmax, hrun, Option.map_some]
  · rw [hrearranged.size]
    rfl
  · have hperm := hrearranged.cells_perm
    rw [appended, cells_set] at hperm
    exact hperm

/-- **`heap_insert` stays in the array and keeps the heap exactly if the new entry is not a new
root**: there is an entry, and the first of them is not greater. Otherwise the new entry is compared
with the cell at `(0-1)/2 = 2147483647`. -/
theorem insertsInPlace_iff (mac : VertexPtr → MAC) (node : VertexPtr) (dist : UInt32) (hp : Heap)
    (hmax : hp.size < hp.max) (hcells : hp.Entries hp.size.toNat)
    (hordered : ArrayHeap.Ordered hp.dist hp.size.toNat) :
    hp.InsertsInPlace mac node dist ↔ 0 < hp.size.toNat ∧ hp.dist 0 ≤ dist.toNat := by
  constructor
  · rintro ⟨fuel, ps, hp₁, hp', hrun, hps, -⟩
    by_contra hnot
    have hroot : 0 < hp.size.toNat → dist.toNat < hp.dist 0 := fun hpos =>
      Nat.not_le.1 fun hle => hnot ⟨hpos, hle⟩
    obtain ⟨p, hp, hbeyond⟩ := upheapAt_beyond mac (entries_set hcells) (Nat.lt_succ_self _)
      (set_least hordered hroot) hrun
    exact absurd (hps p hp) (by omega)
  · rintro ⟨hpos, hroot⟩
    exact insertsInPlace_of_le hmax hcells hordered hpos hroot

end

/-- An entry that climbs to the place of its parent, but not to the root. -/
theorem insertsInPlace_climbing :
    (ofDists [1, 5, 3]).InsertsInPlace (fun _ => .replicate 6 0) 3 2 :=
  (insertsInPlace_iff _ _ _ _ (by decide) (by decide) (by decide)).2 (by decide)

/-- The first entry of a heap is compared with the cell at 2147483647. -/
theorem not_insertsInPlace_first :
    ¬(ofDists []).InsertsInPlace (fun _ => .replicate 6 0) 0 1 := by
  rintro ⟨fuel, ps, hp₁, hp', hrun, hps, -⟩
  have hsize : (ofDists []).size = 0 := rfl
  obtain ⟨p, hp, hbeyond⟩ := @upheapAt_beyond ((ofDists []).appended 0 1) (ofDists []).size 1
    (fun _ => .replicate 6 0) fuel ps hp₁ (by decide) (by decide)
    (fun k hk hne => absurd (Nat.lt_one_iff.1 hk) hne) hrun
  have hle := hps p hp
  rw [hsize] at hle
  exact absurd (hbeyond.trans hle) (by decide)

end LinkProxy.Route.Heap
