import LinkProxy.Route.HeapOrder

/-!
# The table of positions

Beside the array of a `Heap` there is a table of the positions of its vertices, by address. Every
exchange in the loop of `downheap` moves two entries. The one that goes down gets its new position
in the table, although the comment speaks of the one that goes up; the position of the latter is not
changed.

So `heap_delete` keeps the table exactly if `downheap` exchanges nothing (`indexFollows_iff`). A
loop that has moved something and then ends cannot have brought all entries back: in their old
places they would have kept it going.
-/

namespace LinkProxy.Route.Heap

open Wire ArrayHeap

/-- The table has the position of every vertex in the heap. -/
def IndexFollows (mac : VertexPtr → MAC) (hp : Heap) : Prop :=
  ∀ i < hp.size.toNat, ∀ ent, hp.heap i = some ent → hp.findIndex (mac ent.node) = some (.ofNat i)

/-- The last entry is not greater than those that are the children of the root without it. -/
def LastStaysAtRoot (hp : Heap) : Prop :=
  (1 < hp.size.toNat - 1 → hp.dist (hp.size.toNat - 1) ≤ hp.dist 1) ∧
    (2 < hp.size.toNat - 1 → hp.dist (hp.size.toNat - 1) ≤ hp.dist 2)

instance (mac : VertexPtr → MAC) (hp : Heap) : Decidable (hp.IndexFollows mac) :=
  inferInstanceAs (Decidable (∀ i < hp.size.toNat, ∀ ent ∈ hp.heap i, _ = some (UInt32.ofNat i)))

instance (hp : Heap) : Decidable hp.LastStaysAtRoot := inferInstanceAs (Decidable (_ ∧ _))

/-! ## The table -/

section

variable {mac : VertexPtr → MAC} {hp hp' : Heap} {i j : ℕ} {a b : Heapent}

theorem findIndex_setIndex_self (m : MAC) (k : UInt32) :
    (hp.setIndex m k).findIndex m = (hp.findIndex m).map fun _ => k := by
  simp only [findIndex, setIndex]
  induction hp.index with
  | nil => rfl
  | cons e es ih =>
    rw [List.map_cons, List.find?_cons, List.find?_cons]
    by_cases he : e.1 = m
    · simp only [he, if_true, beq_self_eq_true, Option.map_some]
    · simp only [he, if_false, beq_eq_false_iff_ne.2 he]
      exact ih

theorem findIndex_setIndex_of_ne {m m' : MAC} (hne : m' ≠ m) (k : UInt32) :
    (hp.setIndex m k).findIndex m' = hp.findIndex m' := by
  simp only [findIndex, setIndex]
  induction hp.index with
  | nil => rfl
  | cons e es ih =>
    rw [List.map_cons, List.find?_cons, List.find?_cons]
    by_cases he : e.1 = m
    · simp only [he, if_true, beq_eq_false_iff_ne.2 hne.symm]
      exact ih
    · simp only [he, if_false]
      split
      · rfl
      · exact ih

theorem ofNat_inj (hi : i < hp.size.toNat) (hj : j < hp.size.toNat)
    (h : UInt32.ofNat i = UInt32.ofNat j) : i = j := by
  have hsize := hp.size.toNat_lt
  have heq := congrArg UInt32.toNat h
  rwa [UInt32.toNat_ofNat_of_lt' (hi.trans hsize),
    UInt32.toNat_ofNat_of_lt' (hj.trans hsize)] at heq

/-- Vertices at different positions have different addresses. -/
theorem IndexFollows.inj (h : hp.IndexFollows mac) (hi : i < hp.size.toNat) (hj : j < hp.size.toNat)
    (ha : hp.heap i = some a) (hb : hp.heap j = some b) (hmac : mac a.node = mac b.node) :
    i = j := by
  have hfind := h i hi a ha
  rw [hmac, h j hj b hb] at hfind
  exact (ofNat_inj hj hi (Option.some.inj hfind)).symm

end

/-! ## The first pass -/

section

variable {mac : VertexPtr → MAC} {fuel : ℕ} {hp hp' : Heap} {r : Option Heapent}

theorem moved_dist_zero (hsize : 1 ≤ hp.size.toNat) :
    hp.moved.dist 0 = hp.dist (hp.size.toNat - 1) := by
  rw [dist, moved_heap_zero, toNat_moved_size hsize, dist]

/-- The loop does not begin exactly if the last entry stays at the root. -/
theorem lastStaysAtRoot_iff (hsize : 1 ≤ hp.size.toNat) :
    hp.LastStaysAtRoot ↔ ¬hp.moved.Less 0 1 ∧ ¬hp.moved.Less 0 2 := by
  have hone : hp.moved.Less 0 1 ↔ 1 < hp.size.toNat - 1 ∧
      hp.dist 1 < hp.dist (hp.size.toNat - 1) := by
    rw [← moved_dist_zero hsize, ← toNat_moved_size hsize, ← moved_dist_of_pos Nat.one_pos]
    rfl
  have htwo : hp.moved.Less 0 2 ↔ 2 < hp.size.toNat - 1 ∧
      hp.dist 2 < hp.dist (hp.size.toNat - 1) := by
    rw [← moved_dist_zero hsize, ← toNat_moved_size hsize, ← moved_dist_of_pos Nat.two_pos]
    rfl
  rw [hone, htwo, not_and, not_and, Nat.not_lt, Nat.not_lt]
  rfl

/-- **If the last entry stays at the root, the table is kept.** -/
theorem heapDelete_indexFollows (hsize : 1 ≤ hp.size.toNat) (hcells : hp.Entries hp.size.toNat)
    (hindex : hp.IndexFollows mac) (hstays : hp.LastStaysAtRoot) :
    ∃ fuel r hp', hp.heapDelete mac fuel = some (r, hp') ∧ hp'.IndexFollows mac := by
  obtain ⟨hleft, hright⟩ := (lastStaysAtRoot_iff hsize).1 hstays
  obtain ⟨hentries, hroot⟩ := entries_moved hsize hcells
  obtain ⟨last, hlast⟩ := Option.isSome_iff_exists.1 hroot
  have hrun := @downheapAt_of_not_less hp.moved 0 1 2 last mac 0 hlast hentries hleft hright
  refine ⟨1, hp.heap 0, hp.moved.setIndex (mac last.node) 0, ?_, ?_⟩
  · rw [heapDelete_eq hsize, hrun, Option.map_some]
  have hmoved := toNat_moved_size hsize
  rw [moved_heap_zero, hmoved] at hlast
  intro i hi ent hent
  have hi' : i < hp.size.toNat - 1 := hmoved ▸ hi
  rcases Nat.eq_zero_or_pos i with rfl | hpos
  · obtain rfl : last = ent := by
      have hent : hp.moved.heap 0 = some ent := hent
      rw [moved_heap_zero, hmoved, hlast] at hent
      exact Option.some.inj hent
    rw [findIndex_setIndex_self]
    show (hp.findIndex (mac last.node)).map _ = _
    rw [hindex _ (by omega) last hlast]
    rfl
  · have hent : hp.heap i = some ent := moved_heap_of_pos hpos ▸ hent
    have hne : mac ent.node ≠ mac last.node := by
      intro hmac
      have := hindex.inj (by omega) (by omega) hent hlast hmac
      omega
    rw [findIndex_setIndex_of_ne hne]
    exact hindex i (by omega) ent hent

/-! ## Behind the first pass -/

/-- What `downheap` does to the table and to the entry that goes down. -/
structure Sinks (mac : VertexPtr → MAC) (hp₀ : Heap) (x : Heapent) (hp : Heap) (index : UInt32) :
    Prop where
  rearranged : Rearranged (leftPath hp₀.size.toNat) hp₀ hp
  entry : hp.heap index.toNat = some x
  others : ∀ m ≠ mac x.node, hp.findIndex m = hp₀.findIndex m

theorem Sinks.pass {hp₀ : Heap} {x : Heapent} {index j : UInt32} (h : Sinks mac hp₀ x hp index)
    (hi : index.toNat ∈ leftPath hp₀.size.toNat) (hj : j.toNat ∈ leftPath hp₀.size.toNat) :
    Sinks mac hp₀ x (hp.pass (mac x.node) index j) j where
  rearranged := h.rearranged.pass hi hj
  entry := by rw [pass_heap, Function.comp_apply, Equiv.swap_apply_right, h.entry]
  others m hm := (findIndex_setIndex_of_ne hm j).trans (h.others m hm)

/-- Where the loop ends. -/
theorem downheapAt_sinks {ps : List ℕ} {x : Heapent} (hcells : hp.Entries hp.size.toNat)
    (hx : hp.heap 0 = some x) (hrun : hp.downheapAt mac fuel 0 1 2 = some (ps, hp')) :
    ∃ last : UInt32, Sinks mac hp x hp' last ∧ (last = 0 ∨ last.toNat < hp.size.toNat) ∧
      ¬hp'.Less last (2 * last + 1) ∧ ¬hp'.Less last (2 * last + 2) := by
  have hroot : (hp.heap 0).isSome := by
    rw [hx]
    rfl
  obtain ⟨hp₁, last, ent, hP, hent, hlast, hleft, hright, rfl⟩ :=
    @downheapAt_rule mac fuel hp hp' 0 ps (Sinks mac hp x)
      (fun hp₁ index ent _ hmem hent hmem' hP => by
        rw [hP.rearranged.size] at hmem hmem'
        obtain rfl : x = ent := Option.some.inj (hP.entry.symm.trans hent)
        exact hP.pass hmem hmem')
      hcells hroot (.inl rfl) ⟨.refl _ _, hx, fun _ _ => rfl⟩ hrun
  obtain rfl : x = ent := Option.some.inj (hP.entry.symm.trans hent)
  refine ⟨last, ⟨hP.rearranged.setIndex _ _, hP.entry, fun m hm => ?_⟩, ?_, hleft, hright⟩
  · rw [findIndex_setIndex_of_ne hm]
    exact hP.others m hm
  · rcases hlast with hzero | hmem
    · exact .inl (UInt32.toNat_inj.1 hzero)
    · rw [hP.rearranged.size] at hmem
      exact .inr hmem.1

/-- The address of an entry that stays, and not that of the entry that goes down. -/
theorem exists_of_moved (hsize : 1 ≤ hp.size.toNat) (hcells : hp.Entries hp.size.toNat)
    (hindex : hp.IndexFollows mac) {x : Heapent} (hx : hp.moved.heap 0 = some x) {k : ℕ}
    (hpos : 0 < k) (hk : k < hp.moved.size.toNat) : ∃ ent, hp.moved.heap k = some ent ∧
      mac ent.node ≠ mac x.node ∧ hp.findIndex (mac ent.node) = some (.ofNat k) := by
  rw [toNat_moved_size hsize] at hk
  rw [moved_heap_zero, toNat_moved_size hsize] at hx
  obtain ⟨ent, hent⟩ := Option.isSome_iff_exists.1 (hcells k (by omega))
  refine ⟨ent, (moved_heap_of_pos hpos).trans hent, fun hmac => ?_, hindex k (by omega) ent hent⟩
  have := hindex.inj (by omega) (by omega) hent hx hmac
  omega

/-- **Entries that are where the table says have not been moved.** -/
theorem heap_eq_of_indexFollows (hsize : 1 ≤ hp.size.toNat) (hcells : hp.Entries hp.size.toNat)
    (hindex : hp.IndexFollows mac) {x : Heapent} {last : UInt32} (hx : hp.moved.heap 0 = some x)
    (hsinks : Sinks mac hp.moved x hp' last) (hindex' : hp'.IndexFollows mac) :
    hp'.heap = hp.moved.heap := by
  obtain ⟨hsize', σ, hσ, hheap⟩ := hsinks.rearranged
  have hmem : ∀ k, σ k < hp.moved.size.toNat → k < hp.moved.size.toNat := fun k hk => by
    by_contra hnot
    exact hnot (hσ k (fun hpath => hnot hpath.1) ▸ hk)
  -- an entry other than the one that goes down has kept its place in the table
  have hfix : ∀ k, 0 < σ k → σ k < hp.moved.size.toNat → σ k = k := by
    intro k hpos hk
    obtain ⟨ent, hent, hne, hfind⟩ := exists_of_moved hsize hcells hindex hx hpos hk
    have hent' : hp'.heap k = some ent := by
      rw [hheap, Function.comp_apply, hent]
    have hfind' := hindex' k (hsize'.symm ▸ hmem k hk) ent hent'
    rw [hsinks.others _ hne] at hfind'
    have heq : some (UInt32.ofNat (σ k)) = some (UInt32.ofNat k) := hfind.symm.trans hfind'
    exact ofNat_inj hk (hmem k hk) (Option.some.inj heq)
  have hid : ∀ k, σ k = k := by
    intro k
    by_cases hk : σ k < hp.moved.size.toNat
    · rcases Nat.eq_zero_or_pos (σ k) with hzero | hpos
      · -- only the root is left for the root
        by_contra hne
        have hk0 : 0 < k := Nat.pos_of_ne_zero fun heq => hne (by rw [hzero, heq])
        have hσk := σ.apply_symm_apply k
        have hback := hfix (σ.symm k) (by rwa [hσk]) (by rw [hσk]; exact hmem k hk)
        rw [hσk] at hback
        rw [← hback] at hσk
        exact hne hσk
      · exact hfix k hpos hk
    · refine hσ k fun hpath => ?_
      exact hk (mem_of_fixes hσ hpath).1
  rw [hheap]
  ext k
  rw [Function.comp_apply, hid]

/-- **If the loop begins, the table is not kept.** -/
theorem lastStaysAtRoot_of_indexFollows (hsize : 1 ≤ hp.size.toNat)
    (hcells : hp.Entries hp.size.toNat) (hindex : hp.IndexFollows mac)
    (hrun : hp.heapDelete mac fuel = some (r, hp')) (hindex' : hp'.IndexFollows mac) :
    hp.LastStaysAtRoot := by
  obtain ⟨hentries, hroot⟩ := entries_moved hsize hcells
  obtain ⟨x, hx⟩ := Option.isSome_iff_exists.1 hroot
  rw [heapDelete_eq hsize] at hrun
  obtain ⟨⟨ps, hp''⟩, hrun', heq⟩ := Option.map_eq_some_iff.1 hrun
  obtain rfl : hp'' = hp' := (Prod.mk.inj heq).2
  obtain ⟨last, hsinks, hlast, hleft, hright⟩ := downheapAt_sinks hentries hx hrun'
  have hheap := heap_eq_of_indexFollows hsize hcells hindex hx hsinks hindex'
  have hdist : hp''.dist = hp.moved.dist := by
    ext k
    rw [dist, hheap, dist]
  obtain rfl : last = 0 := by
    rcases hlast with hzero | hlt
    · exact hzero
    · by_contra hne
      have hpos : 0 < last.toNat := Nat.pos_of_ne_zero fun h => hne (UInt32.toNat_inj.1 h)
      obtain ⟨ent, hent, hmac, -⟩ := exists_of_moved hsize hcells hindex hx hpos hlt
      have hentry := hsinks.entry
      rw [hheap, hent] at hentry
      exact hmac (congrArg (fun e => mac e.node) (Option.some.inj hentry))
  -- at the root the loop ends as it would have ended at once
  rw [Less, hsinks.rearranged.size, hdist] at hleft hright
  exact (lastStaysAtRoot_iff hsize).2 ⟨hleft, hright⟩

end

/-- **The table follows the heap exactly if the last entry stays at the root**: it is not greater
than the children that the root has without it. -/
theorem indexFollows_iff (mac : VertexPtr → MAC) (hp : Heap) (hcells : hp.Entries hp.size.toNat)
    (hindex : hp.IndexFollows mac) :
    (∃ fuel r hp', hp.heapDelete mac fuel = some (r, hp') ∧ hp'.IndexFollows mac) ↔
      hp.LastStaysAtRoot := by
  rcases Nat.eq_zero_or_pos hp.size.toNat with hzero | hsize
  · -- an empty heap is left as it is
    have hsize : hp.size = 0 := UInt32.toNat_inj.1 hzero
    refine iff_of_true ⟨0, none, hp, ?_, hindex⟩ ⟨fun h => ?_, fun h => ?_⟩
    · rw [heapDelete, if_pos hsize]
    · omega
    · omega
  · constructor
    · rintro ⟨fuel, r, hp', hrun, hindex'⟩
      exact lastStaysAtRoot_of_indexFollows hsize hcells hindex hrun hindex'
    · exact heapDelete_indexFollows hsize hcells hindex

/-- A heap with the given distances and the table of its positions. -/
def indexed (ds : List UInt32) : Heap :=
  { ofDists ds with
    index := (List.range ds.length).map fun i => (.replicate 6 (.ofNat i), .ofNat i) }

/-- The address of a vertex of such a heap. -/
def numberedMac (v : VertexPtr) : MAC := .replicate 6 (.ofNat v)

/-- The last of four entries is less than the children of the root, and stays there. -/
theorem indexFollows_four : ∃ fuel r hp',
    (indexed [0, 3, 4, 2]).heapDelete numberedMac fuel = some (r, hp') ∧
      hp'.IndexFollows numberedMac :=
  (indexFollows_iff numberedMac _ (by decide) (by decide)).2 (by decide)

/-- The last of three entries goes down again, and the table has the entry that replaces it at its
old position. -/
theorem not_indexFollows_three : (indexed [0, 1, 2]).Entries 3 ∧
    (indexed [0, 1, 2]).IndexFollows numberedMac ∧
      ¬∃ fuel r hp', (indexed [0, 1, 2]).heapDelete numberedMac fuel = some (r, hp') ∧
        hp'.IndexFollows numberedMac := by
  refine ⟨by decide, by decide, ?_⟩
  rintro ⟨fuel, r, hp', hrun, hindex'⟩
  exact absurd (lastStaysAtRoot_of_indexFollows (by decide) (by decide) (by decide) hrun hindex')
    (by decide)

end LinkProxy.Route.Heap
