import LinkProxy.Route.Evaluation
import LinkProxy.Uthash.Iteration

/-!
# The memory of the graph

`graph_free` goes through the vertices of a graph with `HASH_ITER`, and in every turn through the
edges of the vertex with another one, taking each element out of its table and freeing it in the
turn that visits it. `graphFree` is this loop in a loop on the links of the tables. For a graph
whose tables are sound and share no edge it frees every vertex and every edge in them once, uses
nothing after it has been freed, and leaves empty tables (`graphFree_eq`).

What it frees is not what `evaluate_record` has allocated: the vertex that is allocated for a second
proxy is never in `network`. So after any records, some memory is not freed (`graphFree_frees_iff`).
-/

namespace LinkProxy.Route

open Bytes Wire Uthash

/-! ## `graph_free` -/

/-- The tables of edges, and the edges that have been freed. -/
structure NbrTables where
  nbrs : VertexPtr → Hash EdgePtr
  freed : List EdgePtr

/-- The inner loop: free the edges of a vertex. -/
def freeNbrs (v : VertexPtr) (st : NbrTables) : Option NbrTables := do
  let it ← hashIter (fun _ _ => some (true, ())) ⟨st.nbrs v, st.freed, ()⟩
  return ⟨Function.update st.nbrs v it.table, it.freed⟩

/-- `graph_free`, with the vertices and the edges that it has freed. -/
def graphFree (g : Hash VertexPtr) (nbrs : VertexPtr → Hash EdgePtr) :
    Option (Iter VertexPtr NbrTables) :=
  hashIter (fun v st => (freeNbrs v st).map fun st => (true, st)) ⟨g, [], ⟨nbrs, []⟩⟩

namespace Network

/-- The tables of `uthash.h` with the vertices and the edges of a graph. -/
structure Linked (hash : MAC → UInt32) (g : Network) (network : Hash VertexPtr)
    (nbrs : VertexPtr → Hash EdgePtr) : Prop where
  network : Rep hash g.mac network g.order
  nbrs : ∀ v ∈ g.order, Rep hash (fun e => g.mac (g.edge e).node) (nbrs v) (g.vertex v).nbrs

/-- The edges in the tables of some vertices. -/
def edgesOf (g : Network) (vs : List VertexPtr) : List EdgePtr := vs.flatMap fun v => (g.vertex v).nbrs

section

variable {hash : MAC → UInt32} {g : Network} {V : Set VertexPtr} {E : Set EdgePtr}
  {network : Hash VertexPtr} {nbrs : VertexPtr → Hash EdgePtr}

theorem visitAll_remove (l : List EdgePtr) :
    visitAll (fun _ _ => some (true, ())) l () = some ([], l, ()) := by
  induction l with
  | nil => rfl
  | cons e l ih => simp [visitAll, ih]

/-- The inner loop frees the edges of its vertex. -/
theorem freeNbrs_eq {v : VertexPtr} {st : NbrTables}
    (h : Rep hash (fun e => g.mac (g.edge e).node) (st.nbrs v) (g.vertex v).nbrs)
    (hlive : ∀ e ∈ (g.vertex v).nbrs, e ∉ st.freed) :
    ∃ t, freeNbrs v st = some ⟨Function.update st.nbrs v t, st.freed ++ (g.vertex v).nbrs⟩ ∧
      t.head = none := by
  have hiter := hashIter_eq (s := ⟨st.nbrs v, st.freed, ()⟩) (fun _ _ => some (true, ()))
    ⟨h, hlive⟩
  rw [visitAll_remove] at hiter
  obtain ⟨t, ht, hrep⟩ := hiter
  refine ⟨t, ?_, hrep.head⟩
  rw [freeNbrs, ht]
  rfl

/-- The outer loop, vertex by vertex. -/
theorem visitAll_freeNbrs {vs : List VertexPtr} {st : NbrTables} (hvs : vs.Nodup)
    (h : ∀ v ∈ vs, Rep hash (fun e => g.mac (g.edge e).node) (st.nbrs v) (g.vertex v).nbrs)
    (hedges : (st.freed ++ g.edgesOf vs).Nodup) :
    ∃ st', visitAll (fun v st => (freeNbrs v st).map fun st => (true, st)) vs st =
        some ([], vs, st') ∧ st'.freed = st.freed ++ g.edgesOf vs ∧
      (∀ v ∈ vs, (st'.nbrs v).head = none) ∧ ∀ v ∉ vs, st'.nbrs v = st.nbrs v := by
  induction vs generalizing st with
  | nil => exact ⟨st, rfl, by simp [edgesOf], by simp, fun _ _ => rfl⟩
  | cons v vs ih =>
    obtain ⟨hv, hvs⟩ := List.nodup_cons.1 hvs
    have hsplit : g.edgesOf (v :: vs) = (g.vertex v).nbrs ++ g.edgesOf vs := List.flatMap_cons
    rw [hsplit, ← List.append_assoc] at hedges
    have hlive : ∀ e ∈ (g.vertex v).nbrs, e ∉ st.freed := fun e he hfreed =>
      (List.nodup_append.1 (List.nodup_append.1 hedges).1).2.2 e hfreed e he rfl
    obtain ⟨t, ht, hhead⟩ := freeNbrs_eq (h v (by simp)) hlive
    have hother (w : VertexPtr) (hw : w ∈ vs) : w ≠ v := fun heq => hv (heq ▸ hw)
    have hnbrs : ∀ w ∈ vs, Rep hash (fun e => g.mac (g.edge e).node)
        (Function.update st.nbrs v t w) (g.vertex w).nbrs := fun w hw => by
      simpa [hother w hw] using h w (by simp [hw])
    obtain ⟨st', hst', hfreed, hempty, hrest⟩ :=
      @ih ⟨Function.update st.nbrs v t, st.freed ++ (g.vertex v).nbrs⟩ hvs hnbrs hedges
    refine ⟨st', by simp [visitAll, ht, hst'], ?_, List.forall_mem_cons.2 ⟨?_, hempty⟩, ?_⟩
    · rw [hfreed, hsplit, List.append_assoc]
    · rw [hrest v hv]
      simpa using hhead
    · intro w hw
      simp only [List.mem_cons, not_or] at hw
      rw [hrest w hw.2]
      simp [hw.1]

/-- The tables of a graph share no edge. -/
theorem WellFormed.nodup_edgesOf (h : g.WellFormed V E) (hlinks : Linked hash g network nbrs) :
    (g.edgesOf g.order).Nodup := by
  refine List.nodup_flatMap.2 ⟨fun v hv => (hlinks.nbrs v hv).order.nodup, ?_⟩
  refine hlinks.network.order.nodup.imp_of_mem ?_
  intro v w hv hw hne e hev hew
  exact hne (h.apart v hv w hw e hev hew)

/-- **`graph_free` frees what is in the tables**: it ends, every vertex and every edge in them is
freed, and nothing else, none is freed twice or used afterwards, and the tables are empty. -/
theorem graphFree_eq (h : g.WellFormed V E) (hlinks : Linked hash g network nbrs) :
    ∃ it, graphFree network nbrs = some it ∧ it.freed = g.order ∧ it.st.freed = g.edgesOf g.order ∧
      it.table.head = none ∧ ∀ v ∈ g.order, (it.st.nbrs v).head = none := by
  have hedges : (([] : List EdgePtr) ++ g.edgesOf g.order).Nodup := h.nodup_edgesOf hlinks
  obtain ⟨st, hst, hfreed, hempty, -⟩ :=
    @visitAll_freeNbrs _ _ g.order ⟨nbrs, []⟩ hlinks.network.order.nodup hlinks.nbrs hedges
  have hiter := hashIter_eq (s := ⟨network, [], ⟨nbrs, []⟩⟩)
    (fun v st => (freeNbrs v st).map fun st => (true, st)) ⟨hlinks.network, by simp⟩
  rw [hst] at hiter
  obtain ⟨t, ht, hrep⟩ := hiter
  exact ⟨_, ht, by simp, by simpa using hfreed, hrep.head, hempty⟩

end

/-! ## What `evaluate_record` allocates -/

/-- The vertices that a call of `evaluate_record` allocates. -/
def mallocVertices (g : Network) (r : LinkStateRecord) (new : Fresh) : List VertexPtr :=
  let node := if g.find r.proxy2.tapMAC = none then [new.node] else []
  match g.find r.proxy1.tapMAC with
  | none => new.v :: node
  | some v => match g.findNbr v r.proxy2.tapMAC with
    | none => node
    | some _ => []

/-- The edge that it allocates. One that is there is refreshed. -/
def mallocEdges (g : Network) (r : LinkStateRecord) (new : Fresh) : List EdgePtr :=
  match g.find r.proxy1.tapMAC with
  | none => [new.e]
  | some v => match g.findNbr v r.proxy2.tapMAC with
    | none => [new.e]
    | some _ => []

/-- The objects that the calls for some records allocate. -/
def Allocated (mallocs : Network → LinkStateRecord → Fresh → List ℕ) (dm : DataModel)
    (new : ℕ → Fresh) (g : Network) (rs : List LinkStateRecord) : Set ℕ :=
  {x | ∃ us r ws, rs = us ++ r :: ws ∧ x ∈ mallocs (g.evaluateAll dm new us) r (new us.length)}

section

variable {dm : DataModel} {new : ℕ → Fresh} {g : Network} {rs : List LinkStateRecord}
  {v x : VertexPtr}

theorem allocated_concat {mallocs : Network → LinkStateRecord → Fresh → List ℕ}
    {r : LinkStateRecord} (h : x ∈ Allocated mallocs dm new g rs) :
    x ∈ Allocated mallocs dm new g (rs ++ [r]) := by
  obtain ⟨us, r', ws, rfl, hx⟩ := h
  exact ⟨us, r', ws ++ [r], by simp, hx⟩

/-- The vertices in `network` have been allocated for the first proxies of records. -/
theorem mem_order_evaluateAll (hnew : Allocates new) (hg : g.order = [])
    (hx : x ∈ (g.evaluateAll dm new rs).order) :
    x ∈ Allocated mallocVertices dm new g rs ∧ ∃ i, x = (new i).v := by
  induction rs using List.reverseRecOn with
  | nil =>
    have hnil : x ∈ g.order := hx
    rw [hg] at hnil
    cases hnil
  | append_singleton rs r ih =>
    have hwell := wellFormed_evaluateAll dm hnew hg rs
    rw [evaluateAll_concat] at hx
    obtain ⟨hfind, hs⟩ | ⟨u, -, -, hs⟩ | ⟨u, e, -, -, heq⟩ :=
      @WellFormed.evaluateRecord_cases _ _ _ dm r _ hwell (hnew.unused _)
    · rw [hs.order, List.mem_append, List.mem_singleton] at hx
      rcases hx with hx | rfl
      · exact ⟨allocated_concat (ih hx).1, (ih hx).2⟩
      · exact ⟨⟨rs, r, [], rfl, by simp [mallocVertices, hfind]⟩, rs.length, rfl⟩
    · rw [hs.order] at hx
      exact ⟨allocated_concat (ih hx).1, (ih hx).2⟩
    · rw [heq] at hx
      exact ⟨allocated_concat (ih hx).1, (ih hx).2⟩

/-- The edges in the tables have been allocated. -/
theorem mem_nbrs_evaluateAll (hnew : Allocates new) (hg : g.order = []) {e : EdgePtr}
    (hv : v ∈ (g.evaluateAll dm new rs).order)
    (he : e ∈ ((g.evaluateAll dm new rs).vertex v).nbrs) :
    e ∈ Allocated mallocEdges dm new g rs := by
  induction rs using List.reverseRecOn with
  | nil =>
    have hnil : v ∈ g.order := hv
    rw [hg] at hnil
    cases hnil
  | append_singleton rs r ih =>
    have hwell := wellFormed_evaluateAll dm hnew hg rs
    rw [evaluateAll_concat] at hv he
    obtain ⟨hfind, hs⟩ | ⟨u, hfind, hnbr, hs⟩ | ⟨u, e', -, -, heq⟩ :=
      @WellFormed.evaluateRecord_cases _ _ _ dm r _ hwell (hnew.unused _)
    · obtain ⟨rfl, rfl⟩ | ⟨hv, he⟩ := (hs.entered hwell (hnew.unused _)).nbrs v hv e he
      · exact ⟨rs, r, [], rfl, by simp [mallocEdges, hfind]⟩
      · exact allocated_concat (ih hv he)
    · obtain ⟨rfl, rfl⟩ | ⟨hv, he⟩ := (hs.entered (hnew.unused _)).nbrs v hv e he
      · exact ⟨rs, r, [], rfl, by simp [mallocEdges, hfind, hnbr]⟩
      · exact allocated_concat (ih hv he)
    · rw [heq] at hv he
      exact allocated_concat (ih hv he)

/-- The first record has a vertex allocated for its second proxy. -/
theorem node_mem_allocated (hg : g.order = []) (r : LinkStateRecord) (rs : List LinkStateRecord) :
    (new 0).node ∈ Allocated mallocVertices dm new g (r :: rs) := by
  have hfind (a : MAC) : g.find a = none := by simp [find, hg]
  refine ⟨[], r, rs, rfl, ?_⟩
  simp [mallocVertices, evaluateAll, hfind]

/-- **The memory of the graph.** After any records, `graph_free` frees the vertices of `network` and
the edges in their tables, each of them once, and only what `evaluate_record` has allocated; nothing
is used after it has been freed. No vertex that has been allocated for a second proxy is among them,
so all vertices are freed if and only if there have been no records. -/
theorem graphFree_frees_iff (dm : DataModel) (hash : MAC → UInt32) (hnew : Allocates new)
    (hg : g.order = []) (rs : List LinkStateRecord) {network : Hash VertexPtr}
    {nbrs : VertexPtr → Hash EdgePtr}
    (hlinks : Linked hash (g.evaluateAll dm new rs) network nbrs) :
    ∃ it, graphFree network nbrs = some it ∧
      it.freed = (g.evaluateAll dm new rs).order ∧ it.freed.Nodup ∧
      it.st.freed = (g.evaluateAll dm new rs).edgesOf it.freed ∧ it.st.freed.Nodup ∧
      (∀ x ∈ it.freed, x ∈ Allocated mallocVertices dm new g rs) ∧
      (∀ e ∈ it.st.freed, e ∈ Allocated mallocEdges dm new g rs) ∧
      (∀ i, (new i).node ∉ it.freed) ∧
      ((∀ x ∈ Allocated mallocVertices dm new g rs, x ∈ it.freed) ↔ rs = []) := by
  have hwell := wellFormed_evaluateAll dm hnew hg rs
  obtain ⟨it, hrun, hfreed, hedges, -, -⟩ := graphFree_eq hwell hlinks
  have hnode (i : ℕ) : (new i).node ∉ it.freed := by
    intro hmem
    rw [hfreed] at hmem
    obtain ⟨-, j, hj⟩ := mem_order_evaluateAll hnew hg hmem
    exact hnew.ne j i hj.symm
  refine ⟨it, hrun, hfreed, hfreed ▸ hlinks.network.order.nodup, hfreed ▸ hedges,
    hedges ▸ hwell.nodup_edgesOf hlinks, ?_, ?_, hnode, ?_⟩
  · intro x hx
    exact (mem_order_evaluateAll hnew hg (hfreed ▸ hx)).1
  · intro e he
    rw [hedges] at he
    obtain ⟨v, hv, hev⟩ := List.mem_flatMap.1 he
    exact mem_nbrs_evaluateAll hnew hg hv hev
  · constructor
    · intro hall
      cases rs with
      | nil => rfl
      | cons r rs => exact absurd (hall _ (node_mem_allocated hg r rs)) (hnode 0)
    · rintro rfl x ⟨us, r, ws, heq, -⟩
      simp at heq

end

/-- A table without elements. -/
def noTable : Hash ℕ :=
  ⟨none, fun _ => ⟨none, 0, 0⟩, 0, 0, none, 0, 0, 0, false, fun _ => none, fun _ => none,
    fun _ => none, fun _ => none, fun _ => 0⟩

/-- Two edges of one proxy, and one of another: the vertices of these two and the three edges are
freed, the vertices of the second proxies are not. -/
theorem graphFree_frees_three : ∃ network nbrs it,
    Linked (fun _ => 0)
      (empty.evaluateAll .lp64 heap [edgeRecord 1 2, edgeRecord 1 3, edgeRecord 2 3]) network nbrs ∧
    graphFree network nbrs = some it ∧ it.freed = [0, 4] ∧ it.st.freed = [0, 1, 2] ∧
    ¬∀ x ∈ Allocated mallocVertices .lp64 heap empty
      [edgeRecord 1 2, edgeRecord 1 3, edgeRecord 2 3], x ∈ it.freed := by
  let hash : MAC → UInt32 := fun _ => 0
  let proxy (i : UInt8) : MAC := .replicate 6 i
  let first := hashAdd hash (proxy 3) 1 (hashAdd hash (proxy 2) 0 noTable)
  let second := hashAdd hash (proxy 3) 2 noTable
  have hlinks : Linked hash
      (empty.evaluateAll .lp64 heap [edgeRecord 1 2, edgeRecord 1 3, edgeRecord 2 3])
      (hashAdd hash (proxy 2) 4 (hashAdd hash (proxy 1) 0 noTable))
      fun v => if v = 0 then first else second := by
    refine ⟨?_, fun v hv => ?_⟩
    · exact Rep.add (l := [0]) (p := 4) (Rep.add (l := []) (p := 0) (rep_nil rfl) (by simp)
        (by simp)) (by decide) (by decide)
    · have hv : v ∈ [0, 4] := hv
      obtain rfl | rfl : v = 0 ∨ v = 4 := by simpa using hv
      · exact Rep.add (l := [0]) (p := 1) (Rep.add (l := []) (p := 0) (rep_nil rfl) (by simp)
          (by simp)) (by decide) (by decide)
      · exact Rep.add (t := noTable) (l := []) (p := 2) (rep_nil rfl) (by simp) (by simp)
  obtain ⟨it, hrun, hfreed, -, hedges, -, -, -, -, hall⟩ :=
    graphFree_frees_iff .lp64 hash allocates_heap rfl
      [edgeRecord 1 2, edgeRecord 1 3, edgeRecord 2 3] hlinks
  refine ⟨_, _, it, hlinks, hrun, hfreed, ?_, fun h => absurd (hall.1 h) (by simp)⟩
  rw [hedges, hfreed]
  rfl

end Network

end LinkProxy.Route
