import LinkProxy.Operations.LockBalance

/-!
# Removal from the network

`remove_from_network` is to take a proxy out of the network graph: its vertex with its edges, and
the edges to it in the tables of the other vertices. As its `return` is not under the `if`, it never
gets there. So it does what it is for exactly if there is nothing to remove (`removed_iff`).
-/

namespace LinkProxy.Operations

open Wire Lock Route

/-- **A proxy has been removed everywhere, and nothing else has**: no vertex has its address and no
edge its key; the other vertices, in their order, have their `link_state`, and their edges except
for those to the proxy; these edges are unchanged; and if the proxy was not in the network, then
everything is. -/
structure Removed (mac : MAC) (g g' : Network) : Prop where
  vertices : ∀ v ∈ g'.order, g'.mac v ≠ mac
  edges : ∀ v ∈ g'.order, ∀ e ∈ (g'.vertex v).nbrs, g'.mac (g'.edge e).node ≠ mac
  order : g'.order = g.order.filter fun v => g.mac v ≠ mac
  vertex : ∀ v ∈ g'.order, g'.vertex v = { g.vertex v with
    nbrs := (g.vertex v).nbrs.filter fun e => g.mac (g.edge e).node ≠ mac }
  edge : ∀ v ∈ g'.order, ∀ e ∈ (g'.vertex v).nbrs, g'.edge e = g.edge e
  absent : g.find mac = none → g' = g

/-- No vertex has the address, and no edge the key. -/
def Nowhere (mac : MAC) (g : Network) : Prop :=
  ∀ v ∈ g.order, g.mac v ≠ mac ∧ ∀ e ∈ (g.vertex v).nbrs, g.mac (g.edge e).node ≠ mac

instance (mac : MAC) (g : Network) : Decidable (Nowhere mac g) :=
  inferInstanceAs (Decidable (∀ v ∈ g.order, _ ∧ ∀ e ∈ (g.vertex v).nbrs, _))

section

variable {ι : Type} {i : ι} {pp : VertexPtr} {w w' : Proc ι} {g : Network} {mac : MAC}

/-- The network is not changed. -/
theorem removeFromNetwork_network (h : removeFromNetwork i pp w = some w') :
    w'.network = w.network := by
  obtain ⟨l, -, h⟩ := Option.bind_eq_some_iff.1 h
  split at h
  · obtain ⟨l', -, h⟩ := Option.bind_eq_some_iff.1 h
    obtain rfl := Option.some.inj h
    rfl
  · obtain rfl := Option.some.inj h
    rfl

/-- A call that gets the lock returns. -/
theorem removeFromNetwork_isSome {l : RwLock ι} (hl : w.lock.writeBegin i = some l) :
    ∃ w', removeFromNetwork i pp w = some w' := by
  rw [removeFromNetwork, hl]
  cases w.network.find (w.network.mac pp) with
  | none =>
    rw [Option.bind_eq_bind, Option.bind_some, RwLock.writeEnd_writeBegin hl]
    exact ⟨_, rfl⟩
  | some v => exact ⟨_, rfl⟩

/-- An unchanged network is one from which nothing had to be removed. -/
theorem removed_self_iff : Removed mac g g ↔ Nowhere mac g := by
  constructor
  · intro h v hv
    exact ⟨h.vertices v hv, h.edges v hv⟩
  · intro h
    refine ⟨fun v hv => (h v hv).1, fun v hv => (h v hv).2, ?_, fun v hv => ?_, fun _ _ _ _ => rfl,
      fun _ => rfl⟩
    · refine (List.filter_eq_self.2 fun v hv => ?_).symm
      exact decide_eq_true (h v hv).1
    · have hnbrs : (g.vertex v).nbrs.filter (fun e => g.mac (g.edge e).node ≠ mac) =
          (g.vertex v).nbrs := by
        refine List.filter_eq_self.2 fun e he => ?_
        exact decide_eq_true ((h v hv).2 e he)
      rw [hnbrs]

end

/-- **When `remove_from_network` removes a proxy everywhere and nothing else**: it is nowhere. -/
theorem removed_iff {ι : Type} {i : ι} {l : RwLock ι} (w : Proc ι) (pp : VertexPtr)
    (hl : w.lock.writeBegin i = some l) :
    (∃ w', removeFromNetwork i pp w = some w' ∧
      Removed (w.network.mac pp) w.network w'.network) ↔ Nowhere (w.network.mac pp) w.network := by
  rw [← removed_self_iff]
  constructor
  · rintro ⟨w', hw', h⟩
    rwa [removeFromNetwork_network hw'] at h
  · intro h
    obtain ⟨w', hw'⟩ := removeFromNetwork_isSome hl
    refine ⟨w', hw', ?_⟩
    rwa [removeFromNetwork_network hw']

/-- A vertex with an address and without edges. -/
def lone (b : UInt8) : Vertex := ⟨⟨0, 0, .replicate 6 b, .replicate 6 0⟩, []⟩

/-- One vertex, and another one that is not in the network. -/
def loneNetwork : Network := ⟨[1], fun v => lone (.ofNat v), fun _ => ⟨0, ⟨0, 0⟩⟩⟩

/-- The vertex that is not in the network has nothing to be removed. -/
theorem removed_iff_absent : ∃ w',
    removeFromNetwork () 2 ⟨.free Unit, .empty, loneNetwork⟩ = some w' ∧
      Removed (loneNetwork.mac 2) loneNetwork w'.network :=
  (removed_iff ⟨.free Unit, .empty, loneNetwork⟩ 2 rfl).2 (by decide)

/-- **The vertex of a network remains** when it is removed. -/
theorem vertex_remains : (loneNetwork.order.map loneNetwork.mac).Nodup ∧
    ¬∃ w', removeFromNetwork () 1 ⟨.free Unit, .empty, loneNetwork⟩ = some w' ∧
      Removed (loneNetwork.mac 1) loneNetwork w'.network := by
  refine ⟨by decide, ?_⟩
  rintro ⟨w', hw', h⟩
  rw [removeFromNetwork_network hw'] at h
  exact h.vertices 1 (List.mem_singleton_self 1) rfl

end LinkProxy.Operations
