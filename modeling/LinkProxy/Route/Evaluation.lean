import LinkProxy.Route.Network
import LinkProxy.Route.Sequence

/-!
# The graph after a sequence of records

What `evaluate_record` makes of link-state records, object by object. `lookup g a b` is the edge
that somebody finds who looks `a` up in `network` and `b` in the neighbours of that vertex. One
record changes it in three ways (`lookup_evaluateRecord`): it enters or refreshes the edge that it
reports, and if its first proxy is new, the vertex of the second loses its edges, since the code
takes it for new as well.

So the graph holds exactly the reported edges, with the times of their last records, if and only if
no vertex loses its edges after the last record of one of them (`holdsReported_iff`). The vertex
that a new edge points to is not entered in `network`, so the graph is closed if and only if every
edge that stays was entered when its destination had a vertex (`closed_iff_grounded`).
-/

namespace LinkProxy.Route

open Bytes Wire

namespace Network

/-- The edge that is found from `a` to `b`. -/
def lookup (g : Network) (a b : MAC) : Option Edge :=
  (g.find a).bind fun v => (g.findNbr v b).map g.edge

/-- Every edge points to the vertex that `network` has for its key. -/
def Closed (g : Network) : Prop :=
  ∀ v ∈ g.order, ∀ e ∈ (g.vertex v).nbrs,
    g.find (g.mac (g.edge e).node) = some (g.edge e).node

/-- A step of a traversal, from a vertex to the one to which an edge of it points. -/
def Follows (g : Network) (v w : VertexPtr) : Prop := ∃ e ∈ (g.vertex v).nbrs, (g.edge e).node = w

/-- A traversal that starts in `network` meets only the vertices that `network` has for their keys. -/
def Contained (g : Network) : Prop :=
  ∀ v ∈ g.order, ∀ w, Relation.ReflTransGen g.Follows v w → g.find (g.mac w) = some w

/-- The invariant of `network`, with sets that its vertices and edges are from: they are told apart
by their keys, and no edge is in two tables. -/
structure WellFormed (g : Network) (V : Set VertexPtr) (E : Set EdgePtr) : Prop where
  vertices : ∀ v ∈ g.order, v ∈ V
  edges : ∀ v ∈ g.order, ∀ e ∈ (g.vertex v).nbrs, e ∈ E ∧ (g.edge e).node ∈ V
  apart : ∀ v ∈ g.order, ∀ w ∈ g.order, ∀ e ∈ (g.vertex v).nbrs, e ∈ (g.vertex w).nbrs → v = w
  vertexKeys : ∀ v ∈ g.order, g.find (g.mac v) = some v
  edgeKeys : ∀ v ∈ g.order, ∀ e ∈ (g.vertex v).nbrs, g.findNbr v (g.mac (g.edge e).node) = some e

/-- `malloc` has returned objects that were not allocated. -/
structure Fresh.Unused (new : Fresh) (V : Set VertexPtr) (E : Set EdgePtr) : Prop where
  v : new.v ∉ V
  node : new.node ∉ V
  ne : new.v ≠ new.node
  e : new.e ∉ E

section

variable {g g' : Network} {V : Set VertexPtr} {E : Set EdgePtr} {a b : MAC} {v w : VertexPtr}
  {e : EdgePtr} {dm : DataModel} {r : LinkStateRecord} {new : Fresh}

/-! ## Lookups -/

theorem mem_of_find (h : g.find a = some v) : v ∈ g.order ∧ g.mac v = a :=
  ⟨List.mem_of_find?_eq_some h, by simpa using List.find?_some h⟩

theorem mem_of_findNbr (h : g.findNbr v b = some e) :
    e ∈ (g.vertex v).nbrs ∧ g.mac (g.edge e).node = b :=
  ⟨List.mem_of_find?_eq_some h, by simpa using List.find?_some h⟩

/-- A lookup among vertices that have kept their keys. -/
theorem find_append (vs : List VertexPtr) (horder : g'.order = g.order ++ vs)
    (hmac : ∀ v ∈ g.order, g'.mac v = g.mac v) (a : MAC) :
    g'.find a = (g.find a).or (vs.find? fun v => g'.mac v == a) := by
  rw [find, horder, List.find?_append, find]
  congr 1
  exact List.find?_congr fun v hv => by rw [hmac v hv]

/-- A lookup among edges that have kept their vertices, which have kept their keys. -/
theorem findNbr_append (es : List EdgePtr) (hnbrs : (g'.vertex v).nbrs = (g.vertex v).nbrs ++ es)
    (hmac : ∀ e ∈ (g.vertex v).nbrs, g'.mac (g'.edge e).node = g.mac (g.edge e).node) (b : MAC) :
    g'.findNbr v b = (g.findNbr v b).or (es.find? fun e => g'.mac (g'.edge e).node == b) := by
  rw [findNbr, hnbrs, List.find?_append, findNbr]
  congr 1
  exact List.find?_congr fun e he => by rw [hmac e he]

theorem lookup_eq_some {x : Edge} : g.lookup a b = some x ↔
    ∃ v e, g.find a = some v ∧ g.findNbr v b = some e ∧ g.edge e = x := by
  simp only [lookup, Option.bind_eq_some_iff, Option.map_eq_some_iff]
  constructor
  · rintro ⟨v, hv, e, he, hx⟩
    exact ⟨v, e, hv, he, hx⟩
  · rintro ⟨v, e, hv, he, hx⟩
    exact ⟨v, hv, e, he, hx⟩

/-- The vertex to which a new edge points. -/
def endpoint (g : Network) (r : LinkStateRecord) (new : Fresh) : VertexPtr :=
  (g.find r.proxy2.tapMAC).getD new.node

theorem WellFormed.endpoint_ne (h : g.WellFormed V E) (hnew : new.Unused V E) :
    g.endpoint r new ≠ new.v := by
  rw [endpoint]
  cases hfind : g.find r.proxy2.tapMAC with
  | none => exact hnew.ne.symm
  | some u =>
    intro heq
    exact hnew.v (heq ▸ h.vertices u (mem_of_find hfind).1)

/-- The endpoint has the key of the second proxy already, if it is not new. -/
theorem mac_endpoint (hnew : new.Unused V E) (h : g.endpoint r new ∈ V) :
    g.find r.proxy2.tapMAC = some (g.endpoint r new) ∧
      g.mac (g.endpoint r new) = r.proxy2.tapMAC := by
  rw [endpoint] at h ⊢
  cases hfind : g.find r.proxy2.tapMAC with
  | none =>
    rw [hfind] at h
    exact absurd h hnew.node
  | some u => exact ⟨rfl, (mem_of_find hfind).2⟩

theorem endpoint_mem (h : g.WellFormed V E) :
    g.endpoint r new ∈ insert new.v (insert new.node V) := by
  rw [endpoint]
  cases hfind : g.find r.proxy2.tapMAC with
  | none => simp
  | some u => simp [h.vertices u (mem_of_find hfind).1]

/-! ## A record with a new edge -/

/-- What the two ways to enter an edge have in common: the vertex `u` gets the edge, which points to
the vertex of the second proxy. What was allocated before keeps its keys, and its edges if any. -/
structure Entered (dm : DataModel) (r : LinkStateRecord) (new : Fresh) (u : VertexPtr) (g g' : Network)
    (V : Set VertexPtr) : Prop where
  order : ∀ v ∈ g'.order, v ∈ g.order ∨ v = u
  mac : ∀ x ∈ V, g'.mac x = g.mac x
  node : g'.mac (g.endpoint r new) = r.proxy2.tapMAC
  edge : g'.edge = Function.update g.edge new.e ⟨g.endpoint r new, recordTime dm r⟩
  nbrs : ∀ v ∈ g'.order, ∀ e ∈ (g'.vertex v).nbrs,
    v = u ∧ e = new.e ∨ v ∈ g.order ∧ e ∈ (g.vertex v).nbrs

namespace Entered

variable {u : VertexPtr}

theorem edge_of_mem (hs : Entered dm r new u g g' V) (hnew : new.Unused V E) (he : e ∈ E) :
    g'.edge e = g.edge e := by
  have hne : e ≠ new.e := fun heq => hnew.e (heq ▸ he)
  rw [hs.edge, Function.update_of_ne hne]

theorem mac_new (hs : Entered dm r new u g g' V) :
    g'.mac (g'.edge new.e).node = r.proxy2.tapMAC := by
  rw [hs.edge, Function.update_self, hs.node]

/-- The edges that were there keep their keys. -/
theorem mac_old (hs : Entered dm r new u g g' V) (h : g.WellFormed V E) (hnew : new.Unused V E)
    (hv : v ∈ g.order) (e : EdgePtr) (he : e ∈ (g.vertex v).nbrs) :
    g'.mac (g'.edge e).node = g.mac (g.edge e).node := by
  obtain ⟨he, hn⟩ := h.edges v hv e he
  rw [hs.edge_of_mem hnew he, hs.mac _ hn]

/-- What is found of them is as it was. -/
theorem map_edge (hs : Entered dm r new u g g' V) (h : g.WellFormed V E) (hnew : new.Unused V E)
    (hv : v ∈ g.order) (b : MAC) : (g.findNbr v b).map g'.edge = (g.findNbr v b).map g.edge := by
  cases he : g.findNbr v b with
  | none => rfl
  | some e =>
    have hE := (h.edges v hv e (mem_of_findNbr he).1).1
    rw [Option.map_some, Option.map_some, hs.edge_of_mem hnew hE]

/-- The invariant is preserved if the keys still tell the vertices and the edges apart. -/
theorem wellFormed (hs : Entered dm r new u g g' V) (h : g.WellFormed V E) (hnew : new.Unused V E)
    (hu : u ∈ insert new.v (insert new.node V))
    (hvertices : ∀ v ∈ g'.order, g'.find (g'.mac v) = some v)
    (hedges : ∀ v ∈ g'.order, ∀ e ∈ (g'.vertex v).nbrs,
      g'.findNbr v (g'.mac (g'.edge e).node) = some e) :
    g'.WellFormed (insert new.v (insert new.node V)) (insert new.e E) where
  vertices v hv := by
    rcases hs.order v hv with hv | rfl
    · simp [h.vertices v hv]
    · exact hu
  edges v hv e he := by
    obtain ⟨rfl, rfl⟩ | ⟨hv, he⟩ := hs.nbrs v hv e he
    · refine ⟨by simp, ?_⟩
      rw [hs.edge, Function.update_self]
      exact endpoint_mem h
    · obtain ⟨heE, hn⟩ := h.edges v hv e he
      rw [hs.edge_of_mem hnew heE]
      exact ⟨by simp [heE], by simp [hn]⟩
  apart v hv w hw e hev hew := by
    obtain ⟨rfl, rfl⟩ | ⟨hv, hev⟩ := hs.nbrs v hv e hev <;>
      obtain ⟨rfl, he⟩ | ⟨hw, hew⟩ := hs.nbrs w hw _ hew
    · rfl
    · exact absurd (h.edges w hw _ hew).1 hnew.e
    · exact absurd (he ▸ (h.edges v hv _ hev).1) hnew.e
    · exact h.apart v hv w hw e hev hew
  vertexKeys := hvertices
  edgeKeys := hedges

end Entered

/-! ### The source is new -/

/-- What `evaluate_record` does when its first proxy has no vertex. -/
structure NewSource (dm : DataModel) (r : LinkStateRecord) (new : Fresh) (g g' : Network) : Prop where
  order : g'.order = g.order ++ [new.v]
  source : g'.vertex new.v = ⟨r.proxy1, [new.e]⟩
  node : g'.vertex (g.endpoint r new) = ⟨r.proxy2, []⟩
  other : ∀ x, x ≠ new.v → x ≠ g.endpoint r new → g'.vertex x = g.vertex x
  edge : g'.edge = Function.update g.edge new.e ⟨g.endpoint r new, recordTime dm r⟩

theorem WellFormed.newSource (h : g.WellFormed V E) (hnew : new.Unused V E)
    (hfind : g.find r.proxy1.tapMAC = none) : NewSource dm r new g (g.evaluateRecord dm r new) := by
  have hv (x : VertexPtr) (hx : x ∈ g.order) : x ≠ new.v := fun heq => hnew.v (heq ▸ h.vertices x hx)
  have hsame : (g.setVertex new.v ⟨r.proxy1, []⟩).find r.proxy2.tapMAC = g.find r.proxy2.tapMAC := by
    have hmac (x : VertexPtr) (hx : x ∈ g.order) :
        (g.setVertex new.v ⟨r.proxy1, []⟩).mac x = g.mac x := by
      simp [mac, setVertex, hv x hx]
    have horder : (g.setVertex new.v ⟨r.proxy1, []⟩).order = g.order ++ [] := (List.append_nil _).symm
    rw [find_append [] horder hmac, List.find?_nil, Option.or_none]
  have hne := h.endpoint_ne (r := r) hnew
  simp only [evaluateRecord, hfind, hsame]
  rw [← endpoint]
  constructor
  · rfl
  · simp [addNbr, setVertex, setEdge, hne.symm]
  · simp [addNbr, setVertex, setEdge, hne]
  · intro x hx hx'
    simp [addNbr, setVertex, setEdge, hx, hx']
  · rfl

/-- The other vertices keep their edges, unless they are the second proxy. -/
theorem NewSource.nbrs (hs : NewSource dm r new g g') (h : g.WellFormed V E)
    (hnew : new.Unused V E) (hv : v ∈ g.order) :
    (g'.vertex v).nbrs = if v = g.endpoint r new then [] else (g.vertex v).nbrs := by
  have hne : v ≠ new.v := fun heq => hnew.v (heq ▸ h.vertices v hv)
  split_ifs with hnode
  · rw [hnode, hs.node]
  · rw [hs.other v hne hnode]

/-- The edges in the tables. -/
theorem NewSource.mem_nbrs (hs : NewSource dm r new g g') (h : g.WellFormed V E)
    (hnew : new.Unused V E) (hv : v ∈ g'.order) (he : e ∈ (g'.vertex v).nbrs) :
    v = new.v ∧ e = new.e ∨ v ∈ g.order ∧ v ≠ g.endpoint r new ∧ e ∈ (g.vertex v).nbrs := by
  rw [hs.order, List.mem_append, List.mem_singleton] at hv
  rcases hv with hv | rfl
  · rw [hs.nbrs h hnew hv] at he
    split_ifs at he with hnode
    · cases he
    · exact .inr ⟨hv, hnode, he⟩
  · rw [hs.source, List.mem_singleton] at he
    exact .inl ⟨rfl, he⟩

theorem NewSource.entered (hs : NewSource dm r new g g') (h : g.WellFormed V E)
    (hnew : new.Unused V E) : Entered dm r new new.v g g' V where
  order v hv := by
    rw [hs.order, List.mem_append, List.mem_singleton] at hv
    exact hv
  mac x hx := by
    have hne : x ≠ new.v := fun heq => hnew.v (heq ▸ hx)
    by_cases hnode : x = g.endpoint r new
    · rw [hnode, (mac_endpoint hnew (hnode ▸ hx)).2, mac, hs.node]
    · rw [mac, hs.other x hne hnode, mac]
  node := by rw [mac, hs.node]
  edge := hs.edge
  nbrs v hv e he := (hs.mem_nbrs h hnew hv he).imp_right fun hold => ⟨hold.1, hold.2.2⟩

theorem NewSource.find (hs : NewSource dm r new g g') (h : g.WellFormed V E)
    (hnew : new.Unused V E) (a : MAC) :
    g'.find a = (g.find a).or (if a = r.proxy1.tapMAC then some new.v else none) := by
  rw [find_append [new.v] hs.order fun v hv => (hs.entered h hnew).mac v (h.vertices v hv)]
  have hmac : g'.mac new.v = r.proxy1.tapMAC := by rw [mac, hs.source]
  by_cases ha : a = r.proxy1.tapMAC
  · simp [hmac, ha]
  · simp [hmac, ha, Ne.symm ha]

theorem NewSource.findNbr_source (hs : NewSource dm r new g g') (b : MAC) :
    g'.findNbr new.v b = if b = r.proxy2.tapMAC then some new.e else none := by
  have hmac : g'.mac (g'.edge new.e).node = r.proxy2.tapMAC := by
    rw [hs.edge, Function.update_self, mac, hs.node]
  rw [Network.findNbr, hs.source]
  by_cases hb : b = r.proxy2.tapMAC
  · simp [hmac, hb]
  · simp [hmac, hb, Ne.symm hb]

theorem NewSource.findNbr (hs : NewSource dm r new g g') (h : g.WellFormed V E)
    (hnew : new.Unused V E) (hv : v ∈ g.order) (b : MAC) :
    g'.findNbr v b = if v = g.endpoint r new then none else g.findNbr v b := by
  have hnbrs := hs.nbrs h hnew hv
  split_ifs at hnbrs ⊢ with hnode
  · rw [Network.findNbr, hnbrs, List.find?_nil]
  · have hmac := (hs.entered h hnew).mac_old h hnew hv
    rw [findNbr_append [] (by rw [hnbrs, List.append_nil]) hmac, List.find?_nil, Option.or_none]

/-- **The edges after a record with a new source**: the one that it reports is new, and the second
proxy has lost its edges. -/
theorem NewSource.lookup (hs : NewSource dm r new g g') (h : g.WellFormed V E)
    (hnew : new.Unused V E) (hfind : g.find r.proxy1.tapMAC = none) (a b : MAC) :
    g'.lookup a b = if r.proxy1.tapMAC = a ∧ r.proxy2.tapMAC = b then
        some ⟨g.endpoint r new, recordTime dm r⟩
      else if r.proxy2.tapMAC = a then none else g.lookup a b := by
  rw [Network.lookup, hs.find h hnew]
  by_cases ha : r.proxy1.tapMAC = a
  · subst ha
    rw [Network.lookup, hfind]
    simp only [Option.none_or, if_true, Option.bind_some, hs.findNbr_source, true_and, Option.bind_none]
    by_cases hb : r.proxy2.tapMAC = b
    · simp [hb, hs.edge]
    · simp [hb, Ne.symm hb]
  · rw [if_neg (Ne.symm ha), Option.or_none, if_neg fun hpair => ha hpair.1, Network.lookup]
    cases hv : g.find a with
    | none => simp
    | some v =>
      obtain ⟨hmem, hmac⟩ := mem_of_find hv
      simp only [Option.bind_some, hs.findNbr h hnew hmem]
      -- the vertex of `a` is the endpoint exactly if `a` is the second proxy
      have hnode : v = g.endpoint r new ↔ r.proxy2.tapMAC = a := by
        constructor
        · intro heq
          rw [← hmac, heq]
          exact (mac_endpoint hnew (heq ▸ h.vertices v hmem)).2.symm
        · intro heq
          rw [endpoint, heq, hv, Option.getD_some]
      by_cases ha' : r.proxy2.tapMAC = a
      · simp [hnode.2 ha', ha']
      · simp only [if_neg fun heq => ha' (hnode.1 heq), if_neg ha']
        exact (hs.entered h hnew).map_edge h hnew hmem b

theorem NewSource.wellFormed (hs : NewSource dm r new g g') (h : g.WellFormed V E)
    (hnew : new.Unused V E) (hfind : g.find r.proxy1.tapMAC = none) :
    g'.WellFormed (insert new.v (insert new.node V)) (insert new.e E) := by
  have hentered : Entered dm r new new.v g g' V := hs.entered h hnew
  refine hentered.wellFormed h hnew (by simp) ?_ ?_
  · intro v hv
    rcases hentered.order v hv with hv | rfl
    · rw [hentered.mac v (h.vertices v hv), hs.find h hnew, h.vertexKeys v hv, Option.some_or]
    · have hmac : g'.mac new.v = r.proxy1.tapMAC := by rw [mac, hs.source]
      rw [hmac, hs.find h hnew, hfind, if_pos rfl, Option.none_or]
  · intro v hv e he
    obtain ⟨rfl, rfl⟩ | ⟨hv, hnode, he⟩ := hs.mem_nbrs h hnew hv he
    · rw [hentered.mac_new, hs.findNbr_source, if_pos rfl]
    · rw [hentered.mac_old h hnew hv e he, hs.findNbr h hnew hv, if_neg hnode]
      exact h.edgeKeys v hv e he

/-! ### The source is known -/

/-- What `evaluate_record` does when the vertex of its first proxy has no edge to the second. -/
structure NewEdge (dm : DataModel) (r : LinkStateRecord) (new : Fresh) (u : VertexPtr)
    (g g' : Network) : Prop where
  order : g'.order = g.order
  nbrs : ∀ x, (g'.vertex x).nbrs = if x = u then (g.vertex u).nbrs ++ [new.e] else (g.vertex x).nbrs
  node : g'.mac (g.endpoint r new) = r.proxy2.tapMAC
  other : ∀ x, x ≠ g.endpoint r new → g'.mac x = g.mac x
  edge : g'.edge = Function.update g.edge new.e ⟨g.endpoint r new, recordTime dm r⟩

theorem newEdge (hfind : g.find r.proxy1.tapMAC = some v)
    (hnbr : g.findNbr v r.proxy2.tapMAC = none) : NewEdge dm r new v g (g.evaluateRecord dm r new) := by
  simp only [evaluateRecord, hfind, hnbr]
  rw [← endpoint]
  constructor
  · rfl
  · intro x
    by_cases hx : x = v
    · subst hx
      by_cases hn : x = g.endpoint r new
      · simp [addNbr, setVertex, setEdge, ← hn]
      · simp [addNbr, setVertex, setEdge, hn]
    · by_cases hn : x = g.endpoint r new
      · simp [addNbr, setVertex, setEdge, hx, ← hn]
      · simp [addNbr, setVertex, setEdge, hx, hn]
  · by_cases hn : g.endpoint r new = v
    · simp [mac, addNbr, setVertex, setEdge, hn]
    · simp [mac, addNbr, setVertex, setEdge, hn]
  · intro x hx
    by_cases hxv : x = v
    · subst hxv
      simp [mac, addNbr, setVertex, setEdge, hx]
    · simp [mac, addNbr, setVertex, setEdge, hx, hxv]
  · rfl

theorem NewEdge.mem_nbrs {u : VertexPtr} (hs : NewEdge dm r new u g g')
    (he : e ∈ (g'.vertex v).nbrs) : v = u ∧ e = new.e ∨ e ∈ (g.vertex v).nbrs := by
  rw [hs.nbrs v] at he
  split_ifs at he with hvu
  · subst hvu
    rw [List.mem_append, List.mem_singleton] at he
    rcases he with he | rfl
    · exact .inr he
    · exact .inl ⟨rfl, rfl⟩
  · exact .inr he

theorem NewEdge.entered {u : VertexPtr} (hs : NewEdge dm r new u g g') (hnew : new.Unused V E) :
    Entered dm r new u g g' V where
  order v hv := .inl (hs.order ▸ hv)
  mac x hx := by
    by_cases hnode : x = g.endpoint r new
    · rw [hnode, (mac_endpoint hnew (hnode ▸ hx)).2, hs.node]
    · exact hs.other x hnode
  node := hs.node
  edge := hs.edge
  nbrs v hv e he := (hs.mem_nbrs he).imp_right fun hold => ⟨hs.order ▸ hv, hold⟩

theorem NewEdge.find {u : VertexPtr} (hs : NewEdge dm r new u g g') (h : g.WellFormed V E)
    (hnew : new.Unused V E) (a : MAC) : g'.find a = g.find a := by
  have horder : g'.order = g.order ++ [] := by rw [hs.order, List.append_nil]
  rw [find_append [] horder fun v hv => (hs.entered hnew).mac v (h.vertices v hv), List.find?_nil,
    Option.or_none]

theorem NewEdge.findNbr {u : VertexPtr} (hs : NewEdge dm r new u g g') (h : g.WellFormed V E)
    (hnew : new.Unused V E) (hv : v ∈ g.order) (b : MAC) : g'.findNbr v b =
      (g.findNbr v b).or (if v = u ∧ b = r.proxy2.tapMAC then some new.e else none) := by
  have hmac := (hs.entered hnew).mac_old h hnew hv
  have hnew' := (hs.entered hnew).mac_new
  have hnbrs := hs.nbrs v
  split_ifs at hnbrs with hvu
  · subst hvu
    rw [findNbr_append [new.e] hnbrs hmac]
    by_cases hb : b = r.proxy2.tapMAC
    · simp [hnew', hb]
    · simp [hnew', hb, Ne.symm hb]
  · rw [findNbr_append [] (by rw [hnbrs, List.append_nil]) hmac]
    simp [hvu]

/-- **The edges after a record with a new edge.** -/
theorem NewEdge.lookup {u : VertexPtr} (hs : NewEdge dm r new u g g') (h : g.WellFormed V E)
    (hnew : new.Unused V E) (hfind : g.find r.proxy1.tapMAC = some u)
    (hnbr : g.findNbr u r.proxy2.tapMAC = none) (a b : MAC) :
    g'.lookup a b = if r.proxy1.tapMAC = a ∧ r.proxy2.tapMAC = b then
        some ⟨g.endpoint r new, recordTime dm r⟩
      else g.lookup a b := by
  rw [Network.lookup, hs.find h hnew, Network.lookup]
  cases hv : g.find a with
  | none =>
    have ha : ¬(r.proxy1.tapMAC = a ∧ r.proxy2.tapMAC = b) := by
      rintro ⟨rfl, -⟩
      rw [hfind] at hv
      cases hv
    rw [if_neg ha]
    rfl
  | some v =>
    obtain ⟨hmem, hmac⟩ := mem_of_find hv
    have hvu : v = u ↔ r.proxy1.tapMAC = a := by
      constructor
      · rintro rfl
        rw [← hmac, (mem_of_find hfind).2]
      · rintro rfl
        exact Option.some.inj (hv.symm.trans hfind)
    simp only [Option.bind_some, hs.findNbr h hnew hmem, hvu]
    by_cases hpair : r.proxy1.tapMAC = a ∧ r.proxy2.tapMAC = b
    · rw [if_pos hpair, if_pos ⟨hpair.1, hpair.2.symm⟩, hvu.2 hpair.1, ← hpair.2, hnbr]
      simp [hs.edge]
    · rw [if_neg hpair, if_neg fun hpair' => hpair ⟨hpair'.1, hpair'.2.symm⟩, Option.or_none]
      exact (hs.entered hnew).map_edge h hnew hmem b

theorem NewEdge.wellFormed {u : VertexPtr} (hs : NewEdge dm r new u g g') (h : g.WellFormed V E)
    (hnew : new.Unused V E) (hu : u ∈ g.order) (hnbr : g.findNbr u r.proxy2.tapMAC = none) :
    g'.WellFormed (insert new.v (insert new.node V)) (insert new.e E) := by
  have hentered : Entered dm r new u g g' V := hs.entered hnew
  refine hentered.wellFormed h hnew (by simp [h.vertices u hu]) ?_ ?_
  · intro v hv
    rw [hs.order] at hv
    rw [hentered.mac v (h.vertices v hv), hs.find h hnew]
    exact h.vertexKeys v hv
  · intro v hv e he
    rw [hs.order] at hv
    obtain ⟨rfl, rfl⟩ | he := hs.mem_nbrs he
    · rw [hentered.mac_new, hs.findNbr h hnew hv, hnbr, if_pos ⟨rfl, rfl⟩, Option.none_or]
    · rw [hentered.mac_old h hnew hv e he, hs.findNbr h hnew hv, h.edgeKeys v hv e he, Option.some_or]

/-! ## A record of an edge that is there -/

/-- What `evaluate_record` does when it finds the edge. -/
theorem refreshed (hfind : g.find r.proxy1.tapMAC = some v)
    (hnbr : g.findNbr v r.proxy2.tapMAC = some e) :
    g.evaluateRecord dm r new = g.setEdge e ⟨(g.edge e).node, recordTime dm r⟩ := by
  simp only [evaluateRecord, hfind, hnbr]

theorem node_setEdge (e e' : EdgePtr) (t : Timespec) :
    ((g.setEdge e ⟨(g.edge e).node, t⟩).edge e').node = (g.edge e').node := by
  by_cases he : e' = e
  · simp [setEdge, he]
  · simp [setEdge, he]

theorem findNbr_setEdge (e : EdgePtr) (t : Timespec) (v : VertexPtr) (b : MAC) :
    (g.setEdge e ⟨(g.edge e).node, t⟩).findNbr v b = g.findNbr v b := by
  simp only [Network.findNbr, node_setEdge]
  rfl

/-- **The edges after a record of an edge that is there.** -/
theorem WellFormed.lookup_setEdge (h : g.WellFormed V E) {u : VertexPtr}
    (hfind : g.find a = some u) (hnbr : g.findNbr u b = some e) (t : Timespec) (a' b' : MAC) :
    (g.setEdge e ⟨(g.edge e).node, t⟩).lookup a' b' =
      if a = a' ∧ b = b' then some ⟨(g.edge e).node, t⟩ else g.lookup a' b' := by
  have hsame : (g.setEdge e ⟨(g.edge e).node, t⟩).find a' = g.find a' := rfl
  simp only [Network.lookup, hsame, findNbr_setEdge]
  by_cases hpair : a = a' ∧ b = b'
  · obtain ⟨rfl, rfl⟩ := hpair
    simp [hfind, hnbr, setEdge]
  · rw [if_neg hpair]
    cases hv : g.find a' with
    | none => rfl
    | some v =>
      simp only [Option.bind_some]
      cases he : g.findNbr v b' with
      | none => rfl
      | some e' =>
        obtain ⟨hu, hmac⟩ := mem_of_find hfind
        obtain ⟨hv', hmac'⟩ := mem_of_find hv
        obtain ⟨hmem, hnode⟩ := mem_of_findNbr hnbr
        obtain ⟨hmem', hnode'⟩ := mem_of_findNbr he
        have hne : e' ≠ e := by
          rintro rfl
          refine hpair ⟨?_, hnode.symm.trans hnode'⟩
          rw [← hmac, ← hmac', h.apart u hu v hv' e' hmem hmem']
        simp [setEdge, hne]

theorem WellFormed.setEdge (h : g.WellFormed V E) (e : EdgePtr) (t : Timespec) :
    (g.setEdge e ⟨(g.edge e).node, t⟩).WellFormed V E where
  vertices := h.vertices
  edges v hv e' he' := by
    rw [node_setEdge]
    exact h.edges v hv e' he'
  apart := h.apart
  vertexKeys := h.vertexKeys
  edgeKeys v hv e' he' := by
    rw [findNbr_setEdge, node_setEdge]
    exact h.edgeKeys v hv e' he'

/-! ## One record -/

theorem WellFormed.mono (h : g.WellFormed V E) {V' : Set VertexPtr} {E' : Set EdgePtr} (hV : V ⊆ V')
    (hE : E ⊆ E') : g.WellFormed V' E' where
  vertices v hv := hV (h.vertices v hv)
  edges v hv e he := ⟨hE (h.edges v hv e he).1, hV (h.edges v hv e he).2⟩
  apart := h.apart
  vertexKeys := h.vertexKeys
  edgeKeys := h.edgeKeys

/-- The three things that `evaluate_record` can do. -/
theorem WellFormed.evaluateRecord_cases (h : g.WellFormed V E) (hnew : new.Unused V E) :
    g.find r.proxy1.tapMAC = none ∧ NewSource dm r new g (g.evaluateRecord dm r new) ∨
    (∃ u, g.find r.proxy1.tapMAC = some u ∧ g.findNbr u r.proxy2.tapMAC = none ∧
      NewEdge dm r new u g (g.evaluateRecord dm r new)) ∨
    ∃ u e, g.find r.proxy1.tapMAC = some u ∧ g.findNbr u r.proxy2.tapMAC = some e ∧
      g.evaluateRecord dm r new = g.setEdge e ⟨(g.edge e).node, recordTime dm r⟩ := by
  cases hfind : g.find r.proxy1.tapMAC with
  | none => exact .inl ⟨rfl, h.newSource hnew hfind⟩
  | some u =>
    cases hnbr : g.findNbr u r.proxy2.tapMAC with
    | none => exact .inr (.inl ⟨u, rfl, hnbr, newEdge hfind hnbr⟩)
    | some e => exact .inr (.inr ⟨u, e, rfl, hnbr, refreshed hfind hnbr⟩)

theorem WellFormed.evaluateRecord (h : g.WellFormed V E) (hnew : new.Unused V E) :
    (g.evaluateRecord dm r new).WellFormed (insert new.v (insert new.node V)) (insert new.e E) := by
  obtain ⟨hfind, hs⟩ | ⟨u, hfind, hnbr, hs⟩ | ⟨u, e, -, -, heq⟩ := h.evaluateRecord_cases (r := r) hnew
  · exact hs.wellFormed h hnew hfind
  · exact hs.wellFormed h hnew (mem_of_find hfind).1 hnbr
  · rw [heq]
    refine (h.setEdge e _).mono ?_ (Set.subset_insert _ _)
    exact (Set.subset_insert _ _).trans (Set.subset_insert _ _)

/-- A record enters its first proxy in `network`, if it is not there. -/
theorem WellFormed.find_evaluateRecord (h : g.WellFormed V E) (hnew : new.Unused V E) (a : MAC) :
    (g.evaluateRecord dm r new).find a =
      (g.find a).or (if a = r.proxy1.tapMAC then some new.v else none) := by
  have hknown {u : VertexPtr} (hfind : g.find r.proxy1.tapMAC = some u) :
      g.find a = (g.find a).or (if a = r.proxy1.tapMAC then some new.v else none) := by
    split_ifs with ha
    · rw [ha, hfind, Option.some_or]
    · rw [Option.or_none]
  obtain ⟨-, hs⟩ | ⟨u, hfind, -, hs⟩ | ⟨u, e, hfind, -, heq⟩ := h.evaluateRecord_cases (r := r) hnew
  · exact hs.find h hnew a
  · rw [hs.find h hnew, ← hknown hfind]
  · rw [heq, ← hknown hfind]
    rfl

/-- **What a record does to the edges**: it enters or refreshes the one that it reports, and takes
those of its second proxy away if its first is new. -/
theorem WellFormed.lookup_evaluateRecord (h : g.WellFormed V E) (hnew : new.Unused V E) (a b : MAC) :
    (g.evaluateRecord dm r new).lookup a b =
      if r.proxy1.tapMAC = a ∧ r.proxy2.tapMAC = b then
        some ⟨((g.lookup a b).map Edge.node).getD (g.endpoint r new), recordTime dm r⟩
      else if r.proxy2.tapMAC = a ∧ g.find r.proxy1.tapMAC = none then none
      else g.lookup a b := by
  obtain ⟨hfind, hs⟩ | ⟨u, hfind, hnbr, hs⟩ | ⟨u, e, hfind, hnbr, heq⟩ :=
    h.evaluateRecord_cases (r := r) hnew
  · rw [hs.lookup h hnew hfind]
    by_cases hpair : r.proxy1.tapMAC = a ∧ r.proxy2.tapMAC = b
    · have hnone : g.lookup a b = none := by rw [Network.lookup, ← hpair.1, hfind, Option.bind_none]
      simp [hpair, hnone]
    · simp [hpair, hfind]
  · rw [hs.lookup h hnew hfind hnbr]
    by_cases hpair : r.proxy1.tapMAC = a ∧ r.proxy2.tapMAC = b
    · have hnone : g.lookup a b = none := by
        rw [Network.lookup, ← hpair.1, hfind, Option.bind_some, ← hpair.2, hnbr, Option.map_none]
      simp [hpair, hnone]
    · simp [hpair, hfind]
  · rw [heq, h.lookup_setEdge hfind hnbr]
    by_cases hpair : r.proxy1.tapMAC = a ∧ r.proxy2.tapMAC = b
    · have hsome : g.lookup a b = some (g.edge e) := by
        rw [Network.lookup, ← hpair.1, hfind, Option.bind_some, ← hpair.2, hnbr, Option.map_some]
      simp [hpair, hsome]
    · simp [hpair, hfind]

end

/-! ## A sequence of records -/

/-- The graph after the calls of `evaluate_record` for `rs`, where the call for the record number
`i` gets its objects from `new i`. -/
def evaluateAll (dm : DataModel) (new : ℕ → Fresh) (g : Network) (rs : List LinkStateRecord) :
    Network :=
  rs.zipIdx.foldl (fun g r => g.evaluateRecord dm r.1 (new r.2)) g

/-- `malloc` does not return an object twice; none of these is ever freed. -/
structure Allocates (new : ℕ → Fresh) : Prop where
  v : Function.Injective fun i => (new i).v
  node : Function.Injective fun i => (new i).node
  ne : ∀ i j, (new i).v ≠ (new j).node
  e : Function.Injective fun i => (new i).e

/-- The vertices that `malloc` has for the first `n` calls, which need not ask for all of them. -/
def vertices (new : ℕ → Fresh) (n : ℕ) : Set VertexPtr :=
  {x | ∃ i < n, x = (new i).v ∨ x = (new i).node}

/-- The edges that `malloc` has for the first `n` calls. -/
def edges (new : ℕ → Fresh) (n : ℕ) : Set EdgePtr := {x | ∃ i < n, x = (new i).e}

/-- The first proxy of a record, where its edge starts. -/
abbrev source (r : LinkStateRecord) : MAC := r.proxy1.tapMAC

/-- The second proxy of a record, where its edge ends. -/
abbrev target (r : LinkStateRecord) : MAC := r.proxy2.tapMAC

/-- **The graph holds exactly the reported edges**: an edge is found if and only if a record has
reported it, with the time of the last such record. -/
def HoldsReported (dm : DataModel) (rs : List LinkStateRecord) (g : Network) : Prop :=
  ∀ a b, (g.lookup a b).map Edge.timestamp = (reported source target rs a b).map (recordTime dm)

section

variable {dm : DataModel} {new : ℕ → Fresh} {g : Network} {rs : List LinkStateRecord}
  {r : LinkStateRecord} {a b : MAC}

theorem evaluateAll_concat : g.evaluateAll dm new (rs ++ [r]) =
    (g.evaluateAll dm new rs).evaluateRecord dm r (new rs.length) := by
  simp [evaluateAll, List.zipIdx_append, List.foldl_append]

theorem Allocates.unused (h : Allocates new) (n : ℕ) :
    (new n).Unused (vertices new n) (edges new n) where
  v := by
    rintro ⟨i, hi, heq | heq⟩
    · exact hi.ne' (h.v heq)
    · exact h.ne _ _ heq
  node := by
    rintro ⟨i, hi, heq | heq⟩
    · exact h.ne _ _ heq.symm
    · exact hi.ne' (h.node heq)
  ne := h.ne n n
  e := by
    rintro ⟨i, hi, heq⟩
    exact hi.ne' (h.e heq)

theorem insert_vertices_subset (new : ℕ → Fresh) (n : ℕ) :
    insert (new n).v (insert (new n).node (vertices new n)) ⊆ vertices new (n + 1) := by
  rintro x (rfl | rfl | ⟨i, hi, hx⟩)
  · exact ⟨n, by omega, .inl rfl⟩
  · exact ⟨n, by omega, .inr rfl⟩
  · exact ⟨i, by omega, hx⟩

theorem insert_edges_subset (new : ℕ → Fresh) (n : ℕ) :
    insert (new n).e (edges new n) ⊆ edges new (n + 1) := by
  rintro x (rfl | ⟨i, hi, hx⟩)
  · exact ⟨n, by omega, rfl⟩
  · exact ⟨i, by omega, hx⟩

theorem wellFormed_of_empty (hg : g.order = []) (V : Set VertexPtr) (E : Set EdgePtr) :
    g.WellFormed V E := by
  constructor <;> simp [hg]

/-- The invariant holds after every sequence. -/
theorem wellFormed_evaluateAll (dm : DataModel) (hnew : Allocates new) (hg : g.order = [])
    (rs : List LinkStateRecord) :
    (g.evaluateAll dm new rs).WellFormed (vertices new rs.length) (edges new rs.length) := by
  induction rs using List.reverseRecOn with
  | nil => exact wellFormed_of_empty hg _ _
  | append_singleton rs r ih =>
    rw [evaluateAll_concat, List.length_append, List.length_singleton]
    exact (ih.evaluateRecord (hnew.unused _)).mono (insert_vertices_subset new _)
      (insert_edges_subset new _)

/-- `network` has the proxies that have come first in a record. -/
theorem find_evaluateAll_eq_none (hnew : Allocates new) (hg : g.order = []) :
    (g.evaluateAll dm new rs).find a = none ↔ a ∉ rs.map source := by
  induction rs using List.reverseRecOn with
  | nil => simp [evaluateAll, Network.find, hg]
  | append_singleton rs r ih =>
    rw [evaluateAll_concat, (wellFormed_evaluateAll dm hnew hg rs).find_evaluateRecord (hnew.unused _),
      Option.or_eq_none_iff, ih]
    by_cases ha : a = r.proxy1.tapMAC
    · simp [ha]
    · simp [ha]

/-- The edges after one more record, in terms of the sequence. -/
theorem lookup_evaluateAll_concat (dm : DataModel) (hnew : Allocates new) (hg : g.order = [])
    (rs : List LinkStateRecord) (r : LinkStateRecord) (a b : MAC) :
    (source r = a ∧ target r = b →
      ((g.evaluateAll dm new (rs ++ [r])).lookup a b) =
        some ⟨(((g.evaluateAll dm new rs).lookup a b).map Edge.node).getD
          ((g.evaluateAll dm new rs).endpoint r (new rs.length)), recordTime dm r⟩) ∧
    (¬(source r = a ∧ target r = b) → Wipes source target rs r a →
      (g.evaluateAll dm new (rs ++ [r])).lookup a b = none) ∧
    (¬(source r = a ∧ target r = b) → ¬Wipes source target rs r a →
      (g.evaluateAll dm new (rs ++ [r])).lookup a b = (g.evaluateAll dm new rs).lookup a b) := by
  have hwipes : Wipes source target rs r a ↔
      r.proxy2.tapMAC = a ∧ (g.evaluateAll dm new rs).find r.proxy1.tapMAC = none := by
    rw [find_evaluateAll_eq_none hnew hg]
    rfl
  have hwf := wellFormed_evaluateAll dm hnew hg rs
  rw [evaluateAll_concat, hwf.lookup_evaluateRecord (hnew.unused _), hwipes]
  refine ⟨fun hpair => if_pos hpair, fun hpair hw => ?_, fun hpair hw => ?_⟩
  · rw [if_neg hpair, if_pos hw]
  · rw [if_neg hpair, if_neg hw]

/-- An edge is held as it was reported exactly if its source keeps it. -/
theorem lookup_timestamp_iff (hnew : Allocates new) (hg : g.order = []) :
    ((g.evaluateAll dm new rs).lookup a b).map Edge.timestamp =
        (reported source target rs a b).map (recordTime dm) ↔ KeepsEdge source target rs a b := by
  induction rs using List.reverseRecOn with
  | nil =>
    refine iff_of_true ?_ keepsEdge_nil
    simp [evaluateAll, Network.lookup, Network.find, hg, reported]
  | append_singleton rs r ih =>
    obtain ⟨hsome, hlost, hsame⟩ := lookup_evaluateAll_concat dm hnew hg rs r a b
    rw [reported_concat, keepsEdge_concat]
    by_cases hpair : source r = a ∧ target r = b
    · simp [hsome hpair, hpair]
    · rw [if_neg hpair]
      by_cases hw : Wipes source target rs r a
      · have hkeeps : reported source target rs a b = none → KeepsEdge source target rs a b := by
          intro hnone us x vs hrs hx
          exact absurd hnone (reported_ne_none hrs hx)
        rw [hlost hpair hw, Option.map_none, eq_comm, Option.map_eq_none_iff]
        constructor
        · intro hnone
          exact .inr ⟨hkeeps hnone, fun _ => hnone⟩
        · rintro (hpair' | ⟨-, hnone⟩)
          · exact absurd hpair' hpair
          · exact hnone hw
      · simp [hsame hpair hw, hpair, hw, ih]

/-- **When the graph holds exactly the reported edges**: after the last record of every edge, no
record comes that has the source of the edge for its second proxy and a first proxy that is new. -/
theorem holdsReported_iff (dm : DataModel) (new : ℕ → Fresh) (hnew : Allocates new) (g : Network)
    (hg : g.order = []) (rs : List LinkStateRecord) :
    HoldsReported dm rs (g.evaluateAll dm new rs) ↔ KeepsReported source target rs := by
  rw [keepsReported_iff]
  exact forall_congr' fun a => forall_congr' fun b => lookup_timestamp_iff hnew hg

/-- Objects that are handed out in the order of their numbers. -/
def heap (i : ℕ) : Fresh := ⟨2 * i, i, 2 * i + 1⟩

theorem allocates_heap : Allocates heap where
  v i j h := by
    have hv : 2 * i = 2 * j := h
    omega
  node i j h := by
    have hnode : 2 * i + 1 = 2 * j + 1 := h
    omega
  ne i j h := by
    have hne : 2 * i = 2 * j + 1 := h
    omega
  e i j h := h

/-- `network == NULL`. -/
def empty : Network := ⟨[], fun _ => ⟨⟨0, 0, .replicate 6 0, .replicate 6 0⟩, []⟩, fun _ => ⟨0, ⟨0, 0⟩⟩⟩

/-- A record of the edge between the proxies number `i` and `j`. -/
def edgeRecord (i j : UInt8) : LinkStateRecord :=
  ⟨1, 0, ⟨0, 0, .replicate 6 i, .replicate 6 i⟩, ⟨0, 0, .replicate 6 j, .replicate 6 j⟩, 1⟩

/-- Two edges of one proxy are both held. -/
theorem holdsReported_iff_two : Allocates heap ∧ empty.order = [] ∧
    HoldsReported .lp64 [edgeRecord 1 2, edgeRecord 1 3]
      (empty.evaluateAll .lp64 heap [edgeRecord 1 2, edgeRecord 1 3]) := by
  refine ⟨allocates_heap, rfl, (holdsReported_iff .lp64 heap allocates_heap empty rfl _).2 ?_⟩
  rw [keepsReported_iff]
  intro a b
  change KeepsEdge source target ([] ++ [edgeRecord 1 2] ++ [edgeRecord 1 3]) a b
  rw [keepsEdge_concat, keepsEdge_concat]
  refine .inr ⟨.inr ⟨keepsEdge_nil, fun _ => rfl⟩, fun hwipes => ?_⟩
  exact absurd (by decide) hwipes.2

/-- The edge of the first proxy to the second is lost when a third reports one to the first. -/
theorem reported_edge_lost : Allocates heap ∧ empty.order = [] ∧
    ¬HoldsReported .lp64 [edgeRecord 1 2, edgeRecord 3 1]
      (empty.evaluateAll .lp64 heap [edgeRecord 1 2, edgeRecord 3 1]) := by
  refine ⟨allocates_heap, rfl, fun h => ?_⟩
  have hedge := h (.replicate 6 1) (.replicate 6 2)
  revert hedge
  decide

/-! ## The vertices to which edges point -/

theorem lookup_evaluateAll_eq_none (hnew : Allocates new) (hg : g.order = []) :
    (g.evaluateAll dm new rs).lookup a b = none ↔ ¬Present source target rs a b := by
  induction rs using List.reverseRecOn with
  | nil => exact iff_of_true (by simp [evaluateAll, Network.lookup, Network.find, hg]) present_nil
  | append_singleton rs r ih =>
    obtain ⟨hsome, hlost, hsame⟩ := lookup_evaluateAll_concat dm hnew hg rs r a b
    rw [present_concat]
    by_cases hpair : source r = a ∧ target r = b
    · simp [hsome hpair, hpair]
    · by_cases hw : Wipes source target rs r a
      · simp only [hlost hpair hw, hpair, hw, not_true, and_false, or_false, not_false_iff]
      · simp only [hsame hpair hw, hpair, hw, not_false_iff, and_true, false_or, ih]

/-- The vertex of an edge that is found has been allocated. -/
theorem WellFormed.node_mem {V : Set VertexPtr} {E : Set EdgePtr} (h : g.WellFormed V E) {x : Edge}
    (hx : g.lookup a b = some x) : x.node ∈ V := by
  obtain ⟨v, e, hv, he, rfl⟩ := lookup_eq_some.1 hx
  exact (h.edges v (mem_of_find hv).1 e (mem_of_findNbr he).1).2

/-- A record with other proxies does not enter the vertex of an edge in `network`, nor take it away.
-/
theorem WellFormed.find_evaluateRecord_eq_some {V : Set VertexPtr} {E : Set EdgePtr} {new : Fresh}
    (h : g.WellFormed V E) (hnew : new.Unused V E) {x : VertexPtr} (hx : x ≠ new.v) :
    (g.evaluateRecord dm r new).find b = some x ↔ g.find b = some x := by
  rw [h.find_evaluateRecord hnew]
  cases hfind : g.find b with
  | none =>
    rw [Option.none_or]
    split_ifs
    · simp [hx.symm]
    · rfl
  | some y => rw [Option.some_or]

/-- A new edge points to the vertex that `network` has for its key exactly if it had one before. -/
theorem WellFormed.find_endpoint (dm : DataModel) (r : LinkStateRecord) {V : Set VertexPtr}
    {E : Set EdgePtr} {new : Fresh} (h : g.WellFormed V E) (hnew : new.Unused V E) :
    (g.evaluateRecord dm r new).find r.proxy2.tapMAC = some (g.endpoint r new) ↔
      g.find r.proxy2.tapMAC ≠ none := by
  rw [h.find_evaluateRecord hnew, endpoint]
  cases hfind : g.find r.proxy2.tapMAC with
  | none =>
    rw [Option.none_or, Option.getD_none]
    split_ifs
    · simp [hnew.ne]
    · simp
  | some y => simp

/-- An edge points to the vertex that `network` has for its key exactly if it does not dangle. -/
theorem find_node_iff (hnew : Allocates new) (hg : g.order = []) {x : Edge}
    (hx : (g.evaluateAll dm new rs).lookup a b = some x) :
    (g.evaluateAll dm new rs).find b = some x.node ↔ ¬Dangling source target rs a b := by
  induction rs using List.reverseRecOn generalizing x with
  | nil => simp [evaluateAll, Network.lookup, Network.find, hg] at hx
  | append_singleton rs r ih =>
    have hwf := wellFormed_evaluateAll dm hnew hg rs
    have hunused := hnew.unused rs.length
    obtain ⟨hsome, hlost, hsame⟩ := lookup_evaluateAll_concat dm hnew hg rs r a b
    rw [dangling_concat, evaluateAll_concat]
    -- an edge that stays keeps its vertex, and what `network` has for its key
    have hstays {y : Edge} (hy : (g.evaluateAll dm new rs).lookup a b = some y) :
        ((g.evaluateAll dm new rs).evaluateRecord dm r (new rs.length)).find b = some y.node ↔
          ¬Dangling source target rs a b := by
      have hne : y.node ≠ (new rs.length).v := fun heq => hunused.v (heq ▸ hwf.node_mem hy)
      rw [hwf.find_evaluateRecord_eq_some hunused hne, ih hy]
    by_cases hpair : source r = a ∧ target r = b
    · rw [hsome hpair, Option.some.injEq] at hx
      subst hx
      cases hold : (g.evaluateAll dm new rs).lookup a b with
      | some y =>
        have hpresent : Present source target rs a b := by
          by_contra hnot
          rw [(lookup_evaluateAll_eq_none hnew hg).2 hnot] at hold
          cases hold
        have hw : ¬Wipes source target rs r a := fun hw => hw.2 (hpair.1 ▸ hpresent.mem)
        simpa [hpresent, hw] using hstays hold
      | none =>
        have hpresent := (lookup_evaluateAll_eq_none hnew hg).1 hold
        have hdangling : ¬Dangling source target rs a b := fun h => hpresent h.present
        have htarget : r.proxy2.tapMAC = b := hpair.2
        have hendpoint := hwf.find_endpoint dm r hunused
        rw [ne_eq, find_evaluateAll_eq_none hnew hg, htarget, not_not] at hendpoint
        simpa [hpair, hpresent, hdangling] using hendpoint
    · by_cases hw : Wipes source target rs r a
      · rw [hlost hpair hw] at hx
        cases hx
      · rw [hsame hpair hw] at hx
        simpa [hpair, hw] using hstays hx

/-- To be closed is to have for every key the vertex of the edge that is found. -/
theorem WellFormed.closed_iff_lookup {V : Set VertexPtr} {E : Set EdgePtr} (h : g.WellFormed V E) :
    g.Closed ↔ ∀ a b x, g.lookup a b = some x → g.find b = some x.node := by
  constructor
  · intro hclosed a b x hx
    obtain ⟨v, e, hv, he, rfl⟩ := lookup_eq_some.1 hx
    obtain ⟨hmem, hkey⟩ := mem_of_findNbr he
    rw [← hkey]
    exact hclosed v (mem_of_find hv).1 e hmem
  · intro hfind v hv e he
    exact hfind (g.mac v) _ _ (lookup_eq_some.2 ⟨v, e, h.vertexKeys v hv, h.edgeKeys v hv e he, rfl⟩)

/-- A closed graph is not left by following its edges. -/
theorem WellFormed.contained {V : Set VertexPtr} {E : Set EdgePtr} (h : g.WellFormed V E)
    (hclosed : g.Closed) : g.Contained := by
  intro v hv w hvw
  induction hvw with
  | refl => exact h.vertexKeys v hv
  | tail _ hstep ih =>
    obtain ⟨e, he, rfl⟩ := hstep
    exact hclosed _ (mem_of_find ih).1 e he

/-- **When the graph is closed**: every record that enters an edge which stays until the end has a
second proxy that was the first proxy of a record before it. -/
theorem closed_iff_grounded (dm : DataModel) (new : ℕ → Fresh) (hnew : Allocates new) (g : Network)
    (hg : g.order = []) (rs : List LinkStateRecord) :
    ((g.evaluateAll dm new rs).Closed ∧ (g.evaluateAll dm new rs).Contained) ↔
      Grounded source target rs := by
  have hwf := wellFormed_evaluateAll dm hnew hg rs
  rw [and_iff_left_of_imp hwf.contained, hwf.closed_iff_lookup, grounded_iff]
  refine forall_congr' fun a => forall_congr' fun b => ?_
  constructor
  · intro h hdangling
    cases hx : (g.evaluateAll dm new rs).lookup a b with
    | none => exact (lookup_evaluateAll_eq_none hnew hg).1 hx hdangling.present
    | some x => exact (find_node_iff hnew hg hx).1 (h x hx) hdangling
  · intro h x hx
    exact (find_node_iff hnew hg hx).2 h

/-- The edge to the second proxy does not stay, and the one that does points to a vertex of
`network`. -/
theorem closed_iff_grounded_two : Allocates heap ∧ empty.order = [] ∧
    ((empty.evaluateAll .lp64 heap [edgeRecord 1 2, edgeRecord 3 1]).Closed ∧
      (empty.evaluateAll .lp64 heap [edgeRecord 1 2, edgeRecord 3 1]).Contained) ∧
    (empty.evaluateAll .lp64 heap [edgeRecord 1 2, edgeRecord 3 1]).lookup
      (.replicate 6 3) (.replicate 6 1) ≠ none := by
  refine ⟨allocates_heap, rfl, (closed_iff_grounded .lp64 heap allocates_heap empty rfl _).2 ?_,
    fun h => nomatch h⟩
  rw [grounded_iff]
  intro a b
  change ¬Dangling source target ([] ++ [edgeRecord 1 2] ++ [edgeRecord 3 1]) a b
  rw [dangling_concat, dangling_concat]
  rintro (⟨⟨-, rfl⟩, -, hb⟩ | ⟨⟨⟨rfl, -⟩, -⟩ | ⟨hdangling, -⟩, hwipes⟩)
  · exact absurd (by decide) hb
  · exact hwipes ⟨rfl, by decide⟩
  · exact dangling_nil hdangling

/-- The vertex for the second proxy of the first record is not in `network`. -/
theorem edge_leaves_network : Allocates heap ∧ empty.order = [] ∧
    ¬((empty.evaluateAll .lp64 heap [edgeRecord 1 2]).Closed ∧
      (empty.evaluateAll .lp64 heap [edgeRecord 1 2]).Contained) := by
  refine ⟨allocates_heap, rfl, fun h => ?_⟩
  have hedge := h.1 0 (by decide) 0 (by decide)
  revert hedge
  decide

end

end Network

end LinkProxy.Route
