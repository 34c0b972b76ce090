import LinkProxy.Gossip.RoundTrip

/-!
# The full mesh

The records of a broadcast are those of a complete graph: one for every ordered pair of distinct
proxies among the local one and its members. The passes of `Link_State_Broadcast` make them out of
the list of members, a row for each proxy: the row of the local proxy has the edges to all members,
and the row of a member has the edge back and those to the other members (`mesh`). If the addresses
are distinct, no pair comes twice and none is left out (`broadcastRecords_mesh`), whatever the order
of the list is.

The times of the records are not those of the full mesh: the edge back to the local proxy gets the
local time instead of that of its member. So every record of an edge carries the time of its first
proxy only if all times are the same in 32 bits (`ownTimes_iff`).

The buffer for them is allocated with the length that is in the header, which has 16 bits. The
packet fits into it if and only if its size fits the length field (`largeEnough_iff`).
-/

namespace LinkProxy.Gossip

open Bytes Wire Peers

/-! ## The pairs of a list -/

section

variable {κ : Type*} [DecidableEq κ]

/-- The row of `a`, and then for each of `ks` its pair with `a` and those with the others. -/
def mesh (a : κ) (ks : List κ) : List (κ × κ) :=
  ks.map (fun k => (a, k)) ++ ks.flatMap fun k => (k, a) :: (ks.filter (· ≠ k)).map fun k' => (k, k')

/-- The pairs in a mesh are those of distinct elements. -/
theorem mem_mesh {a : κ} {ks : List κ} (ha : a ∉ ks) {x y : κ} :
    (x, y) ∈ mesh a ks ↔ x ∈ a :: ks ∧ y ∈ a :: ks ∧ x ≠ y := by
  have hne {k : κ} (hk : k ∈ ks) : k ≠ a := fun heq => ha (heq ▸ hk)
  simp only [mesh, List.mem_append, List.mem_map, List.mem_flatMap, List.mem_cons, List.mem_filter,
    decide_eq_true_eq, Prod.mk.injEq]
  constructor
  · rintro (⟨k, hk, rfl, rfl⟩ | ⟨k, hk, ⟨rfl, rfl⟩ | ⟨k', ⟨hk', hkk'⟩, rfl, rfl⟩⟩)
    · exact ⟨.inl rfl, .inr hk, (hne hk).symm⟩
    · exact ⟨.inr hk, .inl rfl, hne hk⟩
    · exact ⟨.inr hk, .inr hk', hkk'.symm⟩
  · rintro ⟨rfl | hx, rfl | hy, hxy⟩
    · exact absurd rfl hxy
    · exact .inl ⟨y, hy, rfl, rfl⟩
    · exact .inr ⟨x, hx, .inl ⟨rfl, rfl⟩⟩
    · exact .inr ⟨x, hx, .inr ⟨y, ⟨hy, hxy.symm⟩, rfl, rfl⟩⟩

/-- No pair comes twice. -/
theorem nodup_mesh {a : κ} {ks : List κ} (ha : a ∉ ks) (hks : ks.Nodup) : (mesh a ks).Nodup := by
  have hpair (x : κ) : Function.Injective fun k : κ => (x, k) := fun k k' h => (Prod.mk.inj h).2
  have hrows : (ks.flatMap fun k => (k, a) :: (ks.filter (· ≠ k)).map fun k' => (k, k')).Nodup := by
    rw [List.nodup_flatMap]
    constructor
    · intro k hk
      refine List.nodup_cons.2 ⟨?_, (hks.filter _).map (hpair k)⟩
      intro hmem
      obtain ⟨k', hk', heq⟩ := List.mem_map.1 hmem
      exact ha ((Prod.mk.inj heq).2 ▸ (List.mem_filter.1 hk').1)
    · -- the pairs of a row have its proxy in front
      have hfirst {k : κ} {p : κ × κ}
          (hp : p ∈ (k, a) :: (ks.filter (· ≠ k)).map fun k' => (k, k')) : p.1 = k := by
        rcases List.mem_cons.1 hp with rfl | hp
        · rfl
        · obtain ⟨k', -, rfl⟩ := List.mem_map.1 hp
          rfl
      refine hks.imp fun hkk' p hp hp' => hkk' ?_
      rw [← hfirst hp, hfirst hp']
  refine List.nodup_append'.2 ⟨hks.map (hpair a), hrows, ?_⟩
  intro p hp hp'
  obtain ⟨k, -, rfl⟩ := List.mem_map.1 hp
  obtain ⟨k', hk', hmem⟩ := List.mem_flatMap.1 hp'
  simp only [List.mem_cons, Prod.mk.injEq, List.mem_map] at hmem
  rcases hmem with ⟨rfl, -⟩ | ⟨k'', -, rfl, -⟩
  · exact ha hk'
  · exact ha hk'

end

/-! ## The records in the buffer -/

section

variable (dm : DataModel) (linkState : LinkState) (timestamp : Timespec) (m : Members)

/-- The records between the head of the packet and the pointer. -/
def Cursor.records (c : Cursor) : List LinkStateRecord :=
  let start := 4 + 2 + linkStateSourceSize
  recordsFrom dm c.mem start ((c.ptr - start) / recordSize dm)

/-- The records that `Link_State_Broadcast` writes into a buffer with the first contents `mem`. -/
def broadcastRecords (mem : Buf) : List LinkStateRecord :=
  ((linkStateBuffer dm linkState timestamp m mem).map (Cursor.records dm)).getD []

/-- The proxies that a record is about. -/
def pair (r : LinkStateRecord) : MAC × MAC := (r.proxy1.tapMAC, r.proxy2.tapMAC)

variable {dm linkState timestamp m}

theorem length_linkStateHead : (linkStateHead dm linkState m).length =
    4 + 2 + linkStateSourceSize := by
  simp [linkStateHead, linkStateSourceSize, linkStateSize]

/-- The records in the buffer are those of the edges. -/
theorem broadcastRecords_eq (mem : Buf) : broadcastRecords dm linkState timestamp m mem =
    (edges linkState timestamp m).map Edge.record := by
  rw [broadcastRecords]
  cases hc : linkStateBuffer dm linkState timestamp m mem with
  | none =>
    have hempty : m.order = [] := by
      by_contra hne
      rw [linkStateBuffer, if_neg hne] at hc
      cases hc
    simp [edges, hempty]
  | some c =>
    have hwrote := linkStateBuffer_wrote dm linkState timestamp m mem hc
    have hptr := hwrote.ptr
    have hmem := hwrote.mem
    rw [List.length_append, length_linkStateHead, length_recordBytes] at hptr
    rw [holds_append, length_linkStateHead, Nat.zero_add] at hmem
    have hpos : 0 < recordSize dm := by
      rw [recordSize_eq]
      omega
    have hcount : (c.ptr - (4 + 2 + linkStateSourceSize)) / recordSize dm =
        ((edges linkState timestamp m).map Edge.record).length := by
      rw [hptr, Nat.add_sub_cancel_left, Nat.mul_div_cancel _ hpos, List.length_map]
    rw [Option.map_some, Option.getD_some, Cursor.records, hcount]
    apply recordsFrom_of_holds
    rw [List.flatMap_map]
    exact hmem.2

/-- The pairs of the edges are those of the addresses. -/
theorem pair_edges (hkeys : (m.order.map m.key).Nodup) :
    ((edges linkState timestamp m).map Edge.record).map pair =
      mesh linkState.tapMAC (m.order.map m.key) := by
  have hothers (p : Ptr) (hp : p ∈ m.order) : (m.order.map m.key).filter (· ≠ m.key p) =
      (m.order.filter (· ≠ p)).map m.key := by
    rw [List.filter_map]
    congr 1
    refine List.filter_congr fun q hq => ?_
    have hinj : m.key q = m.key p ↔ q = p := ⟨List.inj_on_of_nodup_map hkeys hq hp, fun h => h ▸ rfl⟩
    simp [hinj]
  have hrow (p : Ptr) (hp : p ∈ m.order) :
      ((m.key p, linkState.tapMAC) :: ((m.order.map m.key).filter (· ≠ m.key p)).map fun k =>
        (m.key p, k)) =
      ((⟨timestamp, (m.peer p).ls, linkState⟩ :: (m.order.filter (· ≠ p)).map fun q =>
        (⟨(m.peer p).timestamp, (m.peer p).ls, (m.peer q).ls⟩ : Edge)).map Edge.record).map pair := by
    rw [hothers p hp]
    simp only [List.map_cons, List.map_map]
    rfl
  rw [mesh, edges, List.map_append, List.map_append, List.flatMap_map]
  congr 1
  · simp only [List.map_map]
    rfl
  · rw [List.map_flatMap, List.map_flatMap]
    exact (List.flatMap_congr hrow).symm

end

/-- **A broadcast describes the full mesh exactly once**: it has `N(N+1)` records, no two for the
same pair of proxies, and one for every ordered pair of distinct proxies among the local one and the
members. -/
theorem broadcastRecords_mesh (dm : DataModel) (linkState : LinkState) (timestamp : Timespec)
    (m : Members) (mem : Buf) (hkeys : (m.order.map m.key).Nodup)
    (hlocal : linkState.tapMAC ∉ m.order.map m.key) :
    (broadcastRecords dm linkState timestamp m mem).length = m.count * (m.count + 1) ∧
    ((broadcastRecords dm linkState timestamp m mem).map pair).Nodup ∧
    ∀ a b, (a, b) ∈ (broadcastRecords dm linkState timestamp m mem).map pair ↔
      a ∈ linkState.tapMAC :: m.order.map m.key ∧ b ∈ linkState.tapMAC :: m.order.map m.key ∧
        a ≠ b := by
  rw [broadcastRecords_eq, pair_edges hkeys, List.length_map, length_edges]
  exact ⟨rfl, nodup_mesh hlocal hkeys, fun a b => mem_mesh hlocal⟩

/-- A table of `n` members with the addresses `1`, `2`, … in the first two bytes. -/
def numbered (n : ℕ) : Members where
  order := List.range n
  nodup := List.nodup_range
  peer p := ⟨⟨p, 0⟩, ⟨0, 0, #v[.ofNat ((p + 1) / 256), .ofNat (p + 1), 0, 0, 0, 0], .replicate 6 0⟩⟩

/-- A local proxy with the address `0`. -/
def origin : LinkState := ⟨0, 0, .replicate 6 0, .replicate 6 0⟩

/-- Three members and the local proxy have twelve records. -/
theorem broadcastRecords_mesh_three :
    ((numbered 3).order.map (numbered 3).key).Nodup ∧
    origin.tapMAC ∉ (numbered 3).order.map (numbered 3).key ∧
    ((broadcastRecords .lp64 origin ⟨5, 6⟩ (numbered 3) fun _ => 0).map pair).Nodup ∧
    (broadcastRecords .lp64 origin ⟨5, 6⟩ (numbered 3) fun _ => 0).length = 12 := by
  have hkeys : ((numbered 3).order.map (numbered 3).key).Nodup := by decide
  have hlocal : origin.tapMAC ∉ (numbered 3).order.map (numbered 3).key := by decide
  obtain ⟨hlength, hnodup, -⟩ :=
    broadcastRecords_mesh .lp64 origin ⟨5, 6⟩ (numbered 3) (fun _ => 0) hkeys hlocal
  exact ⟨hkeys, hlocal, hnodup, hlength⟩

/-! ## The times of the records -/

/-- The time that a record carries is the given one, in 32 bits and in network byte order. -/
def Carries (r : LinkStateRecord) (t : Timespec) : Prop :=
  r.sec = stamp t.tvSec ∧ r.nsec = stamp t.tvNsec

/-- **One timestamp per proxy**: the records of a member carry its time, those of the local proxy
the local time, and the records of one proxy carry the same. -/
structure OwnTimes (linkState : LinkState) (timestamp : Timespec) (m : Members)
    (rs : List LinkStateRecord) : Prop where
  member : ∀ r ∈ rs, ∀ pp ∈ m.order, r.proxy1.tapMAC = m.key pp → Carries r (m.peer pp).timestamp
  origin : ∀ r ∈ rs, r.proxy1.tapMAC = linkState.tapMAC → Carries r timestamp
  uniform : ∀ r ∈ rs, ∀ r' ∈ rs, r.proxy1.tapMAC = r'.proxy1.tapMAC →
    r.sec = r'.sec ∧ r.nsec = r'.nsec

/-- Two times are the same in 32 bits. -/
def SameStamp (t t' : Timespec) : Prop :=
  stamp t.tvSec = stamp t'.tvSec ∧ stamp t.tvNsec = stamp t'.tvNsec

section

variable {dm : DataModel} {linkState : LinkState} {timestamp : Timespec} {m : Members}

/-- The edge from a member back to the local proxy has the local time. -/
theorem back_mem_edges {pp : Ptr} (hpp : pp ∈ m.order) :
    ⟨timestamp, (m.peer pp).ls, linkState⟩ ∈ edges linkState timestamp m :=
  List.mem_append_right _ (List.mem_flatMap.2 ⟨pp, hpp, List.mem_cons_self ..⟩)

/-- The time of an edge is the local one or that of a member. -/
theorem time_of_mem_edges {e : Edge} (he : e ∈ edges linkState timestamp m) :
    e.time = timestamp ∨ ∃ pp ∈ m.order, e.time = (m.peer pp).timestamp := by
  simp only [edges, List.mem_append, List.mem_map, List.mem_flatMap, List.mem_cons] at he
  rcases he with ⟨pp, -, rfl⟩ | ⟨pp, hpp, rfl | ⟨tmp, -, rfl⟩⟩
  · exact .inl rfl
  · exact .inl rfl
  · exact .inr ⟨pp, hpp, rfl⟩

/-- If all times are the same, all records carry the local one. -/
theorem carries_of_sameStamp (h : ∀ pp ∈ m.order, SameStamp (m.peer pp).timestamp timestamp)
    {mem : Buf} {r : LinkStateRecord} (hr : r ∈ broadcastRecords dm linkState timestamp m mem) :
    Carries r timestamp := by
  rw [broadcastRecords_eq] at hr
  obtain ⟨e, he, rfl⟩ := List.mem_map.1 hr
  rcases time_of_mem_edges he with htime | ⟨pp, hpp, htime⟩
  · rw [← htime]
    exact ⟨rfl, rfl⟩
  · obtain ⟨hsec, hnsec⟩ := h pp hpp
    rw [← htime] at hsec hnsec
    exact ⟨hsec, hnsec⟩

end

/-- **When a broadcast has one timestamp per proxy**: the times of all members are the local time in
32 bits. -/
theorem ownTimes_iff (dm : DataModel) (linkState : LinkState) (timestamp : Timespec) (m : Members)
    (mem : Buf) :
    OwnTimes linkState timestamp m (broadcastRecords dm linkState timestamp m mem) ↔
      ∀ pp ∈ m.order, SameStamp (m.peer pp).timestamp timestamp := by
  constructor
  · intro h pp hpp
    have hback : (⟨timestamp, (m.peer pp).ls, linkState⟩ : Edge).record ∈
        broadcastRecords dm linkState timestamp m mem := by
      rw [broadcastRecords_eq]
      exact List.mem_map_of_mem (back_mem_edges hpp)
    obtain ⟨hsec, hnsec⟩ := h.member _ hback pp hpp rfl
    exact ⟨hsec.symm, hnsec.symm⟩
  · intro h
    refine ⟨fun r hr pp hpp _ => ?_, fun r hr _ => carries_of_sameStamp h hr, fun r hr r' hr' _ => ?_⟩
    · obtain ⟨hsec, hnsec⟩ := carries_of_sameStamp h hr
      obtain ⟨hsec', hnsec'⟩ := h pp hpp
      exact ⟨hsec.trans hsec'.symm, hnsec.trans hnsec'.symm⟩
    · obtain ⟨hsec, hnsec⟩ := carries_of_sameStamp h hr
      obtain ⟨hsec', hnsec'⟩ := carries_of_sameStamp h hr'
      exact ⟨hsec.trans hsec'.symm, hnsec.trans hnsec'.symm⟩

/-- One member with the time `0.0`, and the local time `5.6`: the record of the edge from the member
carries `5.6`. -/
theorem not_ownTimes_back : ¬OwnTimes origin ⟨5, 6⟩ (numbered 1)
    (broadcastRecords .lp64 origin ⟨5, 6⟩ (numbered 1) fun _ => 0) := by
  intro h
  have hback : (⟨⟨5, 6⟩, ((numbered 1).peer 0).ls, origin⟩ : Edge).record ∈
      broadcastRecords .lp64 origin ⟨5, 6⟩ (numbered 1) fun _ => 0 := by
    rw [broadcastRecords_eq]
    exact List.mem_map_of_mem (back_mem_edges (List.mem_range.2 Nat.one_pos))
  have hcarries := h.member _ hback 0 (List.mem_range.2 Nat.one_pos) rfl
  exact absurd hcarries.1 (by decide)

/-! ## The room for the records -/

/-- **The buffer is large enough**: what has been written into it when the pointer has come to `c`
is not more than the size of the header and the length in it, for which the buffer was allocated,
and this length is the size of the payload. -/
structure LargeEnough (dm : DataModel) (m : Members) (c : Cursor) : Prop where
  written : c.ptr ≤ 4 + (ntohs (ldProxyHeader c.mem 0).length).toNat
  length : (ntohs (ldProxyHeader c.mem 0).length).toNat =
    22 + m.count * (m.count + 1) * recordSize dm

section

variable {dm : DataModel} {linkState : LinkState} {timestamp : Timespec} {m : Members}

/-- The number of bytes that are written. -/
theorem linkStateBuffer_ptr {mem : Buf} {c : Cursor}
    (hc : linkStateBuffer dm linkState timestamp m mem = some c) :
    c.ptr = 26 + m.count * (m.count + 1) * recordSize dm := by
  rw [(linkStateBuffer_wrote dm linkState timestamp m mem hc).ptr, List.length_append,
    length_linkStateHead, length_recordBytes, length_edges, linkStateSourceSize, linkStateSize]

theorem linkStateBuffer_isSome (mem : Buf) (h : m.order ≠ []) :
    ∃ c, linkStateBuffer dm linkState timestamp m mem = some c := by
  rw [linkStateBuffer, if_neg h]
  exact ⟨_, rfl⟩

theorem fits_of_empty (h : m.order = []) : Fits dm m := by
  rw [Fits, Members.count, h]
  norm_num

end

/-- **When the buffer is large enough**: the size of the payload fits a length field of 16 bits. -/
theorem largeEnough_iff (dm : DataModel) (linkState : LinkState) (timestamp : Timespec) (m : Members)
    (mem : Buf) :
    (∀ c, linkStateBuffer dm linkState timestamp m mem = some c → LargeEnough dm m c) ↔
      22 + m.count * (m.count + 1) * recordSize dm ≤ 65535 := by
  constructor
  · intro h
    by_cases hempty : m.order = []
    · exact fits_of_empty hempty
    · obtain ⟨c, hc⟩ : ∃ c, linkStateBuffer dm linkState timestamp m mem = some c :=
        linkStateBuffer_isSome mem hempty
      rw [← (h c hc).length]
      exact Nat.le_of_lt_succ (UInt16.toNat_lt _)
  · intro h c hc
    have hfits : Fits dm m := h
    have hlength : (ntohs (ldProxyHeader c.mem 0).length).toNat =
        22 + m.count * (m.count + 1) * recordSize dm := by
      rw [linkStateBuffer_length hc, hfits.toNat_linkStateLength]
    exact ⟨by rw [hlength, linkStateBuffer_ptr hc]; omega, hlength⟩

/-- With 34 members on LP64 the packet has 66666 bytes, and the buffer 1130. -/
theorem buffer_overrun : ¬∀ c, linkStateBuffer .lp64 origin ⟨5, 6⟩ (numbered 34) (fun _ => 0) = some c →
    LargeEnough .lp64 (numbered 34) c := by
  intro h
  have hne : (numbered 34).order ≠ [] := by decide
  obtain ⟨c, hc⟩ : ∃ c, linkStateBuffer .lp64 origin ⟨5, 6⟩ (numbered 34) (fun _ => 0) = some c :=
    linkStateBuffer_isSome _ hne
  have hlength : linkStateLength .lp64 (numbered 34) = 1126 := by decide
  have hwritten := (h c hc).written
  rw [linkStateBuffer_length hc, linkStateBuffer_ptr hc, hlength] at hwritten
  exact absurd hwritten (by decide)

end LinkProxy.Gossip
