import LinkProxy.Gossip.Receive

/-!
# From the broadcast to the loop of the receiver

A link-state packet of `N` members that fits its 16-bit length field carries `N(N+1)` records, one
for each edge. The receiver of its payload accepts the length and reads the sender's `link_state`,
for both data models, and its loop visits the records that were written. It gets to the end of the
payload exactly if it knows every proxy that a record is about (`linkStateBuffer_roundTrip_iff`): one
that it does not know is dialled inside the section of the receiver, where `connectbyaddr` returns no
`Peer`, and the `NULL` is used.
-/

namespace LinkProxy.Gossip

open Bytes Wire Peers

section

variable (dm : DataModel) (linkState : LinkState) (timestamp : Timespec) (m : Members)

/-- The packet of the membership list fits the length field. -/
def Fits : Prop := 22 + m.count * (m.count + 1) * (dm.timespecSize + 40) ≤ 65535

instance : Decidable (Fits dm m) := inferInstanceAs (Decidable (_ ≤ _))

/-! ## Counting -/

/-- A neighbour has one fewer than `N` other neighbours. -/
theorem length_others {pp : Ptr} (hpp : pp ∈ m.order) :
    (m.order.filter (· ≠ pp)).length + 1 = m.count := by
  have herase : m.order.erase pp = m.order.filter (· ≠ pp) := by
    rw [List.Nodup.erase_eq_filter m.nodup]
    exact List.filter_congr fun q _ => by by_cases h : q = pp <;> simp [h]
  have hpos := List.length_pos_of_mem hpp
  rw [← herase, List.length_erase_of_mem hpp, Members.count]
  omega

/-- One record for each edge between two of the local proxy and its `N` neighbours. -/
theorem length_edges : (edges linkState timestamp m).length = m.count * (m.count + 1) := by
  have hrow : m.order.map (fun pp => (m.order.filter (· ≠ pp)).length + 1) =
      m.order.map fun _ => m.count :=
    List.map_congr_left fun pp hpp => length_others m hpp
  simp only [edges, List.length_append, List.length_map, List.length_flatMap, List.length_cons, hrow,
    List.map_const', List.sum_replicate, smul_eq_mul]
  rw [← Members.count]
  ring

variable {dm m}

theorem Fits.count_lt (h : Fits dm m) :
    m.count * m.count + m.count < 65536 ∧ m.count < 65536 := by
  have hle : m.count * (m.count + 1) ≤ m.count * (m.count + 1) * (dm.timespecSize + 40) :=
    Nat.le_mul_of_pos_right _ (by omega)
  have hself : m.count ≤ m.count * (m.count + 1) := Nat.le_mul_of_pos_right _ (by omega)
  have hring : m.count * (m.count + 1) = m.count * m.count + m.count := by ring
  unfold Fits at h
  omega

theorem Fits.toNat_numNbrs (h : Fits dm m) : (numNbrs m).toNat = m.count := by
  rw [numNbrs, UInt16.toNat_ofNat']
  exact Nat.mod_eq_of_lt h.count_lt.2

theorem recordSize_eq (dm : DataModel) : recordSize dm = dm.timespecSize + 40 := rfl

theorem Fits.toNat_linkStateLength (h : Fits dm m) : (linkStateLength dm m).toNat =
    22 + m.count * (m.count + 1) * recordSize dm := by
  rw [linkStateLength, UInt16.toNat_ofNat', h.toNat_numNbrs, recordSize_eq]
  exact Nat.mod_eq_of_lt (Nat.lt_succ_of_le h)

/-- The receiver accepts the length, for its conversions lose nothing. -/
theorem Fits.lengthOk (h : Fits dm m) : lengthOk dm (numNbrs m) (linkStateLength dm m) := by
  have hcount := h.count_lt
  have hlen := h.toNat_linkStateLength
  have hlt := (linkStateLength dm m).toNat_lt
  have hwrap : wrap32 ((m.count : Int) * m.count + m.count) =
      ((m.count * m.count + m.count : ℕ) : Int) := by
    rw [wrap32, Int.bmod_eq_of_le (by norm_num; omega) (by norm_num; omega)]
    push_cast
    ring
  have htotal : (2 * 2 + linkStateSize + ((m.count * m.count + m.count : ℕ) : Int) * recordSize dm) =
      ((linkStateLength dm m).toNat : Int) := by
    rw [hlen]
    simp only [linkStateSize]
    push_cast
    ring
  rw [Gossip.lengthOk, h.toNat_numNbrs, hwrap, htotal, beq_iff_eq]
  exact dm.toSize_of_lt (by omega) (by omega)

/-- The loop of the receiver counts the edges. -/
theorem Fits.toNat_counter (h : Fits dm m) :
    (numNbrs m * numNbrs m + numNbrs m).toNat = (edges linkState timestamp m).length := by
  have hcount := h.count_lt
  rw [UInt16.toNat_add, UInt16.toNat_mul, h.toNat_numNbrs, length_edges, Nat.mod_add_mod,
    Nat.mod_eq_of_lt hcount.1]
  ring

/-! ## The payload -/

/-- The payload of a broadcast. -/
def payload (dm : DataModel) (m : Members) : List UInt8 :=
  le 2 (htons (numNbrs m)).toNat ++ (linkState.bytes ++ (le 2 (htons (numNbrs m)).toNat ++
    recordBytes dm (edges linkState timestamp m)))

theorem length_recordBytes (es : List Edge) :
    (recordBytes dm es).length = es.length * recordSize dm := by
  induction es with
  | nil => simp [recordBytes]
  | cons e es ih =>
    rw [recordBytes, List.flatMap_cons, List.length_append, LinkStateRecord.length_bytes,
      ← recordBytes, ih, List.length_cons]
    ring

theorem Fits.length_payload (h : Fits dm m) :
    (payload linkState timestamp dm m).length = (linkStateLength dm m).toNat := by
  rw [h.toNat_linkStateLength]
  simp only [payload, List.length_append, length_le, LinkState.length_bytes, linkStateSize,
    length_recordBytes, length_edges]
  ring

variable {linkState timestamp}

/-- The length in the header. -/
theorem linkStateBuffer_length {mem : Buf} {c : Cursor}
    (hc : linkStateBuffer dm linkState timestamp m mem = some c) :
    ntohs (ldProxyHeader c.mem 0).length = linkStateLength dm m := by
  have hwrote := (linkStateBuffer_wrote dm linkState timestamp m mem hc).mem
  rw [linkStateHead, List.append_assoc, holds_append] at hwrote
  exact (ldProxyHeader_header hwrote.1).2

/-- The bytes that follow the header are the payload. -/
theorem linkStateBuffer_payload {mem : Buf} {c : Cursor} (h : Fits dm m)
    (hc : linkStateBuffer dm linkState timestamp m mem = some c) :
    slice c.mem 4 (linkStateLength dm m).toNat = payload linkState timestamp dm m := by
  have hwrote := (linkStateBuffer_wrote dm linkState timestamp m mem hc).mem
  rw [linkStateHead, List.append_assoc, holds_append, length_header] at hwrote
  have hrest := hwrote.2
  rw [← h.length_payload linkState timestamp]
  simpa [payload, Holds] using hrest

section

variable {data : Buf} (hd : Holds data 0 (payload linkState timestamp dm m))
include hd

theorem announced_payload : announced data = numNbrs m := by
  have hN := (holds_append.1 hd).1
  rw [announced, ld16_of_holds hN, ntohs_htons]

theorem source_payload : Holds data 2 linkState.bytes ∧ ldLinkState data 2 = linkState := by
  have hsource := (holds_append.1 (holds_append.1 hd).2).1
  exact ⟨by simpa using hsource, ldLinkState_of_holds (by simpa using hsource)⟩

theorem records_payload : Holds data (2 + linkStateSourceSize)
    (((edges linkState timestamp m).map Edge.record).flatMap fun r => r.bytes dm) := by
  have hrecords := (holds_append.1 (holds_append.1 (holds_append.1 hd).2).2).2
  simpa [linkStateSourceSize, recordBytes, List.flatMap_map, Nat.add_assoc] using hrecords

end

/-- What a receiver makes of a record: the times as it reads them, and the proxies. -/
def view (r : LinkStateRecord) : UInt32 × UInt32 × LinkState × LinkState :=
  (ntohl r.sec, ntohl r.nsec, r.proxy1, r.proxy2)

theorem view_record (e : Edge) :
    view e.record = (.ofInt e.time.tvSec, .ofInt e.time.tvNsec, e.proxy1, e.proxy2) := by
  simp [view, Edge.record, stamp]

/-- The loop of a receiver of the payload counts the records that were written. -/
theorem runRecords_payload (h : Fits dm m) {data : Buf}
    (hd : Holds data 0 (payload linkState timestamp dm m)) (self : LinkState) (net : Network)
    (m₀ : Members) : runRecords dm self net data m₀ = recordLoop dm self net data
      ((edges linkState timestamp m).map Edge.record).length ⟨2 + linkStateSourceSize, m₀, []⟩ := by
  rw [runRecords, announced_payload hd, h.toNat_counter linkState timestamp, List.length_map]

/-- It visits them in order. -/
theorem runRecords_visited (h : Fits dm m) {data : Buf}
    (hd : Holds data 0 (payload linkState timestamp dm m)) (self : LinkState) (net : Network)
    (m₀ : Members) (hend : (runRecords dm self net data m₀).2 = true) :
    (runRecords dm self net data m₀).1.visited = (edges linkState timestamp m).map Edge.record ∧
      (runRecords dm self net data m₀).1.ptr = (linkStateLength dm m).toNat := by
  rw [runRecords_payload h hd] at hend ⊢
  have hvisited := (recordLoop_visited dm self net ((edges linkState timestamp m).map Edge.record)
    ⟨2 + linkStateSourceSize, m₀, []⟩ (records_payload hd)).2 hend
  rw [List.nil_append] at hvisited
  rw [h.toNat_linkStateLength, ← length_edges linkState timestamp m,
    ← List.length_map (f := Edge.record)]
  exact hvisited

/-- It comes to its end if it knows every proxy. -/
theorem runRecords_known (h : Fits dm m) {data : Buf}
    (hd : Holds data 0 (payload linkState timestamp dm m)) {self : LinkState} (net : Network)
    {m₀ : Members} (hk : ∀ e ∈ edges linkState timestamp m, Known self m₀ e.record) :
    (runRecords dm self net data m₀).2 = true := by
  rw [runRecords_payload h hd]
  exact (recordLoop_known net _ ⟨2 + linkStateSourceSize, m₀, []⟩ (records_payload hd)
    (List.forall_mem_map.2 hk)).1

/-- Where nobody is dialled, it does so only then. -/
theorem runRecords_completes_iff (h : Fits dm m) {data : Buf}
    (hd : Holds data 0 (payload linkState timestamp dm m)) (self : LinkState) {net : Network}
    (hnet : net.DialsNobody) (m₀ : Members) : (runRecords dm self net data m₀).2 = true ↔
      ∀ e ∈ edges linkState timestamp m, Known self m₀ e.record := by
  rw [runRecords_payload h hd, recordLoop_completes_iff hnet _ _ (records_payload hd),
    List.forall_mem_map]

/-- What is broadcast is what is received: the length in the header passes the length check, the
source is the `link_state` of the sender byte for byte, and the loop visits the records that were
written, in order, with the proxies and, through `ntohl`, the times of the edges modulo `2^32`, and
ends at the end of the payload. -/
structure RoundTrip (dm : DataModel) (linkState : LinkState) (timestamp : Timespec) (m : Members)
    (length : UInt16) (data : Buf) (receiver : LinkState) (net : Network) (m₀ : Members) : Prop where
  accepted : lengthOk dm (announced data) length = true
  source : Holds data 2 linkState.bytes ∧ ldLinkState data 2 = linkState
  completes : (runRecords dm receiver net data m₀).2 = true
  visited : (runRecords dm receiver net data m₀).1.visited = (edges linkState timestamp m).map Edge.record
  views : (runRecords dm receiver net data m₀).1.visited.map view =
    (edges linkState timestamp m).map fun e =>
      (.ofInt e.time.tvSec, .ofInt e.time.tvNsec, e.proxy1, e.proxy2)
  atEnd : (runRecords dm receiver net data m₀).1.ptr = length.toNat

/-- A loop that comes to its end has received what was broadcast. -/
theorem roundTrip_of_completes (h : Fits dm m) {data : Buf}
    (hd : Holds data 0 (payload linkState timestamp dm m)) {receiver : LinkState} {net : Network}
    {m₀ : Members} (hend : (runRecords dm receiver net data m₀).2 = true) :
    RoundTrip dm linkState timestamp m (linkStateLength dm m) data receiver net m₀ := by
  obtain ⟨hvisited, hptr⟩ := runRecords_visited h hd receiver net m₀ hend
  refine ⟨by rw [announced_payload hd]; exact h.lengthOk, source_payload hd, hend, hvisited, ?_, hptr⟩
  rw [hvisited, List.map_map]
  exact List.map_congr_left fun e _ => view_record e

/-- **What is broadcast is what is received, exactly if its proxies are known.** For any membership
list whose packet fits, any receiver of the payload and any table in which its loop begins: if the
first proxy of every record is the receiver or a member, the round trip holds whatever the network
does; and where `connectbyaddr` returns no `Peer`, it holds only then. -/
theorem linkStateBuffer_roundTrip_iff {mem : Buf} {c : Cursor} (h : Fits dm m)
    (hc : linkStateBuffer dm linkState timestamp m mem = some c) {data : Buf}
    (hd : Holds data 0 (slice c.mem 4 (ntohs (ldProxyHeader c.mem 0).length).toNat))
    (receiver : LinkState) (m₀ : Members) :
    ((∀ e ∈ edges linkState timestamp m, Known receiver m₀ e.record) → ∀ net, RoundTrip dm linkState
      timestamp m (ntohs (ldProxyHeader c.mem 0).length) data receiver net m₀) ∧
    ∀ net : Network, net.DialsNobody →
      (RoundTrip dm linkState timestamp m (ntohs (ldProxyHeader c.mem 0).length) data receiver net m₀ ↔
        ∀ e ∈ edges linkState timestamp m, Known receiver m₀ e.record) := by
  rw [linkStateBuffer_length hc, linkStateBuffer_payload h hc] at hd
  rw [linkStateBuffer_length hc]
  have hknown (hk : ∀ e ∈ edges linkState timestamp m, Known receiver m₀ e.record) (net : Network) :=
    roundTrip_of_completes h hd (runRecords_known h hd net hk)
  refine ⟨hknown, fun net hnet => ⟨fun htrip => ?_, fun hk => hknown hk net⟩⟩
  exact (runRecords_completes_iff h hd receiver hnet m₀).1 htrip.completes

/-! ## Two members -/

/-- The proxies of an example. -/
def proxyOf (n : ℕ) : LinkState := ⟨.ofNat n, 2, .replicate 6 (.ofNat n), .replicate 6 0⟩

/-- The proxy 0 with its members 1 and 2. -/
def twoMembers : Members := ⟨[1, 2], by decide, fun p => ⟨⟨p, 7⟩, proxyOf p⟩⟩

/-- No connection is made. -/
def Network.down : Network := ⟨fun _ _ m => some (none, m), ⟨0, 0⟩⟩

theorem Network.down_dialsNobody : Network.down.DialsNobody := fun _ _ _ => rfl

theorem linkStateBuffer_twoMembers :
    ∃ c, linkStateBuffer .lp64 (proxyOf 0) ⟨5, 6⟩ twoMembers (fun _ => 0) = some c := ⟨_, rfl⟩

/-- The payload behind the header, as a receiver has it. -/
theorem holds_behind (c : Cursor) (n : ℕ) : Holds (fun i => c.mem (4 + i)) 0 (slice c.mem 4 n) := by
  simp [Holds, slice]

/-- The member 1 knows the sender and the member 2, and receives what was broadcast. -/
theorem linkStateBuffer_roundTrip_two : ∃ (c : Cursor) (m₀ : Members),
    linkStateBuffer .lp64 (proxyOf 0) ⟨5, 6⟩ twoMembers (fun _ => 0) = some c ∧ m₀.order = [0, 2] ∧
      RoundTrip .lp64 (proxyOf 0) ⟨5, 6⟩ twoMembers (ntohs (ldProxyHeader c.mem 0).length)
        (fun i => c.mem (4 + i)) (proxyOf 1) Network.down m₀ := by
  obtain ⟨c, hc⟩ := linkStateBuffer_twoMembers
  let m₀ : Members := ⟨[0, 2], by decide, fun p => ⟨⟨p, 1⟩, proxyOf p⟩⟩
  have hfits : Fits .lp64 twoMembers := by decide
  obtain ⟨-, hiff⟩ := linkStateBuffer_roundTrip_iff hfits hc (holds_behind c _) (proxyOf 1) m₀
  have hknown : ∀ e ∈ edges (proxyOf 0) ⟨5, 6⟩ twoMembers, e.record.proxy1.tapMAC =
      (proxyOf 1).tapMAC ∨ (m₀.find e.record.proxy1.tapMAC).isSome := by
    decide
  exact ⟨c, m₀, hc, rfl, (hiff Network.down Network.down_dialsNobody).2 hknown⟩

/-- **An unknown proxy ends the run.** The member 1 knows only the sender, and `connectbyaddr` returns
`NULL` for the member 2. -/
theorem unknown_proxy_not_received : ∃ (c : Cursor) (m₀ : Members), Fits .lp64 twoMembers ∧
    linkStateBuffer .lp64 (proxyOf 0) ⟨5, 6⟩ twoMembers (fun _ => 0) = some c ∧ m₀.order = [0] ∧
      ¬ RoundTrip .lp64 (proxyOf 0) ⟨5, 6⟩ twoMembers (ntohs (ldProxyHeader c.mem 0).length)
        (fun i => c.mem (4 + i)) (proxyOf 1) Network.down m₀ := by
  obtain ⟨c, hc⟩ := linkStateBuffer_twoMembers
  let m₀ : Members := .single 0 ⟨⟨0, 1⟩, proxyOf 0⟩
  have hfits : Fits .lp64 twoMembers := by decide
  refine ⟨c, m₀, hfits, hc, rfl, fun htrip => ?_⟩
  have hd := holds_behind c (linkStateLength .lp64 twoMembers).toNat
  rw [linkStateBuffer_payload hfits hc] at hd
  have hknown := (runRecords_completes_iff hfits hd (proxyOf 1) Network.down_dialsNobody m₀).1
    htrip.completes
  have hunknown : ∃ e ∈ edges (proxyOf 0) ⟨5, 6⟩ twoMembers, ¬ (e.record.proxy1.tapMAC =
      (proxyOf 1).tapMAC ∨ (m₀.find e.record.proxy1.tapMAC).isSome) := by
    decide
  obtain ⟨e, he, hno⟩ := hunknown
  exact hno (hknown e he)

end

end LinkProxy.Gossip
