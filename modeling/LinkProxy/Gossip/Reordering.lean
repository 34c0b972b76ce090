import LinkProxy.Gossip.Timestamps

/-!
# The order of link-state packets

`Link_State` stores the time of every record about a member, whatever time it has stored before:
times are not compared anywhere in the proxy. So the packets that a proxy has processed, over
whichever connections they have come, leave for every member the time of the last record that names
it (`receiveAll_timestamps`), and an old packet that comes late puts the clock of a link back.
-/

namespace LinkProxy.Gossip

open Bytes Wire Peers

/-- The payload of a link-state packet, as `eth_handler` passes it on. -/
structure Packet where
  data : Buf
  length : UInt16

section

variable (dm : DataModel) (linkState : LinkState)

/-- The time that `Link_State` takes from a record. -/
def recordTime (r : LinkStateRecord) : Timespec := ⟨dm.toLong (ntohl r.sec), dm.toLong (ntohl r.nsec)⟩

/-- The records of a packet, in the order of the loop. -/
def Packet.records (p : Packet) : List LinkStateRecord :=
  recordsFrom dm p.data (2 + linkStateSourceSize)
    (announced p.data * announced p.data + announced p.data).toNat

/-- The records that `Link_State` looks at: none in a packet of the local proxy. -/
def Packet.considered (p : Packet) : List LinkStateRecord :=
  if (ldLinkState p.data 2).tapMAC = linkState.tapMAC then [] else p.records dm

/-- A packet of the right length, all of whose proxies are members or the local one. -/
structure Packet.Accepted (m : Members) (p : Packet) : Prop where
  length : lengthOk dm (announced p.data) p.length = true
  source : (ldLinkState p.data 2).tapMAC = linkState.tapMAC ∨
    (m.find (ldLinkState p.data 2).tapMAC).isSome
  records : ∀ r ∈ p.records dm, Known linkState m r

/-- The membership list after packets that have been processed one after the other, each with the
result `0`. -/
def receiveAll (net : Network) : List Packet → Members → Option Members
  | [], m => some m
  | p :: ps, m => match receiveLinkState dm linkState net p.data p.length m with
    | some (0, m') => receiveAll net ps m'
    | _ => none

/-- The times of the records that name a proxy. -/
def timesOf (mac : MAC) (rs : List LinkStateRecord) : List Timespec :=
  (rs.filter fun r => r.proxy1.tapMAC = mac).map (recordTime dm)

end

/-! ## One packet -/

section

variable {dm : DataModel} {linkState : LinkState} {net : Network}

/-- An accepted packet applies the records that `Link_State` looks at. -/
theorem Packet.Accepted.receive {m : Members} {p : Packet} (h : p.Accepted dm linkState m) :
    receiveLinkState dm linkState net p.data p.length m =
      some (0, (p.considered dm linkState).foldl (applyRecord dm linkState) m) := by
  rw [receiveLinkState, h.length, Packet.considered]
  simp only [Bool.not_true, Bool.false_eq_true, if_false]
  by_cases hlocal : (ldLinkState p.data 2).tapMAC = linkState.tapMAC
  · simp only [if_pos hlocal, List.foldl_nil]
  · obtain ⟨pp, hpp⟩ := Option.isSome_iff_exists.1 (h.source.resolve_left hlocal)
    have hsource : receiveSource net (ldLinkState p.data 2) m = some m := by
      rw [receiveSource, hpp]
    obtain ⟨hend, hmembers⟩ := recordLoop_loaded net _
      ⟨2 + linkStateSourceSize, m, []⟩ h.records
    simp only [if_neg hlocal, hsource, Option.bind_eq_bind, Option.bind_some, runRecords, hend, if_true,
      hmembers, Option.pure_def, Packet.records]

/-- Timestamps do not matter for the acceptance of a packet. -/
theorem Packet.Accepted.congr {m m' : Members} {p : Packet} (h : p.Accepted dm linkState m)
    (hm : ∀ mac, m'.find mac = m.find mac) : p.Accepted dm linkState m' where
  length := h.length
  source := by
    rw [hm]
    exact h.source
  records r hr := by
    rw [Known, hm]
    exact h.records r hr

/-! ## Packets one after the other -/

/-- Accepted packets apply all their records in turn. -/
theorem receiveAll_accepted (ps : List Packet) {m : Members}
    (h : ∀ p ∈ ps, p.Accepted dm linkState m) :
    receiveAll dm linkState net ps m =
      some ((ps.flatMap (Packet.considered dm linkState)).foldl (applyRecord dm linkState) m) := by
  induction ps generalizing m with
  | nil => rfl
  | cons p ps ih =>
    rw [List.forall_mem_cons] at h
    rw [receiveAll, h.1.receive, List.flatMap_cons, List.foldl_append]
    exact ih fun q hq => (h.2 q hq).congr fun mac => foldl_applyRecord_find _ mac

/-- **The last record about a member wins.** -/
theorem foldl_applyRecord_last {m : Members} {mac : MAC} {p : Ptr} (hp : m.find mac = some p)
    (hown : mac ≠ linkState.tapMAC) (rs : List LinkStateRecord) :
    ((rs.foldl (applyRecord dm linkState) m).peer p).timestamp =
      (timesOf dm mac rs).getLastD (m.peer p).timestamp := by
  induction rs generalizing m with
  | nil => rfl
  | cons r rs ih =>
    rw [List.foldl_cons, ih (by rw [applyRecord_find]; exact hp)]
    by_cases hr : r.proxy1.tapMAC = mac
    · have hself : ((applyRecord dm linkState m r).peer p).timestamp = recordTime dm r :=
        applyRecord_self (by rw [hr]; exact hown) (by rw [hr]; exact hp)
      have htimes : timesOf dm mac (r :: rs) = recordTime dm r :: timesOf dm mac rs := by
        simp [timesOf, hr]
      rw [hself, htimes, List.getLastD_cons]
    · have hother : ((applyRecord dm linkState m r).peer p).timestamp = (m.peer p).timestamp := by
        apply applyRecord_other
        rw [(Members.mem_of_find hp).2]
        exact fun heq => absurd heq hr
      have htimes : timesOf dm mac (r :: rs) = timesOf dm mac rs := by
        simp [timesOf, hr]
      rw [hother, htimes]

/-- **Link-state packets in any number and order.** Packets that are accepted, all of whose proxies
are members, leave the members as they are, and for every member the time of the last record that
names it, or the time it has had if there is none. -/
theorem receiveAll_timestamps (net : Network) {ps : List Packet} {m : Members}
    (h : ∀ p ∈ ps, p.Accepted dm linkState m) :
    ∃ m', receiveAll dm linkState net ps m = some m' ∧ m'.order = m.order ∧
      (∀ p, (m'.peer p).ls = (m.peer p).ls) ∧
      ∀ mac p, m.find mac = some p → mac ≠ linkState.tapMAC → (m'.peer p).timestamp =
        (timesOf dm mac (ps.flatMap (Packet.considered dm linkState))).getLastD
          (m.peer p).timestamp := by
  refine ⟨_, receiveAll_accepted ps h, foldl_applyRecord_order _, fun p => foldl_applyRecord_ls _, ?_⟩
  intro mac p hp hown
  exact foldl_applyRecord_last hp hown _

end

/-- A proxy and the only member of the table below. -/
def onlyPeer : LinkState := ⟨0, 0, .replicate 6 1, .replicate 6 0⟩

/-- A table with one member, whose timestamp is zero. -/
def oneMember : Members := .single 0 ⟨⟨0, 0⟩, onlyPeer⟩

/-- A packet of the only member: two records, in which it is the first proxy, of a given second. -/
def packetAt (sec : Int) : Packet where
  data := bufOf (le 2 (htons 1).toNat ++ onlyPeer.bytes ++ le 2 (htons 1).toNat ++
    (Edge.record ⟨⟨sec, 0⟩, onlyPeer, onlyPeer⟩).bytes .lp64 ++
    (Edge.record ⟨⟨sec, 0⟩, onlyPeer, onlyPeer⟩).bytes .lp64) fun _ => 0
  length := 134

/-- The proxy that receives the packets. -/
def receiver : LinkState := ⟨0, 0, .replicate 6 2, .replicate 6 0⟩

/-- A network in which nobody can be dialled. -/
def noNetwork : Network := ⟨fun _ _ _ => none, ⟨0, 0⟩⟩

instance (linkState : LinkState) (m : Members) (r : LinkStateRecord) :
    Decidable (Known linkState m r) :=
  inferInstanceAs (Decidable (_ ∨ _))

theorem packetAt_accepted : (packetAt 1).Accepted .lp64 receiver oneMember ∧
    (packetAt 2).Accepted .lp64 receiver oneMember :=
  ⟨⟨by decide +kernel, by decide +kernel, by decide +kernel⟩,
    ⟨by decide +kernel, by decide +kernel, by decide +kernel⟩⟩

/-- The older packet first, and then the newer one. -/
theorem receiveAll_timestamps_in_order : ∃ m',
    receiveAll .lp64 receiver noNetwork [packetAt 1, packetAt 2] oneMember = some m' ∧
      (m'.peer 0).timestamp = ⟨2, 0⟩ := by
  obtain ⟨hold, hnew⟩ := packetAt_accepted
  have hall : ∀ p ∈ [packetAt 1, packetAt 2], p.Accepted .lp64 receiver oneMember := by
    simp [hold, hnew]
  obtain ⟨m', hrun, -, -, hlast⟩ := receiveAll_timestamps noNetwork hall
  refine ⟨m', hrun, ?_⟩
  rw [hlast onlyPeer.tapMAC 0 (by decide) (by decide)]
  decide +kernel

/-- **A late packet puts the clock back.** The newer packet comes first: the time that is left for
the member is not the largest, it has decreased in the second step, and it is another one in the
other order. -/
theorem late_packet_wins : ∃ m₁ m₂ m₃,
    receiveAll .lp64 receiver noNetwork [packetAt 2] oneMember = some m₁ ∧
      receiveAll .lp64 receiver noNetwork [packetAt 2, packetAt 1] oneMember = some m₂ ∧
      receiveAll .lp64 receiver noNetwork [packetAt 1, packetAt 2] oneMember = some m₃ ∧
      (∀ p ∈ [packetAt 1, packetAt 2], p.Accepted .lp64 receiver oneMember) ∧
      ⟨2, 0⟩ ∈ timesOf .lp64 onlyPeer.tapMAC
        ([packetAt 2, packetAt 1].flatMap (Packet.considered .lp64 receiver)) ∧
      ¬Timespec.Le ⟨2, 0⟩ (m₂.peer 0).timestamp ∧
      ¬(m₁.peer 0).timestamp.Le (m₂.peer 0).timestamp ∧
      (m₂.peer 0).timestamp ≠ (m₃.peer 0).timestamp := by
  obtain ⟨hold, hnew⟩ := packetAt_accepted
  have hfind : oneMember.find onlyPeer.tapMAC = some 0 := by decide
  have hown : onlyPeer.tapMAC ≠ receiver.tapMAC := by decide
  refine ⟨_, _, _, receiveAll_accepted _ (by simp [hnew]), receiveAll_accepted _ (by simp [hold, hnew]),
    receiveAll_accepted _ (by simp [hold, hnew]), by simp [hold, hnew], ?_, ?_⟩
  · decide +kernel
  · rw [foldl_applyRecord_last hfind hown, foldl_applyRecord_last hfind hown,
      foldl_applyRecord_last hfind hown]
    decide +kernel

end LinkProxy.Gossip
