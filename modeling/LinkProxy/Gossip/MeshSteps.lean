import LinkProxy.Gossip.Interleaving
import LinkProxy.Gossip.Mesh
import LinkProxy.Gossip.Reordering

/-!
# The steps of a full mesh

In a full mesh every proxy has all the others as members. What a step does there is said here once:
what it changes (`Mesh.write_cases` and its like), that a packet of the mesh is accepted and its
records are applied (`FullMesh.accept_eq`, `FullMesh.record_eq`), and how a property of the proxies
and of the packets on their way is kept (`Mesh.Keeps`).
-/

namespace LinkProxy.Gossip

open Bytes Wire Peers

/-! ## Membership lists with other timestamps -/

/-- The same `Peer` objects with the same proxies; only timestamps may differ. -/
structure SameProxies (m m' : Members) : Prop where
  order : m.order = m'.order
  ls : ∀ p, (m.peer p).ls = (m'.peer p).ls

section

variable {m m' : Members}

theorem SameProxies.refl (m : Members) : SameProxies m m := ⟨rfl, fun _ => rfl⟩

theorem SameProxies.key (h : SameProxies m m') (p : Ptr) : m.key p = m'.key p := by
  rw [Members.key, h.ls, Members.key]

theorem SameProxies.map_key (h : SameProxies m m') : m.order.map m.key = m'.order.map m'.key := by
  rw [h.order]
  exact List.map_congr_left fun p _ => h.key p

theorem SameProxies.find (h : SameProxies m m') (mac : MAC) : m.find mac = m'.find mac := by
  simp only [Members.find, Members.key, h.order, h.ls]

theorem SameProxies.count (h : SameProxies m m') : m.count = m'.count := by
  rw [Members.count, h.order, Members.count]

theorem SameProxies.numNbrs (h : SameProxies m m') : numNbrs m = numNbrs m' := by
  rw [Gossip.numNbrs, h.count, Gossip.numNbrs]

theorem SameProxies.linkStateLength (dm : DataModel) (h : SameProxies m m') :
    linkStateLength dm m = linkStateLength dm m' := by
  rw [Gossip.linkStateLength, h.numNbrs, Gossip.linkStateLength]

theorem SameProxies.linkStateHead (dm : DataModel) (ls : LinkState) (h : SameProxies m m') :
    linkStateHead dm ls m = linkStateHead dm ls m' := by
  rw [Gossip.linkStateHead, h.linkStateLength, h.numNbrs, Gossip.linkStateHead]

theorem SameProxies.applyRecord (dm : DataModel) (ls : LinkState) (r : LinkStateRecord)
    (h : SameProxies m m') : SameProxies (applyRecord dm ls m r) m' :=
  ⟨(applyRecord_order dm ls m r).trans h.order, fun p => (applyRecord_ls dm ls m r p).trans (h.ls p)⟩

/-- A record leaves a timestamp as it is or sets it to its time. -/
theorem applyRecord_timestamp (dm : DataModel) (ls : LinkState) (m : Members) (r : LinkStateRecord)
    (p : Ptr) : ((applyRecord dm ls m r).peer p).timestamp = (m.peer p).timestamp ∨
      ((applyRecord dm ls m r).peer p).timestamp = recordTime dm r := by
  unfold Gossip.applyRecord
  split_ifs
  · exact .inl rfl
  · split
    · exact .inl rfl
    · rw [Members.setTimestamp_timestamp]
      split_ifs
      · exact .inr rfl
      · exact .inl rfl

end

/-! ## Packets of any edges -/

section

variable (dm : DataModel) (ls : LinkState) (m : Members) (es : List Edge)

/-- A link-state packet of the members of a proxy, with the records of some edges. -/
def packetOf : List UInt8 := linkStateHead dm ls m ++ recordBytes dm es

/-- Its payload. -/
def payloadOf : List UInt8 :=
  le 2 (htons (numNbrs m)).toNat ++ (ls.bytes ++ (le 2 (htons (numNbrs m)).toNat ++
    recordBytes dm es))

theorem packetOf_eq : packetOf dm ls m es =
    header PacketType.linkState.code (linkStateLength dm m) ++ payloadOf dm ls m es := by
  simp [packetOf, payloadOf, linkStateHead]

theorem packetOf_append (fs : List Edge) :
    packetOf dm ls m (es ++ fs) = packetOf dm ls m es ++ recordBytes dm fs := by
  rw [packetOf, recordBytes_append, ← List.append_assoc, packetOf]

variable {dm ls m es}

/-- The length in the header is the size of the payload if the packet has the records of a broadcast
and fits. -/
theorem length_payloadOf (hfit : Fits dm m) (hes : es.length = m.count * (m.count + 1)) :
    (payloadOf dm ls m es).length = (linkStateLength dm m).toNat := by
  rw [hfit.toNat_linkStateLength, ← hes]
  simp only [payloadOf, List.length_append, length_le, LinkState.length_bytes, linkStateSize,
    length_recordBytes]
  ring

/-- What `rio_write` takes from the buffer of a broadcast is the packet. -/
theorem Cursor.Wrote.slice_packetOf {c : Cursor} (h : c.Wrote (packetOf dm ls m es))
    (hfit : Fits dm m) (hes : es.length = m.count * (m.count + 1)) :
    slice c.mem 0 (4 + (ntohs (ldProxyHeader c.mem 0).length).toNat) = packetOf dm ls m es := by
  have hmem := h.mem
  rw [packetOf_eq, holds_append] at hmem
  have hlength : (packetOf dm ls m es).length = 4 + (linkStateLength dm m).toNat := by
    rw [packetOf_eq, List.length_append, length_header, length_payloadOf hfit hes]
  rw [(ldProxyHeader_header hmem.1).2, ← hlength]
  exact h.mem

section

variable {data : Buf} (hd : Holds data 0 (payloadOf dm ls m es))
include hd

theorem announced_payloadOf : announced data = numNbrs m := by
  rw [announced, ld16_of_holds (holds_append.1 hd).1, ntohs_htons]

theorem source_payloadOf : ldLinkState data 2 = ls := by
  have hsource := (holds_append.1 (holds_append.1 hd).2).1
  exact ldLinkState_of_holds (by simpa using hsource)

/-- The loop of `Link_State` has the records of the edges in front of it. -/
theorem recordsFrom_payloadOf : recordsFrom dm data (2 + linkStateSourceSize) es.length =
    es.map Edge.record := by
  have hrecords := (holds_append.1 (holds_append.1 (holds_append.1 hd).2).2).2
  have hloop := @recordsFrom_of_holds dm data (2 + linkStateSourceSize) (es.map Edge.record)
    (by simpa [linkStateSourceSize, recordBytes, List.flatMap_map, Nat.add_assoc] using hrecords)
  rwa [List.length_map] at hloop

end

end

/-! ## The full mesh -/

/-- The proxies of a set know each other: the members of each are all the others, each once. -/
structure FullMesh (proxies : Set MAC) (linkState : MAC → LinkState) (members : MAC → Members) :
    Prop where
  own : ∀ a ∈ proxies, (linkState a).tapMAC = a
  keys : ∀ a ∈ proxies, ((members a).order.map (members a).key).Nodup
  mem : ∀ a ∈ proxies, ∀ b, (∃ p ∈ (members a).order, (members a).key p = b) ↔ b ∈ proxies ∧ b ≠ a

section

variable {proxies : Set MAC} {linkState : MAC → LinkState} {members : MAC → Members}

theorem FullMesh.mem_proxies (h : FullMesh proxies linkState members) {a : MAC} (ha : a ∈ proxies)
    {p : Ptr} (hp : p ∈ (members a).order) : (members a).key p ∈ proxies ∧ (members a).key p ≠ a :=
  (h.mem a ha _).1 ⟨p, hp, rfl⟩

/-- A proxy finds all the others. -/
theorem FullMesh.find (h : FullMesh proxies linkState members) {a b : MAC} (ha : a ∈ proxies)
    (hb : b ∈ proxies) (hba : b ≠ a) : ((members a).find b).isSome :=
  Members.find_isSome.2 ((h.mem a ha b).2 ⟨hb, hba⟩)

/-- A record whose first proxy is in the mesh is known to every proxy of it. -/
theorem FullMesh.known (h : FullMesh proxies linkState members) {b : MAC} (hb : b ∈ proxies)
    {m : Members} (hm : SameProxies m (members b)) {r : LinkStateRecord}
    (hr : r.proxy1.tapMAC ∈ proxies) : Known (linkState b) m r := by
  rw [Known, h.own b hb, hm.find]
  by_cases heq : r.proxy1.tapMAC = b
  · exact .inl heq
  · exact .inr (h.find hb hr heq)

/-- Two proxies of the mesh are acquainted. -/
theorem FullMesh.acquainted (h : FullMesh proxies linkState members) {a b : MAC} (ha : a ∈ proxies)
    (hb : b ∈ proxies) (hab : a ≠ b) {m m₀ : Members} (hm : SameProxies m (members a))
    (hm₀ : SameProxies m₀ (members b)) : ∃ r, Acquainted (linkState a) m (linkState b) m₀ r := by
  obtain ⟨r, hr, hkey⟩ := (h.mem a ha b).2 ⟨hb, hab.symm⟩
  have hmem {q : Ptr} (hq : q ∈ m.order) : m.key q ∈ proxies ∧ m.key q ≠ a := by
    rw [hm.key]
    exact h.mem_proxies ha (hm.order ▸ hq)
  refine ⟨r, by rw [hm.map_key]; exact h.keys a ha, fun q hq => by rw [h.own a ha]; exact (hmem hq).2,
    hm.order ▸ hr, by rw [hm.key, hkey, h.own b hb], ?_, fun q hq hqr => ?_⟩
  · rw [h.own a ha, hm₀.find]
    exact h.find hb ha hab
  · rw [hm₀.find]
    refine h.find hb (hmem hq).1 fun heq => hqr ?_
    rw [hm.key, ← hkey] at heq
    exact List.inj_on_of_nodup_map (h.keys a ha) (hm.order ▸ hq) hr heq

end

/-! ## What a step can do -/

section

variable {dm : DataModel} {linkState : MAC → LinkState} {net : MAC → Network} {s s' : Mesh}
  {a b : MAC}

@[simp] theorem Mesh.set_node_self (s : Mesh) (a : MAC) (x : Node) : (s.set a x).node a = x := by
  simp [Mesh.set]

theorem Mesh.set_node_of_ne (s : Mesh) (x : Node) (hab : b ≠ a) : (s.set a x).node b = s.node b := by
  simp [Mesh.set, hab]

theorem Mesh.alarm_cases {t : Timespec} {mem : Buf} (h : s.alarm dm linkState a t mem = some s') :
    s' = s ∨ (s.node a).members.order ≠ [] ∧ s' =
      { s.set a { s.node a with round := some ⟨t,
          .putHead dm (linkState a) (s.node a).members ⟨mem, 0⟩,
          Gossip.rows (s.node a).members.order, (s.node a).members.order⟩ } with
        said := Function.update s.said a (t :: s.said a) } := by
  rw [Mesh.alarm] at h
  split at h
  · cases h
  · split_ifs at h with hempty
    · exact .inl (Option.some.inj h).symm
    · exact .inr ⟨hempty, (Option.some.inj h).symm⟩

theorem Mesh.write_cases (h : s.write dm linkState a = some s') : ∃ t c r rs unsent,
    (s.node a).round = some ⟨t, c, r :: rs, unsent⟩ ∧
      s' = s.set a { s.node a with
        round := some ⟨t, r.write dm (linkState a) t (s.node a).members c, rs, unsent⟩ } := by
  rw [Mesh.write] at h
  split at h
  · exact ⟨_, _, _, _, _, ‹_›, (Option.some.inj h).symm⟩
  · cases h

theorem Mesh.send_cases (h : s.send a = some s') : ∃ t c pp unsent,
    (s.node a).round = some ⟨t, c, [], pp :: unsent⟩ ∧
      s' = { s.set a { s.node a with round := some ⟨t, c, [], unsent⟩ } with
        channel := Function.update s.channel (a, (s.node a).members.key pp)
          (s.channel (a, (s.node a).members.key pp) ++
            [slice c.mem 0 (4 + (ntohs (ldProxyHeader c.mem 0).length).toNat)]) } := by
  rw [Mesh.send] at h
  split at h
  · exact ⟨_, _, _, _, ‹_›, (Option.some.inj h).symm⟩
  · cases h

theorem Mesh.release_cases (h : s.release a = some s') :
    s' = s.set a { s.node a with round := none } := by
  rw [Mesh.release] at h
  split at h
  · exact (Option.some.inj h).symm
  · cases h

theorem Mesh.accept_cases {mem : Buf} (h : s.accept dm linkState net a b mem = some s') :
    (s.node b).reading = none ∧ ∃ packet packets, s.channel (a, b) = packet :: packets := by
  rw [Mesh.accept] at h
  split at h
  · exact ⟨‹_›, _, _, ‹_›⟩
  · cases h

theorem Mesh.record_cases (h : s.record dm linkState net b = some s') : ∃ data ptr n,
    (s.node b).reading = some ⟨data, ptr, n + 1⟩ := by
  rw [Mesh.record] at h
  split at h
  · exact ⟨_, _, _, ‹_›⟩
  · cases h

theorem Mesh.finish_cases (h : s.finish b = some s') : (∃ data ptr,
    (s.node b).reading = some ⟨data, ptr, 0⟩) ∧ s' = s.set b { s.node b with reading := none } := by
  rw [Mesh.finish] at h
  split at h
  · exact ⟨⟨_, _, ‹_›⟩, (Option.some.inj h).symm⟩
  · cases h

end

/-! ## Invariants of the proxies and of the packets -/

section

variable {proxies : Set MAC} {N : (MAC → List Timespec) → MAC → Node → Prop}
  {P : (MAC → List Timespec) → MAC → List UInt8 → Prop} {s : Mesh} {said' : MAC → List Timespec}
  {a b : MAC}

/-- Every proxy of a set satisfies `N` and every packet on its way `P`, given what the clocks have
shown, and no link has been closed. -/
structure Mesh.Keeps (proxies : Set MAC) (N : (MAC → List Timespec) → MAC → Node → Prop)
    (P : (MAC → List Timespec) → MAC → List UInt8 → Prop) (s : Mesh) : Prop where
  node : ∀ a ∈ proxies, N s.said a (s.node a)
  channel : ∀ a b, ∀ packet ∈ s.channel (a, b), P s.said a packet
  severed : s.severed = []

/-- A change of one proxy. -/
theorem Mesh.Keeps.set (h : s.Keeps proxies N P) {x : Node} (hx : N s.said a x) :
    (s.set a x).Keeps proxies N P where
  node b hb := by
    by_cases hba : b = a
    · subst hba
      rwa [Mesh.set_node_self]
    · rw [Mesh.set_node_of_ne s x hba]
      exact h.node b hb
  channel := h.channel
  severed := h.severed

/-- More readings of the clocks. -/
theorem Mesh.Keeps.say (h : s.Keeps proxies N P)
    (hN : ∀ a x, N s.said a x → N said' a x) (hP : ∀ a x, P s.said a x → P said' a x) :
    { s with said := said' }.Keeps proxies N P where
  node b hb := hN b _ (h.node b hb)
  channel b c packet hpacket := hP b _ (h.channel b c packet hpacket)
  severed := h.severed

/-- A change of a channel. -/
theorem Mesh.Keeps.setChannel (h : s.Keeps proxies N P) {packets : List (List UInt8)}
    (hpackets : ∀ packet ∈ packets, P s.said a packet) :
    { s with channel := Function.update s.channel (a, b) packets }.Keeps proxies N P where
  node := h.node
  channel c d packet hpacket := by
    dsimp only at hpacket
    by_cases hcd : (c, d) = (a, b)
    · obtain ⟨rfl, rfl⟩ := Prod.mk.inj hcd
      rw [Function.update_self] at hpacket
      exact hpackets packet hpacket
    · rw [Function.update_of_ne hcd] at hpacket
      exact h.channel c d packet hpacket
  severed := h.severed

/-- A packet is sent. -/
theorem Mesh.Keeps.push (h : s.Keeps proxies N P) {packet : List UInt8} (hpacket : P s.said a packet) :
    { s with channel := Function.update s.channel (a, b) (s.channel (a, b) ++ [packet]) }.Keeps
      proxies N P :=
  h.setChannel fun q hq => by
    rcases List.mem_append.1 hq with hq | hq
    · exact h.channel a b q hq
    · exact List.mem_singleton.1 hq ▸ hpacket

/-- A packet is received. -/
theorem Mesh.Keeps.pop (h : s.Keeps proxies N P) {packet : List UInt8} {packets : List (List UInt8)}
    (hchannel : s.channel (a, b) = packet :: packets) :
    { s with channel := Function.update s.channel (a, b) packets }.Keeps proxies N P :=
  h.setChannel fun q hq => h.channel a b q (by
    rw [hchannel]
    exact List.mem_cons_of_mem _ hq)

/-- An alarm adds a reading. -/
theorem mem_update_said {said : MAC → List Timespec} {t u : Timespec} {c : MAC} (hu : u ∈ said c) :
    u ∈ Function.update said a (t :: said a) c := by
  by_cases hca : c = a
  · subst hca
    simpa using .inr hu
  · rwa [Function.update_of_ne hca]

end

/-! ## Receiving a packet of the mesh -/

section

variable {dm : DataModel} {proxies : Set MAC} {linkState : MAC → LinkState} {net : MAC → Network}
  {members : MAC → Members} (hmesh : FullMesh proxies linkState members) {s : Mesh} {a b : MAC}
include hmesh

/-- `Link_State` takes a packet of the mesh as far as its loop, unless it is one of its own. -/
theorem FullMesh.accept_eq (ha : a ∈ proxies) (hb : b ∈ proxies) (hfit : Fits dm (members a))
    (hsame : SameProxies (s.node b).members (members b)) {es : List Edge}
    (hes : es.length = (members a).count * ((members a).count + 1)) {packets : List (List UInt8)}
    (hchannel : s.channel (a, b) = packetOf dm (linkState a) (members a) es :: packets)
    (hreading : (s.node b).reading = none) (mem : Buf) :
    ∃ data, Holds data 0 (payloadOf dm (linkState a) (members a) es) ∧
      s.accept dm linkState net a b mem = some (if a = b then
        { s with channel := Function.update s.channel (a, b) packets } else
        { s with channel := Function.update s.channel (a, b) packets }.set b { s.node b with
          reading := some ⟨data, 2 + linkStateSourceSize, es.length⟩ }) := by
  have hpacket := holds_bufOf (packetOf dm (linkState a) (members a) es) mem
  have hlength : (payloadOf dm (linkState a) (members a) es).length =
      (linkStateLength dm (members a)).toNat := length_payloadOf hfit hes
  have hpayload : (packetOf dm (linkState a) (members a) es).drop 4 =
      payloadOf dm (linkState a) (members a) es := by
    rw [packetOf_eq]
    exact List.drop_left' (length_header _ _)
  rw [packetOf_eq, holds_append] at hpacket
  obtain ⟨htype, hlen⟩ := ldProxyHeader_header hpacket.1
  rw [← packetOf_eq] at htype hlen
  have hd := holds_bufOf (payloadOf dm (linkState a) (members a) es) mem
  refine ⟨_, hd, ?_⟩
  have hcount : (numNbrs (members a) * numNbrs (members a) + numNbrs (members a)).toNat =
      es.length := by
    rw [hfit.toNat_counter (linkState a) ⟨0, 0⟩, length_edges, hes]
  have hsource (hab : a ≠ b) : receiveSource (net b) (linkState a) (s.node b).members =
      some (s.node b).members := by
    obtain ⟨p, hp⟩ := Option.isSome_iff_exists.1 (hmesh.find hb ha hab)
    rw [receiveSource, hmesh.own a ha, hsame.find, hp]
  rw [Mesh.accept]
  simp only [hreading, hchannel, htype, hlen, hpayload, ← hlength, List.take_length,
    announced_payloadOf hd, source_payloadOf hd, hmesh.own a ha, hmesh.own b hb, ne_eq,
    not_true_eq_false, if_false, hcount]
  rw [hfit.lengthOk]
  by_cases hab : a = b
  · simp [hab]
  · simp [hab, hsource hab]

/-- A pass of the loop applies a record of the mesh. -/
theorem FullMesh.record_eq (hb : b ∈ proxies) (hsame : SameProxies (s.node b).members (members b))
    {data : Buf} {ptr n : ℕ} (hreading : (s.node b).reading = some ⟨data, ptr, n + 1⟩)
    (hr : (ldRecord dm data ptr).proxy1.tapMAC ∈ proxies) :
    s.record dm linkState net b = some (s.set b { s.node b with
      members := applyRecord dm (linkState b) (s.node b).members (ldRecord dm data ptr)
      reading := some ⟨data, ptr + recordSize dm, n⟩ }) := by
  rw [Mesh.record]
  simp only [hreading, receiveRecord_loaded (hmesh.known hb hsame hr)]
  rfl

end

end LinkProxy.Gossip
