import LinkProxy.Rio.Reader
import LinkProxy.Rio.Writer
import LinkProxy.Gossip.Broadcast

/-!
# The join exchange

The two sides of a new connection exchange `initial_join_packet`s: `initial_join_client` writes and
then reads, `initial_join_server` reads and then writes. Both keep the count of bytes in a `size_t`,
so the comparison `<=0` is true for a count of zero only: a failed call, with its result `-1`, and a
short read go on as if all bytes had arrived, with whatever the packet held before
(`initialJoinClient`, `initialJoinServer`).

When a whole packet of the right type arrives, both return the peer with the `link_state` of the
packet, its port converted to host byte order (`initialJoinClient_spec`, `initialJoinServer_spec`).
The port on the wire is another matter: `listenPort_iff` says for which ports it has the same byte
order everywhere.
-/

namespace LinkProxy.Join

open Bytes Rio Wire Peers Gossip

/-! ## The two sides -/

/-- What a side of the exchange returns with: whether it returns its argument and not `NULL`, the
`ls` of the peer, and the state of the connection. The bytes received are kept as a history. -/
structure Joined where
  ok : Bool
  ls : LinkState
  rio : RioT
  sys : Sys
  received : List UInt8

/-- The packet after some bytes have been read over its front. -/
def readOver (pkt bytes : List UInt8) : InitialJoinPacket :=
  .ld (bufOf (bytes ++ pkt.drop bytes.length) fun _ => 0)

/-- The `link_state` of a packet, with the port in host byte order. -/
def hostLinkState (pkt : InitialJoinPacket) : LinkState :=
  { pkt.ls with listenPort := ntohs pkt.ls.listenPort }

section

variable (linkState : LinkState) (numNbrs : UInt16) (ls : LinkState) (rp : RioT) (w : Sys)

/-- `initial_join_client(pp)`, with `pp->ls` as it was before. -/
def initialJoinClient : Option Joined := do
  let pkt := (joinPacket linkState numNbrs).bytes
  let (size, w) ← rioWrite pkt w
  if size = 0 then return ⟨false, ls, rp, w, []⟩
  let (size, bytes, rp, w) ← rioReadnb initialJoinSize rp w
  if size = 0 then return ⟨false, ls, rp, w, bytes⟩
  let pkt := readOver pkt bytes
  if ntohs pkt.prxyhdr.type ≠ PacketType.linkState.code then return ⟨false, ls, rp, w, bytes⟩
  return ⟨true, hostLinkState pkt, rp, w, bytes⟩

/-- `initial_join_server(pp)`, with the bytes that happen to be in its packet at first. -/
def initialJoinServer (stack : Vector UInt8 initialJoinSize) : Option Joined := do
  let (size, bytes, rp, w) ← rioReadnb initialJoinSize rp w
  if size = 0 then return ⟨false, ls, rp, w, bytes⟩
  let pkt := readOver stack.toList bytes
  if ntohs pkt.prxyhdr.type ≠ PacketType.linkState.code then return ⟨false, ls, rp, w, bytes⟩
  let (size, w) ← rioWrite (joinReply linkState numNbrs).bytes w
  if size = 0 then return ⟨false, hostLinkState pkt, rp, w, bytes⟩
  return ⟨true, hostLinkState pkt, rp, w, bytes⟩

end

/-! ## Whole packets -/

/-- The first bytes of a stream as a join packet. -/
def packetOf (stream : List UInt8) : InitialJoinPacket :=
  .ld (bufOf (stream.take initialJoinSize) fun _ => 0)

/-- A whole packet of type LINK_STATE at the front of a stream. -/
structure Arrives (stream : List UInt8) : Prop where
  whole : initialJoinSize ≤ stream.length
  type : ntohs (packetOf stream).prxyhdr.type = PacketType.linkState.code

/-- The exchange has been completed with the packet at the front of a stream. -/
structure Joined.Completed (j : Joined) (stream : List UInt8) : Prop where
  ok : j.ok = true
  received : j.received = stream.take initialJoinSize
  ls : j.ls = hostLinkState (packetOf stream)

theorem readOver_whole {pkt bytes : List UInt8} (hp : pkt.length = initialJoinSize)
    (hb : bytes.length = initialJoinSize) : readOver pkt bytes = .ld (bufOf bytes fun _ => 0) := by
  rw [readOver, List.drop_eq_nil_of_le (by omega), List.append_nil]

/-- What a `rio_write` of a join packet does: it does not return zero, it reads nothing, and it
writes a prefix of the packet. -/
theorem rioWrite_packet {pkt : InitialJoinPacket} {w w' : Sys} {r : Int}
    (h : rioWrite pkt.bytes w = some (r, w')) :
    r ≠ 0 ∧ w'.inp = w.inp ∧ ∃ k, w'.sent = w.sent ++ pkt.bytes.take k := by
  obtain ⟨hin, -, k, -, hs, hr⟩ := rioWrite_spec h
  have hlen := pkt.length_bytes
  rw [initialJoinSize] at hlen
  exact ⟨by omega, hin, k, hs⟩

/-- The read of a whole packet. -/
theorem rioReadnb_arrives {rp rp' : RioT} {w w' : Sys} {r : Int} {bytes : List UInt8}
    (hv : rp.Valid) (h : rioReadnb initialJoinSize rp w = some (r, bytes, rp', w'))
    (ha : initialJoinSize ≤ (avail rp w).length) :
    r ≠ 0 ∧ bytes = (avail rp w).take initialJoinSize ∧ bytes.length = initialJoinSize := by
  obtain ⟨-, rfl, hr, -⟩ := rioReadnb_avail hv h
  have hlen : ((avail rp w).take initialJoinSize).length = initialJoinSize := by
    rw [List.length_take]
    omega
  rw [hlen, initialJoinSize] at hr
  exact ⟨by omega, rfl, hlen⟩

section

variable {linkState : LinkState} {numNbrs : UInt16} {ls : LinkState} {rp : RioT} {w : Sys}
  {j : Joined}

/-- Whatever happens, a client has written a prefix of its packet. -/
theorem initialJoinClient_sent (h : initialJoinClient linkState numNbrs ls rp w = some j) :
    ∃ k, j.sys.sent = w.sent ++ (joinPacket linkState numNbrs).bytes.take k := by
  obtain ⟨⟨r₁, w₁⟩, hw, h⟩ := Option.bind_eq_some_iff.1 h
  obtain ⟨hr₁, -, k, hk⟩ := rioWrite_packet hw
  dsimp only at h
  rw [if_neg hr₁] at h
  obtain ⟨⟨r₂, bytes, rp₂, w₂⟩, hr, h⟩ := Option.bind_eq_some_iff.1 h
  refine ⟨k, ?_⟩
  rw [← hk, ← (rioReadnb_sameOut hr).2]
  dsimp only at h
  split_ifs at h <;> obtain rfl := Option.some.inj h <;> rfl

/-- Whatever happens, a server has written a prefix of its reply. -/
theorem initialJoinServer_sent {stack : Vector UInt8 initialJoinSize}
    (h : initialJoinServer linkState numNbrs ls rp w stack = some j) :
    ∃ k, j.sys.sent = w.sent ++ (joinReply linkState numNbrs).bytes.take k := by
  obtain ⟨⟨r₁, bytes, rp₁, w₁⟩, hr, h⟩ := Option.bind_eq_some_iff.1 h
  have hs := (rioReadnb_sameOut hr).2
  dsimp only at h
  split_ifs at h
  · obtain rfl := Option.some.inj h
    exact ⟨0, by simp [hs]⟩
  · obtain rfl := Option.some.inj h
    exact ⟨0, by simp [hs]⟩
  · obtain ⟨⟨r₂, w₂⟩, hw, h⟩ := Option.bind_eq_some_iff.1 h
    obtain ⟨hr₂, -, k, hk⟩ := rioWrite_packet hw
    dsimp only at h
    rw [if_neg hr₂] at h
    obtain rfl := Option.some.inj h
    exact ⟨k, by rw [hk, hs]⟩

/-- **A client to which a whole packet arrives completes the exchange with it.** -/
theorem initialJoinClient_spec (hv : rp.Valid) (ha : Arrives (avail rp w))
    (h : initialJoinClient linkState numNbrs ls rp w = some j) : j.Completed (avail rp w) := by
  obtain ⟨⟨r₁, w₁⟩, hw, h⟩ := Option.bind_eq_some_iff.1 h
  obtain ⟨hr₁, hin, -⟩ := rioWrite_packet hw
  have hav : avail rp w₁ = avail rp w := by rw [avail, hin, ← avail]
  dsimp only at h
  rw [if_neg hr₁] at h
  obtain ⟨⟨r₂, bytes, rp₂, w₂⟩, hr, h⟩ := Option.bind_eq_some_iff.1 h
  obtain ⟨hr₂, hbytes, hlen⟩ := rioReadnb_arrives hv hr (by rw [hav]; exact ha.whole)
  have hpkt : readOver (joinPacket linkState numNbrs).bytes bytes = packetOf (avail rp w) := by
    rw [readOver_whole (InitialJoinPacket.length_bytes _) hlen, hbytes, hav, packetOf]
  dsimp only at h
  rw [if_neg hr₂, hpkt, if_neg (not_not_intro ha.type)] at h
  obtain rfl := Option.some.inj h
  exact ⟨rfl, by rw [hbytes, hav], rfl⟩

/-- **A server to which a whole packet arrives completes the exchange with it.** -/
theorem initialJoinServer_spec {stack : Vector UInt8 initialJoinSize} (hv : rp.Valid)
    (ha : Arrives (avail rp w)) (h : initialJoinServer linkState numNbrs ls rp w stack = some j) :
    j.Completed (avail rp w) := by
  obtain ⟨⟨r₁, bytes, rp₁, w₁⟩, hr, h⟩ := Option.bind_eq_some_iff.1 h
  obtain ⟨hr₁, hbytes, hlen⟩ := rioReadnb_arrives hv hr ha.whole
  have hpkt : readOver stack.toList bytes = packetOf (avail rp w) := by
    rw [readOver_whole stack.length_toList hlen, hbytes, packetOf]
  dsimp only at h
  rw [if_neg hr₁, hpkt, if_neg (not_not_intro ha.type)] at h
  obtain ⟨⟨r₂, w₂⟩, hw, h⟩ := Option.bind_eq_some_iff.1 h
  obtain ⟨hr₂, -, -⟩ := rioWrite_packet hw
  dsimp only at h
  rw [if_neg hr₂] at h
  obtain rfl := Option.some.inj h
  exact ⟨rfl, hbytes, rfl⟩

end

/-! ## The byte order of the ports -/

/-- The `link_state` of a proxy after `main` has read its configuration. -/
def configured (linkState : LinkState) (listenPort : UInt16) : LinkState :=
  { linkState with listenPort := htons listenPort }

/-- The `ls` of a `Peer` after `memset`. -/
def zeroed : LinkState := ⟨0, 0, .replicate 6 0, .replicate 6 0⟩

/-- Both sides run to completion over one connection: what each of them receives begins with the
packet that the other has sent. -/
structure Connected (client server : LinkState) (wc ws : Sys) (jc js : Joined) : Prop where
  clientRun : ∃ numNbrs, initialJoinClient client numNbrs zeroed rioReadinit wc = some jc
  serverRun : ∃ numNbrs stack, initialJoinServer server numNbrs zeroed rioReadinit ws stack = some js
  clientStart : wc.sent = []
  serverStart : ws.sent = []
  toServer : jc.sys.sent <+: inbound ws.inp
  toClient : js.sys.sent <+: inbound wc.inp
  clientWhole : initialJoinSize ≤ jc.sys.sent.length
  serverWhole : initialJoinSize ≤ js.sys.sent.length

/-- The ports that a proxy puts on the wire for itself and for a member with some `ls` in a
broadcast, in network byte order. -/
def BroadcastsPorts (linkState : LinkState) (port : UInt16) (ls : LinkState) (lsPort : UInt16) :
    Prop :=
  ∀ timestamp m p, p ∈ m.order → (m.peer p).ls = ls →
    linkState.listenPort = htons port ∧ ∀ e ∈ edges linkState timestamp m,
      ∀ x ∈ [e.proxy1, e.proxy2],
        (x = linkState → x.listenPort = htons port) ∧ (x = ls → x.listenPort = htons lsPort)

/-- The ports keep one byte order: host byte order in each `Peer`, and network byte order in each
packet. -/
structure OneByteOrder (client server : LinkState) (pc ps : UInt16) (jc js : Joined) : Prop where
  clientPeer : jc.ls.listenPort = ps
  serverPeer : js.ls.listenPort = pc
  clientJoin : (packetOf jc.sys.sent).ls.listenPort = htons pc
  serverJoin : (packetOf js.sys.sent).ls.listenPort = htons ps
  clientBroadcast : BroadcastsPorts client pc jc.ls ps
  serverBroadcast : BroadcastsPorts server ps js.ls pc

theorem broadcastsPorts_iff {linkState ls : LinkState} {port lsPort : UInt16} :
    BroadcastsPorts linkState port ls lsPort ↔
      linkState.listenPort = htons port ∧ ls.listenPort = htons lsPort := by
  constructor
  · intro h
    obtain ⟨hself, hedges⟩ := h ⟨0, 0⟩ ⟨[0], by decide, fun _ => ⟨⟨0, 0⟩, ls⟩⟩ 0 (by simp) rfl
    exact ⟨hself, (hedges ⟨⟨0, 0⟩, linkState, ls⟩ (by simp [edges]) ls (by simp)).2 rfl⟩
  · rintro ⟨hself, hls⟩ timestamp m p - -
    refine ⟨hself, fun e _ x _ => ⟨?_, ?_⟩⟩
    · rintro rfl
      exact hself
    · rintro rfl
      exact hls

theorem packetOf_front {pkt : InitialJoinPacket} {stream : List UInt8}
    (h : pkt.bytes <+: stream) : initialJoinSize ≤ stream.length ∧ packetOf stream = pkt := by
  have hlen := pkt.length_bytes
  obtain ⟨rest, rfl⟩ := h
  refine ⟨by rw [List.length_append]; omega, ?_⟩
  rw [packetOf, List.take_left' hlen]
  exact InitialJoinPacket.ld_of_holds (holds_bufOf _ _)

/-- A join packet arrives with its type. -/
theorem arrives_joinPacket {ls : LinkState} {numNbrs : UInt16} {stream : List UInt8}
    (h : (joinPacket ls numNbrs).bytes <+: stream) : Arrives stream := by
  obtain ⟨hwhole, hpkt⟩ := packetOf_front h
  refine ⟨hwhole, ?_⟩
  rw [hpkt]
  exact ntohs_htons _

/-- A prefix of a packet that is long enough is all of it. -/
theorem eq_of_whole {pkt : InitialJoinPacket} {sent : List UInt8} {k : ℕ}
    (h : sent = pkt.bytes.take k) (hwhole : initialJoinSize ≤ sent.length) : sent = pkt.bytes := by
  have hlen := pkt.length_bytes
  rw [h, List.length_take] at hwhole
  rw [h, List.take_of_length_le (by omega)]

section

variable {client server : LinkState} {wc ws : Sys} {jc js : Joined}

theorem avail_rioReadinit (w : Sys) : avail rioReadinit w = inbound w.inp := by
  rw [avail, rioReadinit_pending, List.nil_append]

/-- **What the two sides know of each other.** The server has the client's port in host byte order;
the reply has the server's port in host byte order, and the client converts it once more. -/
theorem Connected.exchanged (h : Connected client server wc ws jc js) :
    (∃ n, jc.sys.sent = (joinPacket client n).bytes) ∧
    (∃ n, js.sys.sent = (joinReply server n).bytes) ∧
    js.ls = { client with listenPort := ntohs client.listenPort } ∧
    jc.ls = { server with listenPort := ntohs (htons server.listenPort) } := by
  obtain ⟨nc, hc⟩ := h.clientRun
  obtain ⟨ns, stack, hs⟩ := h.serverRun
  obtain ⟨kc, hkc⟩ := initialJoinClient_sent hc
  obtain ⟨ks, hks⟩ := initialJoinServer_sent hs
  rw [h.clientStart, List.nil_append] at hkc
  rw [h.serverStart, List.nil_append] at hks
  have hsentc := eq_of_whole hkc h.clientWhole
  have hsents := eq_of_whole hks h.serverWhole
  have hfrontS : (joinPacket client nc).bytes <+: inbound ws.inp := hsentc ▸ h.toServer
  have hfrontC : (joinReply server ns).bytes <+: inbound wc.inp := hsents ▸ h.toClient
  have hS := initialJoinServer_spec rioReadinit_valid (w := ws)
    (by rw [avail_rioReadinit]; exact arrives_joinPacket hfrontS) hs
  have hC := initialJoinClient_spec rioReadinit_valid (w := wc)
    (by rw [avail_rioReadinit]; exact arrives_joinPacket hfrontC) hc
  refine ⟨⟨nc, hsentc⟩, ⟨ns, hsents⟩, ?_, ?_⟩
  · rw [hS.ls, avail_rioReadinit, (packetOf_front hfrontS).2]
    rfl
  · rw [hC.ls, avail_rioReadinit, (packetOf_front hfrontC).2]
    rfl

/-- The results of the calls that write a packet at once. -/
def writesPacket : List OutCall :=
  [.fcntl none, .poll none, .write (.ok initialJoinSize), .fcntl none]

section

variable (pkt : InitialJoinPacket)

theorem rioWrite_writesPacket {w : Sys} (he : w.errno ≠ .EINTR) (hout : w.out = writesPacket) :
    ∃ r w', rioWrite pkt.bytes w = some (r, w') ∧ r ≠ 0 ∧ w'.inp = w.inp ∧ w'.errno = w.errno ∧
      w'.sent = w.sent ++ pkt.bytes := by
  have hlen := pkt.length_bytes
  have hn : pkt.bytes ≠ [] := fun hnil => by simp [hnil, initialJoinSize] at hlen
  refine ⟨_, _, rioWrite_once hn he (by rw [hout, hlen]; rfl), ?_, rfl, rfl, rfl⟩
  rw [hlen]
  decide

/-- The packet is read, with whatever has come behind it. -/
theorem rioReadnb_packet {w : Sys} {cs : List (List UInt8)} {rest : List UInt8}
    (hw : w.Delivers cs) (hav : avail rioReadinit w = pkt.bytes ++ rest) :
    ∃ rp' w', rioReadnb initialJoinSize rioReadinit w =
        some ((initialJoinSize : Int), pkt.bytes, rp', w') ∧ w'.errno ≠ .EINTR ∧
      w'.out = w.out ∧ w'.sent = w.sent := by
  have hlen := pkt.length_bytes
  obtain ⟨rp', w', cs', h, -, hw', -⟩ := rioReadnb_delivers (n := initialJoinSize) rioReadinit_valid
    hw (by rw [hav, List.length_append, hlen]; exact Nat.le_add_right ..)
  rw [hav, List.take_left' hlen] at h
  exact ⟨rp', w', h, hw'.errno_ne, rioReadnb_sameOut h⟩

/-- A connection that delivers a packet, and perhaps more behind it, and takes one at once. -/
structure Answers (w : Sys) (rest : List UInt8) : Prop where
  delivers : ∃ cs, w.Delivers cs
  avail : avail rioReadinit w = pkt.bytes ++ rest
  out : w.out = writesPacket

/-- A connection that delivers a packet and nothing else. -/
def answered : Sys := ⟨.ok, deliver [pkt.bytes], writesPacket, [], []⟩

theorem inbound_answered : inbound (answered pkt).inp = pkt.bytes := by
  have hlen := pkt.length_bytes
  rw [answered, inbound_deliver (by simp [hlen, initialJoinSize])]
  simp

theorem answers_answered : Answers pkt (answered pkt) [] where
  delivers := ⟨[pkt.bytes], by simp [answered], rfl, by
    simp [pkt.length_bytes, initialJoinSize, bufSize, ethFrameLen, proxyHlen]⟩
  avail := by rw [avail_rioReadinit, inbound_answered, List.append_nil]
  out := rfl

variable {pkt} {w : Sys} {rest : List UInt8}

theorem initialJoinClient_answered (h : Answers pkt w rest) (linkState : LinkState) :
    ∃ j, initialJoinClient linkState 0 zeroed rioReadinit w = some j ∧
      j.sys.sent = w.sent ++ (joinPacket linkState 0).bytes := by
  obtain ⟨cs, hw⟩ := h.delivers
  obtain ⟨r, w₁, hwrite, hr, hin, herr, hsent⟩ :=
    rioWrite_writesPacket (joinPacket linkState 0) hw.errno_ne h.out
  have hw₁ : w₁.Delivers cs := ⟨by rw [herr]; exact hw.errno_ne, hin.trans hw.inp_eq, hw.size⟩
  have hav₁ : avail rioReadinit w₁ = pkt.bytes ++ rest := by rw [avail, hin, ← avail, h.avail]
  obtain ⟨rp', w₂, hread, -, -, hsent'⟩ := rioReadnb_packet pkt hw₁ hav₁
  rw [initialJoinClient, hwrite]
  simp only [Option.bind_eq_bind, Option.bind_some, if_neg hr, hread,
    show ¬ (initialJoinSize : Int) = 0 by decide, if_false]
  split_ifs
  · exact ⟨_, rfl, hsent'.trans hsent⟩
  · exact ⟨_, rfl, hsent'.trans hsent⟩

theorem initialJoinServer_answered (h : Answers pkt w rest) (linkState : LinkState)
    (stack : Vector UInt8 initialJoinSize)
    (htype : ntohs pkt.prxyhdr.type = PacketType.linkState.code) :
    ∃ j, initialJoinServer linkState 0 zeroed rioReadinit w stack = some j ∧
      j.sys.sent = w.sent ++ (joinReply linkState 0).bytes := by
  obtain ⟨cs, hw⟩ := h.delivers
  obtain ⟨rp', w₁, hread, herr, hout, hsent⟩ := rioReadnb_packet pkt hw h.avail
  obtain ⟨r, w₂, hwrite, hr, -, -, hsent'⟩ :=
    rioWrite_writesPacket (joinReply linkState 0) herr (hout.trans h.out)
  have hpkt : readOver stack.toList pkt.bytes = pkt := by
    rw [readOver_whole stack.length_toList pkt.length_bytes]
    exact InitialJoinPacket.ld_of_holds (holds_bufOf _ _)
  rw [initialJoinServer, hread]
  simp only [Option.bind_eq_bind, Option.bind_some, show ¬ (initialJoinSize : Int) = 0 by decide,
    if_false, hpkt, htype, ne_eq, not_true_eq_false, hwrite, if_neg hr]
  exact ⟨_, rfl, by rw [hsent', hsent]⟩

end

/-- A connection over which nothing fails. -/
theorem connected_answered (client server : LinkState) : ∃ jc js, Connected client server
    (answered (joinReply server 0)) (answered (joinPacket client 0)) jc js := by
  obtain ⟨jc, hc, hsentc⟩ :=
    initialJoinClient_answered (answers_answered (joinReply server 0)) client
  obtain ⟨js, hs, hsents⟩ :=
    initialJoinServer_answered (answers_answered (joinPacket client 0)) server (.replicate _ 0)
      (ntohs_htons _)
  rw [answered, List.nil_append] at hsentc hsents
  exact ⟨jc, js, ⟨0, hc⟩, ⟨0, _, hs⟩, rfl, rfl, by rw [hsentc, inbound_answered],
    by rw [hsents, inbound_answered], by rw [hsentc, InitialJoinPacket.length_bytes],
    by rw [hsents, InitialJoinPacket.length_bytes]⟩

/-- **The ports keep one byte order exactly when the byte order does not matter**: when both
configured ports have two equal bytes. -/
theorem listenPort_iff {c s : LinkState} {pc ps : UInt16}
    (h : Connected (configured c pc) (configured s ps) wc ws jc js) :
    OneByteOrder (configured c pc) (configured s ps) pc ps jc js ↔
      htons pc = pc ∧ htons ps = ps := by
  obtain ⟨⟨nc, hsentc⟩, ⟨ns, hsents⟩, hjs, hjc⟩ := h.exchanged
  have hjoinc : (packetOf jc.sys.sent).ls.listenPort = htons pc := by
    rw [hsentc, (packetOf_front List.prefix_rfl).2]
    rfl
  have hjoins : (packetOf js.sys.sent).ls.listenPort = ps := by
    rw [hsents, (packetOf_front List.prefix_rfl).2]
    exact htons_htons ps
  have hpeerc : jc.ls.listenPort = htons ps := by
    rw [hjc]
    exact ntohs_htons (htons ps)
  have hpeers : js.ls.listenPort = pc := by
    rw [hjs]
    exact ntohs_htons pc
  constructor
  · intro hone
    have hserver := (broadcastsPorts_iff.1 hone.serverBroadcast).2
    exact ⟨(hpeers.symm.trans hserver).symm, hpeerc.symm.trans hone.clientPeer⟩
  · rintro ⟨hpc, hps⟩
    exact ⟨hpeerc.trans hps, hpeers, hjoinc, hjoins.trans hps.symm,
      broadcastsPorts_iff.2 ⟨rfl, hpeerc⟩, broadcastsPorts_iff.2 ⟨rfl, hpeers.trans hpc.symm⟩⟩

/-- The `link_state` of a proxy with some hardware address. -/
def proxyAt (i : UInt8) : LinkState := ⟨0x0100007F, 0, .replicate 6 i, .replicate 6 i⟩

/-- The port `0x1212` on both sides. -/
theorem listenPort_iff_4626 : ∃ wc ws jc js,
    Connected (configured (proxyAt 1) 4626) (configured (proxyAt 2) 4626) wc ws jc js ∧
      OneByteOrder (configured (proxyAt 1) 4626) (configured (proxyAt 2) 4626) 4626 4626 jc js := by
  obtain ⟨jc, js, h⟩ := connected_answered (configured (proxyAt 1) 4626) (configured (proxyAt 2) 4626)
  exact ⟨_, _, jc, js, h, (listenPort_iff h).2 ⟨by decide, by decide⟩⟩

/-- With the port 8080 on both sides the client takes the server's port for 36895. -/
theorem listenPort_8080 : ∃ wc ws jc js,
    Connected (configured (proxyAt 1) 8080) (configured (proxyAt 2) 8080) wc ws jc js ∧
      jc.ls.listenPort = 36895 ∧
      ¬ OneByteOrder (configured (proxyAt 1) 8080) (configured (proxyAt 2) 8080) 8080 8080 jc js := by
  obtain ⟨jc, js, h⟩ := connected_answered (configured (proxyAt 1) 8080) (configured (proxyAt 2) 8080)
  have hport : jc.ls.listenPort = 36895 := by
    rw [h.exchanged.2.2.2]
    decide
  refine ⟨_, _, jc, js, h, hport, fun hone => ?_⟩
  have hpeer := hone.clientPeer
  rw [hport] at hpeer
  exact absurd hpeer (by decide)

end

end LinkProxy.Join
