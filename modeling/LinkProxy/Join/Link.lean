import LinkProxy.Handlers.Framing
import LinkProxy.Join.Exchange

/-!
# A link from its join on

The two sides of a connection exchange their join packets and add each other as members
(`initial_join_client`, `initial_join_server`, `add_member`). From then on each sends packets, and
each has a thread with `eth_handler` that goes on with the `rio_t` of the exchange, which may hold
bytes that have come behind the join packet. Nothing of them is lost: an exchange takes exactly the
join packet off the stream (`initialJoinClient_ready`, `initialJoinServer_ready`), so that both
threads dispatch exactly what the other side has sent, as long as their handlers succeed
(`link_delivers`).
-/

namespace LinkProxy.Join

open Bytes Rio Wire Handlers

/-! ## What is left behind the join packet -/

/-- A side of the exchange from which the rest of a stream can be read. -/
structure Joined.Ready (j : Joined) (rest : List UInt8) : Prop where
  valid : j.rio.Valid
  delivers : ∃ cs, j.sys.Delivers cs
  avail : avail j.rio j.sys = rest

section

variable {linkState : LinkState} {numNbrs : UInt16} {ls : LinkState} {rp : RioT} {w : Sys}
  {j : Joined} {cs : List (List UInt8)}

/-- Writing does not disturb what is delivered. -/
theorem rioWrite_delivers {usrbuf : List UInt8} {w' : Sys} {r : Int} (hw : w.Delivers cs)
    (h : rioWrite usrbuf w = some (r, w')) : w'.Delivers cs ∧ ∀ rp, avail rp w' = avail rp w := by
  obtain ⟨hin, herrno, -⟩ := rioWrite_spec h
  exact ⟨⟨herrno, hin.trans hw.inp_eq, hw.size⟩, fun rp => by rw [avail, hin, ← avail]⟩

/-- **A client takes one packet off the stream.** -/
theorem initialJoinClient_ready (hv : rp.Valid) (hw : w.Delivers cs)
    (hlen : initialJoinSize ≤ (avail rp w).length)
    (h : initialJoinClient linkState numNbrs ls rp w = some j) :
    j.Ready ((avail rp w).drop initialJoinSize) := by
  obtain ⟨⟨r₁, w₁⟩, hwrite, h⟩ := Option.bind_eq_some_iff.1 h
  obtain ⟨hr₁, -⟩ := rioWrite_packet hwrite
  obtain ⟨hw₁, hav₁⟩ := rioWrite_delivers hw hwrite
  obtain ⟨rp', w₂, cs', hread, hv', hw₂, hav₂⟩ := rioReadnb_delivers hv hw₁ (hav₁ rp ▸ hlen)
  dsimp only at h
  rw [if_neg hr₁, hread] at h
  rw [hav₁] at hav₂
  simp only [Option.bind_eq_bind, Option.bind_some] at h
  split_ifs at h <;> obtain rfl := Option.some.inj h <;> exact ⟨hv', ⟨cs', hw₂⟩, hav₂⟩

/-- **A server takes one packet off the stream.** -/
theorem initialJoinServer_ready {stack : Vector UInt8 initialJoinSize} (hv : rp.Valid)
    (hw : w.Delivers cs) (hlen : initialJoinSize ≤ (avail rp w).length)
    (h : initialJoinServer linkState numNbrs ls rp w stack = some j) :
    j.Ready ((avail rp w).drop initialJoinSize) := by
  obtain ⟨rp', w₁, cs', hread, hv', hw₁, hav₁⟩ := rioReadnb_delivers hv hw hlen
  rw [initialJoinServer, hread] at h
  simp only [Option.bind_eq_bind, Option.bind_some] at h
  split_ifs at h
  · obtain rfl := Option.some.inj h
    exact ⟨hv', ⟨cs', hw₁⟩, hav₁⟩
  · obtain rfl := Option.some.inj h
    exact ⟨hv', ⟨cs', hw₁⟩, hav₁⟩
  · obtain ⟨⟨r₂, w₂⟩, hwrite, h⟩ := Option.bind_eq_some_iff.1 h
    obtain ⟨hw₂, hav₂⟩ := rioWrite_delivers hw₁ hwrite
    rw [← hav₂] at hav₁
    dsimp only at h
    split_ifs at h <;> obtain rfl := Option.some.inj h <;> exact ⟨hv', ⟨cs', hw₂⟩, hav₁⟩

end

/-! ## The link -/

/-- The thread that `add_member` starts for a new member. -/
def Joined.thread {σ : Type} (j : Joined) (prxyhdr : ProxyHeader) (st : σ) : EthThread σ :=
  ⟨j.rio, { j.sys with errno := .ok }, prxyhdr, st, []⟩

/-- Behind the bytes that a side has sent before, it sends packets, with all writes succeeding, and
everything is delivered to the other side. -/
structure Sends (os : List Outgoing) (sent : List UInt8) (wr : Sys) : Prop where
  wellFormed : ∀ o ∈ os, o.WellFormed
  run : ∃ tap wt w w', tap.Valid ∧ tap.cnt ≤ 0 ∧ wt.Delivers (os.flatMap Outgoing.fromTap) ∧
    w.sent = sent ∧ sendAll os tap wt w = some w' ∧ ∃ cs, wr.Delivers cs ∧ cs.flatten = w'.sent

/-- The handlers succeed with these packets in every state. -/
def Handles {σ : Type} (H : PacketHandlers σ) (os : List Outgoing) : Prop :=
  ∀ o ∈ os, ∀ s, (H.handle o.content.1 (.ofNat o.content.2.length) o.content.2 s).1.Succeeds

/-- What is dispatched for packets that arrive. -/
def dispatches (os : List Outgoing) : List Event :=
  os.map fun o => .dispatch o.content.1 (.ofNat o.content.2.length) o.content.2

/-- The bytes of packets on the wire. -/
def stream (os : List Outgoing) : List UInt8 :=
  (os.map fun o => packetBytes o.content.1 o.content.2).flatten

/-- A connection on which both sides complete the exchange and then send packets, and what each
side sends is delivered to the other, cut in any way. -/
structure Link (client server : LinkState) (wc ws : Sys) (jc js : Joined)
    (osc oss : List Outgoing) : Prop extends Connected client server wc ws jc js where
  clientSends : Sends osc jc.sys.sent ws
  serverSends : Sends oss js.sys.sent wc

section

variable {os : List Outgoing} {j : Joined} {wr : Sys} {pkt : InitialJoinPacket}

/-- Behind a join packet, the stream is that of the packets sent. -/
theorem Sends.stream (h : Sends os pkt.bytes wr) :
    (∃ cs, wr.Delivers cs) ∧ avail rioReadinit wr = pkt.bytes ++ Join.stream os := by
  obtain ⟨tap, wt, w, w', hv, hcnt, hwt, hsent, hrun, cs, hwr, hcs⟩ := h.run
  refine ⟨⟨cs, hwr⟩, ?_⟩
  rw [avail_rioReadinit, hwr.inbound_eq, hcs, sendAll_sent h.wellFormed hv hcnt hwt hrun, hsent,
    Join.stream]

/-- A thread that finds the packets of a stream dispatches them and waits. -/
theorem Joined.Ready.dispatches {σ : Type} {H : PacketHandlers σ} (hj : j.Ready (stream os))
    (hos : ∀ o ∈ os, o.WellFormed) (hH : Handles H os) (prxyhdr : ProxyHeader) (st : σ) {fuel : ℕ}
    (hfuel : os.length < fuel) :
    (ethHandler H fuel (j.thread prxyhdr st)).1 = .waiting ∧
      (ethHandler H fuel (j.thread prxyhdr st)).2.trace = Join.dispatches os := by
  obtain ⟨cs, hcs⟩ := hj.delivers
  have hsys : Sys.Delivers { j.sys with errno := .ok } cs := ⟨by simp, hcs.inp_eq, hcs.size⟩
  have hrun := ethHandler_packets (H := H) (t := j.thread prxyhdr st) (os.map Outgoing.content)
    (by simpa using fun o ho => (hos o ho).payload) (by simpa [Handles] using hH) hj.valid hsys
    (by simpa [stream, List.map_map, Function.comp_def, Joined.thread, Rio.avail] using hj.avail)
    (by simpa using hfuel)
  simpa [Join.dispatches, Joined.thread, List.map_map, Function.comp_def] using hrun

end

/-- **A link carries all packets from its join on.** On a connection on which both sides complete the
exchange, the client knows the server's `link_state` as it is, and the server the client's with the
port in host byte order. And whatever well-formed packets the sides send then with which the handlers
of the other side succeed, in both directions and however the stream is cut: the thread for the client
at the server dispatches the client's packets, in their order, and then waits for more, and the thread
for the server at the client dispatches the server's. -/
theorem link_delivers {σ τ : Type} (Hc : PacketHandlers σ) (Hs : PacketHandlers τ)
    {client server : LinkState} {wc ws : Sys} {jc js : Joined} {osc oss : List Outgoing}
    (h : Link client server wc ws jc js osc oss) (hHc : Handles Hc oss) (hHs : Handles Hs osc) :
    jc.ok = true ∧ js.ok = true ∧ jc.ls = server ∧
    js.ls = { client with listenPort := ntohs client.listenPort } ∧
    (∀ prxyhdr st fuel, osc.length < fuel →
      (ethHandler Hs fuel (js.thread prxyhdr st)).1 = .waiting ∧
        (ethHandler Hs fuel (js.thread prxyhdr st)).2.trace = dispatches osc) ∧
    ∀ prxyhdr st fuel, oss.length < fuel →
      (ethHandler Hc fuel (jc.thread prxyhdr st)).1 = .waiting ∧
        (ethHandler Hc fuel (jc.thread prxyhdr st)).2.trace = dispatches oss := by
  obtain ⟨⟨nc, hsentc⟩, ⟨ns, hsents⟩, hjs, hjc⟩ := h.exchanged
  obtain ⟨_, hc⟩ := h.clientRun
  obtain ⟨_, _, hs⟩ := h.serverRun
  -- what arrives at each side is the join packet of the other, and then its packets
  obtain ⟨⟨_, hws⟩, havs⟩ := Sends.stream (hsentc ▸ h.clientSends)
  obtain ⟨⟨_, hwc⟩, havc⟩ := Sends.stream (hsents ▸ h.serverSends)
  have hlen (pkt : InitialJoinPacket) (os : List Outgoing) :
      initialJoinSize ≤ (pkt.bytes ++ stream os).length := by
    rw [List.length_append, InitialJoinPacket.length_bytes]
    exact Nat.le_add_right ..
  have hreadys := initialJoinServer_ready rioReadinit_valid hws (havs ▸ hlen _ _) hs
  have hreadyc := initialJoinClient_ready rioReadinit_valid hwc (havc ▸ hlen _ _) hc
  rw [havs, List.drop_left' (InitialJoinPacket.length_bytes _)] at hreadys
  rw [havc, List.drop_left' (InitialJoinPacket.length_bytes _)] at hreadyc
  refine ⟨?_, ?_, ?_, hjs, fun prxyhdr st fuel hfuel => ?_, fun prxyhdr st fuel hfuel => ?_⟩
  · exact (initialJoinClient_spec rioReadinit_valid
      (arrives_joinPacket (havc ▸ List.prefix_append ..)) hc).ok
  · exact (initialJoinServer_spec rioReadinit_valid
      (arrives_joinPacket (havs ▸ List.prefix_append ..)) hs).ok
  · rw [hjc, ntohs_htons]
  · exact hreadys.dispatches h.clientSends.wellFormed hHs prxyhdr st hfuel
  · exact hreadyc.dispatches h.serverSends.wellFormed hHc prxyhdr st hfuel

/-- The handlers succeed with everything. -/
theorem handles_quietHandlers (os : List Outgoing) : Handles quietHandlers os :=
  fun _ _ _ => quietHandlers_succeeds _ _ _ _

/-- The client sends a frame of three bytes, the server a probe of eight. The reads cut the streams
inside the join packets and behind them. -/
theorem link_delivers_two : ∃ (jc js : Joined), jc.ls = proxyAt 2 ∧
    (ethHandler quietHandlers 2 (js.thread ⟨0, 0⟩ ())).2.trace = [.dispatch .data 3 [1, 2, 3]] ∧
    (ethHandler quietHandlers 2 (jc.thread ⟨0, 0⟩ ())).2.trace =
      [.dispatch .bandwidthProbeRequest 8 [0, 0, 0, 9, 0, 0, 0, 7]] := by
  let script (ks : List ℕ) : List OutCall :=
    .fcntl none :: ks.flatMap (fun k => [.poll none, .write (.ok k)]) ++ [.fcntl none]
  let osc : List Outgoing := [.frame [1, 2, 3]]
  let oss : List Outgoing := [.packet .bandwidthProbeRequest [0, 0, 0, 9, 0, 0, 0, 7]]
  let packetc := joinPacket (proxyAt 1) 0
  let packets := joinReply (proxyAt 2) 0
  let wc : Sys := ⟨.ok, deliver [packets.bytes ++ [0xAB], [0x45, 0, 8, 0, 0, 0, 9, 0, 0, 0, 7]],
    writesPacket, [], []⟩
  let ws : Sys := ⟨.ok, deliver [packetc.bytes.take 20, packetc.bytes.drop 20 ++
    [0xAB, 0xCD, 0, 3, 1], [2, 3]], writesPacket, [], []⟩
  have hsendc : Sends osc packetc.bytes ws :=
    ⟨List.forall_mem_singleton.2 ⟨by decide, by decide⟩, rioReadinit,
      ⟨.ok, deliver [[1, 2, 3]], [], [], []⟩, ⟨.ok, [], script [1, 5, 1], packetc.bytes, []⟩, _,
      rioReadinit_valid, by decide, ⟨by decide, rfl, by decide⟩, rfl, rfl, _,
      ⟨by decide, rfl, by decide⟩, rfl⟩
  have hsends : Sends oss packets.bytes wc :=
    ⟨List.forall_mem_singleton.2 ⟨by decide, by decide⟩, rioReadinit,
      ⟨.ok, [], [], [], []⟩, ⟨.ok, [], script [12], packets.bytes, []⟩, _,
      rioReadinit_valid, by decide, ⟨by decide, rfl, by decide⟩, rfl, rfl, _,
      ⟨by decide, rfl, by decide⟩, rfl⟩
  obtain ⟨hdels, havs⟩ := hsendc.stream
  obtain ⟨hdelc, havc⟩ := hsends.stream
  obtain ⟨jc, hc, hsentc⟩ := initialJoinClient_answered ⟨hdelc, havc, rfl⟩ (proxyAt 1)
  obtain ⟨js, hs, hsents⟩ := initialJoinServer_answered ⟨hdels, havs, rfl⟩ (proxyAt 2)
    (.replicate _ 0) (ntohs_htons _)
  replace hsentc : jc.sys.sent = [] ++ packetc.bytes := hsentc
  replace hsents : js.sys.sent = [] ++ packets.bytes := hsents
  rw [List.nil_append] at hsentc hsents
  have hlink : Link (proxyAt 1) (proxyAt 2) wc ws jc js osc oss :=
    { clientRun := ⟨0, hc⟩
      serverRun := ⟨0, _, hs⟩
      clientStart := rfl
      serverStart := rfl
      toServer := by
        rw [hsentc, ← avail_rioReadinit, havs]
        exact List.prefix_append ..
      toClient := by
        rw [hsents, ← avail_rioReadinit, havc]
        exact List.prefix_append ..
      clientWhole := by
        rw [hsentc]
        exact (InitialJoinPacket.length_bytes _).ge
      serverWhole := by
        rw [hsents]
        exact (InitialJoinPacket.length_bytes _).ge
      clientSends := by rwa [hsentc]
      serverSends := by rwa [hsents] }
  obtain ⟨-, -, hls, -, hserver, hclient⟩ := link_delivers quietHandlers quietHandlers hlink
    (handles_quietHandlers _) (handles_quietHandlers _)
  exact ⟨jc, js, hls, (hserver _ _ 2 (by decide)).2, (hclient _ _ 2 (by decide)).2⟩

end LinkProxy.Join
