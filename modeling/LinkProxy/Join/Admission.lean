import LinkProxy.Foundations.Transition
import LinkProxy.Join.Exchange

/-!
# Admission to the membership list

A connection comes from the accept loop of `main`, from `connectbyname` or from `connectbyaddr`.
Each of them allocates a `Peer`, runs its side of the join exchange and calls `add_member`, without
a look at what the exchange has returned. `admission` is the proxy as a sequence of such
connections, with any behaviour of the remote ends; the log keeps what the exchange of every `Peer`
has come to.

When a whole packet of type LINK_STATE arrives on every connection that gets as far as the exchange,
every member has completed it (`members_joined`). When one end closes at once, a `Peer` without an
address becomes a member.
-/

namespace LinkProxy.Join

open Bytes Rio Wire Peers

/-- The part of a proxy that admits members, with the log of the exchanges. -/
structure Proxy where
  linkState : LinkState
  members : Members
  log : Ptr → Option Joined

/-- A connection, with what the network makes of it: the local address that `getsockname` finds, the
descriptor, `none` if there is no connection, the result of `socket` in `connectbyaddr`, and the
bytes on the stack of `initial_join_server`. -/
inductive Connection
  | accepted (sockname : UInt32) (w : Sys) (stack : Vector UInt8 initialJoinSize)
  | byName (sockname : UInt32) (w : Option Sys)
  | byAddr (peerfd : Int) (addr : UInt32) (w : Option Sys)

/-- The local address is taken from the first connection. -/
def localAddress (linkState : LinkState) (addr : UInt32) : LinkState :=
  if linkState.ipAddr = 0xFFFFFFFF then { linkState with ipAddr := addr } else linkState

/-- The descriptor on which a connection runs its exchange. `connectbyaddr` takes every descriptor
but `0` for an error. -/
def Connection.descriptor : Connection → Option Sys
  | .accepted _ w _ => some w
  | .byName _ w => w
  | .byAddr peerfd _ w => if peerfd ≠ 0 then none else w

/-- The local `link_state` and the exchange of a connection that gets as far. -/
def Connection.exchange (c : Connection) (s : Proxy) : Option (LinkState × Joined) := do
  let w ← c.descriptor
  let numNbrs : UInt16 := .ofNat s.members.count
  match c with
  | .accepted sockname _ stack =>
    let ls := localAddress s.linkState sockname
    let j ← initialJoinServer ls numNbrs zeroed rioReadinit w stack
    return (ls, j)
  | .byName addr _ | .byAddr _ addr _ =>
    let ls := localAddress s.linkState addr
    let j ← initialJoinClient ls numNbrs zeroed rioReadinit w
    return (ls, j)

/-- The connections of a proxy, one after the other. The label is the connection, the address of the
`Peer` that is allocated for it and the time of `add_member`. -/
def admission : TransitionSystem Proxy (Connection × Ptr × Timespec) where
  init s := s.members.order = []
  step s a t := match a.1.exchange s with
    | none => t = s
    | some (ls, j) => ∃ hp : a.2.1 ∉ s.members.order,
      t = ⟨ls, s.members.add a.2.1 hp ⟨a.2.2, j.ls⟩, Function.update s.log a.2.1 (some j)⟩

/-- The exchange of a member: it did not return `NULL`, it received a whole packet of type
LINK_STATE, and the member has the `link_state` of that packet. -/
structure JoinedMember (s : Proxy) (p : Ptr) (j : Joined) : Prop where
  log : s.log p = some j
  ok : j.ok = true
  received : Arrives j.received
  length : j.received.length = initialJoinSize
  ls : (s.members.peer p).ls = hostLinkState (packetOf j.received)

/-- Every member has completed its exchange. -/
def AllJoined (s : Proxy) : Prop := ∀ p ∈ s.members.order, ∃ j, JoinedMember s p j

/-- A whole packet of type LINK_STATE arrives if the connection gets as far as the exchange. -/
def Answered (c : Connection) : Prop := ∀ w, c.descriptor = some w → Arrives (inbound w.inp)

section

variable {s t : Proxy} {c : Connection} {p : Ptr} {now : Timespec}

/-- An exchange on a connection to which a packet arrives is completed with it. -/
theorem Answered.completed (hc : Answered c) {ls : LinkState} {j : Joined}
    (h : c.exchange s = some (ls, j)) : ∃ stream, Arrives stream ∧ j.Completed stream := by
  obtain ⟨w, hw, h⟩ := Option.bind_eq_some_iff.1 h
  have harrives := hc w hw
  rw [← avail_rioReadinit] at harrives
  refine ⟨_, harrives, ?_⟩
  cases c with
  | accepted sockname w' stack =>
    obtain ⟨j', hj, h⟩ := Option.bind_eq_some_iff.1 h
    simp only [Option.pure_def, Option.some.injEq, Prod.mk.injEq] at h
    exact h.2 ▸ initialJoinServer_spec rioReadinit_valid harrives hj
  | byName addr w' | byAddr peerfd addr w' =>
    obtain ⟨j', hj, h⟩ := Option.bind_eq_some_iff.1 h
    simp only [Option.pure_def, Option.some.injEq, Prod.mk.injEq] at h
    exact h.2 ▸ initialJoinClient_spec rioReadinit_valid harrives hj

theorem Arrives.take {stream : List UInt8} (h : Arrives stream) :
    Arrives (stream.take initialJoinSize) ∧ (stream.take initialJoinSize).length = initialJoinSize ∧
      packetOf (stream.take initialJoinSize) = packetOf stream := by
  have hwhole := h.whole
  have hpkt : packetOf (stream.take initialJoinSize) = packetOf stream := by
    rw [packetOf, List.take_take, min_self, packetOf]
  have hlen : (stream.take initialJoinSize).length = initialJoinSize := by
    rw [List.length_take]
    omega
  exact ⟨⟨hlen.ge, by rw [hpkt]; exact h.type⟩, hlen, hpkt⟩

/-- The members that were there before are as they were; the new one has completed its exchange. -/
theorem AllJoined.step (h : AllJoined s) (hc : Answered c)
    (ht : admission.step s (c, p, now) t) : AllJoined t := by
  simp only [admission] at ht
  split at ht
  · exact ht ▸ h
  · rename_i ls j hj
    obtain ⟨hp, rfl⟩ := ht
    obtain ⟨stream, harrives, hcompleted⟩ := hc.completed hj
    intro q hq
    rcases Members.mem_add s.members hp _ hq with hq | rfl
    · have hne : q ≠ p := fun heq => hp (heq ▸ hq)
      obtain ⟨j', hlog, hok, hrec, hlen, hls⟩ := h q hq
      exact ⟨j', by simpa [hne] using hlog, hok, hrec, hlen, by
        rw [Members.add_peer_of_mem s.members hp _ hq]
        exact hls⟩
    · obtain ⟨htake, hlen, hpkt⟩ := harrives.take
      exact ⟨j, by simp, hcompleted.ok, by rw [hcompleted.received]; exact htake,
        by rw [hcompleted.received]; exact hlen, by
          rw [Members.add_peer_self, hcompleted.received, hpkt]
          exact hcompleted.ls⟩

/-- **Only joined peers are members** in every run in which a whole packet of type LINK_STATE
arrives on each connection that gets as far as the exchange. -/
theorem members_joined (hs : (admission.guard fun _ a => Answered a.1).Reachable s) : AllJoined s :=
  hs.invariant (fun s h p hp => by
    have hempty : s.members.order = [] := h
    simp [hempty] at hp) fun _ _ _ h ht => h.step ht.1 ht.2

end

/-- A proxy without members. -/
def emptyProxy : Proxy := ⟨proxyAt 1, ⟨[], List.nodup_nil, fun _ => ⟨⟨0, 0⟩, zeroed⟩⟩, fun _ => none⟩

/-- The proxy after its first connection. -/
def firstConnection (ls : LinkState) (j : Joined) : Proxy :=
  ⟨ls, emptyProxy.members.add 0 List.not_mem_nil ⟨⟨0, 0⟩, j.ls⟩,
    Function.update emptyProxy.log 0 (some j)⟩

theorem step_firstConnection {c : Connection} {ls : LinkState} {j : Joined}
    (h : c.exchange emptyProxy = some (ls, j)) :
    admission.step emptyProxy (c, 0, ⟨0, 0⟩) (firstConnection ls j) := by
  simp only [admission, h]
  exact ⟨List.not_mem_nil, rfl⟩

theorem init_emptyProxy : admission.init emptyProxy := rfl

theorem reachable_firstConnection {c : Connection} {ls : LinkState} {j : Joined}
    (h : c.exchange emptyProxy = some (ls, j)) (hc : Answered c) :
    (admission.guard fun _ a => Answered a.1).Reachable (firstConnection ls j) :=
  .step (.init init_emptyProxy) ⟨hc, step_firstConnection h⟩

/-- A connection that is accepted and answered. -/
theorem members_joined_accepted : ∃ s : Proxy, s.members.order = [0] ∧ AllJoined s := by
  let pkt := joinPacket (proxyAt 2) 0
  obtain ⟨j, hj, -⟩ := initialJoinServer_answered (answers_answered pkt) (proxyAt 1) (.replicate _ 0)
    (ntohs_htons _)
  have hlocal : localAddress emptyProxy.linkState 0 = proxyAt 1 := if_neg (by decide)
  have hnbrs : UInt16.ofNat emptyProxy.members.count = 0 := rfl
  have hexchange : (Connection.accepted 0 (answered pkt) (.replicate _ 0)).exchange emptyProxy =
      some (proxyAt 1, j) := by
    simp only [Connection.exchange, Connection.descriptor, Option.bind_eq_bind, Option.bind_some,
      hlocal, hnbrs, hj, Option.pure_def]
  have hanswered : Answered (.accepted 0 (answered pkt) (.replicate _ 0)) := by
    rintro w ⟨⟩
    rw [inbound_answered]
    exact ⟨(packetOf_front List.prefix_rfl).1, by
      rw [(packetOf_front List.prefix_rfl).2]
      exact ntohs_htons _⟩
  have hreach := reachable_firstConnection hexchange hanswered
  exact ⟨firstConnection (proxyAt 1) j, rfl, members_joined hreach⟩

/-- A connection that is accepted and closed by the other end at once. -/
theorem closed_peer_member : ∃ s : Proxy, admission.Reachable s ∧ s.members.order = [0] ∧
    (∃ j, s.log 0 = some j ∧ j.ok = false ∧ j.received = []) ∧ ¬ AllJoined s := by
  let c : Connection := .accepted 0 ⟨.ok, [.poll none, .read (.ok [])], [], [], []⟩ (.replicate _ 0)
  have hj : ∃ ls j, c.exchange emptyProxy = some (ls, j) ∧ j.ok = false ∧ j.received = [] :=
    ⟨_, _, rfl, rfl, rfl⟩
  obtain ⟨ls, j, hj, hok, hrec⟩ := hj
  refine ⟨firstConnection ls j, .step (.init init_emptyProxy) (step_firstConnection hj), rfl,
    ⟨j, rfl, hok, hrec⟩, fun hall => ?_⟩
  obtain ⟨j', hlog, hok', -⟩ :=
    hall 0 (by simp [firstConnection, emptyProxy, Members.add, Members.find])
  obtain rfl : j = j' := Option.some.inj hlog
  rw [hok] at hok'
  exact absurd hok' (by decide)

end LinkProxy.Join
