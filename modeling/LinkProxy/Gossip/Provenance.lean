import LinkProxy.Gossip.MeshRuns

/-!
# Whose time a proxy keeps

In a run of a full mesh in which no proxy writes records of a broadcast while it reads those of a
packet, a timestamp that is kept for a proxy was one of that proxy: an initial one or one of its own
clock (`mesh_run_serial`). What the induction carries through the loop of `Link_State` is not the
timestamp, which is a wrong one after the record of an edge back to the sender, but the time that
will be there after the records that are left (`NodeOwn.times`).

Without the condition this fails: in the run `racing` the second proxy broadcasts with such a wrong
timestamp, and the first one keeps it (`racing_not_heard`).
-/

namespace LinkProxy.Gossip

open Bytes Wire Peers

/-! ## The last element of a list -/

section

variable {α : Type*} {Q : α → Prop}

theorem getLastD_of_forall {l : List α} {d : α} (hl : ∀ x ∈ l, Q x) (hd : Q d) : Q (l.getLastD d) := by
  rcases List.mem_cons.1 (List.getLastD_mem_cons (l := l) (a := d)) with h | h
  · rwa [h]
  · exact hl _ h

theorem getLastD_append (l m : List α) (d : α) :
    (l ++ m).getLastD d = m.getLastD (l.getLastD d) := by
  induction l generalizing d with
  | nil => rfl
  | cons x l ih => rw [List.cons_append, List.getLastD_cons, ih, List.getLastD_cons]

/-- Only the second of two lists matters if it is not empty. -/
theorem getLastD_append_of_forall {l m : List α} {d : α} (hm : ∀ x ∈ m, Q x) (hne : m ≠ []) :
    Q ((l ++ m).getLastD d) := by
  obtain ⟨x, m, rfl⟩ := List.exists_cons_of_ne_nil hne
  rw [List.forall_mem_cons] at hm
  rw [getLastD_append, List.getLastD_cons]
  exact getLastD_of_forall hm.2 hm.1

end

/-! ## The records that are left -/

/-- The records that the loop of `Link_State` has in front of it. -/
def Node.remaining (dm : DataModel) (x : Node) : List LinkStateRecord :=
  match x.reading with
  | none => []
  | some d => recordsFrom dm d.data d.ptr d.left

/-- No records are written and read at one proxy at the same time: the alarm does not find it in the
loop of `Link_State`, and this is not entered while records of a broadcast are still to be written. -/
def serial (s : Mesh) : Act → Prop
  | .alarm a _ _ => (s.node a).reading = none
  | .accept _ b _ => ∀ r, (s.node b).round = some r → r.rows = []
  | _ => True

section

variable (dm : DataModel) (proxies : Set MAC) (linkState : MAC → LinkState)
  (members : MAC → Members)

/-- The proxies of a list are as at the start, and each has a time of its own. -/
structure OwnList (said : MAC → List Timespec) (a : MAC) (m : Members) : Prop where
  same : SameProxies m (members a)
  times : ∀ p ∈ (members a).order,
    Heard dm proxies members said ((members a).key p) (m.peer p).timestamp

/-- A broadcast that has written the edges `es`, and will have written those of a list `m` in which
each proxy has a time of its own. While records are still to be written it is the list as it is. -/
structure RoundOwn (said : MAC → List Timespec) (a : MAC) (x : Node) (r : Round) (m : Members)
    (es : List Edge) : Prop where
  clock : r.timestamp ∈ said a
  own : OwnList dm proxies members said a m
  wrote : r.cursor.Wrote (packetOf dm (linkState a) (members a) es)
  edges : es ++ r.rows.map (Row.edge (linkState a) r.timestamp m) =
    Gossip.edges (linkState a) r.timestamp m
  current : r.rows ≠ [] → m = x.members ∧ x.reading = none

/-- A proxy has a time of its own for each member, or will have it after the records that are
left. -/
structure NodeOwn (said : MAC → List Timespec) (a : MAC) (x : Node) : Prop where
  same : SameProxies x.members (members a)
  times : ∀ p ∈ (members a).order, Heard dm proxies members said ((members a).key p)
    ((timesOf dm ((members a).key p) (x.remaining dm)).getLastD (x.members.peer p).timestamp)
  round : ∀ r, x.round = some r → ∃ m es, RoundOwn dm proxies linkState members said a x r m es

/-- A packet with the edges of a list in which each proxy has a time of its own. -/
structure PacketOwn (said : MAC → List Timespec) (a : MAC) (packet : List UInt8) (t : Timespec)
    (m : Members) : Prop where
  sender : a ∈ proxies
  clock : t ∈ said a
  own : OwnList dm proxies members said a m
  eq : packet = packetOf dm (linkState a) (members a) (edges (linkState a) t m)

/-- **The invariant of the runs without overlaps.** -/
abbrev MeshOwn (s : Mesh) : Prop :=
  s.Keeps proxies (NodeOwn dm proxies linkState members)
    fun said a packet => ∃ t m, PacketOwn dm proxies linkState members said a packet t m

end

section

variable {dm : DataModel} {proxies : Set MAC} {linkState : MAC → LinkState} {net : MAC → Network}
  {members : MAC → Members} {said said' : MAC → List Timespec} {s s' : Mesh} {a b : MAC}

section

variable (hsaid : ∀ c t, t ∈ said c → t ∈ said' c)
include hsaid

theorem OwnList.mono {m : Members} (h : OwnList dm proxies members said a m) :
    OwnList dm proxies members said' a m := ⟨h.same, fun p hp => (h.times p hp).mono hsaid⟩

theorem NodeOwn.mono {x : Node} (h : NodeOwn dm proxies linkState members said a x) :
    NodeOwn dm proxies linkState members said' a x where
  same := h.same
  times p hp := (h.times p hp).mono hsaid
  round r hr := by
    obtain ⟨m, es, hround⟩ := h.round r hr
    exact ⟨m, es, hsaid _ _ hround.clock, hround.own.mono hsaid, hround.wrote, hround.edges,
      hround.current⟩

theorem PacketOwn.mono {packet : List UInt8} {t : Timespec} {m : Members}
    (h : PacketOwn dm proxies linkState members said a packet t m) :
    PacketOwn dm proxies linkState members said' a packet t m :=
  ⟨h.sender, hsaid _ _ h.clock, h.own.mono hsaid, h.eq⟩

end

/-- Outside the loop of `Link_State` the list has times of its own. -/
theorem NodeOwn.ownList {x : Node} (h : NodeOwn dm proxies linkState members said a x)
    (hreading : x.reading = none) : OwnList dm proxies members said a x.members := by
  refine ⟨h.same, fun p hp => ?_⟩
  have htime := h.times p hp
  rw [Node.remaining, hreading] at htime
  exact htime

theorem length_edges_of_same {m m' : Members} (h : SameProxies m m') (ls : LinkState)
    (t : Timespec) : (edges ls t m).length = m'.count * (m'.count + 1) := by
  rw [length_edges, h.count]

/-- A member is found by its address. -/
theorem FullMesh.find_key (hmesh : FullMesh proxies linkState members) (ha : a ∈ proxies) {p : Ptr}
    (hp : p ∈ (members a).order) : (members a).find ((members a).key p) = some p := by
  obtain ⟨hmem, hne⟩ := hmesh.mem_proxies ha hp
  obtain ⟨q, hq⟩ := Option.isSome_iff_exists.1 (hmesh.find ha hmem hne)
  obtain ⟨hqmem, hkey⟩ := Members.mem_of_find hq
  rw [hq, List.inj_on_of_nodup_map (hmesh.keys a ha) hqmem hp hkey]

/-! ## The times in a packet -/

theorem timesOf_append (mac : MAC) (rs rs' : List LinkStateRecord) :
    timesOf dm mac (rs ++ rs') = timesOf dm mac rs ++ timesOf dm mac rs' := by
  rw [timesOf, List.filter_append, List.map_append, timesOf, timesOf]

theorem mem_timesOf_map {mac : MAC} {es : List Edge} {t : Timespec} :
    t ∈ timesOf dm mac (es.map Edge.record) ↔
      ∃ e ∈ es, e.proxy1.tapMAC = mac ∧ received dm e.time = t := by
  simp only [timesOf, List.mem_map, List.mem_filter, decide_eq_true_eq]
  constructor
  · rintro ⟨r, ⟨⟨e, he, rfl⟩, hmac⟩, rfl⟩
    exact ⟨e, he, hmac, (received_record e).symm⟩
  · rintro ⟨e, he, hmac, rfl⟩
    exact ⟨e.record, ⟨⟨e, he, rfl⟩, hmac⟩, received_record e⟩

/-- **The last time that a packet has for a proxy is one of that proxy**, unless the proxy is the
receiver. -/
theorem FullMesh.heard_edges (hmesh : FullMesh proxies linkState members) (ha : a ∈ proxies)
    (hb : b ∈ proxies) (hab : a ≠ b) {t : Timespec} (ht : t ∈ said a) {m : Members}
    (hm : OwnList dm proxies members said a m) {c : MAC} (hc : c ∈ proxies) (hcb : c ≠ b)
    {t₀ : Timespec} (ht₀ : Heard dm proxies members said c t₀) :
    Heard dm proxies members said c
      ((timesOf dm c ((edges (linkState a) t m).map Edge.record)).getLastD t₀) := by
  obtain ⟨r, hacq⟩ := hmesh.acquainted ha hb hab hm.same (.refl (members b))
  by_cases hca : c = a
  · -- the records of the sender all carry its time
    subst hca
    refine getLastD_of_forall (fun u hu => ?_) ht₀
    obtain ⟨e, he, hmac, rfl⟩ := mem_timesOf_map.1 hu
    rw [(hacq.edges_source t).1 e he (by rw [hmac, hmesh.own c ha])]
    exact (Heard.of_said ht).received
  · -- those of a member end with ones that carry its timestamp
    obtain ⟨q, hq, hkey⟩ := (hmesh.mem a ha c).2 ⟨hc, hca⟩
    have hmkey : m.key q = c := (hm.same.key q).trans hkey
    have hqr : q ≠ r := fun heq => by
      rw [heq, hacq.key_eq, hmesh.own b hb] at hmkey
      exact hcb hmkey.symm
    obtain ⟨pre, post, hsplit, htime, e, he, hmac⟩ :=
      hacq.edges_neighbor t (hm.same.order ▸ hq) hqr
    rw [hmkey] at htime hmac
    rw [hsplit, List.map_append, timesOf_append]
    refine getLastD_append_of_forall (fun u hu => ?_)
      (List.ne_nil_of_mem (mem_timesOf_map.2 ⟨e, he, hmac, rfl⟩))
    obtain ⟨e', he', hmac', rfl⟩ := mem_timesOf_map.1 hu
    rw [htime e' he' hmac', ← hkey]
    exact (hm.times q hq).received

/-! ## The steps -/

theorem MeshOwn.alarm (h : MeshOwn dm proxies linkState members s) (ha : a ∈ proxies) {t : Timespec}
    {mem : Buf} (hserial : (s.node a).reading = none)
    (hstep : s.alarm dm linkState a t mem = some s') : MeshOwn dm proxies linkState members s' := by
  rcases Mesh.alarm_cases hstep with rfl | ⟨-, rfl⟩
  · exact h
  · have hsaid (c : MAC) (u : Timespec) (hu : u ∈ s.said c) :
        u ∈ Function.update s.said a (t :: s.said a) c := mem_update_said hu
    have hx := (h.node a ha).mono hsaid
    refine (h.say (fun _ _ hx => hx.mono hsaid) fun _ _ => Exists.imp fun _ => Exists.imp fun _ hp =>
      hp.mono hsaid).set ⟨hx.same, hx.times, fun r hr => ⟨(s.node a).members, [], ?_⟩⟩
    obtain rfl := Option.some.inj hr
    refine ⟨by simp, hx.ownList hserial, ?_, ?_, fun _ => ⟨rfl, hserial⟩⟩
    · rw [packetOf, ← hx.same.linkStateHead dm, recordBytes, List.flatMap_nil, List.append_nil]
      exact Cursor.Wrote.putHead dm _ _ mem
    · exact map_edge_rows (linkState a) t (s.node a).members

theorem MeshOwn.write (h : MeshOwn dm proxies linkState members s) (ha : a ∈ proxies)
    (hstep : s.write dm linkState a = some s') : MeshOwn dm proxies linkState members s' := by
  obtain ⟨t, c, r, rs, unsent, hround, rfl⟩ := Mesh.write_cases hstep
  have hx := h.node a ha
  obtain ⟨m, es, hes⟩ := hx.round _ hround
  obtain ⟨rfl, hreading⟩ := hes.current (List.cons_ne_nil r rs)
  refine h.set ⟨hx.same, hx.times, fun r' hr' =>
    ⟨(s.node a).members, es ++ [r.edge (linkState a) t (s.node a).members], ?_⟩⟩
  obtain rfl := Option.some.inj hr'
  refine ⟨hes.clock, hes.own, ?_, ?_, fun _ => ⟨rfl, hreading⟩⟩
  · rw [packetOf_append]
    exact hes.wrote.row r
  · rw [List.append_assoc]
    exact hes.edges

theorem MeshOwn.send (hfit : Fits dm (members a)) (h : MeshOwn dm proxies linkState members s)
    (ha : a ∈ proxies) (hstep : s.send a = some s') : MeshOwn dm proxies linkState members s' := by
  obtain ⟨t, c, pp, unsent, hround, rfl⟩ := Mesh.send_cases hstep
  have hx := h.node a ha
  obtain ⟨m, es, hes⟩ := hx.round _ hround
  have hall : es = edges (linkState a) t m := by simpa using hes.edges
  have hset : MeshOwn dm proxies linkState members
      (s.set a { s.node a with round := some ⟨t, c, [], unsent⟩ }) := by
    refine h.set ⟨hx.same, hx.times, fun r hr => ⟨m, es, ?_⟩⟩
    obtain rfl := Option.some.inj hr
    exact ⟨hes.clock, hes.own, hes.wrote, hes.edges, fun hne => absurd rfl hne⟩
  refine hset.push ⟨t, m, ha, hes.clock, hes.own, ?_⟩
  rw [← hall]
  exact hes.wrote.slice_packetOf hfit (by rw [hall, length_edges_of_same hes.own.same])

theorem MeshOwn.release (h : MeshOwn dm proxies linkState members s) (ha : a ∈ proxies)
    (hstep : s.release a = some s') : MeshOwn dm proxies linkState members s' := by
  obtain rfl := Mesh.release_cases hstep
  have hx := h.node a ha
  exact h.set ⟨hx.same, hx.times, by simp⟩

theorem MeshOwn.finish (h : MeshOwn dm proxies linkState members s) (hb : b ∈ proxies)
    (hstep : s.finish b = some s') : MeshOwn dm proxies linkState members s' := by
  obtain ⟨⟨data, ptr, hreading⟩, rfl⟩ := Mesh.finish_cases hstep
  have hx := h.node b hb
  refine h.set ⟨hx.same, fun p hp => ?_, fun r hr => ?_⟩
  · have htime := hx.times p hp
    rw [Node.remaining, hreading] at htime
    exact htime
  · obtain ⟨m, es, hes⟩ := hx.round r hr
    exact ⟨m, es, hes.clock, hes.own, hes.wrote, hes.edges, fun hne => ⟨(hes.current hne).1, rfl⟩⟩

section

variable (hmesh : FullMesh proxies linkState members) (hfit : ∀ a ∈ proxies, Fits dm (members a))
include hmesh

/-- A record takes its time out of those that are left. -/
theorem MeshOwn.record (h : MeshOwn dm proxies linkState members s)
    (hok : MeshOk dm proxies linkState members s) (hb : b ∈ proxies)
    (hstep : s.record dm linkState net b = some s') : MeshOwn dm proxies linkState members s' := by
  obtain ⟨data, ptr, n, hreading⟩ := Mesh.record_cases hstep
  have hx := h.node b hb
  have hproxy : (ldRecord dm data ptr).proxy1.tapMAC ∈ proxies := by
    have hrecords := (hok.node b hb).reading _ hreading
    rw [recordsFrom_succ, List.forall_mem_cons] at hrecords
    exact hrecords.1.1
  obtain rfl := Option.some.inj ((hmesh.record_eq hb hx.same hreading hproxy).symm.trans hstep)
  refine h.set ⟨hx.same.applyRecord dm _ _, fun p hp => ?_, fun r hr => ?_⟩
  · have htime := hx.times p hp
    have hkey : (s.node b).members.key p = (members b).key p := hx.same.key p
    have hne : (members b).key p ≠ b := (hmesh.mem_proxies hb hp).2
    rw [Node.remaining, hreading] at htime
    simp only [recordsFrom_succ] at htime
    rw [Node.remaining]
    by_cases hr : (ldRecord dm data ptr).proxy1.tapMAC = (members b).key p
    · have hfind : (s.node b).members.find ((members b).key p) = some p := by
        rw [hx.same.find, hmesh.find_key hb hp]
      rw [applyRecord_self (by rw [hr, hmesh.own b hb]; exact hne) (by rw [hr]; exact hfind)]
      rw [timesOf, List.filter_cons_of_pos (by simpa using hr), List.map_cons,
        List.getLastD_cons] at htime
      exact htime
    · rw [applyRecord_other (by rw [hkey]; exact fun heq => absurd heq hr)]
      rwa [timesOf, List.filter_cons_of_neg (by simpa using hr)] at htime
  · obtain ⟨m, es, hes⟩ := hx.round r hr
    refine ⟨m, es, hes.clock, hes.own, hes.wrote, hes.edges, fun hne => ?_⟩
    rw [(hes.current hne).2] at hreading
    cases hreading

include hfit

/-- A packet leaves a time of its own for every member once all its records are applied. -/
theorem MeshOwn.accept (h : MeshOwn dm proxies linkState members s) (hb : b ∈ proxies) {mem : Buf}
    (hserial : ∀ r, (s.node b).round = some r → r.rows = [])
    (hstep : s.accept dm linkState net a b mem = some s') :
    MeshOwn dm proxies linkState members s' := by
  obtain ⟨hreading, packet, packets, hchannel⟩ := Mesh.accept_cases hstep
  have hx := h.node b hb
  obtain ⟨t, m, ha, ht, hm, rfl⟩ := h.channel a b packet (by rw [hchannel]; exact List.mem_cons_self ..)
  obtain ⟨data, hd, haccept⟩ :=
    @FullMesh.accept_eq _ _ _ net _ hmesh _ _ _ ha hb (hfit a ha) hx.same _
      (length_edges_of_same hm.same (linkState a) t) _ hchannel hreading mem
  have hpop : MeshOwn dm proxies linkState members
      { s with channel := Function.update s.channel (a, b) packets } := h.pop hchannel
  obtain rfl := Option.some.inj (haccept.symm.trans hstep)
  split_ifs with hab
  · exact hpop
  · refine hpop.set ⟨hx.same, fun p hp => ?_, fun r hr => ?_⟩
    · obtain ⟨hc, hcb⟩ := hmesh.mem_proxies hb hp
      have hbefore := (hx.ownList hreading).times p hp
      rw [Node.remaining]
      simp only [recordsFrom_payloadOf hd]
      exact hmesh.heard_edges ha hb hab ht hm hc hcb hbefore
    · obtain ⟨m', es, hes⟩ := hx.round r hr
      exact ⟨m', es, hes.clock, hes.own, hes.wrote, hes.edges, fun hne => absurd (hserial r hr) hne⟩

/-- **Every step without an overlap keeps the invariant.** -/
theorem MeshOwn.step (h : MeshOwn dm proxies linkState members s)
    (hok : MeshOk dm proxies linkState members s) {act : Act} (hserial : serial s act)
    (hact : act.actor ∈ proxies) (hstep : s.exec dm linkState net act = some s') :
    MeshOwn dm proxies linkState members s' := by
  cases act with
  | alarm a t mem => exact h.alarm hact hserial hstep
  | write a => exact h.write hact hstep
  | send a => exact h.send (hfit a hact) hact hstep
  | release a => exact h.release hact hstep
  | accept a b mem => exact h.accept hmesh hfit hact hserial hstep
  | record b => exact h.record hmesh hok hact hstep
  | finish b => exact h.finish hact hstep

theorem MeshOwn.of_reachable
    (hs : ((meshSystem dm linkState net proxies members).guard serial).Reachable s) :
    MeshOwn dm proxies linkState members s := by
  have hboth : MeshOk dm proxies linkState members s ∧ MeshOwn dm proxies linkState members s := by
    refine TransitionSystem.Reachable.invariant (P := fun s =>
      MeshOk dm proxies linkState members s ∧ MeshOwn dm proxies linkState members s) ?_
      (fun s act s' h hstep => ?_) hs
    · intro s hinit
      have hreachable : (meshSystem dm linkState net proxies members).Reachable s := .init hinit
      refine ⟨.of_reachable hmesh hfit hreachable, ?_⟩
      obtain rfl := hinit
      exact ⟨fun a ha => ⟨.refl _, fun p hp => ⟨_, .inl ⟨a, ha, p, hp, rfl, rfl⟩, .inl rfl⟩,
        by simp [Mesh.start]⟩, by simp [Mesh.start], rfl⟩
    · obtain ⟨hserial, hact, hexec⟩ := hstep
      exact ⟨h.1.step hmesh hfit hact hexec, h.2.step hmesh hfit h.1 hserial hact hexec⟩
  exact hboth.2

end

end

/-- **Every proxy keeps times of the proxies they are kept for.** In every run of a full mesh in
which no proxy writes records of a broadcast while it reads those of a packet, a timestamp outside
the loop of `Link_State` is an initial one of that proxy or one that its own clock has shown at a
broadcast, as it was or as it has arrived modulo `2^32`. -/
theorem mesh_run_serial (dm : DataModel) {proxies : Set MAC} {linkState : MAC → LinkState}
    (net : MAC → Network) {members : MAC → Members} (hmesh : FullMesh proxies linkState members)
    (hfit : ∀ a ∈ proxies, Fits dm (members a)) {s : Mesh}
    (hs : ((meshSystem dm linkState net proxies members).guard serial).Reachable s) :
    ∀ a ∈ proxies, (s.node a).reading = none → ∀ p ∈ (members a).order,
      Heard dm proxies members s.said ((members a).key p)
        ((s.node a).members.peer p).timestamp := by
  intro a ha hreading p hp
  exact (((MeshOwn.of_reachable hmesh hfit hs).node a ha).ownList hreading).times p hp

instance (s : Mesh) (act : Act) : Decidable (serial s act) :=
  match act with
  | .alarm a _ _ => inferInstanceAs (Decidable ((s.node a).reading = none))
  | .accept _ b _ => decidable_of_iff ((s.node b).round.all fun r => r.rows = []) (by
      simp [serial, Option.all_eq_true])
  | .write _ => .isTrue trivial
  | .send _ => .isTrue trivial
  | .release _ => .isTrue trivial
  | .record _ => .isTrue trivial
  | .finish _ => .isTrue trivial

/-- A step of one of three proxies that keeps to the condition. -/
def quietStep (s : Mesh) (act : Act) : Option Mesh := if serial s act then trioStep s act else none

theorem quietStep_step {s t : Mesh} {act : Act} (h : quietStep s act = some t) :
    (trioSystem.guard serial).step s act t := by
  unfold quietStep at h
  split_ifs at h with hserial
  exact ⟨hserial, trioStep_step h⟩

/-- The proxy `a` broadcasts at `7` and `b` reads the packet. -/
def quiet (a b : MAC) : List Act :=
  Act.alarm a ⟨7, 0⟩ (fun _ => 0) :: List.replicate 6 (Act.write a) ++
    Act.send a :: Act.accept a b (fun _ => 0) :: List.replicate 6 (Act.record b) ++ [Act.finish b]

theorem quiet_times : ((quiet (.replicate 6 1) (.replicate 6 2)).foldlM quietStep
    (.start trioMembers)).map (fun s => ((s.node (.replicate 6 2)).reading.isNone,
      ((s.node (.replicate 6 2)).members.peer 0).timestamp)) = some (true, ⟨7, 0⟩) := by
  decide +kernel

/-- The second proxy has the time of the first one. -/
theorem mesh_run_serial_quiet : ∃ s : Mesh,
    ((s.node (.replicate 6 2)).members.peer 0).timestamp = ⟨7, 0⟩ ∧
      Heard .lp64 { a | a ∈ trio } trioMembers s.said (.replicate 6 1) ⟨7, 0⟩ := by
  obtain ⟨s, hrun, htimes⟩ := Option.map_eq_some_iff.1 quiet_times
  obtain ⟨hreading, htime⟩ := Prod.mk.inj htimes
  have hs : (trioSystem.guard serial).Reachable s :=
    .of_schedule (fun s act t h => ⟨act, quietStep_step h⟩) _ (.init rfl) hrun
  have htwo : (.replicate 6 2 : MAC) ∈ trio := by decide +kernel
  have hkey : (trioMembers (.replicate 6 2)).key 0 = .replicate 6 1 := by decide +kernel
  have hheard := mesh_run_serial .lp64 (fun _ => noNetwork) fullMesh_trio fits_trio hs
    (.replicate 6 2) htwo (by simpa using hreading) 0 (by decide +kernel)
  rw [hkey, htime] at hheard
  exact ⟨s, htime, hheard⟩

/-- **With an overlap a proxy can keep a time that is not one of the proxy it is kept for.** -/
theorem racing_not_heard : ∃ s, trioSystem.Reachable s ∧
    ¬Heard .lp64 { a | a ∈ trio } trioMembers s.said (.replicate 6 3)
      ((s.node (.replicate 6 1)).members.peer 1).timestamp := by
  obtain ⟨s, hs, htime, hsaid⟩ := racing_reachable
  refine ⟨s, hs, ?_⟩
  rw [htime]
  rintro ⟨t, ⟨a, -, p, -, -, rfl⟩ | ht, heq⟩
  · have hzero : received .lp64 ⟨0, 0⟩ = ⟨0, 0⟩ := by decide
    have hne : (⟨7, 0⟩ : Timespec) ≠ ⟨0, 0⟩ := by decide
    rcases heq with heq | heq
    · exact hne heq
    · exact hne (heq.trans hzero)
  · rw [hsaid] at ht
    cases ht

end LinkProxy.Gossip
