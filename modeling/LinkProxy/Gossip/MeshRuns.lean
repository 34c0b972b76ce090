import LinkProxy.Gossip.MeshSteps

/-!
# Runs of a full mesh

In a full mesh there is nobody to dial. This stays so in every run, however the steps of broadcasts
and receptions are mixed: no membership list changes, no packet is refused, every packet can be read
to its end, and no time is invented, for every timestamp comes from an initial one or from the clock
of a broadcast (`mesh_run`). Whose time it is depends on the order of the steps.
-/

namespace LinkProxy.Gossip

open Bytes Wire Peers

/-! ## Times that have been said -/

/-- A time on the wire arrives unchanged when it is sent on. -/
theorem received_received (dm : DataModel) (t : Timespec) :
    received dm (received dm t) = received dm t := by
  have hofInt (x : Int) : UInt32.ofInt (dm.toLong (.ofInt x)) = .ofInt x := by
    have hmod := (toLong_ofInt dm x).1
    unfold Int.ModEq at hmod
    rw [UInt32.ofInt]
    norm_num only
    rw [hmod, UInt32.ofInt]
    norm_num only
  simp only [received, hofInt]

section

variable (dm : DataModel) (proxies : Set MAC) (members : MAC → Members)

/-- A time of a proxy: one that some proxy has kept for it from the start, or one of its clock. -/
def TimeOf (said : MAC → List Timespec) (c : MAC) (t : Timespec) : Prop :=
  (∃ a ∈ proxies, ∃ p ∈ (members a).order, (members a).key p = c ∧
    ((members a).peer p).timestamp = t) ∨ t ∈ said c

/-- A time of a proxy as it is kept for it: as it was, or as it has arrived. -/
def Heard (said : MAC → List Timespec) (c : MAC) (t : Timespec) : Prop :=
  ∃ t', TimeOf proxies members said c t' ∧ (t = t' ∨ t = received dm t')

variable {dm proxies members} {said said' : MAC → List Timespec} {c : MAC} {t : Timespec}

theorem Heard.mono (hsaid : ∀ c t, t ∈ said c → t ∈ said' c) (h : Heard dm proxies members said c t) :
    Heard dm proxies members said' c t := by
  obtain ⟨t', ht', heq⟩ := h
  exact ⟨t', ht'.imp_right (hsaid c t'), heq⟩

theorem Heard.received (h : Heard dm proxies members said c t) :
    Heard dm proxies members said c (received dm t) := by
  obtain ⟨t', ht', heq | heq⟩ := h
  · exact ⟨t', ht', .inr (by rw [heq])⟩
  · exact ⟨t', ht', .inr (by rw [heq, received_received])⟩

theorem Heard.of_said (h : t ∈ said c) : Heard dm proxies members said c t :=
  ⟨t, .inr h, .inl rfl⟩

end

/-! ## Nobody is dialled, nothing is refused, no time is invented -/

theorem length_rows (m : Members) : (rows m.order).length = m.count * (m.count + 1) := by
  rw [← length_edges ⟨0, 0, .replicate 6 0, .replicate 6 0⟩ ⟨0, 0⟩, ← map_edge_rows, List.length_map]

section

variable (dm : DataModel) (proxies : Set MAC) (linkState : MAC → LinkState)
  (members : MAC → Members)

/-- A time of some proxy of the mesh. -/
def Pooled (said : MAC → List Timespec) (t : Timespec) : Prop :=
  ∃ c ∈ proxies, Heard dm proxies members said c t

/-- An edge from a proxy of the mesh with a time of some proxy. -/
structure EdgeOk (said : MAC → List Timespec) (e : Edge) : Prop where
  proxy1 : e.proxy1.tapMAC ∈ proxies
  time : Pooled dm proxies members said e.time

/-- A packet of a proxy whose edges are `es`. -/
structure PacketOk (said : MAC → List Timespec) (a : MAC) (packet : List UInt8) (es : List Edge) :
    Prop where
  sender : a ∈ proxies
  eq : packet = packetOf dm (linkState a) (members a) es
  length : es.length = (members a).count * ((members a).count + 1)
  edges : ∀ e ∈ es, EdgeOk dm proxies members said e

/-- A broadcast of a proxy that has written the edges `es`. -/
structure RoundOk (said : MAC → List Timespec) (a : MAC) (r : Round) (es : List Edge) : Prop where
  clock : r.timestamp ∈ said a
  wrote : r.cursor.Wrote (packetOf dm (linkState a) (members a) es)
  length : es.length + r.rows.length = (members a).count * ((members a).count + 1)
  edges : ∀ e ∈ es, EdgeOk dm proxies members said e
  rows : ∀ row ∈ r.rows, row.member ∈ (members a).order

/-- A proxy of the mesh in a run. -/
structure NodeOk (said : MAC → List Timespec) (a : MAC) (x : Node) : Prop where
  same : SameProxies x.members (members a)
  times : ∀ p ∈ (members a).order, Pooled dm proxies members said (x.members.peer p).timestamp
  round : ∀ r, x.round = some r → ∃ es, RoundOk dm proxies linkState members said a r es
  reading : ∀ d, x.reading = some d → ∀ r ∈ recordsFrom dm d.data d.ptr d.left,
    r.proxy1.tapMAC ∈ proxies ∧ Pooled dm proxies members said (recordTime dm r)

/-- **The invariant of the runs.** -/
abbrev MeshOk (s : Mesh) : Prop :=
  s.Keeps proxies (NodeOk dm proxies linkState members)
    fun said a packet => ∃ es, PacketOk dm proxies linkState members said a packet es

end

section

variable {dm : DataModel} {proxies : Set MAC} {linkState : MAC → LinkState} {net : MAC → Network}
  {members : MAC → Members} {said said' : MAC → List Timespec} {s s' : Mesh} {a b : MAC}

section

variable (hsaid : ∀ c t, t ∈ said c → t ∈ said' c)
include hsaid

theorem Pooled.mono {t : Timespec} (h : Pooled dm proxies members said t) :
    Pooled dm proxies members said' t :=
  h.imp fun _ hc => hc.imp_right (Heard.mono hsaid)

theorem EdgeOk.mono {e : Edge} (h : EdgeOk dm proxies members said e) :
    EdgeOk dm proxies members said' e := ⟨h.proxy1, h.time.mono hsaid⟩

theorem RoundOk.mono {r : Round} {es : List Edge}
    (h : RoundOk dm proxies linkState members said a r es) :
    RoundOk dm proxies linkState members said' a r es :=
  ⟨hsaid _ _ h.clock, h.wrote, h.length, fun e he => (h.edges e he).mono hsaid, h.rows⟩

theorem NodeOk.mono {x : Node} (h : NodeOk dm proxies linkState members said a x) :
    NodeOk dm proxies linkState members said' a x where
  same := h.same
  times p hp := (h.times p hp).mono hsaid
  round r hr := (h.round r hr).imp fun _ hes => hes.mono hsaid
  reading d hd r hr := (h.reading d hd r hr).imp_right (Pooled.mono hsaid)

theorem PacketOk.mono {packet : List UInt8} {es : List Edge}
    (h : PacketOk dm proxies linkState members said a packet es) :
    PacketOk dm proxies linkState members said' a packet es :=
  ⟨h.sender, h.eq, h.length, fun e he => (h.edges e he).mono hsaid⟩

end

/-- What a broadcast writes next. -/
theorem NodeOk.edgeOk (hmesh : FullMesh proxies linkState members) {x : Node} (ha : a ∈ proxies)
    (h : NodeOk dm proxies linkState members said a x) {t : Timespec} (ht : t ∈ said a) {r : Row}
    (hr : r.member ∈ (members a).order) :
    EdgeOk dm proxies members said (r.edge (linkState a) t x.members) := by
  have hkey {p : Ptr} (hp : p ∈ (members a).order) : (x.members.peer p).ls.tapMAC ∈ proxies := by
    rw [h.same.ls]
    exact (hmesh.mem_proxies ha hp).1
  have hclock : Pooled dm proxies members said t := ⟨a, ha, .of_said ht⟩
  cases r with
  | out pp => exact ⟨by rw [Row.edge, hmesh.own a ha]; exact ha, hclock⟩
  | back pp => exact ⟨hkey hr, hclock⟩
  | other pp tmp => exact ⟨hkey hr, h.times pp hr⟩

theorem MeshOk.alarm (h : MeshOk dm proxies linkState members s) (ha : a ∈ proxies) {t : Timespec}
    {mem : Buf} (hstep : s.alarm dm linkState a t mem = some s') :
    MeshOk dm proxies linkState members s' := by
  rcases Mesh.alarm_cases hstep with rfl | ⟨-, rfl⟩
  · exact h
  · have hsaid (c : MAC) (u : Timespec) (hu : u ∈ s.said c) :
        u ∈ Function.update s.said a (t :: s.said a) c := mem_update_said hu
    have hx := (h.node a ha).mono hsaid
    refine (h.say (fun _ _ hx => hx.mono hsaid)
      fun _ _ hes => hes.imp fun _ hes => hes.mono hsaid).set
        ⟨hx.same, hx.times, fun r hr => ⟨[], ?_⟩, hx.reading⟩
    obtain rfl := Option.some.inj hr
    refine ⟨by simp, ?_, ?_, by simp, fun row hrow => ?_⟩
    · rw [packetOf, ← hx.same.linkStateHead dm, recordBytes, List.flatMap_nil, List.append_nil]
      exact Cursor.Wrote.putHead dm _ _ mem
    · simp only [List.length_nil, Nat.zero_add, length_rows, hx.same.count]
    · rw [← hx.same.order]
      exact mem_of_mem_rows hrow

theorem MeshOk.finish (h : MeshOk dm proxies linkState members s) (hb : b ∈ proxies)
    (hstep : s.finish b = some s') : MeshOk dm proxies linkState members s' := by
  obtain ⟨-, rfl⟩ := Mesh.finish_cases hstep
  have hx := h.node b hb
  exact h.set ⟨hx.same, hx.times, hx.round, by simp⟩

theorem MeshOk.release (h : MeshOk dm proxies linkState members s) (ha : a ∈ proxies)
    (hstep : s.release a = some s') : MeshOk dm proxies linkState members s' := by
  obtain rfl := Mesh.release_cases hstep
  have hx := h.node a ha
  exact h.set ⟨hx.same, hx.times, by simp, hx.reading⟩

theorem MeshOk.send (hfit : Fits dm (members a)) (h : MeshOk dm proxies linkState members s)
    (ha : a ∈ proxies) (hstep : s.send a = some s') : MeshOk dm proxies linkState members s' := by
  obtain ⟨t, c, pp, unsent, hround, rfl⟩ := Mesh.send_cases hstep
  have hx := h.node a ha
  obtain ⟨es, hes⟩ := hx.round _ hround
  have hlength : es.length = (members a).count * ((members a).count + 1) := hes.length
  have hset : MeshOk dm proxies linkState members
      (s.set a { s.node a with round := some ⟨t, c, [], unsent⟩ }) := by
    refine h.set ⟨hx.same, hx.times, fun r hr => ⟨es, ?_⟩, hx.reading⟩
    obtain rfl := Option.some.inj hr
    exact ⟨hes.clock, hes.wrote, hes.length, hes.edges, hes.rows⟩
  exact hset.push ⟨es, ha, hes.wrote.slice_packetOf hfit hlength, hlength, hes.edges⟩

section

variable (hmesh : FullMesh proxies linkState members) (hfit : ∀ a ∈ proxies, Fits dm (members a))
include hmesh

theorem MeshOk.write (h : MeshOk dm proxies linkState members s) (ha : a ∈ proxies)
    (hstep : s.write dm linkState a = some s') : MeshOk dm proxies linkState members s' := by
  obtain ⟨t, c, r, rs, unsent, hround, rfl⟩ := Mesh.write_cases hstep
  have hx := h.node a ha
  obtain ⟨es, hes⟩ := hx.round _ hround
  refine h.set ⟨hx.same, hx.times, fun r' hr' => ⟨es ++ [r.edge (linkState a) t (s.node a).members],
    ?_⟩, hx.reading⟩
  obtain rfl := Option.some.inj hr'
  have hlength : es.length + (rs.length + 1) = _ := hes.length
  refine ⟨hes.clock, ?_, ?_, ?_, fun row hrow => hes.rows row (List.mem_cons_of_mem _ hrow)⟩
  · rw [packetOf_append]
    exact hes.wrote.row r
  · rw [← hlength, List.length_append, List.length_singleton, Nat.add_assoc, Nat.add_comm 1]
  · intro e he
    rcases List.mem_append.1 he with he | he
    · exact hes.edges e he
    · obtain rfl := List.mem_singleton.1 he
      exact hx.edgeOk hmesh ha hes.clock (hes.rows r (List.mem_cons_self ..))

/-- A record can always be read. -/
theorem MeshOk.record (h : MeshOk dm proxies linkState members s) (hb : b ∈ proxies) {data : Buf}
    {ptr n : ℕ} (hreading : (s.node b).reading = some ⟨data, ptr, n + 1⟩) :
    ∃ s', s.record dm linkState net b = some s' ∧ MeshOk dm proxies linkState members s' := by
  have hx := h.node b hb
  have hrecords := hx.reading _ hreading
  rw [recordsFrom_succ, List.forall_mem_cons] at hrecords
  obtain ⟨⟨hproxy, htime⟩, hrest⟩ := hrecords
  refine ⟨_, hmesh.record_eq hb hx.same hreading hproxy, h.set ⟨hx.same.applyRecord dm _ _,
    fun p hp => ?_, hx.round, fun d hd => ?_⟩⟩
  · rcases applyRecord_timestamp dm (linkState b) (s.node b).members (ldRecord dm data ptr) p with
      hsame | hset
    · rw [hsame]
      exact hx.times p hp
    · rw [hset]
      exact htime
  · obtain rfl := Option.some.inj hd
    exact hrest

include hfit

/-- Every packet can be accepted. -/
theorem MeshOk.accept (h : MeshOk dm proxies linkState members s) (hb : b ∈ proxies)
    {packet : List UInt8} {packets : List (List UInt8)}
    (hchannel : s.channel (a, b) = packet :: packets) (hreading : (s.node b).reading = none)
    (mem : Buf) :
    ∃ s', s.accept dm linkState net a b mem = some s' ∧ MeshOk dm proxies linkState members s' := by
  obtain ⟨es, ha, rfl, hlength, hedges⟩ :=
    h.channel a b packet (by rw [hchannel]; exact List.mem_cons_self ..)
  have hx := h.node b hb
  obtain ⟨data, hd, haccept⟩ :=
    @FullMesh.accept_eq _ _ _ net _ hmesh _ _ _ ha hb (hfit a ha) hx.same _ hlength _ hchannel
      hreading mem
  have hpop : MeshOk dm proxies linkState members
      { s with channel := Function.update s.channel (a, b) packets } := h.pop hchannel
  refine ⟨_, haccept, ?_⟩
  split_ifs
  · exact hpop
  · refine hpop.set ⟨hx.same, hx.times, hx.round, fun d hd' => ?_⟩
    obtain rfl := Option.some.inj hd'
    rw [recordsFrom_payloadOf hd]
    simp only [List.mem_map, forall_exists_index, and_imp, forall_apply_eq_imp_iff₂]
    intro e he
    obtain ⟨c, hc, htime⟩ := (hedges e he).time
    refine ⟨(hedges e he).proxy1, c, hc, ?_⟩
    rw [recordTime, received_record]
    exact htime.received

/-- **Every step keeps the invariant.** -/
theorem MeshOk.step (h : MeshOk dm proxies linkState members s) {act : Act}
    (hact : act.actor ∈ proxies) (hstep : s.exec dm linkState net act = some s') :
    MeshOk dm proxies linkState members s' := by
  cases act with
  | alarm a t mem => exact h.alarm hact hstep
  | write a => exact h.write hmesh hact hstep
  | send a => exact h.send (hfit a hact) hact hstep
  | release a => exact h.release hact hstep
  | accept a b mem =>
    obtain ⟨hreading, packet, packets, hchannel⟩ := Mesh.accept_cases hstep
    obtain ⟨s'', haccept, hs''⟩ : ∃ s'', s.accept dm linkState net a b mem = some s'' ∧
        MeshOk dm proxies linkState members s'' := h.accept hmesh hfit hact hchannel hreading mem
    exact Option.some.inj (haccept.symm.trans hstep) ▸ hs''
  | record b =>
    obtain ⟨data, ptr, n, hreading⟩ := Mesh.record_cases hstep
    obtain ⟨s'', hrecord, hs''⟩ : ∃ s'', s.record dm linkState net b = some s'' ∧
        MeshOk dm proxies linkState members s'' := h.record hmesh hact hreading
    exact Option.some.inj (hrecord.symm.trans hstep) ▸ hs''
  | finish b => exact h.finish hact hstep

/-- The invariant holds in every run. -/
theorem MeshOk.of_reachable (hs : (meshSystem dm linkState net proxies members).Reachable s) :
    MeshOk dm proxies linkState members s := by
  refine TransitionSystem.Reachable.invariant ?_ (fun s act s' h hstep =>
    h.step hmesh hfit hstep.1 hstep.2) hs
  rintro s rfl
  exact ⟨fun a ha => ⟨.refl _, fun p hp => ⟨_, (hmesh.mem_proxies ha hp).1, _,
    .inl ⟨a, ha, p, hp, rfl, rfl⟩, .inl rfl⟩, by simp [Mesh.start], by simp [Mesh.start]⟩,
    by simp [Mesh.start], rfl⟩

end

end

/-- **A full mesh stays as it is in every run**, however the steps of its broadcasts and receptions
are mixed. No link is closed for a packet, the membership lists keep their `Peer` objects and the
proxies in them, whatever dialling would do, and each timestamp comes from an initial one or from
the clock of a broadcast. Every packet can be accepted, and every record of it can be read. -/
theorem mesh_run (dm : DataModel) {proxies : Set MAC} {linkState : MAC → LinkState}
    (net : MAC → Network) {members : MAC → Members} (hmesh : FullMesh proxies linkState members)
    (hfit : ∀ a ∈ proxies, Fits dm (members a)) {s : Mesh}
    (hs : (meshSystem dm linkState net proxies members).Reachable s) :
    s.severed = [] ∧
    (∀ a ∈ proxies, SameProxies (s.node a).members (members a) ∧ ∀ p ∈ (members a).order,
      Pooled dm proxies members s.said ((s.node a).members.peer p).timestamp) ∧
    (∀ a b mem, b ∈ proxies → s.channel (a, b) ≠ [] → (s.node b).reading = none →
      (s.accept dm linkState net a b mem).isSome) ∧
    ∀ b ∈ proxies, ∀ data ptr n, (s.node b).reading = some ⟨data, ptr, n + 1⟩ →
      (s.record dm linkState net b).isSome := by
  have h := MeshOk.of_reachable hmesh hfit hs
  refine ⟨h.severed, fun a ha => ⟨(h.node a ha).same, (h.node a ha).times⟩,
    fun a b mem hb hchannel hreading => ?_, fun b hb data ptr n hreading => ?_⟩
  · obtain ⟨packet, packets, hcons⟩ := List.exists_cons_of_ne_nil hchannel
    obtain ⟨s', haccept, -⟩ := h.accept hmesh hfit hb hcons hreading mem
    rw [haccept, Option.isSome_some]
  · obtain ⟨s', hrecord, -⟩ := h.record hmesh hb hreading
    rw [hrecord, Option.isSome_some]

/-! ## A mesh of three -/

/-- Three addresses. -/
def trio : List MAC := [.replicate 6 1, .replicate 6 2, .replicate 6 3]

/-- A proxy with an address. -/
def proxyAt (a : MAC) : LinkState := ⟨0, 0, a, .replicate 6 0⟩

/-- Each of the three has the others as members, with the time `0`. -/
def trioMembers (a : MAC) : Members where
  order := List.range (trio.filter (· ≠ a)).length
  nodup := List.nodup_range
  peer p := ⟨⟨0, 0⟩, proxyAt ((trio.filter (· ≠ a)).getD p a)⟩

section

variable {a : MAC} (ha : a ∈ trio)
include ha

theorem map_key_trioMembers :
    (trioMembers a).order.map (trioMembers a).key = trio.filter (· ≠ a) := by
  simp only [trio, List.mem_cons, List.not_mem_nil, or_false] at ha
  rcases ha with rfl | rfl | rfl
  · decide +kernel
  · decide +kernel
  · decide +kernel

theorem nodup_trioMembers : ((trioMembers a).order.map (trioMembers a).key).Nodup := by
  have hnodup : trio.Nodup := by decide +kernel
  rw [map_key_trioMembers ha]
  exact hnodup.filter _

theorem mem_trioMembers (b : MAC) :
    b ∈ (trioMembers a).order.map (trioMembers a).key ↔ b ∈ trio ∧ b ≠ a := by
  rw [map_key_trioMembers ha, List.mem_filter, decide_eq_true_eq]

end

theorem fullMesh_trio : FullMesh { a | a ∈ trio } proxyAt trioMembers where
  own _ _ := rfl
  keys _ ha := nodup_trioMembers ha
  mem _ ha b := List.mem_map.symm.trans (mem_trioMembers ha b)

theorem fits_trio (a : MAC) (ha : a ∈ trio) : Fits .lp64 (trioMembers a) := by
  have hlength := congrArg List.length (map_key_trioMembers ha)
  have hle : (trio.filter (· ≠ a)).length ≤ 3 := List.length_filter_le _ trio
  have hcount : (trioMembers a).count ≤ 3 := by
    rw [Members.count, ← List.length_map (trioMembers a).key, hlength]
    exact hle
  have hmul : (trioMembers a).count * ((trioMembers a).count + 1) ≤ 3 * 4 :=
    Nat.mul_le_mul hcount (Nat.succ_le_succ hcount)
  rw [Fits, DataModel.timespecSize, DataModel.longSize]
  omega

/-- The proxy `a` broadcasts at `7` and sends to `b`, which broadcasts at `9` when it has read five
of the six records. -/
def racing (a b : MAC) : List Act :=
  Act.alarm a ⟨7, 0⟩ (fun _ => 0) :: List.replicate 6 (Act.write a) ++
    Act.send a :: Act.accept a b (fun _ => 0) :: List.replicate 5 (Act.record b) ++
    Act.alarm b ⟨9, 0⟩ (fun _ => 0) :: List.replicate 6 (Act.write b) ++
    Act.send b :: Act.accept b a (fun _ => 0) :: List.replicate 6 (Act.record a) ++ [Act.finish a]

/-- The system of the three, in which nobody can be dialled. -/
def trioSystem : TransitionSystem Mesh Act :=
  meshSystem .lp64 proxyAt (fun _ => noNetwork) { a | a ∈ trio } trioMembers

/-- A step of one of the three. -/
def trioStep (s : Mesh) (act : Act) : Option Mesh :=
  if act.actor ∈ trio then s.exec .lp64 proxyAt (fun _ => noNetwork) act else none

theorem trioStep_step {s t : Mesh} {act : Act} (h : trioStep s act = some t) :
    trioSystem.step s act t := by
  unfold trioStep at h
  split_ifs at h with hact
  exact ⟨hact, h⟩

/-- The time that the first proxy has for the third one in the end, and what the clock of the third
one has shown. -/
theorem racing_times : ((racing (.replicate 6 1) (.replicate 6 2)).foldlM trioStep
    (.start trioMembers)).map (fun s =>
      (((s.node (.replicate 6 1)).members.peer 1).timestamp, s.said (.replicate 6 3))) =
    some (⟨7, 0⟩, []) := by decide +kernel

theorem racing_reachable : ∃ s, trioSystem.Reachable s ∧
    ((s.node (.replicate 6 1)).members.peer 1).timestamp = ⟨7, 0⟩ ∧ s.said (.replicate 6 3) = [] := by
  obtain ⟨s, hrun, htimes⟩ := Option.map_eq_some_iff.1 racing_times
  obtain ⟨htime, hsaid⟩ := Prod.mk.inj htimes
  exact ⟨s, .of_schedule (fun s act t h => ⟨act, trioStep_step h⟩) _ (.init rfl) hrun, htime, hsaid⟩

/-- A run in which broadcasts and receptions overlap. -/
theorem mesh_run_racing : ∃ s : Mesh,
    ((s.node (.replicate 6 1)).members.peer 1).timestamp = ⟨7, 0⟩ ∧ s.severed = [] ∧
      SameProxies (s.node (.replicate 6 1)).members (trioMembers (.replicate 6 1)) := by
  obtain ⟨s, hs, htime, -⟩ := racing_reachable
  obtain ⟨hsevered, hmembers, -⟩ := mesh_run .lp64 (fun _ => noNetwork) fullMesh_trio fits_trio hs
  exact ⟨s, htime, hsevered, (hmembers (.replicate 6 1) (by decide +kernel)).1⟩

end LinkProxy.Gossip
