import LinkProxy.Gossip.RoundTrip

/-!
# Whose timestamp arrives

A receiver that knows every proxy of a link-state packet applies its records one after the other, so
the last record about a proxy decides the timestamp it keeps (`timestamp_applyAll`). The records of
a neighbour start with one that carries the sender's own time, but for every neighbour other than
the receiver there are later ones, to the receiver at least, that carry the timestamp the sender has
stored for it. So the times of a broadcast arrive as they were (`receiveLinkState_timestamps`).
-/

namespace LinkProxy.Gossip

open Bytes Wire Peers

/-! ## Times on the wire -/

/-- A timestamp after it has been converted to `uint32_t`, sent and assigned to a `timespec`. -/
def received (dm : DataModel) (t : Timespec) : Timespec :=
  ⟨dm.toLong (.ofInt t.tvSec), dm.toLong (.ofInt t.tvNsec)⟩

/-- The bound of the times that a `uint32_t` and a `long` can both hold. -/
def timeBound : DataModel → Int
  | .ilp32 => 2147483648
  | .lp64 => 4294967296

/-- The fields of a timestamp arrive modulo `2^32`, and as they are if they are in the range that a
`uint32_t` and a `long` share. -/
structure Carried (dm : DataModel) (t t' : Timespec) : Prop where
  sec : t'.tvSec ≡ t.tvSec [ZMOD 4294967296]
  nsec : t'.tvNsec ≡ t.tvNsec [ZMOD 4294967296]
  exact : 0 ≤ t.tvSec ∧ t.tvSec < timeBound dm → 0 ≤ t.tvNsec ∧ t.tvNsec < timeBound dm → t' = t

theorem toLong_ofInt (dm : DataModel) (t : Int) :
    dm.toLong (.ofInt t) ≡ t [ZMOD 4294967296] ∧
      (0 ≤ t ∧ t < timeBound dm → dm.toLong (.ofInt t) = t) := by
  have hnat : ((UInt32.ofInt t).toNat : Int) = t % 4294967296 := by
    rw [UInt32.ofInt, UInt32.toNat_ofNat']
    omega
  cases dm with
  | lp64 =>
    rw [DataModel.toLong, hnat]
    exact ⟨Int.mod_modEq t _, fun h => Int.emod_eq_of_lt h.1 h.2⟩
  | ilp32 =>
    have hmod : (t % 4294967296).bmod 4294967296 = t.bmod 4294967296 := Int.emod_bmod t _
    rw [DataModel.toLong, hnat, wrap32, hmod]
    refine ⟨Int.bmod_emod, fun h => Int.bmod_eq_of_le (by omega) ?_⟩
    simp only [timeBound] at h
    omega

theorem carried_received (dm : DataModel) (t : Timespec) : Carried dm t (received dm t) where
  sec := (toLong_ofInt dm t.tvSec).1
  nsec := (toLong_ofInt dm t.tvNsec).1
  exact hs hn := by rw [received, (toLong_ofInt dm _).2 hs, (toLong_ofInt dm _).2 hn]

/-! ## The last record wins -/

section

variable {dm : DataModel} {linkState : LinkState} {m : Members} {p : Ptr}

theorem foldl_applyRecord_order (rs : List LinkStateRecord) :
    (rs.foldl (applyRecord dm linkState) m).order = m.order := by
  induction rs generalizing m with
  | nil => rfl
  | cons r rs ih => rw [List.foldl_cons, ih, applyRecord_order]

theorem foldl_applyRecord_ls (rs : List LinkStateRecord) :
    ((rs.foldl (applyRecord dm linkState) m).peer p).ls = (m.peer p).ls := by
  induction rs generalizing m with
  | nil => rfl
  | cons r rs ih => rw [List.foldl_cons, ih, applyRecord_ls]

theorem foldl_applyRecord_find (rs : List LinkStateRecord) (mac : MAC) :
    (rs.foldl (applyRecord dm linkState) m).find mac = m.find mac := by
  simp only [Members.find, Members.key, foldl_applyRecord_order, foldl_applyRecord_ls]

/-- A record about another proxy leaves a timestamp as it is. -/
theorem applyRecord_other {r : LinkStateRecord}
    (h : r.proxy1.tapMAC = m.key p → r.proxy1.tapMAC = linkState.tapMAC) :
    ((applyRecord dm linkState m r).peer p).timestamp = (m.peer p).timestamp := by
  unfold applyRecord
  split_ifs with hown
  · rfl
  · split
    · rfl
    · rename_i pp hpp
      have hne : p ≠ pp := fun heq => hown (h (heq ▸ (Members.mem_of_find hpp).2.symm))
      rw [Members.setTimestamp_timestamp, if_neg hne]

/-- A record about a member sets its timestamp. -/
theorem applyRecord_self {r : LinkStateRecord} (hown : r.proxy1.tapMAC ≠ linkState.tapMAC)
    (hp : m.find r.proxy1.tapMAC = some p) :
    ((applyRecord dm linkState m r).peer p).timestamp =
      ⟨dm.toLong (ntohl r.sec), dm.toLong (ntohl r.nsec)⟩ := by
  rw [applyRecord, if_neg hown, hp]
  simp [Members.setTimestamp_timestamp]

/-- Records about other proxies leave a timestamp as it is. -/
theorem foldl_applyRecord_other {rs : List LinkStateRecord} {mac : MAC} (hp : m.key p = mac)
    (h : ∀ r ∈ rs, r.proxy1.tapMAC = mac → r.proxy1.tapMAC = linkState.tapMAC) :
    ((rs.foldl (applyRecord dm linkState) m).peer p).timestamp = (m.peer p).timestamp := by
  induction rs generalizing m with
  | nil => rfl
  | cons r rs ih =>
    rw [List.foldl_cons, ih (by rw [Members.key, applyRecord_ls]; exact hp)
      fun r' hr' => h r' (by simp [hr']), applyRecord_other (by rw [hp]; exact h r (by simp))]

/-- **The records about a member decide its timestamp** when they agree, whatever it was before. -/
theorem foldl_applyRecord_self {rs : List LinkStateRecord} {mac : MAC} {t : Timespec}
    (hp : m.find mac = some p) (hown : mac ≠ linkState.tapMAC)
    (hall : ∀ r ∈ rs, r.proxy1.tapMAC = mac →
      (⟨dm.toLong (ntohl r.sec), dm.toLong (ntohl r.nsec)⟩ : Timespec) = t)
    (hex : (∃ r ∈ rs, r.proxy1.tapMAC = mac) ∨ (m.peer p).timestamp = t) :
    ((rs.foldl (applyRecord dm linkState) m).peer p).timestamp = t := by
  have hkey := (Members.mem_of_find hp).2
  induction rs generalizing m with
  | nil => simpa using hex
  | cons r rs ih =>
    rw [List.foldl_cons]
    refine ih (by rw [applyRecord_find]; exact hp) (fun r' hr' => hall r' (by simp [hr'])) ?_
      (by rw [Members.key, applyRecord_ls]; exact hkey)
    by_cases hr : r.proxy1.tapMAC = mac
    · right
      rw [applyRecord_self (by rw [hr]; exact hown) (by rw [hr]; exact hp)]
      exact hall r (by simp) hr
    · rcases hex with ⟨r', hr', hmac⟩ | hex
      · rcases List.mem_cons.1 hr' with rfl | hr'
        · exact absurd hmac hr
        · exact .inl ⟨r', hr', hmac⟩
      · right
        rw [applyRecord_other (by rw [hkey]; exact fun h => absurd h hr)]
        exact hex

end

/-! ## A broadcast between acquainted proxies -/

/-- The sender's members have distinct addresses, other than its own, the receiver is one of them,
at `r`, and the receiver has the sender and all the other ones in its own list `m₀`. -/
structure Acquainted (linkState : LinkState) (m : Members) (receiver : LinkState) (m₀ : Members)
    (r : Ptr) : Prop where
  keys : (m.order.map m.key).Nodup
  own : ∀ q ∈ m.order, m.key q ≠ linkState.tapMAC
  mem : r ∈ m.order
  key_eq : m.key r = receiver.tapMAC
  source : (m₀.find linkState.tapMAC).isSome
  others : ∀ q ∈ m.order, q ≠ r → (m₀.find (m.key q)).isSome

section

variable {dm : DataModel} {linkState receiver : LinkState} {timestamp : Timespec} {m m₀ : Members}
  {r : Ptr}

theorem Acquainted.source_ne (h : Acquainted linkState m receiver m₀ r) :
    linkState.tapMAC ≠ receiver.tapMAC := fun heq => h.own r h.mem (h.key_eq.trans heq.symm)

theorem Acquainted.neighbor_ne (h : Acquainted linkState m receiver m₀ r) {q : Ptr}
    (hq : q ∈ m.order) (hqr : q ≠ r) : m.key q ≠ receiver.tapMAC := fun heq =>
  hqr (List.inj_on_of_nodup_map h.keys hq h.mem (heq.trans h.key_eq.symm))

theorem mem_edges {e : Edge} (he : e ∈ edges linkState timestamp m) :
    (∃ q ∈ m.order, e = ⟨timestamp, linkState, (m.peer q).ls⟩) ∨
      ∃ q ∈ m.order, e = ⟨timestamp, (m.peer q).ls, linkState⟩ ∨
        ∃ q' ∈ m.order, q' ≠ q ∧ e = ⟨(m.peer q).timestamp, (m.peer q).ls, (m.peer q').ls⟩ := by
  simp only [edges, List.mem_append, List.mem_map, List.mem_flatMap, List.mem_cons,
    List.mem_filter, decide_eq_true_eq] at he
  rcases he with ⟨q, hq, rfl⟩ | ⟨q, hq, rfl | ⟨q', ⟨hq', hne⟩, rfl⟩⟩
  · exact .inl ⟨q, hq, rfl⟩
  · exact .inr ⟨q, hq, .inl rfl⟩
  · exact .inr ⟨q, hq, .inr ⟨q', hq', hne, rfl⟩⟩

theorem Acquainted.known (h : Acquainted linkState m receiver m₀ r) {e : Edge}
    (he : e ∈ edges linkState timestamp m) : Known receiver m₀ e.record := by
  have member (q : Ptr) (hq : q ∈ m.order) :
      m.key q = receiver.tapMAC ∨ (m₀.find (m.key q)).isSome := by
    by_cases hr : q = r
    · exact .inl (hr ▸ h.key_eq)
    · exact .inr (h.others q hq hr)
  rcases mem_edges he with ⟨q, hq, rfl⟩ | ⟨q, hq, rfl | ⟨q', hq', -, rfl⟩⟩
  · exact .inr h.source
  · exact member q hq
  · exact member q hq

theorem received_record (e : Edge) : (⟨dm.toLong (ntohl e.record.sec),
    dm.toLong (ntohl e.record.nsec)⟩ : Timespec) = received dm e.time := by
  simp [Edge.record, stamp, received]

/-- The records about the sender carry its time, and there is one. -/
theorem Acquainted.edges_source (timestamp : Timespec) (h : Acquainted linkState m receiver m₀ r) :
    (∀ e ∈ edges linkState timestamp m, e.proxy1.tapMAC = linkState.tapMAC → e.time = timestamp) ∧
      ∃ e ∈ edges linkState timestamp m, e.proxy1.tapMAC = linkState.tapMAC := by
  refine ⟨fun e he hmac => ?_, ⟨timestamp, linkState, (m.peer r).ls⟩, ?_, rfl⟩
  · rcases mem_edges he with ⟨q, hq, rfl⟩ | ⟨q, hq, rfl | ⟨q', hq', -, rfl⟩⟩
    · rfl
    · rfl
    · exact absurd hmac (h.own q hq)
  · simp only [edges, List.mem_append, List.mem_map]
    exact .inl ⟨r, h.mem, rfl⟩

/-- **The edges about a neighbour end with those that carry its timestamp**: the one to the receiver
is among them, and none that carries another time follows. -/
theorem Acquainted.edges_neighbor (timestamp : Timespec) (h : Acquainted linkState m receiver m₀ r)
    {q : Ptr}
    (hq : q ∈ m.order) (hqr : q ≠ r) :
    ∃ pre post, edges linkState timestamp m = pre ++ post ∧
      (∀ e ∈ post, e.proxy1.tapMAC = m.key q → e.time = (m.peer q).timestamp) ∧
      ∃ e ∈ post, e.proxy1.tapMAC = m.key q := by
  obtain ⟨before, after, horder⟩ := List.append_of_mem hq
  let block (pp : Ptr) : List Edge := (m.order.filter (· ≠ pp)).map fun tmp =>
    ⟨(m.peer pp).timestamp, (m.peer pp).ls, (m.peer tmp).ls⟩
  let row (pp : Ptr) : List Edge := ⟨timestamp, (m.peer pp).ls, linkState⟩ :: block pp
  refine ⟨m.order.map (fun pp => ⟨timestamp, linkState, (m.peer pp).ls⟩) ++ before.flatMap row ++
    [⟨timestamp, (m.peer q).ls, linkState⟩], block q ++ after.flatMap row, ?_, ?_, ?_⟩
  · have hrows : m.order.flatMap row = before.flatMap row ++ row q ++ after.flatMap row := by
      rw [horder]
      simp [List.flatMap_append]
    rw [edges, hrows]
    simp [row]
  · intro e he hmac
    rcases List.mem_append.1 he with he | he
    · obtain ⟨tmp, -, rfl⟩ := List.mem_map.1 he
      rfl
    · -- a later row belongs to another neighbour, whose address is another one
      obtain ⟨pp, hpp, he⟩ := List.mem_flatMap.1 he
      have hne : m.key pp ≠ m.key q := by
        have hnodup := h.keys
        rw [horder, List.map_append, List.map_cons, List.nodup_append, List.nodup_cons] at hnodup
        exact fun heq => hnodup.2.1.1 (heq ▸ List.mem_map_of_mem hpp)
      rcases List.mem_cons.1 he with rfl | he
      · exact absurd hmac hne
      · obtain ⟨tmp, -, rfl⟩ := List.mem_map.1 he
        exact absurd hmac hne
  · refine ⟨⟨(m.peer q).timestamp, (m.peer q).ls, (m.peer r).ls⟩, ?_, rfl⟩
    simp only [block, List.mem_append, List.mem_map, List.mem_filter, decide_eq_true_eq]
    exact .inl ⟨r, ⟨h.mem, hqr.symm⟩, rfl⟩

/-- The membership list of an acquainted receiver after the payload of a broadcast. -/
theorem Acquainted.receiveLinkState (h : Acquainted linkState m receiver m₀ r) (hfit : Fits dm m)
    {net : Network} {data : Buf} (hd : Holds data 0 (payload linkState timestamp dm m)) :
    receiveLinkState dm receiver net data (linkStateLength dm m) m₀ =
      some (0, ((edges linkState timestamp m).map Edge.record).foldl (applyRecord dm receiver) m₀) := by
  have hsource := (source_payload hd).2
  have hreceiver := h.source_ne
  obtain ⟨p, hp⟩ := Option.isSome_iff_exists.1 h.source
  have hloop := recordLoop_known net ((edges linkState timestamp m).map Edge.record)
    ⟨2 + linkStateSourceSize, m₀, []⟩ (records_payload hd) (by
      simp only [List.mem_map, forall_exists_index, and_imp, forall_apply_eq_imp_iff₂]
      exact fun e he => h.known he)
  have hrun := runRecords_payload hfit hd receiver net m₀
  have hsrc : receiveSource net linkState m₀ = some m₀ := by rw [receiveSource, hp]
  rw [Gossip.receiveLinkState, announced_payload hd, hfit.lengthOk, hsource, hsrc]
  simp only [Bool.not_true, Bool.false_eq_true, if_false, hreceiver, Option.bind_eq_bind,
    Option.bind_some, hrun, hloop, if_true, Option.pure_def]

/-- **The times of a broadcast arrive.** When an acquainted receiver runs `Link_State` on the
payload of a broadcast, it returns `0` and its members are the same as before; its timestamp for the
sender is the one the sender set in the broadcast, its timestamp for every other member of the
sender is the one the sender has stored, and every further member keeps its timestamp. -/
theorem receiveLinkState_timestamps (h : Acquainted linkState m receiver m₀ r) (hfit : Fits dm m)
    {mem : Buf} {c : Cursor} (hc : linkStateBuffer dm linkState timestamp m mem = some c)
    (net : Network) {data : Buf}
    (hd : Holds data 0 (slice c.mem 4 (ntohs (ldProxyHeader c.mem 0).length).toNat)) :
    ∃ m', receiveLinkState dm receiver net data (ntohs (ldProxyHeader c.mem 0).length) m₀ =
        some (0, m') ∧
      m'.order = m₀.order ∧ (∀ p, (m'.peer p).ls = (m₀.peer p).ls) ∧
      (∃ p, m₀.find linkState.tapMAC = some p ∧ Carried dm timestamp (m'.peer p).timestamp) ∧
      (∀ q ∈ m.order, q ≠ r → ∃ p, m₀.find (m.key q) = some p ∧
        Carried dm (m.peer q).timestamp (m'.peer p).timestamp) ∧
      ∀ p ∈ m₀.order, m₀.key p ≠ linkState.tapMAC →
        (∀ q ∈ m.order, q ≠ r → m₀.key p ≠ m.key q) →
        (m'.peer p).timestamp = (m₀.peer p).timestamp := by
  rw [linkStateBuffer_length hc, linkStateBuffer_payload hfit hc] at hd
  refine ⟨_, by rw [linkStateBuffer_length hc]; exact h.receiveLinkState hfit hd,
    foldl_applyRecord_order _, fun p => foldl_applyRecord_ls _, ?_, fun q hq hqr => ?_,
    fun p _ hsrc hothers => ?_⟩
  · -- the records about the sender
    obtain ⟨p, hp⟩ := Option.isSome_iff_exists.1 h.source
    obtain ⟨htime, e, he, hmac⟩ := h.edges_source timestamp
    refine ⟨p, hp, ?_⟩
    rw [foldl_applyRecord_self (t := received dm timestamp) hp (h.source_ne)
      (by simpa [received_record] using fun e he hmac => by rw [htime e he hmac])
      (.inl ⟨e.record, List.mem_map_of_mem he, hmac⟩)]
    exact carried_received dm timestamp
  · -- the records about a neighbour, of which only the last ones matter
    obtain ⟨p, hp⟩ := Option.isSome_iff_exists.1 (h.others q hq hqr)
    obtain ⟨pre, post, hsplit, htime, e, he, hmac⟩ := h.edges_neighbor timestamp hq hqr
    refine ⟨p, hp, ?_⟩
    rw [hsplit, List.map_append, List.foldl_append,
      foldl_applyRecord_self (t := received dm (m.peer q).timestamp)
      (by rw [foldl_applyRecord_find]; exact hp) (h.neighbor_ne hq hqr)
      (by simpa [received_record] using fun e he hmac => by rw [htime e he hmac])
      (.inl ⟨e.record, List.mem_map_of_mem he, hmac⟩)]
    exact carried_received dm _
  · -- what is left are records about the receiver
    refine foldl_applyRecord_other rfl fun r' hr' hmac => ?_
    obtain ⟨e, he, rfl⟩ := List.mem_map.1 hr'
    have neighbor (q : Ptr) (hq : q ∈ m.order) (hmac : m.key q = m₀.key p) :
        m.key q = receiver.tapMAC := by
      by_cases hqr : q = r
      · rw [hqr, h.key_eq]
      · exact absurd hmac.symm (hothers q hq hqr)
    rcases mem_edges he with ⟨q, hq, rfl⟩ | ⟨q, hq, rfl | ⟨q', -, -, rfl⟩⟩
    · exact absurd hmac.symm hsrc
    · exact neighbor q hq hmac
    · exact neighbor q hq hmac

/-- The sender has three members, of which the receiver is the second one; the receiver knows the
sender and the other two, and a fourth proxy. -/
theorem receiveLinkState_timestamps_three : ∃ (data : Buf) (length : UInt16) (m₀ m' : Members),
    receiveLinkState .ilp32 ⟨0, 0, .replicate 6 2, .replicate 6 0⟩
        ⟨fun _ _ _ => none, ⟨0, 0⟩⟩ data length m₀ = some (0, m') ∧
      m'.order = [0, 1, 3, 4] ∧ (m'.peer 0).timestamp = ⟨77, 5⟩ ∧ (m'.peer 1).timestamp = ⟨11, 1⟩ ∧
      (m'.peer 3).timestamp = ⟨13, 1⟩ ∧ (m'.peer 4).timestamp = (m₀.peer 4).timestamp := by
  let ls (i : ℕ) : LinkState := ⟨0, 0, .replicate 6 (.ofNat i), .replicate 6 0⟩
  let m : Members := ⟨[1, 2, 3], by decide, fun p => ⟨⟨10 + p, 1⟩, ls p⟩⟩
  let m₀ : Members := ⟨[0, 1, 3, 4], by decide, fun p => ⟨⟨0, 0⟩, ls p⟩⟩
  have hacq : Acquainted (ls 0) m (ls 2) m₀ 2 :=
    ⟨by decide, by decide, by decide, rfl, by decide, by decide⟩
  have hrun : ∃ c, linkStateBuffer .ilp32 (ls 0) ⟨77, 5⟩ m (fun _ => 0) = some c := ⟨_, rfl⟩
  obtain ⟨c, hc⟩ := hrun
  have hd : Holds (fun i => c.mem (4 + i)) 0
      (slice c.mem 4 (ntohs (ldProxyHeader c.mem 0).length).toNat) := by
    simp [Holds, slice]
  obtain ⟨m', hrecv, horder, -, ⟨p, hp, hcarried⟩, hothers, hrest⟩ :=
    receiveLinkState_timestamps hacq (by decide) hc ⟨fun _ _ _ => none, ⟨0, 0⟩⟩ hd
  obtain ⟨p₁, hp₁, hcarried₁⟩ := hothers 1 (by decide) (by decide)
  obtain ⟨p₃, hp₃, hcarried₃⟩ := hothers 3 (by decide) (by decide)
  obtain rfl : 0 = p := Option.some.inj ((show m₀.find (ls 0).tapMAC = some 0 by decide).symm.trans hp)
  obtain rfl : 1 = p₁ := Option.some.inj ((show m₀.find (m.key 1) = some 1 by decide).symm.trans hp₁)
  obtain rfl : 3 = p₃ := Option.some.inj ((show m₀.find (m.key 3) = some 3 by decide).symm.trans hp₃)
  exact ⟨_, _, m₀, m', hrecv, horder, hcarried.exact (by decide) (by decide),
    hcarried₁.exact (by decide) (by decide), hcarried₃.exact (by decide) (by decide),
    hrest 4 (by decide) (by decide) (by decide)⟩

end

end LinkProxy.Gossip
