import LinkProxy.Gossip.Reordering
import LinkProxy.Operations.Reentry

/-!
# `Link_State` among known proxies

A run of `Link_State` with the readers-writers lock itself, and not only the thread's place in it: a
third meaning of the programs of `Operations.Program`, for a thread that runs alone.

A packet of the wrong length and a packet of the local proxy leave everything as it is. If the
source and the proxies of the records are members or the local proxy, then nobody is dialled, the
records are applied one after the other, and the lock is given back (`linkState_effect`). The
records that name the local proxy are skipped, also if there is a member with its address.
-/

namespace LinkProxy.KnownProxies

open Bytes Wire Peers Gossip Lock

open Program (Command Stop)

/-! ## A run with the lock -/

/-- What a thread sees: the lock, the membership list, `linkState`, and the number of replies it has
had from the system. -/
structure Shared (ι : Type) where
  lock : RwLock ι
  members : Members
  linkState : LinkState
  replies : ℕ

section

variable {ι : Type} (reply : ℕ → (c : Command) → c.Reply) (i : ι)

/-- A function of the lock. A thread that runs alone waits forever. -/
def Shared.enter (s : Shared ι) : Option (RwLock ι) → Except Stop (Unit × Shared ι)
  | none => .error .reentry
  | some l => .ok ((), { s with lock := l })

/-- A reply of the system. -/
def Shared.answer (s : Shared ι) (c : Command) : Except Stop (c.Reply × Shared ι) :=
  .ok (reply s.replies c, { s with replies := s.replies + 1 })

/-- The membership list is another one. -/
def Shared.withMembers (s : Shared ι) (m : Members) : Shared ι := { s with members := m }

@[simp] theorem Shared.withMembers_members (s : Shared ι) (m : Members) :
    (s.withMembers m).members = m := rfl

@[simp] theorem Shared.withMembers_linkState (s : Shared ι) (m : Members) :
    (s.withMembers m).linkState = s.linkState := rfl

/-- The commands of a thread. A new object is not in the table. -/
def handle (c : Command) (s : Shared ι) : Except Stop (c.Reply × Shared ι) :=
  match c with
  | .readBegin => s.enter (s.lock.readBegin i)
  | .readEnd => s.enter (s.lock.readEnd i)
  | .writeBegin => s.enter (s.lock.writeBegin i)
  | .writeEnd => s.enter (s.lock.writeEnd i)
  | .table => .ok (s.members, s)
  | .insert p peer => .ok ((), { s with members :=
      if hp : p ∉ s.members.order then s.members.add p hp peer else s.members })
  | .delete p => .ok ((), { s with members := s.members.remove p })
  | .stamp p ts => .ok ((), { s with members := s.members.setTimestamp p ts })
  | .linkState => .ok (s.linkState, s)
  | .setAddress addr => .ok ((), { s with linkState := { s.linkState with ipAddr := addr } })
  | .clock => s.answer reply .clock
  | .dial addr port => s.answer reply (.dial addr port)
  | .dialName hostname port => s.answer reply (.dialName hostname port)
  | .accept => s.answer reply .accept
  | .receive p => s.answer reply (.receive p)
  | .readTap => s.answer reply .readTap
  | .writeTap => s.answer reply .writeTap
  | .write p => s.answer reply (.write p)

/-- `Link_State`, run by a thread. -/
def linkState (dm : DataModel) (p : Packet) (s : Shared ι) : Except Stop (Int × Shared ι) :=
  (Program.linkState dm p.data p.length).run (handle reply i) s

end

/-! ## The records of known proxies -/

section

open Prog

variable {ι : Type} {reply : ℕ → (c : Command) → c.Reply} {i : ι} {dm : DataModel} {d : Buf}
  {p : Packet} {s : Shared ι}

/-- A record of a known proxy is applied. -/
theorem receiveRecord_run {ptr : ℕ} (hk : Known s.linkState s.members (ldRecord dm d ptr)) :
    (Program.receiveRecord dm d ptr).run (handle reply i) s =
      .ok ((), s.withMembers (applyRecord dm s.linkState s.members (ldRecord dm d ptr))) := by
  unfold Program.receiveRecord applyRecord
  rw [run_bind_of_ok rfl]
  split_ifs with hlocal
  · rfl
  · obtain ⟨pp, hpp⟩ := Option.isSome_iff_exists.1 (hk.resolve_left hlocal)
    rw [run_bind_of_ok rfl]
    dsimp only
    rw [hpp]
    rfl

/-- **The loop applies the records in turn.** -/
theorem recordLoop_run {n ptr : ℕ}
    (hk : ∀ r ∈ recordsFrom dm d ptr n, Known s.linkState s.members r) :
    (Program.recordLoop dm d n ptr).run (handle reply i) s =
      .ok ((), s.withMembers
        ((recordsFrom dm d ptr n).foldl (applyRecord dm s.linkState) s.members)) := by
  induction n generalizing s ptr with
  | zero => rfl
  | succ n ih =>
    rw [recordsFrom_succ, List.forall_mem_cons] at hk
    rw [Program.recordLoop, run_bind_of_ok (receiveRecord_run hk.1), recordsFrom_succ,
      List.foldl_cons]
    refine ih (s := s.withMembers _) fun r hr => ?_
    rw [Known, Shared.withMembers_members, applyRecord_find]
    exact hk.2 r hr

/-- A packet of the wrong length changes nothing. -/
theorem linkState_run_rejected (hlen : lengthOk dm (announced p.data) p.length = false) :
    linkState reply i dm p s = .ok (-1, s) := by
  simp only [linkState, Program.linkState, hlen, Bool.not_false, if_true]
  rfl

/-- A packet of the local proxy changes nothing. -/
theorem linkState_run_own (hlen : lengthOk dm (announced p.data) p.length = true)
    (hlocal : (ldLinkState p.data 2).tapMAC = s.linkState.tapMAC) :
    linkState reply i dm p s = .ok (0, s) := by
  simp only [linkState, Program.linkState, hlen, Bool.not_true, Bool.false_eq_true, if_false]
  rw [run_bind_of_ok rfl, if_pos hlocal]
  rfl

/-- **A packet about known proxies** is applied, and the lock is given back. -/
theorem linkState_run_known {l : RwLock ι} (hlen : lengthOk dm (announced p.data) p.length = true)
    (hlocal : (ldLinkState p.data 2).tapMAC ≠ s.linkState.tapMAC)
    (hsource : (s.members.find (ldLinkState p.data 2).tapMAC).isSome)
    (hk : ∀ r ∈ p.records dm, Known s.linkState s.members r)
    (hl : s.lock.writeBegin i = some l) :
    linkState reply i dm p s =
      .ok (0, s.withMembers
        ((p.records dm).foldl (applyRecord dm s.linkState) s.members)) := by
  obtain ⟨pp, hpp⟩ := Option.isSome_iff_exists.1 hsource
  have hbegin : Program.writeBegin.run (handle reply i) s = .ok ((), { s with lock := l }) := by
    have hhandle : handle reply i .writeBegin s = .ok ((), { s with lock := l }) := by
      rw [handle, hl]
      rfl
    exact run_call_of_ok hhandle
  have hreceive : (Program.receiveSource (ldLinkState p.data 2)).run (handle reply i)
      { s with lock := l } = .ok ((), { s with lock := l }) := by
    rw [Program.receiveSource, run_bind_of_ok rfl]
    dsimp only
    rw [hpp]
    rfl
  have hend (m : Members) : handle reply i .writeEnd (Shared.withMembers { s with lock := l } m) =
      .ok ((), s.withMembers m) := by
    have hrelease := congrArg (Shared.withMembers { s with lock := l } m).enter
      (RwLock.writeEnd_writeBegin hl)
    exact hrelease
  simp only [linkState, Program.linkState, hlen, Bool.not_true, Bool.false_eq_true, if_false]
  rw [run_bind_of_ok rfl, if_neg hlocal, run_bind_of_ok hbegin, run_bind_of_ok hreceive,
    run_bind_of_ok (recordLoop_run (s := { s with lock := l }) hk)]
  exact run_call_of_ok (hend _)

end

/-! ## Effect and frame -/

/-- What records do to the members: the members and their addresses are the same, and a member that
is named has the time of the last record that names it. -/
structure Updated (dm : DataModel) (rs : List LinkStateRecord) (m m' : Members) : Prop where
  order : m'.order = m.order
  ls : ∀ p, (m'.peer p).ls = (m.peer p).ls
  timestamp : ∀ p ∈ m.order,
    (m'.peer p).timestamp = (timesOf dm (m.key p) rs).getLastD (m.peer p).timestamp

/-- The records that do not name the local proxy. -/
def others (linkState : LinkState) (rs : List LinkStateRecord) : List LinkStateRecord :=
  rs.filter fun r => r.proxy1.tapMAC ≠ linkState.tapMAC

section

variable {dm : DataModel} {linkState : LinkState} {m : Members} {p : Ptr}

theorem find_key_of_nodup (hkeys : (m.order.map m.key).Nodup) (hp : p ∈ m.order) :
    m.find (m.key p) = some p := by
  obtain ⟨q, hq⟩ := Option.isSome_iff_exists.1 (Members.find_isSome.2 ⟨p, hp, rfl⟩)
  obtain ⟨hmem, hkey⟩ := Members.mem_of_find hq
  rw [hq, List.inj_on_of_nodup_map hkeys hmem hp hkey]

/-- The times of the other records: those of the local proxy are left out. -/
theorem timesOf_others (mac : MAC) (rs : List LinkStateRecord) :
    timesOf dm mac (others linkState rs) =
      if mac = linkState.tapMAC then [] else timesOf dm mac rs := by
  rw [timesOf, others, List.filter_filter]
  split_ifs with hmac
  · have hnone : rs.filter (fun r => decide (r.proxy1.tapMAC = mac) &&
        decide (r.proxy1.tapMAC ≠ linkState.tapMAC)) = [] := by
      simp [hmac]
    rw [hnone, List.map_nil]
  · rw [timesOf]
    congr 1
    refine List.filter_congr fun r _ => ?_
    by_cases hr : r.proxy1.tapMAC = mac <;> simp [hr, hmac]

/-- **Applied records update the members** by those that do not name the local proxy. -/
theorem updated_foldl (hkeys : (m.order.map m.key).Nodup) (rs : List LinkStateRecord) :
    Updated dm (others linkState rs) m (rs.foldl (applyRecord dm linkState) m) where
  order := foldl_applyRecord_order rs
  ls _ := foldl_applyRecord_ls rs
  timestamp p hp := by
    rw [timesOf_others]
    split_ifs with hmac
    · exact foldl_applyRecord_other rfl fun r _ hr => hr.trans hmac
    · exact foldl_applyRecord_last (find_key_of_nodup hkeys hp) hmac rs

end

/-- **Effect and frame of `Link_State`.** A packet of the wrong length has the result `-1` and one
of the local proxy the result `0`, and both change nothing. A packet from a member whose records are
about members and the local proxy has the result `0`: the members are the same, the records that do
not name the local proxy set the times of those that they name, nothing else is changed, and the
lock is as before. -/
theorem linkState_effect {ι : Type} (reply : ℕ → (c : Command) → c.Reply) (i : ι) (dm : DataModel)
    (p : Packet) (s : Shared ι) (hkeys : (s.members.order.map s.members.key).Nodup) :
    (lengthOk dm (announced p.data) p.length = false → linkState reply i dm p s = .ok (-1, s)) ∧
    (lengthOk dm (announced p.data) p.length = true →
      (ldLinkState p.data 2).tapMAC = s.linkState.tapMAC → linkState reply i dm p s = .ok (0, s)) ∧
    (lengthOk dm (announced p.data) p.length = true →
      (ldLinkState p.data 2).tapMAC ≠ s.linkState.tapMAC →
      (s.members.find (ldLinkState p.data 2).tapMAC).isSome →
      (∀ r ∈ p.records dm, Known s.linkState s.members r) →
      ∀ l, s.lock.writeBegin i = some l →
        ∃ m', linkState reply i dm p s = .ok (0, s.withMembers m') ∧
          Updated dm (others s.linkState (p.records dm)) s.members m') := by
  refine ⟨linkState_run_rejected, linkState_run_own, ?_⟩
  intro hlen hlocal hsource hk l hl
  exact ⟨_, linkState_run_known hlen hlocal hsource hk hl, updated_foldl hkeys _⟩

/-! ## A member with the local address -/

/-- Another proxy, and a member with the address of the receiver. -/
def selfMember : Members where
  order := List.range 2
  nodup := List.nodup_range
  peer p := ⟨⟨0, 0⟩, if p = 0 then onlyPeer else receiver⟩

/-- A packet of the other proxy: a record about itself and one about the receiver. -/
def selfPacket : Packet where
  data := bufOf (le 2 (htons 1).toNat ++ onlyPeer.bytes ++ le 2 (htons 1).toNat ++
    (Edge.record ⟨⟨7, 0⟩, onlyPeer, receiver⟩).bytes .lp64 ++
    (Edge.record ⟨⟨7, 0⟩, receiver, onlyPeer⟩).bytes .lp64) fun _ => 0
  length := 134

/-- The only thread, and the lock is free. -/
def selfShared : Shared Unit := ⟨.free Unit, selfMember, receiver, 0⟩

/-- A system in which nobody is dialled. -/
def noReply : ℕ → (c : Command) → c.Reply :=
  (Program.World.quiet ⟨-1, true, true, true, none, 0, fun _ => none⟩).reply

theorem selfPacket_known : lengthOk .lp64 (announced selfPacket.data) selfPacket.length = true ∧
    (ldLinkState selfPacket.data 2).tapMAC ≠ selfShared.linkState.tapMAC ∧
    (selfShared.members.find (ldLinkState selfPacket.data 2).tapMAC).isSome ∧
    ∀ r ∈ selfPacket.records .lp64, Known selfShared.linkState selfShared.members r :=
  ⟨by decide +kernel, by decide +kernel, by decide +kernel, by decide +kernel⟩

theorem selfMember_keys : (selfMember.order.map selfMember.key).Nodup := by decide

/-- The other proxy gets the time of its record. -/
theorem linkState_effect_self : ∃ m',
    linkState noReply () .lp64 selfPacket selfShared = .ok (0, selfShared.withMembers m') ∧
      (m'.peer 0).timestamp = ⟨7, 0⟩ := by
  obtain ⟨hlen, hlocal, hsource, hk⟩ := selfPacket_known
  obtain ⟨-, -, heffect⟩ :=
    linkState_effect noReply () .lp64 selfPacket selfShared selfMember_keys
  obtain ⟨m', hrun, hupdated⟩ := heffect hlen hlocal hsource hk _ rfl
  refine ⟨m', hrun, ?_⟩
  rw [hupdated.timestamp 0 (by decide)]
  decide +kernel

/-- **The receiver's own address.** A member with the local address keeps its time, although the
last record names it. -/
theorem own_record_skipped : (selfShared.members.order.map selfShared.members.key).Nodup ∧
    lengthOk .lp64 (announced selfPacket.data) selfPacket.length = true ∧
    (ldLinkState selfPacket.data 2).tapMAC ≠ selfShared.linkState.tapMAC ∧
    (selfShared.members.find (ldLinkState selfPacket.data 2).tapMAC).isSome ∧
    (∀ r ∈ selfPacket.records .lp64, Known selfShared.linkState selfShared.members r) ∧
    ¬∃ m', linkState noReply () .lp64 selfPacket selfShared = .ok (0, selfShared.withMembers m') ∧
      Updated .lp64 (selfPacket.records .lp64) selfShared.members m' := by
  obtain ⟨hlen, hlocal, hsource, hk⟩ := selfPacket_known
  refine ⟨selfMember_keys, hlen, hlocal, hsource, hk, ?_⟩
  rintro ⟨m', hrun, hupdated⟩
  have happlied := @linkState_run_known Unit noReply () .lp64 selfPacket selfShared _ hlen hlocal
    hsource hk rfl
  have hm' := congrArg Shared.members (Prod.mk.inj (Except.ok.inj (hrun.symm.trans happlied))).2
  rw [Shared.withMembers_members, Shared.withMembers_members] at hm'
  have hkey : selfShared.members.key 1 = selfShared.linkState.tapMAC := rfl
  have hkept : (m'.peer 1).timestamp = (selfShared.members.peer 1).timestamp := by
    rw [hm']
    exact foldl_applyRecord_other hkey fun r _ hr => hr
  have htime := hupdated.timestamp 1 (by decide)
  rw [hkept] at htime
  revert htime
  decide +kernel

end LinkProxy.KnownProxies
