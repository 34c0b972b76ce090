import LinkProxy.Gossip.Broadcast

/-!
# Receiving link-state packets

`Link_State` checks the length of a payload against the number of neighbours it announces, drops
packets of its own, looks up the source and then goes through the records: those about itself are
skipped, a proxy that is a member gets the time of the record, and one that is not is dialled. The
dialling is a parameter (`Network`); everything else is as in the source, down to the pointer that
is advanced by the size of a record and the counter of 16 bits.

`Loop.visited` is a history of the records the loop has looked at: it is a part of the model only
for the sake of `recordLoop_visited`, which says that on a payload made of records the loop visits
these, in order, and ends behind the last one.
-/

namespace LinkProxy.Gossip

open Bytes Wire Peers

/-- What `Link_State` calls: `connectbyaddr`, which may add a member and may return `NULL` or not
at all, and the clock. -/
structure Network where
  connectbyaddr : UInt32 → UInt16 → Members → Option (Option Ptr × Members)
  now : Timespec

/-- `connectbyaddr` returns `NULL`, or does not return: so it is inside the section of `Link_State`,
where a join exchange would wait for the lock. -/
def Network.DialsNobody (net : Network) : Prop :=
  ∀ addr port m, (net.connectbyaddr addr port m).bind Prod.fst = none

/-- The length check: `N*N+N` is an `int`, which is converted to `size_t` for the product with the
size of a record. -/
def lengthOk (dm : DataModel) (N length : UInt16) : Bool :=
  dm.toSize (2 * 2 + linkStateSize + wrap32 (N.toNat * N.toNat + N.toNat) * recordSize dm) ==
    length.toNat

/-- Where the loop over the records stands, and the records it has visited. -/
structure Loop where
  ptr : ℕ
  members : Members
  visited : List LinkStateRecord

section

variable (dm : DataModel) (linkState : LinkState) (net : Network) (data : Buf)

/-- The body of the loop over the records. Dialling an unknown proxy takes the address from the
front of the record; a `NULL` from it is passed on to `clock_gettime`, which does not return. -/
def receiveRecord (ptr : ℕ) (m : Members) : Option Members :=
  let r := ldRecord dm data ptr
  if r.proxy1.tapMAC = linkState.tapMAC then some m
  else match m.find r.proxy1.tapMAC with
    | none => do
      let ls := ldLinkState data ptr
      let (pp, m) ← net.connectbyaddr ls.ipAddr (ntohs ls.listenPort) m
      let pp ← pp
      return m.setTimestamp pp net.now
    | some pp =>
      some (m.setTimestamp pp ⟨dm.toLong (ntohl r.sec), dm.toLong (ntohl r.nsec)⟩)

/-- The loop over the records, and whether it came to its end. -/
def recordLoop : ℕ → Loop → Loop × Bool
  | 0, l => (l, true)
  | n + 1, l =>
    let visited := l.visited ++ [ldRecord dm data l.ptr]
    match receiveRecord dm linkState net data l.ptr l.members with
    | none => ({ l with visited := visited }, false)
    | some m => recordLoop n ⟨l.ptr + recordSize dm, m, visited⟩

/-- The number of neighbours that a payload announces. -/
def announced : UInt16 := ntohs (ld16 data 0)

/-- The loop as `Link_State` starts it, behind the source, with `N=N*N+N` in 16 bits. -/
def runRecords (m : Members) : Loop × Bool :=
  let N := announced data
  recordLoop dm linkState net data (N * N + N).toNat ⟨2 + linkStateSourceSize, m, []⟩

/-- The lookup of the source, which is dialled if it is not a member; its result is not used. -/
def receiveSource (source : LinkState) (m : Members) : Option Members :=
  match m.find source.tapMAC with
  | none => (net.connectbyaddr source.ipAddr (ntohs source.listenPort) m).map Prod.snd
  | some _ => some m

/-- `Link_State`, with its result and the membership list after it. -/
def receiveLinkState (length : UInt16) (m : Members) : Option (Int × Members) :=
  if !lengthOk dm (announced data) length then some (-1, m)
  else if (ldLinkState data 2).tapMAC = linkState.tapMAC then some (0, m)
  else do
    let m ← receiveSource net (ldLinkState data 2) m
    let (l, completed) := runRecords dm linkState net data m
    if completed then return (0, l.members) else none

end

/-! ## The records in a buffer -/

section

variable (dm : DataModel)

/-- `n` records from an offset on. -/
def recordsFrom (data : Buf) (ptr n : ℕ) : List LinkStateRecord :=
  (List.range n).map fun k => ldRecord dm data (ptr + k * recordSize dm)

theorem recordsFrom_succ (data : Buf) (ptr n : ℕ) : recordsFrom dm data ptr (n + 1) =
    ldRecord dm data ptr :: recordsFrom dm data (ptr + recordSize dm) n := by
  rw [recordsFrom, List.range_succ_eq_map, List.map_cons, Nat.zero_mul, Nat.add_zero, recordsFrom,
    List.map_map]
  congr 2
  funext k
  rw [Function.comp_apply, Nat.succ_eq_add_one, Nat.add_mul, Nat.one_mul, Nat.add_comm (k * _),
    Nat.add_assoc]

variable {dm}

/-- Records that lie one after the other are read back. -/
theorem recordsFrom_of_holds {data : Buf} {ptr : ℕ} (rs : List LinkStateRecord)
    (h : Holds data ptr (rs.flatMap fun r => r.bytes dm)) :
    recordsFrom dm data ptr rs.length = rs := by
  induction rs generalizing ptr with
  | nil => rfl
  | cons r rs ih =>
    obtain ⟨hr, hrs⟩ := holds_append.1 h
    rw [LinkStateRecord.length_bytes] at hrs
    rw [List.length_cons, recordsFrom_succ, ldRecord_of_holds hr, ih hrs]

end

/-! ## The records visited -/

section

variable (dm : DataModel) (linkState : LinkState) {net : Network} {data : Buf}

/-- **On a payload made of records the loop visits them in order**, all of them if it comes to its
end, and then stands behind the last one. -/
theorem recordLoop_visited (net : Network) (rs : List LinkStateRecord) (l : Loop)
    (hd : Holds data l.ptr (rs.flatMap fun r => r.bytes dm)) :
    (recordLoop dm linkState net data rs.length l).1.visited <+: l.visited ++ rs ∧
      ((recordLoop dm linkState net data rs.length l).2 = true →
        (recordLoop dm linkState net data rs.length l).1.visited = l.visited ++ rs ∧
        (recordLoop dm linkState net data rs.length l).1.ptr =
          l.ptr + rs.length * recordSize dm) := by
  induction rs generalizing l with
  | nil => simp [recordLoop]
  | cons r rs ih =>
    obtain ⟨hr, hrs⟩ := holds_append.1 hd
    rw [LinkStateRecord.length_bytes] at hrs
    rw [List.length_cons, recordLoop]
    simp only [ldRecord_of_holds hr]
    cases hm : receiveRecord dm linkState net data l.ptr l.members with
    | none => simp
    | some m =>
      have h := ih ⟨l.ptr + recordSize dm, m, l.visited ++ [r]⟩ hrs
      simp only [List.append_assoc, List.singleton_append] at h
      refine ⟨h.1, fun hc => ⟨(h.2 hc).1, ?_⟩⟩
      rw [(h.2 hc).2]
      ring

end

/-! ## Records about members -/

section

variable (dm : DataModel) (linkState : LinkState)

/-- What a record does to a membership list that knows its first proxy. -/
def applyRecord (m : Members) (r : LinkStateRecord) : Members :=
  if r.proxy1.tapMAC = linkState.tapMAC then m
  else match m.find r.proxy1.tapMAC with
    | none => m
    | some pp => m.setTimestamp pp ⟨dm.toLong (ntohl r.sec), dm.toLong (ntohl r.nsec)⟩

/-- The first proxy of a record is the receiver or one of its members. -/
def Known (m : Members) (r : LinkStateRecord) : Prop :=
  r.proxy1.tapMAC = linkState.tapMAC ∨ (m.find r.proxy1.tapMAC).isSome

variable (m : Members) (r : LinkStateRecord)

theorem applyRecord_order : (applyRecord dm linkState m r).order = m.order := by
  unfold applyRecord
  split_ifs
  · rfl
  · split <;> simp

theorem applyRecord_ls (p : Ptr) : ((applyRecord dm linkState m r).peer p).ls = (m.peer p).ls := by
  unfold applyRecord
  split_ifs
  · rfl
  · split <;> simp

theorem applyRecord_find (mac : MAC) : (applyRecord dm linkState m r).find mac = m.find mac := by
  simp only [Members.find, Members.key, applyRecord_order, applyRecord_ls]

variable {dm linkState} {net : Network}

theorem receiveRecord_loaded {data : Buf} {ptr : ℕ} {m : Members}
    (hk : Known linkState m (ldRecord dm data ptr)) :
    receiveRecord dm linkState net data ptr m =
      some (applyRecord dm linkState m (ldRecord dm data ptr)) := by
  rw [receiveRecord, applyRecord]
  dsimp only
  split_ifs with h
  · rfl
  · obtain ⟨pp, hpp⟩ := Option.isSome_iff_exists.1 (hk.resolve_left h)
    rw [hpp]

/-- Where nobody is dialled, an unknown proxy ends the run. -/
theorem receiveRecord_eq_none (hnet : net.DialsNobody) {data : Buf} {ptr : ℕ} {m : Members}
    (hk : ¬ Known linkState m (ldRecord dm data ptr)) :
    receiveRecord dm linkState net data ptr m = none := by
  obtain ⟨hlocal, hnone⟩ := not_or.1 hk
  rw [Option.not_isSome_iff_eq_none] at hnone
  rw [receiveRecord]
  dsimp only
  rw [if_neg hlocal, hnone]
  have hdial := hnet (ldLinkState data ptr).ipAddr (ntohs (ldLinkState data ptr).listenPort) m
  cases hcall : net.connectbyaddr (ldLinkState data ptr).ipAddr
    (ntohs (ldLinkState data ptr).listenPort) m with
  | none => rfl
  | some q =>
    obtain ⟨pp, m'⟩ := q
    rw [hcall, Option.bind_some] at hdial
    obtain rfl : pp = none := hdial
    rfl

/-- On known proxies the loop comes to its end, having applied the records in turn. -/
theorem recordLoop_loaded (net : Network) {data : Buf} (n : ℕ) (l : Loop)
    (hk : ∀ r ∈ recordsFrom dm data l.ptr n, Known linkState l.members r) :
    (recordLoop dm linkState net data n l).2 = true ∧
      (recordLoop dm linkState net data n l).1.members =
        (recordsFrom dm data l.ptr n).foldl (applyRecord dm linkState) l.members := by
  induction n generalizing l with
  | zero => exact ⟨rfl, rfl⟩
  | succ n ih =>
    rw [recordsFrom_succ, List.forall_mem_cons] at hk
    rw [recordLoop, receiveRecord_loaded hk.1, recordsFrom_succ]
    refine ih ⟨l.ptr + recordSize dm, _, _⟩ fun r hr => ?_
    rw [Known, applyRecord_find]
    exact hk.2 r hr

/-- The same for records that have been written one after the other. -/
theorem recordLoop_known (net : Network) {data : Buf} (rs : List LinkStateRecord) (l : Loop)
    (hd : Holds data l.ptr (rs.flatMap fun r => r.bytes dm))
    (hk : ∀ r ∈ rs, Known linkState l.members r) :
    (recordLoop dm linkState net data rs.length l).2 = true ∧
      (recordLoop dm linkState net data rs.length l).1.members =
        rs.foldl (applyRecord dm linkState) l.members := by
  have hloop := @recordLoop_loaded dm linkState net data rs.length l
  rw [recordsFrom_of_holds rs hd] at hloop
  exact hloop hk

/-- **Where nobody is dialled, the loop comes to its end exactly if it knows every proxy.** -/
theorem recordLoop_completes_iff (hnet : net.DialsNobody) {data : Buf} (rs : List LinkStateRecord)
    (l : Loop) (hd : Holds data l.ptr (rs.flatMap fun r => r.bytes dm)) :
    (recordLoop dm linkState net data rs.length l).2 = true ↔
      ∀ r ∈ rs, Known linkState l.members r := by
  refine ⟨fun hend => ?_, fun hk => (recordLoop_known net rs l hd hk).1⟩
  induction rs generalizing l with
  | nil => exact fun r hr => absurd hr List.not_mem_nil
  | cons r rs ih =>
    obtain ⟨hr, hrs⟩ := holds_append.1 hd
    rw [LinkStateRecord.length_bytes] at hrs
    rw [List.length_cons, recordLoop] at hend
    by_cases hk : Known linkState l.members (ldRecord dm data l.ptr)
    · rw [receiveRecord_loaded hk] at hend
      refine List.forall_mem_cons.2 ⟨ldRecord_of_holds hr ▸ hk, fun r' hr' => ?_⟩
      have hrest := ih ⟨l.ptr + recordSize dm, _, _⟩ hrs hend r' hr'
      rwa [Known, applyRecord_find] at hrest
    · rw [receiveRecord_eq_none hnet hk] at hend
      exact absurd hend Bool.false_ne_true

end

end LinkProxy.Gossip
