import LinkProxy.Operations.Reentry

/-!
# Discovery

`Link_State` is to make members of the proxies that it reads of: it dials the source and the first
proxy of every record if they are not in the table. Here its lock never blocks, nobody else touches
the table, and everything outside goes well: every `socket` returns a new descriptor, every
`connect` succeeds and every proxy answers (`Cooperative`).

The test of `socket` in `connectbyaddr` is not a comparison with zero, as it is in `connectbyname`,
but an assignment in a condition, so every new descriptor is taken for an error. An unknown source
is then left out, and an unknown proxy of a record is a `NULL` that is used. `discovers_iff` says
that discovery completes only if there is nothing to discover.
-/

namespace LinkProxy.Program

open Bytes Wire Peers Gossip

/-- The commands of a thread that never waits for the lock. -/
def unblocked (w : World) (c : Command) (t : Thread) : Except Stop (c.Reply × Thread) :=
  handle w c { t with inside := false }

/-- The offset of a record in a link-state payload. -/
def recordAt (dm : DataModel) (k : ℕ) : ℕ := 2 + linkStateSourceSize + k * recordSize dm

/-- The number of records that `Link_State` visits. -/
def recordCount (d : Buf) : ℕ := (announced d * announced d + announced d).toNat

/-- The proxies that a link-state packet advertises: its source and the first proxy of every record.
-/
def advertised (dm : DataModel) (d : Buf) : List LinkState :=
  ldLinkState d 2 :: (List.range (recordCount d)).map fun k => (ldRecord dm d (recordAt dm k)).proxy1

/-- The surroundings of a discovery: new descriptors, connections that are established, advertised
proxies that answer the join with the hardware address that was advertised, and a table that no one
else changes. -/
structure Cooperative (w : World) (proxies : List LinkState) : Prop where
  socket : ∀ k addr port, 3 ≤ (w.dial k addr port).socket
  connect : ∀ k addr port, (w.dial k addr port).connect = true
  answers : ∀ ls ∈ proxies, ∀ k packet, ∃ ls', ls'.tapMAC = ls.tapMAC ∧
    (w.dial k ls.ipAddr (ntohs ls.listenPort)).exchange packet = some ls'
  alone : w.others = id

/-- Discovery completes: `Link_State` returns `0` and uses no `NULL`; afterwards the table contains
all members that it had, the source of the packet, and every first proxy of a record but the local
one. -/
def Discovers (w : World) (dm : DataModel) (d : Buf) (length : UInt16) (m : Members)
    (ls : LinkState) : Prop :=
  ∃ t, (linkState dm d length).run (unblocked w) (start m ls) = .ok (0, t) ∧
    (∀ p ∈ m.order, p ∈ t.members.order) ∧
    ∀ proxy ∈ advertised dm d, proxy.tapMAC ≠ ls.tapMAC → (t.members.find proxy.tapMAC).isSome

/-- Every advertised proxy is the local one or a member already. -/
def NothingToDiscover (dm : DataModel) (d : Buf) (m : Members) (ls : LinkState) : Prop :=
  ∀ proxy ∈ advertised dm d, proxy.tapMAC ≠ ls.tapMAC → (m.find proxy.tapMAC).isSome

section

variable {w : World} {dm : DataModel} {d : Buf} {t : Thread} {proxies : List LinkState}

open Prog

/-- **Every new descriptor is taken for an error.** -/
theorem connectbyaddr_null (hw : Cooperative w proxies) (addr : UInt32) (port : UInt16) :
    (connectbyaddr addr port).run (unblocked w) t =
      .ok (none, { t with inside := false, replies := t.replies + 1 }) := by
  have hdial : (dial addr port).run (unblocked w) t = .ok (w.dial t.replies addr port,
      { t with inside := false, replies := t.replies + 1 }) := rfl
  have hsocket := hw.socket t.replies addr port
  unfold connectbyaddr
  rw [run_bind_of_ok hdial, if_pos (by omega)]
  rfl

/-- The lookup of the source leaves the table as it is. -/
theorem receiveSource_unblocked (hw : Cooperative w proxies) (source : LinkState) :
    ∃ t', (receiveSource source).run (unblocked w) t = .ok ((), t') ∧ t'.members = t.members ∧
      t'.linkState = t.linkState := by
  have htable : table.run (unblocked w) t = .ok (t.members, { t with inside := false }) := rfl
  unfold receiveSource
  rw [run_bind_of_ok htable]
  cases t.members.find source.tapMAC with
  | none =>
    dsimp only
    rw [run_bind_of_ok (connectbyaddr_null hw _ _)]
    exact ⟨_, rfl, rfl, rfl⟩
  | some pp => exact ⟨_, rfl, rfl, rfl⟩

/-- An unknown proxy of a record is a `NULL` that is used. -/
theorem receiveRecord_fault (hw : Cooperative w proxies) {ptr : ℕ}
    (hunknown : Unknown dm d t.members t.linkState ptr) :
    (receiveRecord dm d ptr).run (unblocked w) t = .error .fault := by
  obtain ⟨hlocal, hnone⟩ := hunknown
  have hget : getLinkState.run (unblocked w) t = .ok (t.linkState, { t with inside := false }) := rfl
  have htable : table.run (unblocked w) { t with inside := false } =
      .ok (t.members, { t with inside := false }) := rfl
  unfold receiveRecord
  rw [run_bind_of_ok hget, if_neg hlocal, run_bind_of_ok htable]
  dsimp only
  rw [hnone]
  dsimp only
  rw [run_bind_of_ok (connectbyaddr_null hw _ _)]
  rfl

/-- A known proxy gets a timestamp at most. -/
theorem receiveRecord_unblocked {ptr : ℕ} (hknown : ¬Unknown dm d t.members t.linkState ptr) :
    ∃ t', (receiveRecord dm d ptr).run (unblocked w) t = .ok ((), t') ∧
      t'.members.find = t.members.find ∧ t'.members.order = t.members.order ∧
      t'.linkState = t.linkState := by
  have hget : getLinkState.run (unblocked w) t = .ok (t.linkState, { t with inside := false }) := rfl
  have htable : table.run (unblocked w) { t with inside := false } =
      .ok (t.members, { t with inside := false }) := rfl
  unfold receiveRecord
  rw [run_bind_of_ok hget]
  by_cases hlocal : (ldRecord dm d ptr).proxy1.tapMAC = t.linkState.tapMAC
  · rw [if_pos hlocal]
    exact ⟨_, rfl, rfl, rfl, rfl⟩
  · obtain ⟨pp, hpp⟩ := Option.ne_none_iff_exists'.1 fun hnone => hknown ⟨hlocal, hnone⟩
    rw [if_neg hlocal, run_bind_of_ok htable]
    dsimp only
    rw [hpp]
    refine ⟨_, rfl, ?_, rfl, rfl⟩
    funext mac
    exact Members.setTimestamp_find ..

/-- **The loop comes to its end if every proxy is known, and faults if not.** -/
theorem recordLoop_unblocked (hw : Cooperative w proxies) (n ptr : ℕ) :
    ((∀ k < n, ¬Unknown dm d t.members t.linkState (ptr + k * recordSize dm)) →
      ∃ t', (recordLoop dm d n ptr).run (unblocked w) t = .ok ((), t') ∧
        t'.members.find = t.members.find ∧ t'.members.order = t.members.order) ∧
    ((∃ k < n, Unknown dm d t.members t.linkState (ptr + k * recordSize dm)) →
      (recordLoop dm d n ptr).run (unblocked w) t = .error .fault) := by
  induction n generalizing t ptr with
  | zero =>
    refine ⟨fun _ => ⟨t, rfl, rfl, rfl⟩, ?_⟩
    rintro ⟨k, hk, -⟩
    exact absurd hk (Nat.not_lt_zero k)
  | succ n ih =>
    unfold recordLoop
    by_cases hfirst : Unknown dm d t.members t.linkState ptr
    · refine ⟨fun hall => absurd hfirst ?_, fun _ => ?_⟩
      · simpa using hall 0 (Nat.zero_lt_succ n)
      · exact run_bind_of_error (receiveRecord_fault hw hfirst)
    · obtain ⟨t', hrun, hfind, horder, hls⟩ := receiveRecord_unblocked (w := w) hfirst
      rw [run_bind_of_ok hrun]
      -- the record behind the first one, as the rest of the loop sees it
      have hnext (k : ℕ) : Unknown dm d t'.members t'.linkState (ptr + recordSize dm +
          k * recordSize dm) ↔ Unknown dm d t.members t.linkState (ptr + (k + 1) * recordSize dm) := by
        rw [Unknown, Unknown, hfind, hls, Nat.add_mul, Nat.one_mul, Nat.add_comm (k * _),
          Nat.add_assoc]
      obtain ⟨hgood, hbad⟩ := ih (t := t') (ptr + recordSize dm)
      constructor
      · intro hall
        obtain ⟨t'', hrun', hfind', horder'⟩ :=
          hgood fun k hk => (hnext k).not.2 (hall (k + 1) (by omega))
        exact ⟨t'', hrun', hfind'.trans hfind, horder'.trans horder⟩
      · rintro ⟨k, hk, hunknown⟩
        apply hbad
        cases k with
        | zero => exact absurd (by simpa using hunknown) hfirst
        | succ k => exact ⟨k, by omega, (hnext k).2 hunknown⟩

/-- What `Link_State` does with an accepted packet from another proxy. -/
theorem linkState_unblocked (hw : Cooperative w proxies) {length : UInt16} {m : Members}
    {ls : LinkState} (hlen : lengthOk dm (announced d) length = true)
    (hsource : (ldLinkState d 2).tapMAC ≠ ls.tapMAC) :
    ((∀ k < recordCount d, ¬Unknown dm d m ls (recordAt dm k)) →
      ∃ t', (linkState dm d length).run (unblocked w) (start m ls) = .ok (0, t') ∧
        t'.members.find = m.find ∧ t'.members.order = m.order) ∧
    ((∃ k < recordCount d, Unknown dm d m ls (recordAt dm k)) →
      (linkState dm d length).run (unblocked w) (start m ls) = .error .fault) := by
  have hget : getLinkState.run (unblocked w) (start m ls) = .ok (ls, start m ls) := rfl
  have hbegin : writeBegin.run (unblocked w) (start m ls) =
      .ok ((), { start m ls with inside := true }) := rfl
  obtain ⟨t₁, hrun₁, hm₁, hls₁⟩ := receiveSource_unblocked
    (t := { start m ls with inside := true }) hw (ldLinkState d 2)
  obtain ⟨hgood, hbad⟩ := @recordLoop_unblocked w dm d t₁ proxies hw (recordCount d)
    (2 + linkStateSourceSize)
  rw [hm₁, hls₁] at hgood hbad
  unfold linkState
  simp only [hlen, Bool.not_true, Bool.false_eq_true, if_false]
  rw [run_bind_of_ok hget, if_neg hsource, run_bind_of_ok hbegin, run_bind_of_ok hrun₁]
  refine ⟨fun hall => ?_, fun hunknown => run_bind_of_error (hbad hunknown)⟩
  obtain ⟨t', hrun, hfind, horder⟩ := hgood hall
  rw [recordCount] at hrun
  have hend : writeEnd.run (unblocked w) t' =
      .ok ((), { t' with inside := false, members := w.others t'.members }) := rfl
  rw [run_bind_of_ok hrun, run_bind_of_ok hend, hw.alone]
  exact ⟨_, rfl, hfind, horder⟩

/-- A packet from another proxy brings nothing new exactly if its source is a member and no proxy of
a record is unknown. -/
theorem nothingToDiscover_iff {m : Members} {ls : LinkState}
    (hsource : (ldLinkState d 2).tapMAC ≠ ls.tapMAC) :
    NothingToDiscover dm d m ls ↔ (m.find (ldLinkState d 2).tapMAC).isSome ∧
      ∀ k < recordCount d, ¬Unknown dm d m ls (recordAt dm k) := by
  simp only [NothingToDiscover, advertised, List.forall_mem_cons, List.forall_mem_map, List.mem_range,
    Unknown, not_and, Option.isSome_iff_ne_none, ne_eq]
  exact and_congr_left fun _ => ⟨fun h => h hsource, fun h _ => h⟩

end

/-- **Discovery.** With everything outside the process going well, an accepted link-state packet
from another proxy leaves all advertised proxies in the table, without a fault, exactly if they have
been there before. -/
theorem discovers_iff {w : World} {dm : DataModel} {d : Buf} {length : UInt16} {m : Members}
    {ls : LinkState} (hw : Cooperative w (advertised dm d))
    (hlen : lengthOk dm (announced d) length = true)
    (hsource : (ldLinkState d 2).tapMAC ≠ ls.tapMAC) :
    Discovers w dm d length m ls ↔ NothingToDiscover dm d m ls := by
  obtain ⟨hgood, hbad⟩ := linkState_unblocked (m := m) hw hlen hsource
  constructor
  · rintro ⟨t, hrun, -, hall⟩
    have hknown : ∀ k < recordCount d, ¬Unknown dm d m ls (recordAt dm k) := by
      intro k hk hunknown
      rw [hbad ⟨k, hk, hunknown⟩] at hrun
      cases hrun
    obtain ⟨t', hrun', hfind, -⟩ := hgood hknown
    rw [hrun] at hrun'
    cases hrun'
    intro proxy hproxy hne
    rw [← hfind]
    exact hall proxy hproxy hne
  · intro hnothing
    obtain ⟨t, hrun, hfind, horder⟩ := hgood ((nothingToDiscover_iff hsource).1 hnothing).2
    refine ⟨t, hrun, fun p hp => ?_, fun proxy hproxy hne => ?_⟩
    · rwa [horder]
    · rw [hfind]
      exact hnothing proxy hproxy hne

/-- A proxy with a hardware address of ones. -/
def newcomer : LinkState := ⟨0, 0, .replicate 6 1, .replicate 6 1⟩

/-- A link-state payload with a source and no records. -/
def lonePayload : Buf := bufOf ([0, 0] ++ newcomer.bytes ++ [0, 0]) fun _ => 0

/-- Every call succeeds, and the newcomer answers. -/
def welcoming : World := .quiet ⟨3, true, true, true, some 0, 0, fun _ => some newcomer⟩

theorem advertised_lonePayload (dm : DataModel) : advertised dm lonePayload = [newcomer] := by
  have hcount : recordCount lonePayload = 0 := by decide
  have hsource : ldLinkState lonePayload 2 = newcomer := by decide
  rw [advertised, hcount, hsource]
  rfl

theorem welcoming_cooperative (dm : DataModel) : Cooperative welcoming (advertised dm lonePayload) where
  socket _ _ _ := le_rfl
  connect _ _ _ := rfl
  answers := by
    intro ls hls k packet
    rw [advertised_lonePayload, List.mem_singleton] at hls
    exact ⟨newcomer, by rw [hls], rfl⟩
  alone := rfl

/-- A packet whose source is a member already. -/
theorem discovers_member :
    Discovers welcoming .lp64 lonePayload 22 ⟨[0], by decide, fun _ => ⟨⟨0, 0⟩, newcomer⟩⟩ zeroed := by
  apply (discovers_iff (welcoming_cooperative .lp64) (by decide) (by decide)).2
  rw [NothingToDiscover, advertised_lonePayload]
  decide

/-- **A newcomer is not found.** The table is empty, all calls succeed, the packet is accepted, and
its source is not a member afterwards. -/
theorem newcomer_not_discovered : Cooperative welcoming (advertised .lp64 lonePayload) ∧
    lengthOk .lp64 (announced lonePayload) 22 = true ∧
    (ldLinkState lonePayload 2).tapMAC ≠ zeroed.tapMAC ∧
    ¬Discovers welcoming .lp64 lonePayload 22 noMembers zeroed := by
  refine ⟨welcoming_cooperative .lp64, by decide, by decide, ?_⟩
  rintro ⟨t, hrun, -, hall⟩
  have hrun' : (linkState .lp64 lonePayload 22).run (unblocked welcoming) (start noMembers zeroed) =
      .ok (0, ⟨false, noMembers, zeroed, 1⟩) := rfl
  rw [hrun'] at hrun
  cases hrun
  rw [advertised_lonePayload] at hall
  exact absurd (hall newcomer (List.mem_singleton_self _) (by decide)) (by decide)

end LinkProxy.Program
