import LinkProxy.Peers.Membership

/-!
# Connections and the table

Every `Peer` has a descriptor and two threads. `add_member` starts the threads whether or not it has
linked the `Peer` into the table, and there are five ways to remove a `Peer`: a LEAVE packet and the
end of the stream, through `remove_member`, failed writes in `tap_handler` and in
`Link_State_Broadcast`, and the timeout, each with a copy of its own of the same five calls.
`connections` is the system of these operations, each executed as a whole.

As long as no `Peer` joins whose address is in the table, the connections that are alive are the
members (`connections_listed`). A `Peer` that joins with the address of a member is an orphan at
once (`join_noOrphans_iff`).
-/

namespace LinkProxy.Peers

open Wire Uthash
open Store (peerAt)

/-- The table, the descriptors that are open and the threads that are running, and whether
`remove_member` has returned without `writeEnd`. -/
structure Connections where
  store : Store
  fd : Ptr → Bool
  eth : Ptr → Bool
  timeout : Ptr → Bool
  kept : Bool

namespace Connections

/-- An operation: `add_member`, `Leave` with an address in an `eth_handler`, the end of the stream
of a `Peer`, a failed write to a member in `tap_handler` or in `Link_State_Broadcast`, and a
timeout. -/
inductive Operation
  | join (p : Ptr) (x : Peer)
  | leave (q : Ptr) (mac : MAC)
  | eof (p : Ptr)
  | tapFails (p : Ptr)
  | broadcastFails (p : Ptr)
  | expire (p : Ptr)

/-- Both threads of a `Peer` are cancelled and its descriptor is closed. -/
def cut (p : Ptr) (store : Store) (s : Connections) : Connections :=
  { s with
    store := store
    fd := Function.update s.fd p false
    eth := Function.update s.eth p false
    timeout := Function.update s.timeout p false }

/-- `pthread_cancel(pp->timeout_tid)`, `HASH_DEL(hash_table, pp)`, `close(pp->rio.fd)`,
`pthread_cancel(pp->tid)` and `free(pp)`. -/
def sever (p : Ptr) (s : Connections) : Option Connections :=
  (s.store.unlinkAndFree p).map fun store => s.cut p store

section

variable (hash : MAC → UInt32)

/-- `add_member` of a new `Peer`. -/
def addMember (p : Ptr) (x : Peer) (s : Connections) : Connections where
  store := (s.store.allocate p x).addMember hash p
  fd := Function.update s.fd p true
  eth := Function.update s.eth p true
  timeout := Function.update s.timeout p true
  kept := s.kept

/-- `remove_member`: the lock is kept if nobody has the key, and the key is looked up twice. -/
def removeMember (p : Ptr) (s : Connections) : Option Connections :=
  match s.store.find hash (s.store.key p) with
  | none => some { s with kept := true }
  | some _ =>
    match s.store.find hash (s.store.key p) with
    | none => some (s.cut p { s.store with live := Function.update s.store.live p false })
    | some _ => s.sever p

/-- One operation, if it is possible: the lock can be had, `malloc` returns an object that is not in
use, a thread that does something is running, and writes are to members. -/
def step (s : Connections) (o : Operation) : Option Connections :=
  if s.kept then none
  else match o with
    | .join p x => if s.store.live p then none else some (s.addMember hash p x)
    | .leave q mac =>
      if !s.eth q then none
      else match s.store.find hash mac with
        | none => some s
        | some p => s.removeMember hash p
    | .eof p => if !s.eth p then none else s.removeMember hash p
    | .tapFails p | .broadcastFails p => if p ∈ elements s.store.table then s.sever p else none
    | .expire p => if !s.timeout p then none else s.sever p

/-- A proxy that starts without members. -/
def connections : TransitionSystem Connections Operation where
  init s := s.store.table.head = none ∧ (∀ p, s.store.live p = false) ∧ (∀ p, s.fd p = false) ∧
    (∀ p, s.eth p = false) ∧ (∀ p, s.timeout p = false) ∧ s.kept = false
  step s o t := s.step hash o = some t

/-- **No orphans**: a connection that is alive is the member with its address, and members are
alive. -/
structure NoOrphans (s : Connections) : Prop where
  listed : ∀ p, s.fd p = true → s.eth p = true → s.timeout p = true →
    s.store.find hash (s.store.key p) = some p
  alive : ∀ p ∈ elements s.store.table, s.fd p = true ∧ s.eth p = true ∧ s.timeout p = true

/-- The condition on the operations: a `Peer` that joins has an address that is not in the table. -/
def FreshAddress (s : Connections) : Operation → Prop
  | .join _ x => s.store.find hash x.ls.tapMAC = none
  | _ => True

end

/-! ## The invariant -/

section

variable {hash : MAC → UInt32} {s t : Connections} {l : List Ptr} {p : Ptr}

/-- The table holds `l`, whose `Peer`s are alive, and no other `Peer` has anything. -/
structure Inv (hash : MAC → UInt32) (s : Connections) (l : List Ptr) : Prop where
  holds : s.store.Holds hash l
  live : ∀ p, s.store.live p = decide (p ∈ l)
  fd : ∀ p, s.fd p = decide (p ∈ l)
  eth : ∀ p, s.eth p = decide (p ∈ l)
  timeout : ∀ p, s.timeout p = decide (p ∈ l)
  kept : s.kept = false

theorem Inv.noOrphans (h : s.Inv hash l) : s.NoOrphans hash := by
  constructor
  · intro p hfd _ _
    rw [h.fd, decide_eq_true_iff] at hfd
    exact h.holds.rep.find_eq_some_iff.2 ⟨hfd, rfl⟩
  · intro p hp
    rw [h.holds.rep.elements] at hp
    rw [h.fd, h.eth, h.timeout]
    simpa using hp

/-- A function that says who is in a list, after one has been added or removed. -/
theorem update_decide_mem {f : Ptr → Bool} {l l' : List Ptr} {b : Bool}
    (hf : ∀ q, f q = decide (q ∈ l)) (hself : b = decide (p ∈ l'))
    (hother : ∀ q, q ≠ p → (q ∈ l' ↔ q ∈ l)) (q : Ptr) :
    Function.update f p b q = decide (q ∈ l') := by
  by_cases hq : q = p
  · rw [hq, Function.update_self, hself]
  · rw [Function.update_of_ne hq, hf]
    exact decide_eq_decide.2 (hother q hq).symm

/-- A member is severed. -/
theorem Inv.sever (h : s.Inv hash l) (hp : p ∈ l) :
    ∃ t, s.sever p = some t ∧ t.Inv hash (l.erase p) := by
  obtain ⟨store, hstore, -, hholds⟩ := h.holds.unlinkAndFree hp
  have hself : false = decide (p ∈ l.erase p) := by
    simp [h.holds.rep.order.nodup.mem_erase_iff]
  have hother (q : Ptr) (hq : q ≠ p) : q ∈ l.erase p ↔ q ∈ l := List.mem_erase_of_ne hq
  have hlive : store.live = Function.update s.store.live p false := by
    obtain ⟨table, -, hs⟩ := Option.bind_eq_some_iff.1 hstore
    obtain rfl := Option.some.inj hs
    rfl
  refine ⟨s.cut p store, by rw [Connections.sever, hstore]; rfl, hholds, ?_, ?_, ?_, ?_, h.kept⟩
  · exact fun q => hlive ▸ update_decide_mem h.live hself hother q
  · exact update_decide_mem h.fd hself hother
  · exact update_decide_mem h.eth hself hother
  · exact update_decide_mem h.timeout hself hother

/-- `remove_member` of a member. -/
theorem Inv.removeMember (h : s.Inv hash l) (hp : p ∈ l) :
    ∃ t, s.removeMember hash p = some t ∧ t.Inv hash (l.erase p) := by
  have hfind : s.store.find hash (s.store.key p) = some p :=
    h.holds.rep.find_eq_some_iff.2 ⟨hp, rfl⟩
  simp only [Connections.removeMember, hfind]
  exact h.sever hp

/-- A `Peer` that joins with a new address is listed last. -/
theorem Inv.join (h : s.Inv hash l) (hp : s.store.live p = false) {x : Peer}
    (hx : s.store.find hash x.ls.tapMAC = none) : (s.addMember hash p x).Inv hash (l ++ [p]) := by
  have hmem : p ∉ l := h.holds.not_mem hp
  have hkey : (s.store.allocate p x).key p = x.ls.tapMAC := by
    rw [Store.allocate_key, Function.update_self]
  have hnew : (l.find? fun q => (s.store.allocate p x).key q == (s.store.allocate p x).key p) =
      none := by
    rw [hkey, ← hx, Store.find, h.holds.rep.find, Store.allocate_key]
    refine List.find?_congr fun q hq => ?_
    have hne : q ≠ p := fun heq => hmem (heq ▸ hq)
    rw [Function.update_of_ne hne]
  have hholds := (h.holds.allocate hp x).addMember hmem (by simp [Store.allocate])
  rw [hnew, if_neg (by simp)] at hholds
  have hself : true = decide (p ∈ l ++ [p]) := by simp
  have hother (q : Ptr) (hq : q ≠ p) : q ∈ l ++ [p] ↔ q ∈ l := by simp [hq]
  refine ⟨hholds, ?_, ?_, ?_, ?_, h.kept⟩
  · intro q
    rw [Connections.addMember, Store.addMember_live]
    exact update_decide_mem h.live hself hother q
  · exact update_decide_mem h.fd hself hother
  · exact update_decide_mem h.eth hself hother
  · exact update_decide_mem h.timeout hself hother

/-- What one operation preserves. -/
theorem Inv.step {o : Operation} (h : s.Inv hash l) (hfresh : s.FreshAddress hash o)
    (ht : s.step hash o = some t) : ∃ l', t.Inv hash l' := by
  have hfound {mac : MAC} {p : Ptr} (hp : s.store.find hash mac = some p) : p ∈ l :=
    (h.holds.rep.find_eq_some_iff.1 hp).1
  have hsevered {p : Ptr} (hp : p ∈ l) (ht : s.sever p = some t) : ∃ l', t.Inv hash l' := by
    obtain ⟨t', ht', hinv⟩ := h.sever hp
    exact ⟨_, Option.some.inj (ht'.symm.trans ht) ▸ hinv⟩
  have hremoved {p : Ptr} (hp : p ∈ l) (ht : s.removeMember hash p = some t) :
      ∃ l', t.Inv hash l' := by
    obtain ⟨t', ht', hinv⟩ := h.removeMember hp
    exact ⟨_, Option.some.inj (ht'.symm.trans ht) ▸ hinv⟩
  simp only [Connections.step, h.kept, Bool.false_eq_true, if_false] at ht
  cases o with
  | join p x =>
    simp only at ht
    split_ifs at ht with hlive
    obtain rfl := Option.some.inj ht
    exact ⟨_, h.join (by simpa using hlive) hfresh⟩
  | leave q mac =>
    simp only at ht
    split_ifs at ht
    split at ht
    · exact ⟨l, Option.some.inj ht ▸ h⟩
    · next hfind => exact hremoved (hfound hfind) ht
  | eof p =>
    simp only at ht
    split_ifs at ht with heth
    exact hremoved (by simpa [h.eth] using heth) ht
  | tapFails p | broadcastFails p =>
    simp only at ht
    split_ifs at ht with hp
    exact hsevered (h.holds.rep.elements ▸ hp) ht
  | expire p =>
    simp only at ht
    split_ifs at ht with htimeout
    exact hsevered (by simpa [h.timeout] using htimeout) ht

theorem inv_of_reachable (hs : ((connections hash).guard (FreshAddress hash)).Reachable s) :
    ∃ l, s.Inv hash l := by
  refine hs.invariant (P := fun s => ∃ l, s.Inv hash l) ?_ ?_
  · rintro s ⟨htable, hlive, hfd, heth, htimeout, hkept⟩
    refine ⟨[], ⟨rep_nil htable, by simp, fun p _ hp => ?_⟩, ?_, ?_, ?_, ?_, hkept⟩
    · rw [hlive p] at hp
      exact absurd hp (by decide)
    all_goals intro p; simp [hlive, hfd, heth, htimeout]
  · rintro s o t ⟨l, h⟩ ⟨hfresh, ht⟩
    exact h.step hfresh ht

/-- **No orphan connections** in any run in which every `Peer` joins with an address that is not in
the table. -/
theorem connections_listed (hs : ((connections hash).guard (FreshAddress hash)).Reachable s) :
    s.NoOrphans hash := by
  obtain ⟨l, h⟩ := inv_of_reachable hs
  exact h.noOrphans

/-- A `Peer` that joins with the address of a member is an orphan. -/
theorem Inv.not_noOrphans (h : s.Inv hash l) (hp : s.store.live p = false) {x : Peer} {q : Ptr}
    (hx : s.store.find hash x.ls.tapMAC = some q) : ¬(s.addMember hash p x).NoOrphans hash := by
  intro hno
  have hmem : p ∉ l := h.holds.not_mem hp
  have hkey : (s.store.allocate p x).key p = x.ls.tapMAC := by
    rw [Store.allocate_key, Function.update_self]
  have hq : q ∈ l ∧ s.store.key q = x.ls.tapMAC := h.holds.rep.find_eq_some_iff.1 hx
  have hqp : q ≠ p := fun heq => hmem (heq ▸ hq.1)
  -- the table is the one before, so that the address leads to the member
  have hfind : (s.store.allocate p x).find hash ((s.store.allocate p x).key p) = some q := by
    refine (h.holds.allocate hp x).rep.find_eq_some_iff.2 ⟨hq.1, ?_⟩
    rw [hkey, Store.allocate_key, Function.update_of_ne hqp, hq.2]
  have hstore : (s.addMember hash p x).store = s.store.allocate p x := by
    rw [Connections.addMember, Store.addMember, hfind]
  have hlisted := hno.listed p (by simp [Connections.addMember]) (by simp [Connections.addMember])
    (by simp [Connections.addMember])
  rw [hstore, hfind] at hlisted
  exact hqp (Option.some.inj hlisted)

/-- A join leaves no orphan exactly if its address is new. -/
theorem join_noOrphans_iff (hs : ((connections hash).guard (FreshAddress hash)).Reachable s)
    (hp : s.store.live p = false) (x : Peer) :
    (s.addMember hash p x).NoOrphans hash ↔ s.store.find hash x.ls.tapMAC = none := by
  obtain ⟨l, h⟩ := inv_of_reachable hs
  constructor
  · intro hno
    cases hx : s.store.find hash x.ls.tapMAC with
    | none => rfl
    | some q => exact absurd hno (h.not_noOrphans hp hx)
  · intro hx
    exact (h.join hp hx).noOrphans

end

/-! ## Two joins -/

/-- A proxy without connections. -/
def unconnected : Connections := ⟨Store.empty, fun _ => false, fun _ => false, fun _ => false, false⟩

section

variable (hash : MAC → UInt32)

theorem init_unconnected : (connections hash).init unconnected :=
  ⟨rfl, fun _ => rfl, fun _ => rfl, fun _ => rfl, fun _ => rfl, rfl⟩

theorem reachable_join (x : Peer) :
    ((connections hash).guard (FreshAddress hash)).Reachable (unconnected.addMember hash 0 x) :=
  .step (a := .join 0 x) (.init (init_unconnected hash)) ⟨rfl, rfl⟩

theorem join_live (x : Peer) : (unconnected.addMember hash 0 x).store.live 1 = false := by
  rw [addMember, Store.addMember_live]
  rfl

theorem join_step (x y : Peer) : (unconnected.addMember hash 0 x).step hash (.join 1 y) =
    some ((unconnected.addMember hash 0 x).addMember hash 1 y) := by
  simp only [step, join_live]
  rfl

/-- The address of the first `Peer` is in the table, and no other. -/
theorem join_find (x : Peer) (mac : MAC) : (unconnected.addMember hash 0 x).store.find hash mac =
    if mac = x.ls.tapMAC then some 0 else none := by
  have hempty : Store.empty.Represents hash ⟨[], List.nodup_nil, Store.empty.peer⟩ :=
    ⟨⟨rep_nil rfl, fun p hp => absurd hp List.not_mem_nil, fun p _ _ => ⟨rfl, rfl⟩⟩, rfl⟩
  have hjoin := hempty.join (p := 0) rfl x
  have hstore : (unconnected.addMember hash 0 x).store =
      (Store.empty.allocate 0 x).addMember hash 0 := rfl
  rw [hstore, hjoin.find]
  by_cases hmac : mac = x.ls.tapMAC
  · simp [Members.find, Members.add, Members.key, hmac]
  · simp [Members.find, Members.add, Members.key, hmac, Ne.symm hmac]

end

/-- Two connections with different addresses. -/
theorem connections_listed_two : ∃ s,
    ((connections fun _ => 0).guard (FreshAddress fun _ => 0)).Reachable s ∧
      elements s.store.table = [0, 1] ∧ s.NoOrphans fun _ => 0 := by
  have hfresh : (unconnected.addMember (fun _ => 0) 0 (peerAt 1)).FreshAddress (fun _ => 0)
      (.join 1 (peerAt 2)) := by
    rw [FreshAddress, join_find, if_neg (by decide)]
  have hs : ((connections fun _ => 0).guard (FreshAddress fun _ => 0)).Reachable
      ((unconnected.addMember (fun _ => 0) 0 (peerAt 1)).addMember (fun _ => 0) 1 (peerAt 2)) :=
    .step (reachable_join _ (peerAt 1)) ⟨hfresh, join_step _ _ _⟩
  obtain ⟨h, hm⟩ := Store.twoJoins_represents (fun _ => 0) (peerAt 1) (peerAt 2)
  exact ⟨_, hs, hm.elements.1, connections_listed hs⟩

/-- Two connections with one address: the second is alive, and the address leads to the first. -/
theorem second_join_orphaned : ¬∀ (hash : MAC → UInt32) (s : Connections),
    (connections hash).Reachable s → s.NoOrphans hash := by
  intro h
  have hfirst := reachable_join (fun _ => 0) (peerAt 1)
  have hs : (connections fun _ => 0).Reachable
      ((unconnected.addMember (fun _ => 0) 0 (peerAt 1)).addMember (fun _ => 0) 1 (peerAt 1)) :=
    .step hfirst.of_guard (join_step _ _ _)
  have hnew := (join_noOrphans_iff hfirst (join_live _ _) (peerAt 1)).1 (h _ _ hs)
  rw [join_find, if_pos rfl] at hnew
  cases hnew

end Connections

end LinkProxy.Peers
