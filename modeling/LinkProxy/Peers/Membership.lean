import LinkProxy.Foundations.Transition
import LinkProxy.Peers.Members
import LinkProxy.Uthash.Rep

/-!
# Joining and removing members

`hash_table` as `uthash.h` realises it, with the `Peer` objects that are allocated. A connection
allocates an object, and `add_member` links it unless a member has its key; the threads of the
object are started in both cases. `remove_member` and the expiry of `timeout_handler` then delete
the object they hold, not the one that a lookup of its key has found.

`membership` is the system of these three operations. When every removal is of a linked object, or
is given up because nobody has its key, the table represents a list of objects and a removal leaves
all others in it (`removal_keepsOthers_iff`). The removal of an object that was not linked, while
another object has its key, takes the whole table away.
-/

namespace LinkProxy.Peers

open Wire Uthash

/-- `hash_table`, the contents of the `Peer` objects, and those that are allocated. -/
structure Store where
  table : Hash Ptr
  peer : Ptr → Peer
  live : Ptr → Bool

namespace Store

/-- The key of a `Peer`. -/
def key (s : Store) (p : Ptr) : MAC := (s.peer p).ls.tapMAC

/-- `HASH_COUNT(hash_table)`. -/
def count (s : Store) : ℕ := if s.table.head.isSome then s.table.numItems else 0

/-- `malloc` and `memset` of a `Peer`, and the contents that the join exchange gives it. -/
def allocate (p : Ptr) (x : Peer) (s : Store) : Store where
  table := zeroHandle p s.table
  peer := Function.update s.peer p x
  live := Function.update s.live p true

/-- `HASH_DEL(hash_table, pp)` and `free(pp)`. -/
def unlinkAndFree (p : Ptr) (s : Store) : Option Store := do
  let table ← hashDelete p s.table
  return { s with table := table, live := Function.update s.live p false }

variable (hash : MAC → UInt32)

/-- `HASH_FIND(hh, hash_table, mac, ETH_ALEN, pp)`. -/
def find (mac : MAC) (s : Store) : Option Ptr := hashFind hash s.key mac s.table

/-- `add_member`, on the table. -/
def addMember (p : Ptr) (s : Store) : Store :=
  match s.find hash (s.key p) with
  | none => { s with table := hashAdd hash (s.key p) p s.table }
  | some _ => s

/-- `remove_member`, on the table: the key is looked up twice, and the object itself is deleted. -/
def removeMember (p : Ptr) (s : Store) : Option Store :=
  match s.find hash (s.key p) with
  | none => some s
  | some _ =>
    match s.find hash (s.key p) with
    | none => some { s with live := Function.update s.live p false }
    | some _ => s.unlinkAndFree p

/-- What happens to the membership list. -/
inductive Event
  | join (p : Ptr) (x : Peer)
  | remove (p : Ptr)
  | timeout (p : Ptr)

/-- The object that is removed. -/
def Event.removed : Event → Option Ptr
  | .join _ _ => none
  | .remove p | .timeout p => some p

/-- One event. `malloc` returns an object that is not in use, and only objects in use are removed.
-/
def step (s : Store) : Event → Option Store
  | .join p x => if s.live p then none else some ((s.allocate p x).addMember hash p)
  | .remove p => if s.live p then s.removeMember hash p else none
  | .timeout p => if s.live p then s.unlinkAndFree p else none

/-- The membership list of a proxy that starts without members. -/
def membership : TransitionSystem Store Event where
  init s := s.table.head = none ∧ ∀ p, s.live p = false
  step s e t := s.step hash e = some t

/-- Every member but `p` is still a member and is found with its own key. -/
def KeepsOthers (s : Store) (p : Ptr) (t : Store) : Prop :=
  ∀ q ∈ elements s.table, q ≠ p → q ∈ elements t.table ∧ t.find hash (s.key q) = some q

/-- A timeout is of a member; `remove_member` is given a member, or nobody has the key. -/
def Sound (s : Store) : Event → Prop
  | .join _ _ => True
  | .remove p => p ∈ elements s.table ∨ s.find hash (s.key p) = none
  | .timeout p => p ∈ elements s.table

/-! ## The list that the table represents -/

/-- The table holds `l`, the members are allocated, and an allocated object that is not a member has
no neighbours. -/
structure Holds (s : Store) (l : List Ptr) : Prop where
  rep : Rep hash s.key s.table l
  live : ∀ p ∈ l, s.live p = true
  unlinked : ∀ p ∉ l, s.live p = true → s.table.prev p = none ∧ s.table.next p = none

/-- The list that its users see: the members and the contents of all objects. -/
structure Represents (s : Store) (m : Members) : Prop where
  holds : s.Holds hash m.order
  peer : s.peer = m.peer

variable {hash} {s t : Store} {l : List Ptr} {p : Ptr}

theorem allocate_key (p : Ptr) (x : Peer) (s : Store) :
    (s.allocate p x).key = Function.update s.key p x.ls.tapMAC := by
  funext q
  by_cases h : q = p
  · subst h
    simp [key, allocate]
  · simp [key, allocate, h]

theorem Holds.not_mem (h : s.Holds hash l) (hp : s.live p = false) : p ∉ l := by
  intro hmem
  rw [h.live p hmem] at hp
  exact absurd hp (by decide)

/-- A new object is not a member, and has no neighbours. -/
theorem Holds.allocate (h : s.Holds hash l) (hp : s.live p = false) (x : Peer) :
    (s.allocate p x).Holds hash l where
  rep := by
    rw [allocate_key]
    exact h.rep.zeroHandle (h.not_mem hp) _
  live q hq := by
    have hne : q ≠ p := fun heq => h.not_mem hp (heq ▸ hq)
    simpa [Store.allocate, hne] using h.live q hq
  unlinked q hq hlive := by
    by_cases hqp : q = p
    · simp [Store.allocate, zeroHandle, hqp]
    · have hlive' : s.live q = true := by simpa [Store.allocate, hqp] using hlive
      simpa [Store.allocate, zeroHandle, hqp] using h.unlinked q hq hlive'

/-- `add_member` appends an object unless a member has its key. -/
theorem Holds.addMember (h : s.Holds hash l) (hp : p ∉ l) (hlive : s.live p = true) :
    (s.addMember hash p).Holds hash
      (if (l.find? fun q => s.key q == s.key p).isSome then l else l ++ [p]) := by
  have hfind : s.find hash (s.key p) = l.find? fun q => s.key q == s.key p := h.rep.find _
  unfold Store.addMember
  rw [hfind]
  cases hres : l.find? fun q => s.key q == s.key p with
  | some q => simpa using h
  | none =>
    have hnew (q : Ptr) (hq : q ∈ l) : s.key q ≠ s.key p := by
      simpa using List.find?_eq_none.1 hres q hq
    refine ⟨h.rep.add hp hnew, ?_, ?_⟩
    · intro q hq
      rcases List.mem_append.1 hq with hq | hq
      · exact h.live q hq
      · rw [List.mem_singleton.1 hq]
        exact hlive
    · intro q hq hlive'
      have hq : q ∉ l ∧ q ≠ p := by simpa using hq
      dsimp only
      rw [(h.rep.add_links _ p hq.1 hq.2).1, (h.rep.add_links _ p hq.1 hq.2).2]
      exact h.unlinked q hq.1 hlive'

/-- A member is deleted, and the others stay. -/
theorem Holds.unlinkAndFree (h : s.Holds hash l) (hp : p ∈ l) :
    ∃ t, s.unlinkAndFree p = some t ∧ t.key = s.key ∧ t.Holds hash (l.erase p) := by
  obtain ⟨table, htable, hrep⟩ := h.rep.delete hp
  refine ⟨{ s with table := table, live := Function.update s.live p false },
    by rw [Store.unlinkAndFree, htable]; rfl, rfl, hrep, ?_, ?_⟩
  · intro q hq
    have hq := (h.rep.order.nodup.mem_erase_iff).1 hq
    simpa [hq.1] using h.live q hq.2
  · intro q hq hlive
    by_cases hqp : q = p
    · simp [hqp] at hlive
    · have hql : q ∉ l := fun hmem => hq ((h.rep.order.nodup.mem_erase_iff).2 ⟨hqp, hmem⟩)
      have hlive' : s.live q = true := by simpa [hqp] using hlive
      obtain ⟨hprev, hnext⟩ := h.rep.delete_links hp htable hql
      dsimp only
      rw [hprev, hnext]
      exact h.unlinked q hql hlive'

/-- The table goes with an object that is not a member. -/
theorem Holds.unlinkAndFree_unlinked (h : s.Holds hash l) (hp : p ∉ l) (hlive : s.live p = true)
    (ht : s.unlinkAndFree p = some t) : l ≠ [] ∧ elements t.table = [] := by
  obtain ⟨table, htable, ht⟩ := Option.bind_eq_some_iff.1 ht
  obtain rfl := Option.some.inj ht
  obtain ⟨hprev, hnext⟩ := h.unlinked p hp hlive
  have hhead := hashDelete_unlinked hprev hnext htable
  refine ⟨?_, by simp [elements, hhead]⟩
  rintro rfl
  have hempty : s.table.head = none := h.rep.head
  simp [hashDelete, hempty] at htable

section Represents

variable {m : Members}

theorem Represents.key (h : s.Represents hash m) : s.key = m.key := by
  funext p
  rw [Store.key, Members.key, h.peer]

/-- A lookup in the table is a lookup in the list. -/
theorem Represents.find (h : s.Represents hash m) (mac : MAC) : s.find hash mac = m.find mac := by
  rw [Store.find, h.holds.rep.find, h.key]
  rfl

/-- `HASH_ITER` and `HASH_COUNT` are those of the list. -/
theorem Represents.elements (h : s.Represents hash m) :
    elements s.table = m.order ∧ s.count = m.count := by
  refine ⟨h.holds.rep.elements, ?_⟩
  rw [count, Members.count, h.holds.rep.head]
  by_cases hempty : m.order = []
  · simp [hempty]
  · rw [if_pos (List.isSome_head?.2 hempty), h.holds.rep.numItems hempty]

/-- **A join is an addition to the list.** -/
theorem Represents.join (h : s.Represents hash m) (hp : s.live p = false) (x : Peer) :
    ((s.allocate p x).addMember hash p).Represents hash
      (m.add p (h.holds.not_mem hp) x) := by
  have hadd := (h.holds.allocate hp x).addMember (h.holds.not_mem hp) (by simp [allocate])
  have hpeer : ((s.allocate p x).addMember hash p).peer = (s.allocate p x).peer := by
    unfold addMember
    split <;> rfl
  -- the key of a new object is compared with the keys of the members only
  have hfind : (m.order.find? fun q => (s.allocate p x).key q == (s.allocate p x).key p) =
      m.find x.ls.tapMAC := by
    rw [allocate_key, h.key, Function.update_self]
    refine List.find?_congr fun q hq => ?_
    have hne : q ≠ p := fun heq => h.holds.not_mem hp (heq ▸ hq)
    rw [Function.update_of_ne hne]
  rw [hfind] at hadd
  refine ⟨hadd, ?_⟩
  rw [hpeer, allocate, h.peer]
  rfl

/-- The deletion of a member is its removal from the list. -/
theorem Represents.remove (h : s.Represents hash m) (hp : p ∈ m.order) :
    ∃ t, s.unlinkAndFree p = some t ∧ t.Represents hash (m.remove p) := by
  obtain ⟨t, ht, -, hholds⟩ := h.holds.unlinkAndFree hp
  refine ⟨t, ht, hholds, ?_⟩
  obtain ⟨table, -, ht⟩ := Option.bind_eq_some_iff.1 ht
  obtain rfl := Option.some.inj ht
  exact h.peer

end Represents

/-! ## Runs -/

theorem removeMember_eq (s : Store) (p : Ptr) :
    s.removeMember hash p = if (s.find hash (s.key p)).isSome then s.unlinkAndFree p else some s := by
  unfold Store.removeMember
  cases s.find hash (s.key p) <;> rfl

/-- One sound event on the list. -/
theorem Holds.step {e : Event} (h : s.Holds hash l) (hs : s.Sound hash e)
    (ht : s.step hash e = some t) : ∃ l', t.Holds hash l' := by
  cases e with
  | join p x =>
    simp only [Store.step] at ht
    split_ifs at ht with hlive
    obtain rfl := Option.some.inj ht
    have hlive : s.live p = false := by simpa using hlive
    exact ⟨_, (h.allocate hlive x).addMember (h.not_mem hlive) (by simp [Store.allocate])⟩
  | remove p =>
    simp only [Store.step, removeMember_eq] at ht
    rw [Sound, h.rep.elements] at hs
    split_ifs at ht with hlive hfound
    · have hp : p ∈ l := hs.resolve_right fun hnone => by simp [hnone] at hfound
      obtain ⟨t', ht', -, hholds⟩ := h.unlinkAndFree hp
      obtain rfl : t' = t := Option.some.inj (ht'.symm.trans ht)
      exact ⟨_, hholds⟩
    · obtain rfl := Option.some.inj ht
      exact ⟨l, h⟩
  | timeout p =>
    simp only [Store.step] at ht
    rw [Sound, h.rep.elements] at hs
    split_ifs at ht with hlive
    obtain ⟨t', ht', -, hholds⟩ := h.unlinkAndFree hs
    obtain rfl : t' = t := Option.some.inj (ht'.symm.trans ht)
    exact ⟨_, hholds⟩

/-- The table represents a list in every run of sound events. -/
theorem holds_of_reachable (hs : ((membership hash).guard (Sound hash)).Reachable s) :
    ∃ l, s.Holds hash l := by
  induction hs with
  | init h =>
    refine ⟨[], rep_nil h.1, fun p hp => absurd hp List.not_mem_nil, fun p _ hlive => ?_⟩
    rw [h.2 p] at hlive
    exact absurd hlive (by decide)
  | step _ ht ih =>
    obtain ⟨l, h⟩ := ih
    exact h.step ht.1 ht.2

/-- Deleting an object keeps the others exactly if it is a member. -/
theorem Holds.keepsOthers_iff (h : s.Holds hash l) (hlive : s.live p = true)
    (ht : s.unlinkAndFree p = some t) : s.KeepsOthers hash p t ↔ p ∈ l := by
  constructor
  · intro hkeeps
    by_contra hp
    obtain ⟨hne, hempty⟩ := h.unlinkAndFree_unlinked hp hlive ht
    obtain ⟨q, hq⟩ := List.exists_mem_of_ne_nil l hne
    have hqp : q ≠ p := fun heq => hp (heq ▸ hq)
    have := (hkeeps q (by rwa [h.rep.elements]) hqp).1
    simp [hempty] at this
  · intro hp q hq hqp
    obtain ⟨t', ht', hkey, hholds⟩ := h.unlinkAndFree hp
    obtain rfl : t' = t := Option.some.inj (ht'.symm.trans ht)
    rw [h.rep.elements] at hq
    have hq : q ∈ l.erase p := (h.rep.order.nodup.mem_erase_iff).2 ⟨hqp, hq⟩
    exact ⟨by rwa [hholds.rep.elements], hholds.rep.find_eq_some_iff.2 ⟨hq, by rw [hkey]⟩⟩

theorem Holds.keepsOthers_self (h : s.Holds hash l) (p : Ptr) : s.KeepsOthers hash p s := by
  intro q hq _
  refine ⟨hq, h.rep.find_eq_some_iff.2 ⟨?_, rfl⟩⟩
  rwa [h.rep.elements] at hq

/-- A removal from a table that represents a list keeps the others exactly if it is sound. -/
theorem Holds.removal_iff {e : Event} (h : s.Holds hash l) (he : e.removed = some p)
    (ht : s.step hash e = some t) : s.KeepsOthers hash p t ↔ s.Sound hash e := by
  cases e with
  | join p x => exact absurd he (by simp [Event.removed])
  | remove p' =>
    obtain rfl := Option.some.inj he
    simp only [Store.step, removeMember_eq] at ht
    rw [Sound, h.rep.elements]
    split_ifs at ht with hlive hfound
    · rw [h.keepsOthers_iff hlive ht, or_iff_left (Option.isSome_iff_ne_none.1 hfound)]
    · obtain rfl := Option.some.inj ht
      exact ⟨fun _ => .inr (by simpa using hfound), fun _ => h.keepsOthers_self p'⟩
  | timeout p' =>
    obtain rfl := Option.some.inj he
    simp only [Store.step] at ht
    rw [Sound, h.rep.elements]
    split_ifs at ht with hlive
    exact h.keepsOthers_iff hlive ht

/-- **Removing one peer leaves the others** exactly if the removal is sound, in every run whose
earlier removals were. -/
theorem removal_keepsOthers_iff {e : Event}
    (hs : ((membership hash).guard (Sound hash)).Reachable s) (he : e.removed = some p)
    (ht : s.step hash e = some t) : s.KeepsOthers hash p t ↔ s.Sound hash e := by
  obtain ⟨l, h⟩ := holds_of_reachable hs
  exact h.removal_iff he ht

/-! ## Two connections -/

/-- A proxy without members. -/
def empty : Store where
  table := ⟨none, fun _ => ⟨none, 0, 0⟩, 0, 0, none, 0, 0, 0, false, fun _ => none, fun _ => none,
    fun _ => none, fun _ => none, fun _ => 0⟩
  peer _ := ⟨⟨0, 0⟩, ⟨0, 0, .replicate 6 0, .replicate 6 0⟩⟩
  live _ := false

/-- A `Peer` with a MAC address. -/
def peerAt (n : UInt8) : Peer := ⟨⟨0, 0⟩, ⟨0, 0, .replicate 6 n, .replicate 6 n⟩⟩

/-- The connections `0` and `1` join. -/
def twoJoins (hash : MAC → UInt32) (x y : Peer) : Store :=
  let s := (empty.allocate 0 x).addMember hash 0
  (s.allocate 1 y).addMember hash 1

theorem addMember_live (hash : MAC → UInt32) (p : Ptr) (s : Store) :
    (s.addMember hash p).live = s.live := by
  unfold addMember
  split <;> rfl

section TwoJoins

variable (hash : MAC → UInt32) (x y : Peer)

theorem twoJoins_live : (twoJoins hash x y).live 1 = true := by
  rw [twoJoins, addMember_live]
  rfl

theorem reachable_twoJoins :
    ((membership hash).guard (Sound hash)).Reachable (twoJoins hash x y) := by
  let s := (empty.allocate 0 x).addMember hash 0
  have h₀ : empty.step hash (.join 0 x) = some s := rfl
  have h₁ : s.step hash (.join 1 y) = some (twoJoins hash x y) := by
    have hlive : s.live 1 = false := by
      rw [addMember_live]
      rfl
    simp only [step, hlive]
    rfl
  have hs : ((membership hash).guard (Sound hash)).Reachable s :=
    .step (a := .join 0 x) (.init ⟨rfl, fun _ => rfl⟩) ⟨trivial, h₀⟩
  exact .step (a := .join 1 y) hs ⟨trivial, h₁⟩

theorem twoJoins_represents : ∃ h, (twoJoins hash x y).Represents hash
    (((⟨[], List.nodup_nil, empty.peer⟩ : Members).add 0 List.not_mem_nil x).add 1 h y) := by
  have hempty : empty.Represents hash ⟨[], List.nodup_nil, empty.peer⟩ :=
    ⟨⟨rep_nil rfl, fun p hp => absurd hp List.not_mem_nil, fun p _ _ => ⟨rfl, rfl⟩⟩, rfl⟩
  have h₀ := hempty.join (p := 0) rfl x
  exact ⟨_, h₀.join (p := 1) (by rw [addMember_live]; rfl) y⟩

end TwoJoins

/-- Two connections with different addresses, and the second expires. -/
theorem removal_keepsOthers_iff_timeout :
    elements (twoJoins (fun _ => 0) (peerAt 1) (peerAt 2)).table = [0, 1] ∧
      ∃ t, (twoJoins (fun _ => 0) (peerAt 1) (peerAt 2)).step (fun _ => 0) (.timeout 1) = some t ∧
        (twoJoins (fun _ => 0) (peerAt 1) (peerAt 2)).KeepsOthers (fun _ => 0) 1 t := by
  obtain ⟨h, hm⟩ := twoJoins_represents (fun _ => 0) (peerAt 1) (peerAt 2)
  have helements : elements (twoJoins (fun _ => 0) (peerAt 1) (peerAt 2)).table = [0, 1] :=
    hm.elements.1
  obtain ⟨t, ht, -⟩ := hm.holds.unlinkAndFree (p := 1) (List.mem_cons_of_mem 0 List.mem_cons_self)
  have hstep : (twoJoins (fun _ => 0) (peerAt 1) (peerAt 2)).step (fun _ => 0) (.timeout 1) =
      some t := by
    simpa only [step, twoJoins_live, if_true] using ht
  refine ⟨helements, t, hstep, (removal_keepsOthers_iff (reachable_twoJoins ..) rfl hstep).2 ?_⟩
  rw [Sound, helements]
  simp

/-- Two connections with one address, and the second is removed: the first is gone too, whatever the
hash function. -/
theorem same_address_not_keepsOthers : ∃ x : Peer, ∀ hash,
    (membership hash).Reachable (twoJoins hash x x) ∧ elements (twoJoins hash x x).table = [0] ∧
      ∃ t, (twoJoins hash x x).step hash (.remove 1) = some t ∧
        ¬ (twoJoins hash x x).KeepsOthers hash 1 t := by
  refine ⟨peerAt 1, fun hash => ?_⟩
  obtain ⟨h, hm⟩ := twoJoins_represents hash (peerAt 1) (peerAt 1)
  have helements : elements (twoJoins hash (peerAt 1) (peerAt 1)).table = [0] := hm.elements.1
  have hfound : (twoJoins hash (peerAt 1) (peerAt 1)).find hash
      ((twoJoins hash (peerAt 1) (peerAt 1)).key 1) = some 0 := by
    rw [hm.find, hm.key]
    rfl
  have hhead : (twoJoins hash (peerAt 1) (peerAt 1)).table.head = some 0 := hm.holds.rep.head
  have hlinks := hm.holds.unlinked 1 (by rw [← hm.elements.1, helements]; simp) (twoJoins_live ..)
  have hstep : ∃ t, (twoJoins hash (peerAt 1) (peerAt 1)).step hash (.remove 1) = some t := by
    simp only [step, twoJoins_live, if_true, removeMember_eq, hfound, Option.isSome_some,
      unlinkAndFree, hashDelete, hhead]
    rw [if_pos hlinks]
    exact ⟨_, rfl⟩
  obtain ⟨t, ht⟩ := hstep
  refine ⟨(reachable_twoJoins ..).of_guard, helements, t, ht, fun hkeeps => ?_⟩
  rcases (hm.holds.removal_iff rfl ht).1 hkeeps with hmem | hnone
  · rw [helements] at hmem
    simp at hmem
  · rw [hfound] at hnone
    exact absurd hnone (by simp)

end Store

end LinkProxy.Peers
