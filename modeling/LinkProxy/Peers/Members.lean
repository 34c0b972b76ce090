import LinkProxy.Wire.Packets

/-!
# The membership list

`hash_table` as its users see it: the `Peer` objects that are linked into it, in the order in which
`HASH_ITER` visits them, and the contents of every `Peer`. An object is known by its address, so two
connections to one proxy are two objects even when everything in them is equal, and an object is
linked at most once. How `uthash.h` realises the list is the subject of `Uthash.Table`.
-/

namespace LinkProxy.Peers

open Wire

/-- A `Peer *` that is not `NULL`. -/
abbrev Ptr := ℕ

/-- The fields of a `Peer` that the membership list and the link-state packets use. -/
structure Peer where
  timestamp : Timespec
  ls : LinkState
  deriving DecidableEq

/-- `hash_table`. -/
structure Members where
  order : List Ptr
  nodup : order.Nodup
  peer : Ptr → Peer

namespace Members

variable (m : Members)

/-- `HASH_COUNT(hash_table)`. -/
def count : ℕ := m.order.length

/-- The key of a `Peer`. -/
def key (p : Ptr) : MAC := (m.peer p).ls.tapMAC

/-- `HASH_FIND(hh, hash_table, mac, ETH_ALEN, pp)`. -/
def find (mac : MAC) : Option Ptr := m.order.find? fun p => m.key p == mac

/-- The list with one member. -/
def single (p : Ptr) (x : Peer) : Members := ⟨[p], List.nodup_singleton p, fun _ => x⟩

/-- `pp->timestamp=t`. -/
def setTimestamp (p : Ptr) (t : Timespec) : Members :=
  { m with peer := Function.update m.peer p { m.peer p with timestamp := t } }

/-- What `add_member` does to the list: a new `Peer` is appended if no member has its key. -/
def add (p : Ptr) (hp : p ∉ m.order) (peer : Peer) : Members where
  order := if (m.find peer.ls.tapMAC).isSome then m.order else m.order ++ [p]
  nodup := by
    split_ifs
    · exact m.nodup
    · exact List.nodup_append.2 ⟨m.nodup, by simp, by
        rintro a ha b hb rfl
        exact hp (List.mem_singleton.1 hb ▸ ha)⟩
  peer := Function.update m.peer p peer

/-- `HASH_DEL(hash_table, pp)` of a member. -/
def remove (p : Ptr) : Members := { m with order := m.order.erase p, nodup := m.nodup.erase p }

@[simp] theorem setTimestamp_order (p : Ptr) (t : Timespec) :
    (m.setTimestamp p t).order = m.order := rfl

@[simp] theorem setTimestamp_ls (p q : Ptr) (t : Timespec) :
    ((m.setTimestamp p t).peer q).ls = (m.peer q).ls := by
  by_cases h : q = p
  · subst h
    simp [setTimestamp]
  · simp [setTimestamp, h]

@[simp] theorem setTimestamp_find (p : Ptr) (t : Timespec) (mac : MAC) :
    (m.setTimestamp p t).find mac = m.find mac := by
  simp only [find, key, setTimestamp_order, setTimestamp_ls]

theorem setTimestamp_timestamp (p q : Ptr) (t : Timespec) :
    ((m.setTimestamp p t).peer q).timestamp = if q = p then t else (m.peer q).timestamp := by
  by_cases h : q = p <;> simp [setTimestamp, h]

theorem mem_add {p q : Ptr} (hp : p ∉ m.order) (peer : Peer)
    (h : q ∈ (m.add p hp peer).order) : q ∈ m.order ∨ q = p := by
  simp only [add] at h
  split_ifs at h
  · exact .inl h
  · simpa using h

theorem mem_add_of_ne {p q : Ptr} (hp : p ∉ m.order) (peer : Peer) (hqp : q ≠ p) :
    q ∈ (m.add p hp peer).order ↔ q ∈ m.order := by
  simp only [add]
  split_ifs <;> simp [hqp]

theorem add_peer_self (p : Ptr) (hp : p ∉ m.order) (peer : Peer) :
    (m.add p hp peer).peer p = peer := by
  simp [add]

theorem add_peer_of_mem {p q : Ptr} (hp : p ∉ m.order) (peer : Peer) (hq : q ∈ m.order) :
    (m.add p hp peer).peer q = m.peer q := by
  have hne : q ≠ p := fun heq => hp (heq ▸ hq)
  simp [add, hne]

theorem mem_remove {p q : Ptr} : q ∈ (m.remove p).order ↔ q ≠ p ∧ q ∈ m.order :=
  m.nodup.mem_erase_iff

variable {m}

theorem mem_of_find {mac : MAC} {p : Ptr} (h : m.find mac = some p) :
    p ∈ m.order ∧ m.key p = mac :=
  ⟨List.mem_of_find?_eq_some h, by simpa using List.find?_some h⟩

theorem find_isSome {mac : MAC} : (m.find mac).isSome ↔ ∃ p ∈ m.order, m.key p = mac := by
  simp [find, List.find?_isSome]

end Members

end LinkProxy.Peers
