import LinkProxy.Operations.Program
import LinkProxy.Lock.Sections

/-!
# Entering the lock twice

A thread that runs one dispatch of `eth_handler`, with everything that is called below it. The
thread knows whether it is inside its own `writeBegin`..`writeEnd` section; the mutexes are not
recursive, so a thread that calls `readBegin` or `writeBegin` there waits for itself
(`begin_blocks`), and the run stops.

`Quit` keeps its section open while it calls `remove_member` for every member, and `Link_State`
while it dials. `dispatch_reenters_iff` says exactly for which table, packet and results of the system
calls a dispatch that begins outside of a section waits for itself; `Operations.Passes` follows a
thread over one packet after another.
-/

namespace LinkProxy.Program

open Bytes Wire Peers Gossip

/-- Inside a section of its own, a thread waits for itself in `readBegin` and in `writeBegin`. -/
theorem begin_blocks {ι : Type*} {i : ι} {l : Lock.RwLock ι}
    (h : (Lock.RwLock.free ι).writeBegin i = some l) :
    l.readBegin i = none ∧ l.writeBegin i = none := by
  cases h
  exact ⟨rfl, rfl⟩

/-! ## A thread by itself -/

/-- What a thread meets: the replies of the system, by the number of replies it has had before, and
what other threads do to the table from the end of a section on. -/
structure World where
  reply : ℕ → (c : Command) → c.Reply
  others : Members → Members

/-- A thread: whether it is inside its own `writeBegin`..`writeEnd` section, the table, `linkState`
and the number of replies it has had from the system. -/
structure Thread where
  inside : Bool
  members : Members
  linkState : LinkState
  replies : ℕ

/-- A reply of the system. -/
def World.answer (w : World) (t : Thread) (c : Command) : Except Stop (c.Reply × Thread) :=
  .ok (w.reply t.replies c, { t with replies := t.replies + 1 })

/-- The commands of a thread. A new object is not in the table. -/
def handle (w : World) (c : Command) (t : Thread) : Except Stop (c.Reply × Thread) :=
  match c with
  | .readBegin => if t.inside then .error .reentry else .ok ((), t)
  | .readEnd => .ok ((), { t with members := w.others t.members })
  | .writeBegin => if t.inside then .error .reentry else .ok ((), { t with inside := true })
  | .writeEnd => .ok ((), { t with inside := false, members := w.others t.members })
  | .table => .ok (t.members, t)
  | .insert p peer => .ok ((), { t with members :=
      if hp : p ∉ t.members.order then t.members.add p hp peer else t.members })
  | .delete p => .ok ((), { t with members := t.members.remove p })
  | .stamp p ts => .ok ((), { t with members := t.members.setTimestamp p ts })
  | .linkState => .ok (t.linkState, t)
  | .setAddress addr => .ok ((), { t with linkState := { t.linkState with ipAddr := addr } })
  | .clock => w.answer t .clock
  | .dial addr port => w.answer t (.dial addr port)
  | .dialName hostname port => w.answer t (.dialName hostname port)
  | .accept => w.answer t .accept
  | .receive p => w.answer t (.receive p)
  | .readTap => w.answer t .readTap
  | .writeTap => w.answer t .writeTap
  | .write p => w.answer t (.write p)

/-- `hash_table` without members. -/
def noMembers : Members := ⟨[], List.nodup_nil, fun _ => ⟨⟨0, 0⟩, zeroed⟩⟩

/-- Every attempt to connect meets the same, nothing arrives, and there are no other threads. -/
def World.quiet (dial : Dial) : World where
  reply _ c := match c with
    | .table => noMembers
    | .linkState => zeroed
    | .clock => ⟨0, 0⟩
    | .dial _ _ | .dialName _ _ => dial
    | .accept => ⟨-1, none, 0, none⟩
    | .receive _ | .readTap => none
    | .writeTap | .write _ => (0 : Int)
    | .readBegin | .readEnd | .writeBegin | .writeEnd | .insert _ _ | .delete _ | .stamp _ _
    | .setAddress _ => ()
  others := id

/-- How far a call of `connectbyaddr` gets: it returns `NULL`, exits, or comes to the join exchange.
-/
inductive Reached
  | null
  | exits
  | joins
  deriving DecidableEq, Repr

/-- How far a call of `connectbyaddr` gets, from the results of the system calls alone. -/
def Dial.reached (d : Dial) (ls : LinkState) : Reached :=
  if d.socket ≠ 0 ∨ d.setsockopt = false ∨ d.connect = false then .null
  else if ls.ipAddr = 0xFFFFFFFF ∧ d.sockname = none then .exits
  else .joins

section

variable {w : World} {dm : DataModel} {d : Buf} {t : Thread} {α β : Type}

open Prog

/-- Outside its section a thread enters the lock. -/
theorem begin_outside (hout : t.inside = false) :
    readBegin.run (handle w) t = .ok ((), t) ∧
      writeBegin.run (handle w) t = .ok ((), { t with inside := true }) := by
  have hread : handle w .readBegin t = .ok ((), t) := by simp [handle, hout]
  have hwrite : handle w .writeBegin t = .ok ((), { t with inside := true }) := by
    simp [handle, hout]
  exact ⟨run_call_of_ok hread, run_call_of_ok hwrite⟩

/-- Inside a section `readBegin` and `writeBegin` do not return. -/
theorem begin_inside (hin : t.inside = true) :
    readBegin.run (handle w) t = .error .reentry ∧
      writeBegin.run (handle w) t = .error .reentry := by
  have hread : handle w .readBegin t = .error .reentry := by simp [handle, hin]
  have hwrite : handle w .writeBegin t = .error .reentry := by simp [handle, hin]
  exact ⟨run_call_of_error hread, run_call_of_error hwrite⟩

theorem initialJoinClient_inside (hin : t.inside = true) (c : Dial) :
    (initialJoinClient c).run (handle w) t = .error .reentry := by
  rw [initialJoinClient, run_bind_of_ok rfl, run_bind_of_error (begin_inside hin).1]

/-- A member that is found is deleted, and the section is closed. -/
theorem removeMember_found (hout : t.inside = false) {p q : Ptr}
    (hfind : t.members.find (t.members.key p) = some q) : (removeMember p).run (handle w) t =
      .ok ((), { t with inside := false, members := w.others (t.members.remove p) }) := by
  have hdelete : (deleteIfFound p).run (handle w) { t with inside := true } =
      .ok ((), { t with inside := true, members := t.members.remove p }) := by
    rw [deleteIfFound, run_bind_of_ok rfl]
    dsimp only
    rw [hfind]
    rfl
  rw [removeMember, run_bind_of_ok (begin_outside hout).2, run_bind_of_ok rfl]
  dsimp only
  rw [hfind]
  dsimp only
  rw [run_bind_of_ok hdelete]
  rfl

/-- The search for the local address exits, or leaves the thread where it is. -/
theorem findAddress_run (sockname : Option UInt32) (addr : UInt32 → UInt32) :
    (t.linkState.ipAddr = 0xFFFFFFFF ∧ sockname = none ∧
      (findAddress sockname addr).run (handle w) t = .error .exit) ∨
    (¬(t.linkState.ipAddr = 0xFFFFFFFF ∧ sockname = none) ∧
      ∃ t', (findAddress sockname addr).run (handle w) t = .ok ((), t') ∧ t'.inside = t.inside) := by
  unfold findAddress
  rw [run_bind_of_ok rfl]
  by_cases hip : t.linkState.ipAddr = 0xFFFFFFFF
  · rw [if_pos hip]
    cases sockname with
    | none => exact .inl ⟨hip, rfl, rfl⟩
    | some a => exact .inr ⟨fun h => Option.some_ne_none a h.2, _, rfl, rfl⟩
  · rw [if_neg hip]
    exact .inr ⟨fun h => hip h.1, _, rfl, rfl⟩

/-- What the system makes of a call of `connectbyaddr`. -/
def World.dial (w : World) (k : ℕ) (addr : UInt32) (port : UInt16) : Dial := w.reply k (.dial addr port)

theorem dial_run (addr : UInt32) (port : UInt16) : (dial addr port).run (handle w) t =
    .ok (w.dial t.replies addr port, { t with replies := t.replies + 1 }) := rfl

/-- Inside a section a call of `connectbyaddr` does not get past the join exchange. -/
theorem connectbyaddr_inside (hin : t.inside = true) (addr : UInt32) (port : UInt16) :
    (connectbyaddr addr port).run (handle w) t =
      match (w.dial t.replies addr port).reached t.linkState with
      | .null => .ok (none, { t with replies := t.replies + 1 })
      | .exits => .error .exit
      | .joins => .error .reentry := by
  unfold connectbyaddr Dial.reached
  rw [run_bind_of_ok (dial_run addr port)]
  generalize w.dial t.replies addr port = c
  by_cases hnull : c.socket ≠ 0 ∨ c.setsockopt = false ∨ c.connect = false
  · rw [if_pos hnull]
    rcases hnull with hsocket | hopt | hconn
    · rw [if_pos hsocket]
      rfl
    · simp only [hopt, Bool.not_false, if_true]
      split_ifs <;> rfl
    · simp only [hconn, Bool.not_false, if_true]
      split_ifs <;> rfl
  · rw [if_neg hnull]
    obtain ⟨hsocket, hopt, hconn⟩ : c.socket = 0 ∧ c.setsockopt = true ∧ c.connect = true := by
      simpa [not_or] using hnull
    simp only [hsocket, hopt, hconn, ne_eq, not_true_eq_false, if_false, Bool.not_true,
      Bool.false_eq_true]
    rcases findAddress_run (w := w) (t := { t with replies := t.replies + 1 }) c.sockname
      fun _ => addr with ⟨hip, hname, hrun⟩ | ⟨hno, t', hrun, hin'⟩
    · rw [run_bind_of_error hrun, if_pos ⟨hip, hname⟩]
    · rw [run_bind_of_ok hrun, run_bind_of_error (initialJoinClient_inside (hin'.trans hin) c),
        if_neg hno]

/-! ## The loop over the records -/

/-- The record at an offset names a proxy that is neither the local one nor a member. -/
def Unknown (dm : DataModel) (d : Buf) (m : Members) (ls : LinkState) (ptr : ℕ) : Prop :=
  (ldRecord dm d ptr).proxy1.tapMAC ≠ ls.tapMAC ∧
    m.find (ldRecord dm d ptr).proxy1.tapMAC = none

instance (dm : DataModel) (d : Buf) (m : Members) (ls : LinkState) (ptr : ℕ) :
    Decidable (Unknown dm d m ls ptr) :=
  inferInstanceAs (Decidable (_ ∧ _))

/-- The first of `n` records from an offset on that names an unknown proxy. -/
def firstUnknown (dm : DataModel) (d : Buf) (m : Members) (ls : LinkState) : ℕ → ℕ → Option ℕ
  | 0, _ => none
  | n + 1, ptr =>
    if Unknown dm d m ls ptr then some ptr else firstUnknown dm d m ls n (ptr + recordSize dm)

/-- How far a call of `connectbyaddr` gets with the `link_state` at an offset, after `k` replies of
the system. -/
def reachedAt (w : World) (d : Buf) (ls : LinkState) (k off : ℕ) : Reached :=
  (w.dial k (ldLinkState d off).ipAddr (ntohs (ldLinkState d off).listenPort)).reached ls

/-- A record of a known proxy changes a timestamp at most. -/
theorem receiveRecord_known {ptr : ℕ} (hknown : ¬Unknown dm d t.members t.linkState ptr) :
    ∃ m : Members, m.find = t.members.find ∧
      (receiveRecord dm d ptr).run (handle w) t = .ok ((), { t with members := m }) := by
  unfold receiveRecord
  rw [run_bind_of_ok rfl]
  by_cases hlocal : (ldRecord dm d ptr).proxy1.tapMAC = t.linkState.tapMAC
  · rw [if_pos hlocal]
    exact ⟨t.members, rfl, rfl⟩
  · obtain ⟨pp, hpp⟩ := Option.ne_none_iff_exists'.1 fun hnone => hknown ⟨hlocal, hnone⟩
    rw [if_neg hlocal, run_bind_of_ok rfl]
    dsimp only
    rw [hpp]
    refine ⟨t.members.setTimestamp pp ⟨dm.toLong (ntohl (ldRecord dm d ptr).sec),
      dm.toLong (ntohl (ldRecord dm d ptr).nsec)⟩, ?_, rfl⟩
    funext mac
    exact Members.setTimestamp_find ..

/-- The end of a run that dials an unknown proxy of a record: a `NULL` is used. -/
def Reached.stop : Reached → Stop
  | .null => .fault
  | .exits => .exit
  | .joins => .reentry

/-- A record of an unknown proxy is dialled, and the run ends. -/
theorem receiveRecord_unknown {ptr : ℕ} (hin : t.inside = true)
    (hunknown : Unknown dm d t.members t.linkState ptr) :
    (receiveRecord dm d ptr).run (handle w) t =
      .error (reachedAt w d t.linkState t.replies ptr).stop := by
  have hdial := connectbyaddr_inside (w := w) hin (ldLinkState d ptr).ipAddr
    (ntohs (ldLinkState d ptr).listenPort)
  obtain ⟨hlocal, hnone⟩ := hunknown
  unfold receiveRecord reachedAt
  rw [run_bind_of_ok rfl, if_neg hlocal, run_bind_of_ok rfl]
  dsimp only
  rw [hnone]
  dsimp only
  rw [run_bind, hdial]
  cases (w.dial t.replies (ldLinkState d ptr).ipAddr
    (ntohs (ldLinkState d ptr).listenPort)).reached t.linkState <;> rfl

/-- Which proxies are unknown depends on the lookups only. -/
theorem firstUnknown_congr {m m' : Members} (hm : m'.find = m.find) (ls : LinkState) (n ptr : ℕ) :
    firstUnknown dm d m' ls n ptr = firstUnknown dm d m ls n ptr := by
  induction n generalizing ptr with
  | zero => rfl
  | succ n ih =>
    have hiff : Unknown dm d m' ls ptr ↔ Unknown dm d m ls ptr := by
      rw [Unknown, Unknown, hm]
    simp only [firstUnknown, hiff, ih]

/-- **The loop ends at the first unknown proxy**, or comes to its end. -/
theorem recordLoop_run (hin : t.inside = true) (n ptr : ℕ) :
    (firstUnknown dm d t.members t.linkState n ptr = none →
      ∃ t', (recordLoop dm d n ptr).run (handle w) t = .ok ((), t')) ∧
    ∀ off, firstUnknown dm d t.members t.linkState n ptr = some off →
      (recordLoop dm d n ptr).run (handle w) t =
        .error (reachedAt w d t.linkState t.replies off).stop := by
  induction n generalizing t ptr with
  | zero => exact ⟨fun _ => ⟨t, rfl⟩, fun off h => by cases h⟩
  | succ n ih =>
    unfold firstUnknown recordLoop
    by_cases hunknown : Unknown dm d t.members t.linkState ptr
    · rw [if_pos hunknown, run_bind_of_error (receiveRecord_unknown hin hunknown)]
      refine ⟨fun h => ?_, fun off h => ?_⟩
      · cases h
      · cases h
        rfl
    · obtain ⟨m, hm, hrun⟩ := receiveRecord_known (w := w) hunknown
      rw [if_neg hunknown, run_bind_of_ok hrun, ← firstUnknown_congr hm]
      exact ih (t := { t with members := m }) hin (ptr + recordSize dm)

/-! ## Every packet -/

/-- Inside the section a known source changes nothing, and an unknown one is dialled. -/
theorem receiveSource_inside (hin : t.inside = true) :
    (receiveSource (ldLinkState d 2)).run (handle w) t =
      if (t.members.find (ldLinkState d 2).tapMAC).isSome then .ok ((), t)
      else match reachedAt w d t.linkState t.replies 2 with
        | .null => .ok ((), { t with replies := t.replies + 1 })
        | .exits => .error .exit
        | .joins => .error .reentry := by
  have hdial := connectbyaddr_inside (w := w) hin (ldLinkState d 2).ipAddr
    (ntohs (ldLinkState d 2).listenPort)
  unfold receiveSource reachedAt
  rw [run_bind_of_ok rfl]
  cases t.members.find (ldLinkState d 2).tapMAC with
  | some pp => rfl
  | none =>
    dsimp only
    rw [run_bind, hdial]
    cases (w.dial t.replies (ldLinkState d 2).ipAddr
      (ntohs (ldLinkState d 2).listenPort)).reached t.linkState <;> rfl

/-- Where it finds one, it comes to `remove_member` behind what the others do to the table. -/
theorem leave_some {q : Ptr} (hout : t.inside = false)
    (hfind : t.members.find (ldLinkState d 0).tapMAC = some q) :
    (leave d).run (handle w) t = (removeMember q >>= fun _ => pure 0).run (handle w)
      { t with members := w.others t.members } := by
  rw [leave, run_bind_of_ok (begin_outside hout).1, run_bind_of_ok rfl, run_bind_of_ok rfl, hfind]

end

/-- A thread that starts a dispatch, with a table and the local `link_state`. -/
def start (m : Members) (ls : LinkState) : Thread := ⟨false, m, ls, 0⟩

end LinkProxy.Program
