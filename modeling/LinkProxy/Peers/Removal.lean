import LinkProxy.Foundations.Transition
import LinkProxy.Peers.Members

/-!
# The threads that remove a peer

A peer `P` in the membership list may be removed by its `eth_handler`, by its `timeout_handler`, by
`tap_handler` when a write to `P` fails, and by the `Leave` of any `eth_handler` that receives a
LEAVE packet with the address of `P`. `removal` is the system of these threads. A critical section
of the lock is one step, and what a thread does between two sections is a step of its own; a
cancellation is noted and acts at the next cancellation point of the thread, such as
`pthread_testcancel` or `close`.

`remove_member` closes the descriptor, frees the object and cancels its `eth_handler` after it has
left its critical section, and nobody asks again whether `P` is a member before acting on a decision
to remove it. So `P` is removed once in every run in which nobody removes it while another thread
has decided to, and in which its `eth_handler` does not decide to after it has been removed
(`removed_atMostOnce`); each of these steps can be followed by a use of `P` after its removal.
-/

namespace LinkProxy.Peers

open Wire

/-- The threads that call `remove_member(P)`: the `eth_handler` of `P`, and others that execute
`Leave`. -/
inductive Thread (ι : Type)
  | eth
  | leave (i : ι)
  deriving DecidableEq

/-- Where a thread is in `remove_member(P)`: outside, before its critical section, before `close`
and before `pthread_cancel`. -/
inductive CallPc
  | outside
  | entered
  | unlinked
  | closed
  deriving DecidableEq

/-- Where `eth_handler` is: before the header of a packet, behind the test for cancellation that
follows it, in `remove_member`, and at its end. -/
inductive EthPc
  | header
  | body
  | removing
  | gone
  deriving DecidableEq

/-- Where `timeout_handler` is: before and behind its last test for cancellation, and at its end. -/
inductive TimeoutPc
  | waiting
  | expired
  | gone
  deriving DecidableEq

/-- The list, the threads and what they have done. -/
structure Race (ι : Type) where
  members : Members
  /-- A thread has returned without `writeEnd`. -/
  kept : Bool
  eth : EthPc
  timeout : TimeoutPc
  call : Thread ι → CallPc
  cancelEth : Bool
  cancelTimeout : Bool
  /-- How often `HASH_DEL` of `P` has been executed. -/
  unlinks : ℕ
  /-- How often the descriptor of `P` has been closed. -/
  closes : ℕ
  /-- There was a lookup or a deletion through `P` after `P` had been unlinked. -/
  misused : Bool

/-- A step of a thread, or of another peer. -/
inductive Move (ι : Type)
  /-- The header of a packet is there, and `eth_handler` is not cancelled. -/
  | packet
  /-- The packet has been handled, and `eth_handler` is not cancelled. -/
  | handled
  /-- The end of the stream or a bad packet. -/
  | decide
  /-- `Leave` has found `P` under the read lock. -/
  | leave (x : Thread ι) (mac : MAC)
  /-- The critical section of `remove_member`. -/
  | remove (x : Thread ι)
  | close (x : Thread ι)
  | cancel (x : Thread ι)
  /-- The other thread is cancelled in `close`. -/
  | cut (i : ι)
  /-- `remove_member` has returned to `eth_handler`. -/
  | returned
  | ethCancelled
  | expire
  | timeoutCancelled
  /-- The critical section of `timeout_handler`. -/
  | timeoutRemove
  /-- The critical section of `tap_handler`, with a failed write to `P`. -/
  | tapFails
  | otherJoins (q : Ptr) (x : Peer)
  | otherRemoved (q : Ptr)

namespace Race

variable {ι : Type} [DecidableEq ι]

/-- `HASH_FIND` with the key of `P`. -/
def lookup (s : Race ι) : Race ι := { s with misused := s.misused || decide (0 < s.unlinks) }

/-- `HASH_DEL(hash_table, P)`. -/
def unlink (P : Ptr) (s : Race ι) : Race ι :=
  { s with
    members := s.members.remove P
    unlinks := s.unlinks + 1
    misused := s.misused || decide (0 < s.unlinks) }

/-- A thread moves on in `remove_member`. -/
def goto (x : Thread ι) (pc : CallPc) (s : Race ι) : Race ι :=
  { s with call := Function.update s.call x pc }

/-- `remove_member`, from `writeBegin` to `writeEnd` or to the return that leaves the lock. -/
def removeMember (P : Ptr) (x : Thread ι) (s : Race ι) : Race ι :=
  let s := s.lookup
  match s.members.find (s.members.key P) with
  | none => { s.goto x .outside with kept := true }
  | some _ =>
    let s := { s with cancelTimeout := true }.lookup
    match s.members.find (s.members.key P) with
    | none => s.goto x .unlinked
    | some _ => (s.unlink P).goto x .unlinked

/-- The end of `timeout_handler`. A cancellation that came too late for the test acts in `close`,
and the lock is kept. -/
def timeoutSection (P : Ptr) (s : Race ι) : Race ι :=
  let s := s.unlink P
  if s.cancelTimeout then { s with timeout := .gone, kept := true }
  else { s with timeout := .gone, closes := s.closes + 1, cancelEth := true }

/-- The removal in `tap_handler`. -/
def tapSection (P : Ptr) (s : Race ι) : Race ι :=
  let s := { s with cancelTimeout := true }.unlink P
  { s with closes := s.closes + 1, cancelEth := true }

/-- `close(pp->rio.fd)` in `remove_member`, where a cancelled `eth_handler` ends. -/
def closeFd (x : Thread ι) (s : Race ι) : Race ι :=
  if x = .eth ∧ s.cancelEth then { s.goto x .outside with eth := .gone }
  else { s.goto x .closed with closes := s.closes + 1 }

/-- One step, if it is possible. -/
def step (P : Ptr) (s : Race ι) : Move ι → Option (Race ι)
  | .packet => if s.eth = .header ∧ ¬ s.cancelEth then some { s with eth := .body } else none
  | .handled => if s.eth = .body ∧ ¬ s.cancelEth then some { s with eth := .header } else none
  | .decide =>
    if s.eth = .header ∧ ¬ s.cancelEth ∨ s.eth = .body then
      some { s.goto .eth .entered with eth := .removing }
    else none
  | .leave x mac =>
    if s.kept ∨ s.members.find mac ≠ some P then none
    else match x with
      | .eth => if s.eth = .body then some { s.goto .eth .entered with eth := .removing } else none
      | .leave _ => if s.call x = .outside then some (s.goto x .entered) else none
  | .remove x =>
    if s.kept ∨ s.call x ≠ .entered then none else some (s.removeMember P x)
  | .close x => if s.call x = .unlinked then some (s.closeFd x) else none
  | .cancel x =>
    if s.call x = .closed then some { s.goto x .outside with cancelEth := true } else none
  | .cut i => if s.call (.leave i) = .unlinked then some (s.goto (.leave i) .outside) else none
  | .returned =>
    if s.eth = .removing ∧ s.call .eth = .outside then
      some { s with eth := if s.cancelEth then .gone else .body }
    else none
  | .ethCancelled =>
    if s.cancelEth ∧ (s.eth = .header ∨ s.eth = .body) then some { s with eth := .gone } else none
  | .expire =>
    if s.timeout = .waiting ∧ ¬ s.cancelTimeout then some { s with timeout := .expired } else none
  | .timeoutCancelled =>
    if s.timeout = .waiting ∧ s.cancelTimeout then some { s with timeout := .gone } else none
  | .timeoutRemove =>
    if s.kept ∨ s.timeout ≠ .expired then none else some (s.timeoutSection P)
  | .tapFails => if s.kept ∨ P ∉ s.members.order then none else some (s.tapSection P)
  | .otherJoins q x =>
    if h : s.kept ∨ q = P ∨ q ∈ s.members.order then none
    else some { s with members := s.members.add q (fun hq => h (.inr (.inr hq))) x }
  | .otherRemoved q =>
    if s.kept ∨ q = P then none else some { s with members := s.members.remove q }

/-- The threads of a `P` that has just been added. -/
def removal (P : Ptr) : TransitionSystem (Race ι) (Move ι) where
  init s := P ∈ s.members.order ∧ s.kept = false ∧ s.eth = .header ∧ s.timeout = .waiting ∧
    (∀ x, s.call x = .outside) ∧ s.cancelEth = false ∧ s.cancelTimeout = false ∧ s.unlinks = 0 ∧
    s.closes = 0 ∧ s.misused = false
  step s e t := s.step P e = some t

/-- `P` has been unlinked and closed at most once, and there was no lookup or deletion through `P`
after that. -/
def AtMostOnce (s : Race ι) : Prop := s.unlinks ≤ 1 ∧ s.closes ≤ 1 ∧ s.misused = false

/-- Nobody removes `P` when another thread has decided to, and `eth_handler` does not decide to when
`P` is not a member. -/
def Undisputed (P : Ptr) (s : Race ι) : Move ι → Prop
  | .decide => P ∈ s.members.order
  | .remove x => s.timeout ≠ .expired ∧ ∀ y, y ≠ x → s.call y ≠ .entered
  | .timeoutRemove => ∀ y, s.call y ≠ .entered
  | .tapFails => s.timeout ≠ .expired ∧ ∀ y, s.call y ≠ .entered
  | _ => True

/-! ## The invariant -/

/-- A thread that has decided to remove `P` has a member to remove, `P` has been unlinked once if it
is not a member, and one thread closes it. -/
structure Inv (P : Ptr) (s : Race ι) : Prop where
  misused : s.misused = false
  kept : s.kept = false
  unlinks : s.unlinks = if P ∈ s.members.order then 0 else 1
  closes : s.closes ≤ s.unlinks
  entered : ∀ x, s.call x = .entered → P ∈ s.members.order
  expired : s.timeout = .expired → P ∈ s.members.order
  waiting : s.timeout = .waiting → P ∉ s.members.order → s.cancelTimeout = true
  cancelTimeout : s.cancelTimeout = true → P ∉ s.members.order
  closing : ∀ x, s.call x = .unlinked →
    P ∉ s.members.order ∧ s.closes = 0 ∧ ∀ y, s.call y = .unlinked → y = x

variable {P : Ptr} {s t : Race ι}

omit [DecidableEq ι] in
theorem Inv.atMostOnce (h : s.Inv P) : s.AtMostOnce := by
  have hunlinks : s.unlinks ≤ 1 := by
    rw [h.unlinks]
    split_ifs <;> omega
  exact ⟨hunlinks, h.closes.trans hunlinks, h.misused⟩

omit [DecidableEq ι] in
/-- A member has not been unlinked, and nobody is about to close it. -/
theorem Inv.of_mem (h : s.Inv P) (hP : P ∈ s.members.order) :
    s.unlinks = 0 ∧ s.closes = 0 ∧ ∀ x, s.call x ≠ .unlinked := by
  have hunlinks : s.unlinks = 0 := by rw [h.unlinks, if_pos hP]
  exact ⟨hunlinks, by have := h.closes; omega, fun x hx => (h.closing x hx).1 hP⟩

omit [DecidableEq ι] in
theorem Inv.unlinks_of_not_mem (h : s.Inv P) (hP : P ∉ s.members.order) : s.unlinks = 1 := by
  rw [h.unlinks, if_neg hP]

omit [DecidableEq ι] in
theorem not_mem_unlink : P ∉ (s.unlink P).members.order := by
  rw [unlink, Members.mem_remove]
  exact fun h => h.1 rfl

omit [DecidableEq ι] in
/-- A member is unlinked, and no other thread has decided to remove it. -/
theorem Inv.unlinked (h : s.Inv P) (hP : P ∈ s.members.order) (ht : t.members = (s.unlink P).members)
    (hunlinks : t.unlinks = s.unlinks + 1) (hmisused : t.misused = false) (hkept : t.kept = false)
    (hcloses : t.closes ≤ s.closes + 1) (hentered : ∀ x, t.call x ≠ .entered)
    (hexpired : t.timeout ≠ .expired) (htimeout : t.timeout = .waiting → t.cancelTimeout = true)
    (hclosing : ∀ x, t.call x = .unlinked →
      t.closes = s.closes ∧ ∀ y, t.call y = .unlinked → y = x) : t.Inv P := by
  obtain ⟨hunlinks₀, hcloses₀, -⟩ := h.of_mem hP
  have hnot : P ∉ t.members.order := ht ▸ not_mem_unlink
  refine ⟨hmisused, hkept, ?_, ?_, fun x hx => absurd hx (hentered x),
    fun hx => absurd hx hexpired, fun hx _ => htimeout hx, fun _ => hnot, fun x hx => ?_⟩
  · rw [hunlinks, if_neg hnot, hunlinks₀]
  · omega
  · exact ⟨hnot, (hclosing x hx).1.trans hcloses₀, (hclosing x hx).2⟩

/-- A thread that is elsewhere after one has moved is another one, which has not moved. -/
theorem call_goto {x y : Thread ι} {pc pc' : CallPc} (h : (s.goto x pc).call y = pc')
    (hne : pc' ≠ pc) : y ≠ x ∧ s.call y = pc' := by
  have h : Function.update s.call x pc y = pc' := h
  by_cases hyx : y = x
  · rw [hyx, Function.update_self] at h
    exact absurd h.symm hne
  · exact ⟨hyx, by rwa [Function.update_of_ne hyx] at h⟩

/-! ## The critical sections -/

omit [DecidableEq ι] in
/-- A member is found with its own key. -/
theorem find_key (h : P ∈ s.members.order) : ∃ q, s.members.find (s.members.key P) = some q :=
  Option.isSome_iff_exists.1 (Members.find_isSome.2 ⟨P, h, rfl⟩)

/-- The critical section of `remove_member`, given a member. -/
theorem removeMember_of_mem (h : P ∈ s.members.order) (x : Thread ι) : s.removeMember P x =
    ({ s.lookup with cancelTimeout := true }.lookup.unlink P).goto x .unlinked := by
  obtain ⟨q, hq⟩ := find_key h
  simp only [removeMember, lookup, hq]

theorem Inv.removeMember (h : s.Inv P) {x : Thread ι} (hx : s.call x = .entered)
    (hexpired : s.timeout ≠ .expired) (hother : ∀ y, y ≠ x → s.call y ≠ .entered) :
    (s.removeMember P x).Inv P := by
  have hP := h.entered x hx
  obtain ⟨hunlinks, -, hclosing⟩ := h.of_mem hP
  have hself (z : Thread ι) (hz : Function.update s.call x .unlinked z = .unlinked) : z = x := by
    by_contra hzx
    rw [Function.update_of_ne hzx] at hz
    exact hclosing z hz
  rw [removeMember_of_mem hP]
  refine h.unlinked hP rfl rfl ?_ h.kept (Nat.le_succ _) (fun y hy => ?_) hexpired (fun _ => rfl)
    fun y hy => ⟨rfl, fun z hz => (hself z hz).trans (hself y hy).symm⟩
  · simp [goto, lookup, unlink, h.misused, hunlinks]
  · obtain ⟨hyx, hy⟩ := call_goto hy (by simp)
    exact hother y hyx hy

omit [DecidableEq ι] in
/-- The critical section of `timeout_handler`, given a member. -/
theorem Inv.timeoutSection_eq (h : s.Inv P) (hP : P ∈ s.members.order) : s.timeoutSection P =
    { s.unlink P with timeout := .gone, closes := s.closes + 1, cancelEth := true } := by
  have hcancel : s.cancelTimeout = false := Bool.not_eq_true _ ▸ fun hc => h.cancelTimeout hc hP
  simp [Race.timeoutSection, unlink, hcancel]

omit [DecidableEq ι] in
theorem Inv.timeoutSection (h : s.Inv P) (hx : s.timeout = .expired)
    (hother : ∀ y, s.call y ≠ .entered) : (s.timeoutSection P).Inv P := by
  have hP := h.expired hx
  obtain ⟨hunlinks, -, hclosing⟩ := h.of_mem hP
  rw [h.timeoutSection_eq hP]
  refine h.unlinked hP rfl rfl ?_ h.kept le_rfl hother (by simp) (by simp)
    fun y hy => absurd hy (hclosing y)
  simp [unlink, h.misused, hunlinks]

omit [DecidableEq ι] in
theorem Inv.tapSection (h : s.Inv P) (hP : P ∈ s.members.order) (hexpired : s.timeout ≠ .expired)
    (hother : ∀ y, s.call y ≠ .entered) : (s.tapSection P).Inv P := by
  obtain ⟨hunlinks, -, hclosing⟩ := h.of_mem hP
  refine h.unlinked hP rfl rfl ?_ h.kept le_rfl hother hexpired (fun _ => rfl)
    fun y hy => absurd hy (hclosing y)
  simp [Race.tapSection, unlink, h.misused, hunlinks]

/-! ## Outside the critical sections -/

omit [DecidableEq ι] in
/-- Steps of `eth_handler` and in `remove_member` that leave the list and the counts. -/
theorem Inv.frame (h : s.Inv P) (eth : EthPc) (cancelEth : Bool) {call : Thread ι → CallPc}
    (hentered : ∀ x, call x = .entered → s.call x = .entered ∨ P ∈ s.members.order)
    (hclosing : ∀ x, call x = .unlinked → s.call x = .unlinked) :
    Inv P { s with eth := eth, cancelEth := cancelEth, call := call } where
  misused := h.misused
  kept := h.kept
  unlinks := h.unlinks
  closes := h.closes
  entered x hx := (hentered x hx).elim (h.entered x) id
  expired := h.expired
  waiting := h.waiting
  cancelTimeout := h.cancelTimeout
  closing x hx := by
    obtain ⟨hnot, hzero, hself⟩ := h.closing x (hclosing x hx)
    exact ⟨hnot, hzero, fun y hy => hself y (hclosing y hy)⟩

/-- A thread enters `remove_member` while `P` is a member. -/
theorem Inv.enter (h : s.Inv P) (hP : P ∈ s.members.order) (eth : EthPc) (x : Thread ι) :
    Inv P { s.goto x .entered with eth := eth } := by
  exact h.frame eth s.cancelEth (fun _ _ => .inr hP) fun y hy => (call_goto hy (by simp)).2

/-- A thread goes on behind the critical section. -/
theorem Inv.leave (h : s.Inv P) (eth : EthPc) (cancelEth : Bool) (x : Thread ι) :
    Inv P { s.goto x .outside with eth := eth, cancelEth := cancelEth } := by
  exact h.frame eth cancelEth (fun y hy => .inl (call_goto hy (by simp)).2)
    fun y hy => (call_goto hy (by simp)).2

/-- One thread closes the descriptor. -/
theorem Inv.closeFd (h : s.Inv P) {x : Thread ι} (hx : s.call x = .unlinked) :
    (s.closeFd x).Inv P := by
  obtain ⟨hnot, hzero, hself⟩ := h.closing x hx
  unfold Race.closeFd
  split_ifs
  · exact h.leave .gone s.cancelEth x
  · refine ⟨h.misused, h.kept, h.unlinks, ?_, fun y hy => ?_, h.expired, h.waiting,
      h.cancelTimeout, fun y hy => ?_⟩
    · simp only [goto, hzero, h.unlinks_of_not_mem hnot, Nat.zero_add, le_refl]
    · exact h.entered y (call_goto hy (by simp)).2
    · obtain ⟨hyx, hy⟩ := call_goto hy (by simp)
      exact absurd (hself y hy) hyx

omit [DecidableEq ι] in
/-- Another peer joins or is removed. -/
theorem Inv.others (h : s.Inv P) {m : Members} (hm : P ∈ m.order ↔ P ∈ s.members.order) :
    Inv P { s with members := m } where
  misused := h.misused
  kept := h.kept
  unlinks := by simp only [hm, h.unlinks]
  closes := h.closes
  entered x hx := hm.2 (h.entered x hx)
  expired hx := hm.2 (h.expired hx)
  waiting hx hP := h.waiting hx (hm.not.1 hP)
  cancelTimeout hc := hm.not.2 (h.cancelTimeout hc)
  closing x hx := by
    obtain ⟨hnot, hrest⟩ := h.closing x hx
    exact ⟨hm.not.2 hnot, hrest⟩

/-! ## Runs -/

omit [DecidableEq ι] in
theorem mem_of_leave {mac : MAC} (h : ¬ (s.kept = true ∨ s.members.find mac ≠ some P)) :
    P ∈ s.members.order :=
  (Members.mem_of_find (not_not.1 fun hne => h (.inr hne))).1

/-- **One undisputed step.** -/
theorem Inv.step {e : Move ι} (h : s.Inv P) (he : s.Undisputed P e) (ht : s.step P e = some t) :
    t.Inv P := by
  have hcall (x : Thread ι) (hx : s.call x = .entered) : s.call x = .entered ∨ P ∈ s.members.order :=
    .inl hx
  cases e with
  | packet | handled | returned | ethCancelled =>
    simp only [Race.step] at ht
    split_ifs at ht
    all_goals
      obtain rfl := Option.some.inj ht
      exact h.frame _ s.cancelEth hcall fun _ => id
  | decide =>
    simp only [Race.step] at ht
    split_ifs at ht
    obtain rfl := Option.some.inj ht
    exact h.enter he .removing .eth
  | leave x mac =>
    cases x with
    | eth =>
      simp only [Race.step] at ht
      split_ifs at ht with hfind
      obtain rfl := Option.some.inj ht
      exact h.enter (mem_of_leave hfind) .removing .eth
    | leave i =>
      simp only [Race.step] at ht
      split_ifs at ht with hfind
      obtain rfl := Option.some.inj ht
      exact h.enter (mem_of_leave hfind) s.eth (.leave i)
  | remove x =>
    simp only [Race.step] at ht
    split_ifs at ht with hx
    obtain rfl := Option.some.inj ht
    exact h.removeMember (not_not.1 fun hne => hx (.inr hne)) he.1 he.2
  | close x =>
    simp only [Race.step] at ht
    split_ifs at ht with hx
    obtain rfl := Option.some.inj ht
    exact h.closeFd hx
  | cancel x =>
    simp only [Race.step] at ht
    split_ifs at ht
    obtain rfl := Option.some.inj ht
    exact h.leave s.eth true x
  | cut i =>
    simp only [Race.step] at ht
    split_ifs at ht
    obtain rfl := Option.some.inj ht
    exact h.leave s.eth s.cancelEth (.leave i)
  | expire =>
    simp only [Race.step] at ht
    split_ifs at ht with hx
    obtain rfl := Option.some.inj ht
    -- a waiting thread that is not cancelled has a member
    exact ⟨h.misused, h.kept, h.unlinks, h.closes, h.entered,
      fun _ => not_not.1 fun hP => hx.2 (h.waiting hx.1 hP), by simp, h.cancelTimeout, h.closing⟩
  | timeoutCancelled =>
    simp only [Race.step] at ht
    split_ifs at ht
    obtain rfl := Option.some.inj ht
    exact ⟨h.misused, h.kept, h.unlinks, h.closes, h.entered, by simp, by simp, h.cancelTimeout,
      h.closing⟩
  | timeoutRemove =>
    simp only [Race.step] at ht
    split_ifs at ht with hx
    obtain rfl := Option.some.inj ht
    exact h.timeoutSection (not_not.1 fun hne => hx (.inr hne)) he
  | tapFails =>
    simp only [Race.step] at ht
    split_ifs at ht with hx
    obtain rfl := Option.some.inj ht
    exact h.tapSection (not_not.1 fun hne => hx (.inr hne)) he.1 he.2
  | otherJoins q x =>
    simp only [Race.step] at ht
    split_ifs at ht with hq
    obtain rfl := Option.some.inj ht
    exact h.others (Members.mem_add_of_ne _ _ _ fun heq => hq (.inr (.inl heq.symm)))
  | otherRemoved q =>
    simp only [Race.step] at ht
    split_ifs at ht with hq
    obtain rfl := Option.some.inj ht
    exact h.others ((Members.mem_remove _).trans (and_iff_right fun heq => hq (.inr heq.symm)))

theorem inv_of_reachable (hs : ((removal P).guard (Undisputed P)).Reachable s) : s.Inv P := by
  refine hs.invariant (fun s h => ?_) fun _ _ _ h ht => h.step ht.1 ht.2
  obtain ⟨hP, hkept, -, htimeout, hcall, -, hcancel, hunlinks, hcloses, hmisused⟩ := h
  exact ⟨hmisused, hkept, by rw [hunlinks, if_pos hP], by rw [hcloses]; exact Nat.zero_le _,
    fun x hx => by simp [hcall] at hx, fun hx => by simp [htimeout] at hx,
    fun _ hnot => absurd hP hnot, fun hc => by simp [hcancel] at hc,
    fun x hx => by simp [hcall] at hx⟩

/-! ## Disputed steps -/

/-- A thread that acts on its decision when `P` is gone uses it. -/
theorem misuse_entered {x : Thread ι} (hunlinks : 0 < t.unlinks) (hkept : t.kept = false)
    (hx : t.call x = .entered) : ∃ e t', t.step P e = some t' ∧ ¬ t'.AtMostOnce := by
  refine ⟨.remove x, t.removeMember P x, by simp [step, hkept, hx], fun hmost => ?_⟩
  have hmisused : (t.removeMember P x).misused = true := by
    unfold removeMember
    dsimp only
    split
    · simp [goto, lookup, hunlinks]
    · split <;> simp [goto, unlink, lookup, hunlinks]
  rw [hmost.2.2] at hmisused
  exact absurd hmisused (by decide)

theorem misuse_expired (hunlinks : 0 < t.unlinks) (hkept : t.kept = false)
    (hx : t.timeout = .expired) : ∃ e t', t.step P e = some t' ∧ ¬ t'.AtMostOnce := by
  refine ⟨.timeoutRemove, t.timeoutSection P, by simp [step, hkept, hx], fun hmost => ?_⟩
  have hmisused : (t.timeoutSection P).misused = true := by
    unfold timeoutSection
    dsimp only
    split_ifs <;> simp [unlink, hunlinks]
  rw [hmost.2.2] at hmisused
  exact absurd hmisused (by decide)

/-- **A disputed step can be followed by a use of `P` after its removal.** -/
theorem Inv.disputed {e : Move ι} (h : s.Inv P) (he : ¬ s.Undisputed P e)
    (ht : s.step P e = some t) : ∃ e' t', t.step P e' = some t' ∧ ¬ t'.AtMostOnce := by
  cases e with
  | decide =>
    simp only [Race.step] at ht
    split_ifs at ht
    obtain rfl := Option.some.inj ht
    have hunlinks := h.unlinks_of_not_mem he
    exact misuse_entered (by simp [goto, hunlinks]) h.kept (x := .eth) (by simp [goto])
  | remove x =>
    simp only [Race.step] at ht
    split_ifs at ht with hx
    obtain rfl := Option.some.inj ht
    have hP := h.entered x (not_not.1 fun hne => hx (.inr hne))
    rw [removeMember_of_mem hP]
    rcases not_and_or.1 he with hexpired | hentered
    · exact misuse_expired (Nat.succ_pos _) h.kept (not_not.1 hexpired)
    · push Not at hentered
      obtain ⟨y, hyx, hy⟩ := hentered
      exact misuse_entered (Nat.succ_pos _) h.kept (x := y)
        (by simpa [goto, unlink, lookup, hyx] using hy)
  | timeoutRemove =>
    simp only [Race.step] at ht
    split_ifs at ht with hx
    obtain rfl := Option.some.inj ht
    have hP := h.expired (not_not.1 fun hne => hx (.inr hne))
    have he : ∃ y, s.call y = .entered := by simpa [Undisputed] using he
    obtain ⟨y, hy⟩ := he
    rw [h.timeoutSection_eq hP]
    exact misuse_entered (Nat.succ_pos _) h.kept hy
  | tapFails =>
    simp only [Race.step] at ht
    split_ifs at ht with hx
    obtain rfl := Option.some.inj ht
    rcases not_and_or.1 he with hexpired | hentered
    · exact misuse_expired (Nat.succ_pos _) h.kept (not_not.1 hexpired)
    · push Not at hentered
      obtain ⟨y, hy⟩ := hentered
      exact misuse_entered (Nat.succ_pos _) h.kept hy
  | _ => exact absurd trivial he

/-- **A peer is removed at most once, and not used after that,** in every run of undisputed steps;
and a step that is disputed can be followed by a use of the peer after its removal. -/
theorem removed_atMostOnce (hs : ((removal P).guard (Undisputed P)).Reachable s) :
    s.AtMostOnce ∧ ∀ e t, s.step P e = some t → ¬ s.Undisputed P e →
      ∃ e' t', t.step P e' = some t' ∧ ¬ t'.AtMostOnce := by
  have h := inv_of_reachable hs
  exact ⟨h.atMostOnce, fun e t ht he => h.disputed he ht⟩

/-- The threads of the only member. -/
def oneMember : Race ℕ where
  members := .single 0 ⟨⟨0, 0⟩, ⟨0, 0, .replicate 6 1, .replicate 6 1⟩⟩
  kept := false
  eth := .header
  timeout := .waiting
  call _ := .outside
  cancelEth := false
  cancelTimeout := false
  unlinks := 0
  closes := 0
  misused := false

theorem init_oneMember : (removal 0).init oneMember :=
  ⟨List.mem_singleton_self 0, rfl, rfl, rfl, fun _ => rfl, rfl, rfl, rfl, rfl, rfl⟩

/-- A write of `tap_handler` fails while nobody else is about to remove the peer. -/
theorem removed_atMostOnce_tap : ∃ s, oneMember.step 0 .tapFails = some s ∧ s.unlinks = 1 ∧
    s.closes = 1 ∧ s.AtMostOnce :=
  ⟨_, rfl, rfl, rfl, (removed_atMostOnce (P := 0) (.step (a := .tapFails) (.init init_oneMember)
    ⟨⟨by decide, fun _ => by simp [oneMember]⟩, rfl⟩)).1⟩

/-- The timeout is behind its last test for cancellation when the end of the stream is found:
`eth_handler` removes the peer and closes the connection, and the timeout deletes it again. -/
theorem removed_twice : ∃ s : Race ℕ, (removal 0).Reachable s ∧ s.unlinks = 2 ∧
    s.misused = true ∧ ¬ s.AtMostOnce := by
  let sched : List (Move ℕ) :=
    [.expire, .decide, .remove .eth, .close .eth, .cancel .eth, .timeoutRemove]
  have run : ∃ s, sched.foldlM (step 0) oneMember = some s ∧ s.unlinks = 2 ∧ s.misused = true :=
    ⟨_, rfl, rfl, rfl⟩
  obtain ⟨s, hrun, hunlinks, hmisused⟩ := run
  refine ⟨s, TransitionSystem.Reachable.of_schedule (fun s e t h => ⟨e, h⟩) sched
    (.init init_oneMember) hrun, hunlinks, hmisused, fun hmost => ?_⟩
  have := hmost.1
  omega

end Race

end LinkProxy.Peers
