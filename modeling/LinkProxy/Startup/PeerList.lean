import LinkProxy.Foundations.SinglyLinked

/-!
# The list of the peers to dial

`main` puts the peers of its configuration into a list of `utlist.h`, which it then goes through:
it connects to a peer, takes its node out of the list and frees it. `LL_PREPEND`, `LL_DELETE` and
the loop of `LL_FOREACH_SAFE` are modelled on the pointers, and a node that is used after it has
been freed is a fault.

`LL_DELETE` takes out the node it is given wherever it stands (`llDelete_spec`). The loop of `main`
connects to the peers of the list in their order, up to the first to which it cannot connect, and
leaves nothing of the list behind (`dialLoop_eq`).
-/

namespace LinkProxy.Startup

/-- Why `main` ends before its accept loop: the process exits; memory is used that must not be; or
it is still running. -/
inductive Stop
  | exit
  | fault
  | running
  deriving DecidableEq, Repr

section

variable {ι α : Type} [DecidableEq ι]

/-! ## `utlist.h` -/

/-- A heap with the head of a list. -/
structure LlList (ι α : Type) where
  heap : ι → Option (Cell ι α)
  head : Option ι

/-- `LL_PREPEND`. -/
def llPrepend (m : LlList ι α) (add : ι) : Option (LlList ι α) := do
  let c ← m.heap add
  return ⟨Function.update m.heap add (some { c with next := m.head }), some add⟩

/-- The loop of `LL_DELETE`: the node from which it does not go on. -/
def llWalk (heap : ι → Option (Cell ι α)) (del : ι) : ℕ → ι → Option ι
  | 0, _ => none
  | n + 1, tmp => do
    let c ← heap tmp
    match c.next with
    | none => return tmp
    | some next => if next = del then return tmp else llWalk heap del n next

/-- `LL_DELETE`. -/
def llDelete (n : ℕ) (m : LlList ι α) (del : ι) : Option (LlList ι α) := do
  if m.head = some del then
    let c ← m.heap del
    return ⟨m.heap, c.next⟩
  else
    let tmp ← llWalk m.heap del n (← m.head)
    let c ← m.heap tmp
    match c.next with
    | none => return m
    | some _ =>
      let d ← m.heap del
      return ⟨Function.update m.heap tmp (some { c with next := d.next }), m.head⟩

/-- The list has these nodes, and each of them once. -/
structure LlList.Holds (m : LlList ι α) (l : List (ι × α)) : Prop where
  linked : Linked m.heap m.head l
  nodup : (l.map Prod.fst).Nodup

theorem llPrepend_spec {m : LlList ι α} {l : List (ι × α)} {add : ι} {c : Cell ι α}
    (h : m.Holds l) (hc : m.heap add = some c) (hadd : add ∉ l.map Prod.fst) :
    ∃ m', llPrepend m add = some m' ∧ m'.Holds ((add, c.val) :: l) ∧
      ∀ p, p ≠ add → m'.heap p = m.heap p := by
  refine ⟨⟨_, _⟩, ?_, ⟨h.linked.prepend hadd c.val, List.nodup_cons.2 ⟨hadd, h.nodup⟩⟩, ?_⟩
  · rw [llPrepend, hc]
    rfl
  · exact fun p hp => Function.update_of_ne hp _ _

section

variable {heap : ι → Option (Cell ι α)} {del a b : ι} {x y : α} {n : ℕ} {q : Option ι}
  {l₁ l₂ : List (ι × α)}

theorem llWalk_of_eq (ha : heap a = some ⟨y, some del⟩) : llWalk heap del (n + 1) a = some a := by
  simp [llWalk, ha]

theorem llWalk_of_ne (ha : heap a = some ⟨y, some b⟩) (hb : b ≠ del) :
    llWalk heap del (n + 1) a = llWalk heap del n b := by
  simp [llWalk, ha, hb]

/-- The loop of `LL_DELETE` finds the node before the one that is deleted, and with its new pointer
the list goes on behind that one. -/
theorem llWalk_spec (hn : l₁.length < n) (hdel : heap del = some ⟨x, q⟩)
    (hl : Linked heap (some a) ((a, y) :: (l₁ ++ (del, x) :: l₂)))
    (hnodup : (((a, y) :: (l₁ ++ (del, x) :: l₂)).map Prod.fst).Nodup) :
    ∃ tmp c, llWalk heap del n a = some tmp ∧ heap tmp = some c ∧ c.next = some del ∧
      tmp ∈ ((a, y) :: l₁).map Prod.fst ∧
      Linked (Function.update heap tmp (some { c with next := q })) (some a)
        ((a, y) :: (l₁ ++ l₂)) := by
  induction l₁ generalizing a y n with
  | nil =>
    obtain ⟨n, rfl⟩ := Nat.exists_eq_add_one_of_ne_zero (by omega : n ≠ 0)
    obtain ⟨-, q', ha, hrest⟩ := id hl
    obtain rfl : q' = some del := hrest.1
    refine ⟨a, ⟨y, some del⟩, llWalk_of_eq ha, ha, rfl, by simp, ?_⟩
    exact hl.unlink (List.nodup_cons.1 hnodup).1 ⟨_, hdel, rfl⟩
  | cons c l₁ ih =>
    obtain ⟨b, z⟩ := c
    obtain ⟨n, rfl⟩ := Nat.exists_eq_add_one_of_ne_zero (by omega : n ≠ 0)
    obtain ⟨-, q', ha, hrest⟩ := hl
    obtain rfl : q' = some b := hrest.1
    obtain ⟨hfresh, hnodup⟩ := List.nodup_cons.1 hnodup
    obtain ⟨tmp, c, hwalk, hcell, hnext, hmem, hlinked⟩ := ih (by simpa using hn) hrest hnodup
    have hbdel : b ≠ del := by
      rintro rfl
      simp at hnodup
    have hne : a ≠ tmp := by
      rintro rfl
      apply hfresh
      simp only [List.cons_append, List.map_cons, List.map_append, List.mem_cons,
        List.mem_append] at hmem ⊢
      tauto
    refine ⟨tmp, c, (llWalk_of_ne ha hbdel).trans hwalk, hcell, hnext,
      List.mem_cons_of_mem _ hmem, rfl, some b, ?_, hlinked⟩
    rw [Function.update_of_ne hne, ha]

end

/-- **`LL_DELETE` takes out the node that it is given.** -/
theorem llDelete_spec {m : LlList ι α} {del : ι} {x : α} {n : ℕ} {l₁ l₂ : List (ι × α)}
    (hn : l₁.length ≤ n) (h : m.Holds (l₁ ++ (del, x) :: l₂)) :
    ∃ m', llDelete n m del = some m' ∧ m'.Holds (l₁ ++ l₂) ∧
      ∀ p, p ∉ l₁.map Prod.fst → m'.heap p = m.heap p := by
  obtain ⟨hlinked, hnodup⟩ := h
  have hnodup' : ((l₁ ++ l₂).map Prod.fst).Nodup :=
    hnodup.sublist (((List.sublist_cons_self _ _).append_left l₁).map _)
  cases l₁ with
  | nil =>
    obtain ⟨hhead, q, hcell, hl⟩ := hlinked
    refine ⟨⟨m.heap, q⟩, ?_, ⟨hl, hnodup'⟩, fun _ _ => rfl⟩
    rw [llDelete, if_pos hhead, hcell]
    rfl
  | cons b l₁ =>
    obtain ⟨b, z⟩ := b
    have hhead : m.head = some b := hlinked.1
    have hbdel : b ≠ del := by
      rintro rfl
      simp at hnodup
    obtain ⟨q, hdel⟩ := hlinked.exists_cell (a := del) (x := x) (by simp)
    rw [hhead] at hlinked
    obtain ⟨tmp, c, hwalk, hcell, hnext, hmem, hl⟩ :=
      llWalk_spec (by simpa using hn) hdel hlinked hnodup
    refine ⟨⟨Function.update m.heap tmp (some { c with next := q }), some b⟩, ?_, ⟨hl, hnodup'⟩,
      fun p hp => Function.update_of_ne ?_ _ _⟩
    · simp [llDelete, hhead, hbdel, hwalk, hcell, hnext, hdel]
    · rintro rfl
      exact hp hmem

/-! ## The loop of `main` -/

section

variable {σ : Type} (connect : σ → α → Option σ)

/-- `LL_FOREACH_SAFE(llhead, add, lltmp)` with its body: connect to the peer, or exit if that fails;
take the node out of the list; free it. The next node is found before. -/
def dialLoop : ℕ → Option ι → LlList ι α → σ → Except Stop (LlList ι α × σ)
  | _, none, m, s => .ok (m, s)
  | 0, some _, _, _ => .error .running
  | n + 1, some add, m, s =>
    match m.heap add with
    | none => .error .fault
    | some c => match connect s c.val with
      | none => .error .exit
      | some s' => match llDelete n m add with
        | none => .error .fault
        | some m' => dialLoop n c.next ⟨Function.update m'.heap add none, m'.head⟩ s'

variable {connect}

/-- **The peers are dialled in the order of the list**, up to the first that cannot be reached. If
there is none, the list is empty at the end, and its nodes, and no others, have been freed. -/
theorem dialLoop_eq {m : LlList ι α} {l : List (ι × α)} {n : ℕ} (hm : m.Holds l)
    (hn : l.length ≤ n) (s : σ) :
    dialLoop connect n m.head m s = match (l.map Prod.snd).foldlM connect s with
      | none => .error .exit
      | some s' => .ok (⟨fun p => if p ∈ l.map Prod.fst then none else m.heap p, none⟩, s') := by
  induction l generalizing m n s with
  | nil =>
    have hhead : m.head = none := hm.linked
    obtain ⟨heap, head⟩ := m
    obtain rfl : head = none := hhead
    simp [dialLoop]
  | cons c l ih =>
    obtain ⟨a, x⟩ := c
    obtain ⟨hhead, q, hcell, hl⟩ := hm.linked
    have hfresh : a ∉ l.map Prod.fst := (List.nodup_cons.1 hm.nodup).1
    obtain ⟨n, rfl⟩ := Nat.exists_eq_add_one_of_ne_zero
      (by simp only [List.length_cons] at hn; omega : n ≠ 0)
    obtain ⟨m', hdelete, hm', hheap⟩ : ∃ m', llDelete n m a = some m' ∧ m'.Holds ([] ++ l) ∧
        ∀ p, p ∉ [] → m'.heap p = m.heap p := llDelete_spec (Nat.zero_le n) hm
    have hnext : q = m'.head := hl.eq_head?.trans hm'.linked.eq_head?.symm
    rw [hhead, dialLoop, hcell]
    simp only [List.map_cons, List.foldlM_cons, hdelete, Option.bind_eq_bind]
    cases hconnect : connect s x with
    | none => rfl
    | some s' =>
      -- the rest of the list does not depend on the node that is freed
      have hrest : (LlList.mk (Function.update m'.heap a none) m'.head).Holds l :=
        ⟨hm'.linked.update hfresh none, hm'.nodup⟩
      rw [Option.bind_some, hnext]
      refine (ih hrest (by simpa using hn) s').trans ?_
      cases (l.map Prod.snd).foldlM connect s' with
      | none => rfl
      | some s'' =>
        simp only [Except.ok.injEq, Prod.mk.injEq, LlList.mk.injEq, and_true]
        ext p : 1
        by_cases hp : p = a
        · subst hp
          simp [hfresh]
        · rw [Function.update_of_ne hp, hheap p List.not_mem_nil]
          exact if_congr (by simp [hp]) rfl rfl

end

end

end LinkProxy.Startup
