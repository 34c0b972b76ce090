import LinkProxy.Uthash.Rep

/-!
# Loops with `HASH_ITER`

`HASH_ITER` keeps two pointers, to the element of this turn and to the one of the next turn, so that
the body may take its element out of the table and free it. The second pointer is followed after the
body has run: the links of the next element must have survived what the body has done.

`hashIter` is the loop over the links, and using an element that has been freed is an error.
`visitAll` is the loop over the list of the elements at the start. `hashIter_eq` says that they do
the same: every element is visited once, in the order of the table, whatever elements the body
removes, nothing is used after it has been freed, and the table that is left holds the others.

Where the body changes nothing that belongs to another element, the loop does one turn to each of
them (`visitAll_visited`).
-/

namespace LinkProxy.Uthash

section

variable {ι σ : Type} [DecidableEq ι]

/-! ## The loop -/

/-- The table, the elements that have been freed, and what else the body works on. -/
structure Iter (ι σ : Type) where
  table : Hash ι
  freed : List ι
  st : σ

namespace Iter

/-- `tmp?tmp->hh.next:NULL`. -/
def next (s : Iter ι σ) : Option ι → Option (Option ι)
  | none => some none
  | some tmp => if tmp ∈ s.freed then none else some (s.table.next tmp)

/-- The body of a loop, on the element `el`. It says whether the element is to be removed, which is
then taken out of the table and freed. -/
def visit (body : ι → σ → Option (Bool × σ)) (el : ι) (s : Iter ι σ) : Option (Iter ι σ) :=
  if el ∈ s.freed then none
  else do
    let (remove, st) ← body el s.st
    if remove then
      let table ← hashDelete el s.table
      return ⟨table, s.freed ++ [el], st⟩
    else return { s with st := st }

end Iter

/-- The turns of the loop, at most `fuel` of them. -/
def iterLoop (body : ι → σ → Option (Bool × σ)) :
    ℕ → Option ι → Option ι → Iter ι σ → Option (Iter ι σ)
  | 0, _, _, _ => none
  | _ + 1, none, _, s => some s
  | fuel + 1, some el, tmp, s => do
    let s ← s.visit body el
    let next ← s.next tmp
    iterLoop body fuel tmp next s

/-- `HASH_ITER(hh, head, el, tmp)`. There is a turn for every element of the table, and the test
that ends the loop. -/
def hashIter (body : ι → σ → Option (Bool × σ)) (s : Iter ι σ) : Option (Iter ι σ) := do
  let tmp ← s.next s.table.head
  iterLoop body (s.table.numItems + 1) s.table.head tmp s

/-! ## The loop over a list -/

/-- The body on every element of a list: the elements that are kept, those that are removed, and the
state at the end. -/
def visitAll (body : ι → σ → Option (Bool × σ)) : List ι → σ → Option (List ι × List ι × σ)
  | [], st => some ([], [], st)
  | a :: l, st => do
    let (remove, st) ← body a st
    let (kept, removed, st) ← visitAll body l st
    return if remove then (kept, a :: removed, st) else (a :: kept, removed, st)

section Rep

variable {κ : Type} {hash : κ → UInt32} {key : ι → κ} {s : Iter ι σ} {us l : List ι} {a : ι}
  {fuel : ℕ}

/-- In the middle of the loop: the elements `us` have been kept and `l` are still to come, none of
which has been freed. -/
structure Iter.At (hash : κ → UInt32) (key : ι → κ) (s : Iter ι σ) (us l : List ι) : Prop where
  rep : Rep hash key s.table (us ++ l)
  live : ∀ p ∈ l, p ∉ s.freed

/-- The next element can be found after the body has run. -/
theorem Iter.At.next (h : s.At hash key us l) : s.next l.head? = some l.tail.head? := by
  rcases l with _ | ⟨a, l⟩
  · rfl
  · have hlinks : s.table.next a = l.head? := h.rep.order.links.2
    rw [List.head?_cons, Iter.next, if_neg (h.live a (by simp)), hlinks, List.tail_cons]

/-- **One turn of the loop**: the element is kept or removed as the body says, and the rest of the
elements is as before. -/
theorem Iter.At.visit (body : ι → σ → Option (Bool × σ)) (h : s.At hash key us (a :: l)) :
    (body a s.st = none ∧ s.visit body a = none) ∨
      (∃ st, body a s.st = some (false, st) ∧ s.visit body a = some { s with st := st } ∧
        { s with st := st }.At hash key (us ++ [a]) l) ∨
      ∃ st t, body a s.st = some (true, st) ∧ s.visit body a = some ⟨t, s.freed ++ [a], st⟩ ∧
        (⟨t, s.freed ++ [a], st⟩ : Iter ι σ).At hash key us l := by
  have hlive := h.live a (by simp)
  have hrest : ∀ p ∈ l, p ∉ s.freed := fun p hp => h.live p (by simp [hp])
  rcases hbody : body a s.st with _ | ⟨_ | _, st⟩
  · exact .inl ⟨rfl, by simp [Iter.visit, hlive, hbody]⟩
  · refine .inr (.inl ⟨st, rfl, by simp [Iter.visit, hlive, hbody], ⟨?_, hrest⟩⟩)
    rw [List.append_assoc]
    exact h.rep
  · obtain ⟨hnodup, hnodup', hdisj⟩ := List.nodup_append.1 h.rep.order.nodup
    have hus : a ∉ us := fun hmem => hdisj a hmem a (by simp) rfl
    have hl : a ∉ l := (List.nodup_cons.1 hnodup').1
    obtain ⟨t, ht, hrep⟩ := h.rep.delete (by simp : a ∈ us ++ a :: l)
    rw [List.erase_append_right _ hus, List.erase_cons_head] at hrep
    refine .inr (.inr ⟨st, t, rfl, by simp [Iter.visit, hlive, hbody, ht], ⟨hrep, ?_⟩⟩)
    intro p hp hfreed
    rcases List.mem_append.1 hfreed with hfreed | hfreed
    · exact hrest p hp hfreed
    · exact hl (List.mem_singleton.1 hfreed ▸ hp)

/-- **The turns over the rest of the elements** do what the loop over the list of them does. -/
theorem Iter.At.loop (body : ι → σ → Option (Bool × σ)) (h : s.At hash key us l)
    (hfuel : l.length < fuel) :
    match visitAll body l s.st with
    | none => iterLoop body fuel l.head? l.tail.head? s = none
    | some (kept, removed, st) => ∃ t, iterLoop body fuel l.head? l.tail.head? s =
        some ⟨t, s.freed ++ removed, st⟩ ∧ Rep hash key t (us ++ kept) := by
  induction l generalizing us s fuel with
  | nil =>
    obtain ⟨fuel, rfl⟩ := Nat.exists_eq_succ_of_ne_zero (Nat.ne_of_gt hfuel)
    exact ⟨s.table, by simp [iterLoop], h.rep⟩
  | cons a l ih =>
    obtain ⟨fuel, rfl⟩ := Nat.exists_eq_succ_of_ne_zero (Nat.ne_of_gt (Nat.zero_lt_of_lt hfuel))
    have hfuel : l.length < fuel := by simpa using hfuel
    rw [List.head?_cons, List.tail_cons, iterLoop, visitAll]
    rcases h.visit body with ⟨hb, hv⟩ | ⟨st, hb, hv, hat⟩ | ⟨st, t, hb, hv, hat⟩
    · simp [hb, hv]
    · -- the element is kept
      have hrest := ih hat hfuel
      simp only [hb, hv, Option.bind_eq_bind, Option.bind_some, hat.next]
      revert hrest
      rcases visitAll body l st with _ | ⟨kept, removed, st'⟩
      · exact id
      · rintro ⟨t, ht, hrep⟩
        exact ⟨t, ht, by simpa using hrep⟩
    · -- the element is removed
      have hrest := ih hat hfuel
      simp only [hb, hv, Option.bind_eq_bind, Option.bind_some, hat.next]
      revert hrest
      rcases visitAll body l st with _ | ⟨kept, removed, st'⟩
      · exact id
      · rintro ⟨t', ht, hrep⟩
        exact ⟨t', by simpa using ht, hrep⟩

/-- **A loop with `HASH_ITER` visits every element once, in the order of the table**, whatever
elements its body removes: it ends, it uses no element that has been freed, it does to the rest of
the state what the loop over the list of the elements does, and it leaves a table of the elements
that have been kept, in their order. -/
theorem hashIter_eq (body : ι → σ → Option (Bool × σ)) (h : s.At hash key [] l) :
    match visitAll body l s.st with
    | none => hashIter body s = none
    | some (kept, removed, st) => ∃ t, hashIter body s = some ⟨t, s.freed ++ removed, st⟩ ∧
        Rep hash key t kept := by
  have hrep : Rep hash key s.table l := h.rep
  have hfuel : l.length < s.table.numItems + 1 := by
    by_cases hl : l = []
    · simp [hl]
    · rw [hrep.numItems hl]
      exact Nat.lt_succ_self _
  have hloop := h.loop body hfuel
  rw [hashIter, hrep.head, h.next]
  simpa using hloop

/-- What a loop that has ended has done. -/
theorem Iter.At.of_hashIter {body : ι → σ → Option (Bool × σ)} (h : s.At hash key [] l)
    {s' : Iter ι σ} (hrun : hashIter body s = some s') :
    ∃ kept removed, visitAll body l s.st = some (kept, removed, s'.st) ∧
      s'.freed = s.freed ++ removed ∧ Rep hash key s'.table kept := by
  have hiter := hashIter_eq body h
  rcases hall : visitAll body l s.st with _ | ⟨kept, removed, st⟩
  · rw [hall] at hiter
    rw [hiter] at hrun
    cases hrun
  · rw [hall] at hiter
    obtain ⟨t, heq, hrep⟩ := hiter
    obtain rfl := Option.some.inj (heq.symm.trans hrun)
    exact ⟨kept, removed, rfl, rfl, hrep⟩

/-- What the body has done to an element that has been looked up: it is a loop over this one. -/
theorem Iter.At.of_visit {body : ι → σ → Option (Bool × σ)} (h : s.At hash key [] l) (ha : a ∈ l)
    {s' : Iter ι σ} (hrun : s.visit body a = some s') :
    ∃ kept removed, visitAll body [a] s.st = some (kept, removed, s'.st) ∧
      s'.freed = s.freed ++ removed ∧ Rep hash key s'.table (l.filter (· ∉ removed)) := by
  obtain ⟨us, vs, rfl⟩ := List.append_of_mem ha
  have hat : s.At hash key us (a :: vs) := ⟨h.rep, fun p hp => h.live p (by simp [hp])⟩
  have hnot : a ∉ us ++ vs := (List.nodup_cons.1 (List.nodup_middle.1 h.rep.order.nodup)).1
  rcases hat.visit body with ⟨-, hv⟩ | ⟨st, hb, hv, -⟩ | ⟨st, t, hb, hv, hdel⟩
  · rw [hv] at hrun
    cases hrun
  · obtain rfl := Option.some.inj (hv.symm.trans hrun)
    exact ⟨[a], [], by simp [visitAll, hb], by simp, by simpa using h.rep⟩
  · obtain rfl := Option.some.inj (hv.symm.trans hrun)
    refine ⟨[], [a], by simp [visitAll, hb], rfl, ?_⟩
    have hfilter : (us ++ a :: vs).filter (· ∉ [a]) = us ++ vs := by
      have hkeep (m : List ι) (hm : a ∉ m) : m.filter (fun p => p ∉ [a]) = m :=
        List.filter_eq_self.2 fun p hp => by
          have hne : p ≠ a := fun heq => hm (heq ▸ hp)
          simpa using hne
      rw [List.mem_append, not_or] at hnot
      rw [List.filter_append, List.filter_cons, hkeep us hnot.1, hkeep vs hnot.2]
      simp
    rw [hfilter]
    exact hdel.rep

end Rep

omit [DecidableEq ι] in
/-- What every turn preserves holds at the end. -/
theorem visitAll_invariant {body : ι → σ → Option (Bool × σ)} {P : σ → Prop}
    (hbody : ∀ p st remove st', P st → body p st = some (remove, st') → P st') {l : List ι} {st : σ}
    (hst : P st) {r : List ι × List ι × σ} (h : visitAll body l st = some r) : P r.2.2 := by
  induction l generalizing st r with
  | nil =>
    obtain rfl := Option.some.inj h
    exact hst
  | cons a l ih =>
    obtain ⟨⟨remove, st₁⟩, hturn, h⟩ := Option.bind_eq_some_iff.1 h
    obtain ⟨r₁, hrest, h⟩ := Option.bind_eq_some_iff.1 h
    have hr₁ := ih (hbody a st remove st₁ hst hturn) hrest
    obtain rfl := Option.some.inj h
    cases remove <;> exact hr₁

/-! ## Bodies that change one element -/

section Local

variable {τ : Type} {body : ι → σ → Option (Bool × σ)} {l : List ι} {st : σ}

/-- What a loop has done to something that belongs to the elements: one turn to each element of the
list, which has decided whether it is kept or removed, and nothing to the others. -/
structure Visited (f : σ → ι → τ) (R : ι → τ → Bool → τ → Prop) (l : List ι) (st : σ)
    (kept removed : List ι) (st' : σ) : Prop where
  keptSub : kept.Sublist l
  removedSub : removed.Sublist l
  turn : ∀ p ∈ l, ∃ remove, R p (f st p) remove (f st' p) ∧ (p ∈ kept ↔ remove = false) ∧
    (p ∈ removed ↔ remove = true)
  rest : ∀ p ∉ l, f st' p = f st p

omit [DecidableEq ι] in
/-- **The loop does one turn to every element**, if a turn changes nothing that belongs to another
element. -/
theorem visitAll_visited {f : σ → ι → τ} {R : ι → τ → Bool → τ → Prop}
    (hbody : ∀ p st remove st', body p st = some (remove, st') →
      R p (f st p) remove (f st' p) ∧ ∀ q ≠ p, f st' q = f st q)
    (hl : l.Nodup) {kept removed : List ι} {st' : σ}
    (h : visitAll body l st = some (kept, removed, st')) : Visited f R l st kept removed st' := by
  induction l generalizing st kept removed st' with
  | nil =>
    simp only [visitAll, Option.some.injEq, Prod.mk.injEq] at h
    obtain ⟨rfl, rfl, rfl⟩ := h
    exact ⟨.slnil, .slnil, by simp, fun _ _ => rfl⟩
  | cons a l ih =>
    obtain ⟨ha, hl⟩ := List.nodup_cons.1 hl
    obtain ⟨⟨remove, st₁⟩, hturn, h⟩ := Option.bind_eq_some_iff.1 h
    obtain ⟨⟨kept₁, removed₁, st₂⟩, hrest, h⟩ := Option.bind_eq_some_iff.1 h
    obtain ⟨hR, hother⟩ := hbody a st remove st₁ hturn
    have hv := ih hl hrest
    have hka : a ∉ kept₁ := fun hmem => ha (hv.keptSub.subset hmem)
    have hra : a ∉ removed₁ := fun hmem => ha (hv.removedSub.subset hmem)
    have hself : f st₂ a = f st₁ a := hv.rest a ha
    have hne (p : ι) (hp : p ∈ l) : p ≠ a := fun heq => ha (heq ▸ hp)
    have hout (p : ι) (hp : p ∉ a :: l) : f st₂ p = f st p := by
      rw [List.mem_cons, not_or] at hp
      rw [hv.rest p hp.2, hother p hp.1]
    have hturns (p : ι) (hp : p ∈ l) : ∃ remove, R p (f st p) remove (f st₂ p) ∧
        (p ∈ kept₁ ↔ remove = false) ∧ (p ∈ removed₁ ↔ remove = true) := by
      obtain ⟨b, hb, hmem⟩ := hv.turn p hp
      rw [hother p (hne p hp)] at hb
      exact ⟨b, hb, hmem⟩
    cases remove with
    | false =>
      simp only [Option.pure_def, Bool.false_eq_true, if_false, Option.some.injEq,
        Prod.mk.injEq] at h
      obtain ⟨rfl, rfl, rfl⟩ := h
      refine ⟨hv.keptSub.cons_cons a, hv.removedSub.cons a, List.forall_mem_cons.2 ⟨?_, ?_⟩, hout⟩
      · exact ⟨false, hself ▸ hR, by simp, by simp [hra]⟩
      · intro p hp
        simpa [hne p hp] using hturns p hp
    | true =>
      simp only [Option.pure_def, if_true, Option.some.injEq, Prod.mk.injEq] at h
      obtain ⟨rfl, rfl, rfl⟩ := h
      refine ⟨hv.keptSub.cons a, hv.removedSub.cons_cons a, List.forall_mem_cons.2 ⟨?_, ?_⟩, hout⟩
      · exact ⟨true, hself ▸ hR, by simp [hka], by simp⟩
      · intro p hp
        simpa [hne p hp] using hturns p hp

end Local

end

end LinkProxy.Uthash
