import LinkProxy.Uthash.Iteration

/-!
# The counters of a hash table

The counters of `uthash.h` are `unsigned`, and those of `Hash` are numbers without a bound. The two
are the same as long as no counter reaches `2 ^ 32` (`Hash.InRange`), and this depends on the number
of buckets and on the number of additions alone (`Counted.inRange`).

With a hash function that is bad enough the number of buckets does leave its 32 bits: the doubling
of `2 ^ 31` buckets allocates none. But every doubling is paid for by additions to the chain that
has caused it. The room that is left in a chain is what it may grow before it causes one, a new
chain has room for seven elements at least (`room_newBucket`), and an addition takes one (`Roomy`).
-/

namespace LinkProxy.Uthash

variable {ι κ : Type} [DecidableEq ι] [DecidableEq κ]

/-- The greatest number of buckets whose size in bytes has 32 bits as well: a bucket takes 12 bytes
where a pointer takes 4. -/
def maxNumBuckets : ℕ := 2 ^ 28

/-- No counter, and no number that is computed with one, has left its 32 bits. -/
structure Hash.InRange (t : Hash ι) : Prop where
  numBuckets : t.numBuckets ≤ maxNumBuckets
  numItems : t.numItems < 2 ^ 32
  idealChainMaxlen : t.idealChainMaxlen < 2 ^ 32
  nonidealItems : t.nonidealItems < 2 ^ 32
  ineffExpands : t.ineffExpands < 2 ^ 32
  count : ∀ b < t.numBuckets, (t.buckets b).count < 2 ^ 32
  threshold : ∀ b < t.numBuckets, ((t.buckets b).expandMult + 1) * bktCapacityThresh < 2 ^ 32

/-! ## The number of buckets -/

/-- The number of buckets is the initial one, doubled some times. -/
def Doubled (t : Hash ι) : Prop := ∃ k, t.numBuckets = initialNumBuckets * 2 ^ k

omit [DecidableEq ι] in
/-- For such a number `HASH_TO_BKT` is the remainder. -/
theorem Doubled.toBkt_eq_mod {t : Hash ι} (h : Doubled t) (hashv : UInt32) :
    toBkt hashv t.numBuckets = hashv.toNat % t.numBuckets := by
  obtain ⟨k, hk⟩ := h
  have hpow : t.numBuckets = 2 ^ (5 + k) := by
    rw [hk, initialNumBuckets, Nat.pow_add]
  rw [toBkt, hpow, Nat.and_two_pow_sub_one_eq_mod]

omit [DecidableEq ι] in
theorem Doubled.twice {t t' : Hash ι} (h : Doubled t) (heq : t'.numBuckets = t.numBuckets * 2) :
    Doubled t' := by
  obtain ⟨k, hk⟩ := h
  exact ⟨k + 1, by rw [heq, hk, Nat.pow_succ, Nat.mul_assoc]⟩

/-! ## Expansion -/

/-- The counters of the new buckets after `m` items have been moved. -/
structure Expansion.Counted (t : Hash ι) (e : Expansion ι) (m : ℕ) : Prop where
  count : ∀ b, (e.newBuckets b).count ≤ m
  expandMult : ∀ b, (e.newBuckets b).expandMult =
    if t.idealChainMaxlen < (e.newBuckets b).count then
      (e.newBuckets b).count / t.idealChainMaxlen
    else 0
  nonidealItems : e.nonidealItems ≤ m

section Expansion

variable {t : Hash ι} {e : Expansion ι} {m m' : ℕ}

omit [DecidableEq ι] in
theorem Expansion.Counted.mono (h : e.Counted t m) (hm : m ≤ m') : e.Counted t m' :=
  ⟨fun b => (h.count b).trans hm, h.expandMult, h.nonidealItems.trans hm⟩

theorem Expansion.Counted.moveItem (h : e.Counted t m) (thh : ι) :
    (moveItem t e thh).Counted t (m + 1) := by
  refine ⟨fun b => ?_, fun b => ?_, ?_⟩
  · by_cases hb : b = toBkt (t.hashv thh) (t.numBuckets * 2)
    · simpa [Uthash.moveItem, hb] using h.count _
    · simpa [Uthash.moveItem, hb] using (h.count b).trans (Nat.le_succ m)
  · by_cases hb : b = toBkt (t.hashv thh) (t.numBuckets * 2)
    · -- a chain that is not too long now was not too long before
      have hold := h.expandMult (toBkt (t.hashv thh) (t.numBuckets * 2))
      simp only [Uthash.moveItem, hb, Function.update_self, decide_eq_true_eq]
      split_ifs with hlong
      · rfl
      · rw [hold, if_neg (by omega)]
    · simpa [Uthash.moveItem, hb] using h.expandMult b
  · have := h.nonidealItems
    simp only [Uthash.moveItem]
    split_ifs <;> omega

theorem Expansion.Counted.moveChain (h : e.Counted t m) (n : ℕ) (o : Option ι) :
    (moveChain t n o e).Counted t (m + n) := by
  induction n generalizing o e m with
  | zero => exact h
  | succ n ih =>
    cases o with
    | none => exact h.mono (Nat.le_add_right ..)
    | some thh =>
      rw [Uthash.moveChain, show m + (n + 1) = m + 1 + n by omega]
      exact ih (h.moveItem thh) _

/-- The buckets after an expansion, for the number of items in all chains. -/
structure Redistributed (t t' : Hash ι) (m : ℕ) : Prop where
  numBuckets : t'.numBuckets = t.numBuckets * 2
  idealChainMaxlen : t'.idealChainMaxlen = t'.numItems / t'.numBuckets +
    if t'.numItems % t'.numBuckets = 0 then 0 else 1
  nonidealItems : t'.nonidealItems ≤ m
  ineffExpands : t'.ineffExpands ≤ t.ineffExpands + 1
  count : ∀ b, (t'.buckets b).count ≤ m
  expandMult : ∀ b, (t'.buckets b).expandMult =
    if t'.idealChainMaxlen < (t'.buckets b).count then
      (t'.buckets b).count / t'.idealChainMaxlen
    else 0

/-- **What `HASH_EXPAND_BUCKETS` does to the counters.** -/
theorem redistributed_expandBuckets (t : Hash ι) : Redistributed t (expandBuckets t)
    ((List.range t.numBuckets).map fun b => (t.buckets b).count).sum := by
  let t₁ : Hash ι := { t with
    idealChainMaxlen := t.numItems / (t.numBuckets * 2) +
      if t.numItems % (t.numBuckets * 2) = 0 then 0 else 1 }
  -- the items of the first `k` buckets have been moved
  have hfold (k : ℕ) : ((List.range k).foldl
      (fun e b => moveChain t₁ (t₁.buckets b).count (t₁.buckets b).hhHead e)
      ⟨fun _ => ⟨none, 0, 0⟩, 0, t₁.hhPrev, t₁.hhNext⟩).Counted t₁
      ((List.range k).map fun b => (t.buckets b).count).sum := by
    induction k with
    | zero => exact ⟨fun _ => le_rfl, fun _ => by simp, le_rfl⟩
    | succ k ih =>
      rw [List.range_succ, List.foldl_append, List.foldl_cons, List.foldl_nil, List.map_append,
        List.sum_append, List.map_singleton, List.sum_singleton]
      exact ih.moveChain ..
  obtain ⟨hcount, hmult, hnonideal⟩ := hfold t.numBuckets
  refine ⟨rfl, rfl, hnonideal, ?_, hcount, hmult⟩
  simp only [expandBuckets]
  split_ifs <;> omega

end Expansion

/-! ## Additions -/

omit [DecidableEq ι] in
/-- **Every element is in one bucket**, so the counts of the buckets add up. -/
theorem Chained.sum_counts {hhPrev hhNext : ι → Option ι} {hashv : ι → UInt32}
    {buckets : ℕ → Bucket ι} {n : ℕ} {S : Set ι} {l : List ι}
    (h : Chained hhPrev hhNext hashv buckets n S) (hn : 0 < n) (hnodup : l.Nodup)
    (hS : ∀ p, p ∈ S ↔ p ∈ l) :
    ((List.range n).map fun b => (buckets b).count).sum = l.length := by
  classical
  have hcount (b : ℕ) (hb : b < n) :
      (buckets b).count = (l.toFinset.filter fun p => toBkt (hashv p) n = b).card := by
    obtain ⟨chain, hlist, -, hcount, hmem⟩ := h b hb
    rw [hcount, ← List.toFinset_card_of_nodup hlist.nodup]
    congr 1
    ext p
    simpa [hS] using hmem p
  have hfibers : l.toFinset.card =
      ∑ b ∈ Finset.range n, (l.toFinset.filter fun p => toBkt (hashv p) n = b).card :=
    Finset.card_eq_sum_card_fiberwise fun p _ => by simpa using toBkt_lt (hashv p) hn
  rw [← List.toFinset_card_of_nodup hnodup, hfibers, ← List.sum_toFinset _ List.nodup_range,
    List.toFinset_range]
  exact Finset.sum_congr rfl fun b hb => hcount b (Finset.mem_range.1 hb)

/-- The counters when an element is in a bucket of the table that it has been appended to, without
an expansion. -/
structure Pushed (t t' : Hash ι) (bkt : ℕ) : Prop where
  numBuckets : t'.numBuckets = t.numBuckets
  idealChainMaxlen : t'.idealChainMaxlen = t.idealChainMaxlen
  nonidealItems : t'.nonidealItems = t.nonidealItems
  ineffExpands : t'.ineffExpands = t.ineffExpands
  count : ∀ b, (t'.buckets b).count = (t.buckets b).count + if b = bkt then 1 else 0
  expandMult : ∀ b, (t'.buckets b).expandMult = (t.buckets b).expandMult

section Add

variable {hash : κ → UInt32} {key : ι → κ} {t : Hash ι} {l : List ι}

omit [DecidableEq κ] in
/-- **What `HASH_ADD` does to the counters**: those of one bucket change, or the chain in this
bucket is too long and all items are distributed again. -/
theorem Rep.counters_hashAdd (h : Rep hash key t l) {p : ι} (hp : p ∉ l) :
    ∃ bkt < (appendItem p t).numBuckets,
      Pushed (appendItem p t) (hashAdd hash (key p) p t) bkt ∨
      (((appendItem p t).buckets bkt).expandMult + 1) * bktCapacityThresh ≤
          ((appendItem p t).buckets bkt).count + 1 ∧
        Redistributed (appendItem p t) (hashAdd hash (key p) p t) (l.length + 1) := by
  have happ := h.appended hp
  let bkt := toBkt (hash (key p)) (appendItem p t).numBuckets
  let t₁ : Hash ι := { appendItem p t with
    numItems := (appendItem p t).numItems + 1
    hashv := Function.update (appendItem p t).hashv p (hash (key p)) }
  have hself : t₁.hashv p = hash (key p) := by simp [t₁]
  have hadd : hashAdd hash (key p) p t = addToBkt bkt p t₁ := rfl
  have hchained : Chained t₁.hhPrev t₁.hhNext t₁.hashv t₁.buckets t₁.numBuckets {q | q ∈ l} :=
    happ.chained.congr_hashv fun q hq =>
      Function.update_of_ne (fun heq => hp (by rwa [← heq])) ..
  have hpush := hchained.pushBkt hp (pushBkt bkt p t₁) (by rw [hself])
  refine ⟨bkt, toBkt_lt _ happ.numBuckets, ?_⟩
  rw [hadd, addToBkt_eq]
  split_ifs with hlong
  · refine .inr ⟨hlong.1, ?_⟩
    have hexp := redistributed_expandBuckets (pushBkt bkt p t₁)
    rw [hpush.sum_counts happ.numBuckets (List.nodup_cons.2 ⟨hp, h.order.nodup⟩)
      fun q => List.mem_cons.symm, List.length_cons] at hexp
    exact ⟨hexp.numBuckets, hexp.idealChainMaxlen, hexp.nonidealItems, hexp.ineffExpands,
      hexp.count, hexp.expandMult⟩
  · exact .inl ⟨rfl, rfl, rfl, rfl, fun b => by by_cases hb : b = bkt <;> simp [pushBkt, hb, t₁],
      fun b => by by_cases hb : b = bkt <;> simp [pushBkt, hb, t₁]⟩

end Add

/-! ## Deletions -/

/-- The counters when elements have been deleted. -/
structure Shrunk (t t' : Hash ι) : Prop where
  numBuckets : t'.numBuckets = t.numBuckets
  numItems : t'.numItems ≤ t.numItems
  idealChainMaxlen : t'.idealChainMaxlen = t.idealChainMaxlen
  nonidealItems : t'.nonidealItems = t.nonidealItems
  ineffExpands : t'.ineffExpands = t.ineffExpands
  count : ∀ b, (t'.buckets b).count ≤ (t.buckets b).count
  expandMult : ∀ b, (t'.buckets b).expandMult = (t.buckets b).expandMult

section Delete

variable {t t' t'' : Hash ι}

omit [DecidableEq ι] in
theorem Shrunk.refl (t : Hash ι) : Shrunk t t :=
  ⟨rfl, le_rfl, rfl, rfl, rfl, fun _ => le_rfl, fun _ => rfl⟩

omit [DecidableEq ι] in
theorem Shrunk.trans (h : Shrunk t t') (h' : Shrunk t' t'') : Shrunk t t'' where
  numBuckets := h'.numBuckets.trans h.numBuckets
  numItems := h'.numItems.trans h.numItems
  idealChainMaxlen := h'.idealChainMaxlen.trans h.idealChainMaxlen
  nonidealItems := h'.nonidealItems.trans h.nonidealItems
  ineffExpands := h'.ineffExpands.trans h.ineffExpands
  count b := (h'.count b).trans (h.count b)
  expandMult b := (h'.expandMult b).trans (h.expandMult b)

/-- **What `HASH_DELETE` does to the counters.** -/
theorem shrunk_hashDelete {p : ι} (h : hashDelete p t = some t') : Shrunk t t' := by
  unfold hashDelete at h
  split at h
  · cases h
  · by_cases hlinks : t.prev p = none ∧ t.next p = none
    · rw [if_pos hlinks] at h
      obtain rfl := Option.some.inj h
      exact ⟨rfl, le_rfl, rfl, rfl, rfl, fun _ => le_rfl, fun _ => rfl⟩
    · rw [if_neg hlinks] at h
      obtain rfl := Option.some.inj h
      refine ⟨rfl, Nat.sub_le .., rfl, rfl, rfl, fun b => ?_, fun b => ?_⟩
      · by_cases hb : b = toBkt (t.hashv p) t.numBuckets <;> simp [delInBkt, hb]
      · by_cases hb : b = toBkt (t.hashv p) t.numBuckets <;> simp [delInBkt, hb]

/-- A loop with `HASH_ITER` only deletes. -/
theorem shrunk_iterLoop {σ : Type} {body : ι → σ → Option (Bool × σ)} {fuel : ℕ}
    {el tmp : Option ι} {s s' : Iter ι σ} (h : iterLoop body fuel el tmp s = some s') :
    Shrunk s.table s'.table := by
  induction fuel generalizing el tmp s with
  | zero => cases h
  | succ fuel ih =>
    cases el with
    | none =>
      obtain rfl := Option.some.inj h
      exact Shrunk.refl _
    | some a =>
      obtain ⟨s₁, hvisit, h⟩ := Option.bind_eq_some_iff.1 h
      obtain ⟨next, -, h⟩ := Option.bind_eq_some_iff.1 h
      have hs₁ : Shrunk s.table s₁.table := by
        rw [Iter.visit] at hvisit
        split_ifs at hvisit
        obtain ⟨⟨remove, st⟩, -, hvisit⟩ := Option.bind_eq_some_iff.1 hvisit
        cases remove with
        | false =>
          obtain rfl := Option.some.inj hvisit
          exact Shrunk.refl _
        | true =>
          obtain ⟨t, ht, hvisit⟩ := Option.bind_eq_some_iff.1 hvisit
          obtain rfl := Option.some.inj hvisit
          exact shrunk_hashDelete ht
      exact hs₁.trans (ih h)

theorem shrunk_hashIter {σ : Type} {body : ι → σ → Option (Bool × σ)} {s s' : Iter ι σ}
    (h : hashIter body s = some s') : Shrunk s.table s'.table := by
  obtain ⟨tmp, -, h⟩ := Option.bind_eq_some_iff.1 h
  exact shrunk_iterLoop h

end Delete

/-! ## Bounds -/

/-- No counter is greater than the number of additions. -/
structure Counted (t : Hash ι) (n : ℕ) : Prop where
  numItems : t.numItems ≤ n
  idealChainMaxlen : t.idealChainMaxlen ≤ n
  nonidealItems : t.nonidealItems ≤ n
  ineffExpands : t.ineffExpands ≤ n
  count : ∀ b, (t.buckets b).count ≤ n
  expandMult : ∀ b, (t.buckets b).expandMult ≤ n

/-- After `n` additions and `k` doublings: seven additions have been made for every doubling, and
what a chain may grow before the next one makes seven more. -/
structure Roomy (t : Hash ι) (n k : ℕ) : Prop where
  numBuckets : t.numBuckets = initialNumBuckets * 2 ^ k
  paid : 7 * k ≤ n
  room : ∀ b, 7 * (k + 1) + (t.buckets b).count ≤
    n + ((t.buckets b).expandMult + 1) * bktCapacityThresh

/-- A new chain has room for seven elements, as long as the ideal chains are short. -/
theorem room_newBucket (count : ℕ) {ideal : ℕ} (hpos : 1 ≤ ideal) (hle : ideal ≤ 3) :
    count + 7 ≤ ((if ideal < count then count / ideal else 0) + 1) * bktCapacityThresh := by
  rw [bktCapacityThresh]
  interval_cases ideal <;> split_ifs <;> omega

section Bounds

variable {hash : κ → UInt32} {key : ι → κ} {t t' : Hash ι} {l : List ι} {n k : ℕ}

omit [DecidableEq ι] in
/-- **The counters are in range as long as there are not too many buckets and additions.** -/
theorem Counted.inRange (h : Counted t n) (hn : n < 2 ^ 28)
    (hbuckets : t.numBuckets ≤ maxNumBuckets) : t.InRange := by
  obtain ⟨hitems, hideal, hnonideal, hineff, hcount, hmult⟩ := h
  refine ⟨hbuckets, by omega, by omega, by omega, by omega, fun b _ => ?_, fun b _ => ?_⟩
  · have := hcount b
    omega
  · have := hmult b
    rw [bktCapacityThresh]
    omega

omit [DecidableEq ι] in
/-- Fewer than 168 additions double the buckets at most 23 times. -/
theorem Roomy.numBuckets_le (h : Roomy t n k) (hn : n < 168) : t.numBuckets ≤ maxNumBuckets := by
  have hk : k ≤ 23 := by
    have := h.paid
    omega
  rw [h.numBuckets, initialNumBuckets, maxNumBuckets]
  exact (Nat.mul_le_mul_left 32 (Nat.pow_le_pow_right (by decide) hk)).trans (by norm_num)

omit [DecidableEq ι] in
theorem Counted.shrunk (h : Counted t n) (hs : Shrunk t t') : Counted t' n where
  numItems := hs.numItems.trans h.numItems
  idealChainMaxlen := hs.idealChainMaxlen.trans_le h.idealChainMaxlen
  nonidealItems := hs.nonidealItems.trans_le h.nonidealItems
  ineffExpands := hs.ineffExpands.trans_le h.ineffExpands
  count b := (hs.count b).trans (h.count b)
  expandMult b := (hs.expandMult b).trans_le (h.expandMult b)

omit [DecidableEq ι] in
theorem Roomy.shrunk (h : Roomy t n k) (hs : Shrunk t t') : Roomy t' n k where
  numBuckets := hs.numBuckets.trans h.numBuckets
  paid := h.paid
  room b := by
    have hcount := hs.count b
    have hroom := h.room b
    rw [hs.expandMult b]
    omega

/-- A table to which a first element is appended is made anew. -/
theorem Counted.appendItem (h : t.head = none ∨ Counted t n) (p : ι) :
    Counted (appendItem p t) n := by
  cases hhead : t.head with
  | none =>
    simp only [Uthash.appendItem, hhead, makeTable]
    exact ⟨Nat.zero_le n, Nat.zero_le n, Nat.zero_le n, Nat.zero_le n, fun _ => Nat.zero_le n,
      fun _ => Nat.zero_le n⟩
  | some a =>
    obtain ⟨hitems, hideal, hnonideal, hineff, hcount, hmult⟩ :=
      h.resolve_left (by simp [hhead])
    simp only [Uthash.appendItem, hhead]
    exact ⟨hitems, hideal, hnonideal, hineff, hcount, hmult⟩

theorem Roomy.appendItem (h : t.head = none ∨ ∃ k, Roomy t n k) (p : ι) :
    ∃ k, Roomy (appendItem p t) n k := by
  cases hhead : t.head with
  | none =>
    simp only [Uthash.appendItem, hhead, makeTable]
    exact ⟨0, rfl, Nat.zero_le n, fun _ => by simp [bktCapacityThresh]⟩
  | some a =>
    obtain ⟨k, hbuckets, hpaid, hroom⟩ := h.resolve_left (by simp [hhead])
    simp only [Uthash.appendItem, hhead]
    exact ⟨k, hbuckets, hpaid, hroom⟩

/-- The length of an ideal chain is at most the number of items. -/
theorem idealChainMaxlen_le (m : ℕ) {d : ℕ} (hd : 0 < d) :
    m / d + (if m % d = 0 then 0 else 1) ≤ m := by
  have hdiv := Nat.div_add_mod m d
  have hmul : m / d ≤ d * (m / d) := Nat.le_mul_of_pos_left _ hd
  split_ifs <;> omega

theorem idealChainMaxlen_short {m d : ℕ} (hpos : 0 < m) (hm : m ≤ 192) (hd : 64 ≤ d) :
    1 ≤ m / d + (if m % d = 0 then 0 else 1) ∧ m / d + (if m % d = 0 then 0 else 1) ≤ 3 := by
  have hdiv := Nat.div_add_mod m d
  have hle : m / d ≤ 3 := (Nat.div_le_div_left hd (by decide)).trans (by omega)
  have hmul : 64 * (m / d) ≤ d * (m / d) := Nat.mul_le_mul_right _ hd
  split_ifs with hmod
  · refine ⟨Nat.div_pos (Nat.le_of_dvd hpos (Nat.dvd_of_mod_eq_zero hmod)) (by omega), by omega⟩
  · omega

omit [DecidableEq κ] in
theorem Counted.hashAdd (h : Rep hash key t l) {p : ι} (hp : p ∉ l) (hl : l.length ≤ n)
    (hc : t.head = none ∨ Counted t n) (hnew : Rep hash key (hashAdd hash (key p) p t) (l ++ [p])) :
    Counted (hashAdd hash (key p) p t) (n + 1) := by
  have happ := Counted.appendItem hc p
  have hitems : (Uthash.hashAdd hash (key p) p t).numItems = l.length + 1 := by
    simpa using hnew.numItems (by simp)
  obtain ⟨bkt, -, hpush | ⟨-, hexp⟩⟩ := h.counters_hashAdd hp
  · refine ⟨by omega, ?_, ?_, ?_, fun b => ?_, fun b => ?_⟩
    · exact hpush.idealChainMaxlen.trans_le (happ.idealChainMaxlen.trans (Nat.le_succ n))
    · exact hpush.nonidealItems.trans_le (happ.nonidealItems.trans (Nat.le_succ n))
    · exact hpush.ineffExpands.trans_le (happ.ineffExpands.trans (Nat.le_succ n))
    · have := happ.count b
      rw [hpush.count b]
      split_ifs <;> omega
    · exact (hpush.expandMult b).trans_le ((happ.expandMult b).trans (Nat.le_succ n))
  · have hcount (b : ℕ) := (hexp.count b).trans (Nat.succ_le_succ hl)
    refine ⟨by omega, ?_, hexp.nonidealItems.trans (Nat.succ_le_succ hl),
      hexp.ineffExpands.trans (Nat.succ_le_succ happ.ineffExpands), hcount, fun b => ?_⟩
    · rw [hexp.idealChainMaxlen]
      exact (idealChainMaxlen_le _ (hnew.numBuckets (by simp))).trans (by omega)
    · rw [hexp.expandMult b]
      split_ifs
      · exact (Nat.div_le_self ..).trans (hcount b)
      · exact Nat.zero_le _

omit [DecidableEq κ] in
/-- **A doubling is paid for.** -/
theorem Roomy.hashAdd (h : Rep hash key t l) {p : ι} (hp : p ∉ l) (hl : l.length ≤ n)
    (hr : t.head = none ∨ ∃ k, Roomy t n k)
    (hnew : Rep hash key (hashAdd hash (key p) p t) (l ++ [p])) (hn : n < 192) :
    ∃ k, Roomy (hashAdd hash (key p) p t) (n + 1) k := by
  obtain ⟨k, hbuckets, hpaid, hroom⟩ := Roomy.appendItem hr p
  obtain ⟨bkt, -, hpush | ⟨hlong, hexp⟩⟩ := h.counters_hashAdd hp
  · refine ⟨k, hpush.numBuckets.trans hbuckets, by omega, fun b => ?_⟩
    have := hroom b
    rw [hpush.count b, hpush.expandMult b]
    split_ifs <;> omega
  · -- the chain that is too long has used up its room
    have hused := hroom bkt
    have hnumBuckets : (Uthash.hashAdd hash (key p) p t).numBuckets =
        initialNumBuckets * 2 ^ (k + 1) := by
      rw [hexp.numBuckets, hbuckets, Nat.pow_succ, Nat.mul_assoc]
    have hideal : 1 ≤ (Uthash.hashAdd hash (key p) p t).idealChainMaxlen ∧
        (Uthash.hashAdd hash (key p) p t).idealChainMaxlen ≤ 3 := by
      have hitems : (Uthash.hashAdd hash (key p) p t).numItems = l.length + 1 := by
        simpa using hnew.numItems (by simp)
      have hpow := Nat.one_le_two_pow (n := k)
      rw [hexp.idealChainMaxlen, hitems]
      refine idealChainMaxlen_short (Nat.succ_pos _) (by omega) ?_
      rw [hnumBuckets, initialNumBuckets, Nat.pow_succ]
      omega
    refine ⟨k + 1, hnumBuckets, by omega, fun b => ?_⟩
    have := room_newBucket ((Uthash.hashAdd hash (key p) p t).buckets b).count hideal.1 hideal.2
    rw [hexp.expandMult b]
    omega

/-- The counters of a table after `n` additions. -/
structure Accounted (t : Hash ι) (n : ℕ) : Prop where
  doubled : Doubled t
  counted : Counted t n
  roomy : n < 168 → ∃ k, Roomy t n k

omit [DecidableEq ι] in
theorem Accounted.shrunk (h : Accounted t n) (hs : Shrunk t t') : Accounted t' n where
  doubled := h.doubled.imp fun _ hk => hs.numBuckets.trans hk
  counted := h.counted.shrunk hs
  roomy hn := (h.roomy hn).imp fun _ hr => hr.shrunk hs

omit [DecidableEq κ] in
/-- **The counters after one more addition.** -/
theorem Accounted.hashAdd (h : Rep hash key t l) {p : ι} (hp : p ∉ l)
    (hkeys : ∀ q ∈ l, key q ≠ key p) (ha : l ≠ [] → Accounted t n) :
    Accounted (hashAdd hash (key p) p t) (n + 1) := by
  have hnew := h.add hp hkeys
  have hnone (hl : ¬ l ≠ []) : t.head = none := by
    rw [h.head, not_not.1 hl, List.head?_nil]
  have hcases : t.head = none ∨ Accounted t n := by
    by_cases hl : l ≠ []
    · exact .inr (ha hl)
    · exact .inl (hnone hl)
  have hle : l.length ≤ n := by
    by_cases hl : l ≠ []
    · exact h.numItems hl ▸ (ha hl).counted.numItems
    · simp [not_not.1 hl]
  refine ⟨?_, Counted.hashAdd h hp hle (hcases.imp_right (·.counted)) hnew, fun hn =>
    Roomy.hashAdd h hp hle (hcases.imp_right fun ha => ha.roomy (by omega)) hnew (by omega)⟩
  have happ : Doubled (appendItem p t) := by
    cases hhead : t.head with
    | none => exact ⟨0, by simp [appendItem, hhead, makeTable]⟩
    | some a =>
      have hd := (hcases.resolve_left (by simp [hhead])).doubled
      simpa [Doubled, appendItem, hhead] using hd
  obtain ⟨bkt, -, hpush | ⟨-, hexp⟩⟩ := h.counters_hashAdd hp
  · exact happ.imp fun _ hk => hpush.numBuckets.trans hk
  · exact happ.twice hexp.numBuckets

end Bounds

end LinkProxy.Uthash
