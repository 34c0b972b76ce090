import LinkProxy.Uthash.Table

/-!
# What a hash table represents

`Rep hash key t l` says that the table `t` holds the elements of `l`, in this order: the links of
the list of all elements and of the chains are right, every element is in the chain of its bucket,
and no two of them have the same key. The operations then do to the list what they should:
`HASH_FIND` finds the element with a key (`Rep.find`), `HASH_ADD` appends an element with a new key
(`Rep.add`), and `HASH_DELETE` of an element of the table takes it out and leaves all others
(`Rep.delete`).
-/

namespace LinkProxy.Uthash

variable {ι κ : Type} [DecidableEq ι] [DecidableEq κ]

/-! ## Chains -/

/-- Every bucket has the chain of the elements of `S` that belong to it. -/
def Chained (hhPrev hhNext : ι → Option ι) (hashv : ι → UInt32) (buckets : ℕ → Bucket ι) (n : ℕ)
    (S : Set ι) : Prop :=
  ∀ b < n, ∃ chain, IsDList hhPrev hhNext chain ∧ (buckets b).hhHead = chain.head? ∧
    (buckets b).count = chain.length ∧ ∀ p, p ∈ chain ↔ p ∈ S ∧ toBkt (hashv p) n = b

section Chains

variable {hhPrev hhNext : ι → Option ι} {hashv : ι → UInt32} {buckets buckets' : ℕ → Bucket ι}
  {n : ℕ} {S : Set ι} {a : ι}

/-- An element is put in front of the chain of its bucket. -/
theorem Chained.push (h : Chained hhPrev hhNext hashv buckets n S) (ha : a ∉ S)
    (hhead : (buckets' (toBkt (hashv a) n)).hhHead = some a)
    (hcount : (buckets' (toBkt (hashv a) n)).count = (buckets (toBkt (hashv a) n)).count + 1)
    (hrest : ∀ b ≠ toBkt (hashv a) n, buckets' b = buckets b) :
    Chained (setAt (Function.update hhPrev a none) (buckets (toBkt (hashv a) n)).hhHead (some a))
      (Function.update hhNext a (buckets (toBkt (hashv a) n)).hhHead) hashv buckets' n
      (insert a S) := by
  intro b hb
  obtain ⟨chain, hlist, hh, hc, hmem⟩ := h b hb
  have hne (c : ι) (hc : c ∈ chain) : c ≠ a := fun heq => ha (heq ▸ ((hmem c).1 hc).1)
  by_cases hba : b = toBkt (hashv a) n
  · subst hba
    refine ⟨a :: chain, hlist.prepend (fun hmem' => hne a hmem' rfl) ?_ (by simp [hh]) ?_ ?_,
      by rw [hhead]; rfl, by rw [hcount, hc]; rfl, fun p => ?_⟩
    · rw [setAt_apply, if_neg]
      · simp
      · rw [hh]
        exact fun heq => hne a (List.mem_of_mem_head? heq) rfl
    · intro c hc
      rw [setAt_apply, Function.update_of_ne (hne c hc), hh]
    · intro c hc
      rw [Function.update_of_ne (hne c hc)]
    · rw [List.mem_cons, hmem, Set.mem_insert_iff]
      constructor
      · rintro (rfl | ⟨hS, hb⟩)
        · exact ⟨.inl rfl, rfl⟩
        · exact ⟨.inr hS, hb⟩
      · rintro ⟨rfl | hS, hb⟩
        · exact .inl rfl
        · exact .inr ⟨hS, hb⟩
  · -- the chain of another bucket, which is disjoint from the one that changes
    obtain ⟨chain', -, hh', -, hmem'⟩ := h (toBkt (hashv a) n) (toBkt_lt _ (by omega))
    refine ⟨chain, hlist.congr (fun c hc => ?_) (fun c hc => ?_), by rw [hrest b hba, hh],
      by rw [hrest b hba, hc], fun p => ?_⟩
    · rw [setAt_apply, if_neg, Function.update_of_ne (hne c hc)]
      rw [hh']
      intro heq
      have := ((hmem' c).1 (List.mem_of_mem_head? heq)).2
      exact hba (((hmem c).1 hc).2.symm.trans this)
    · rw [Function.update_of_ne (hne c hc)]
    · rw [hmem, Set.mem_insert_iff]
      constructor
      · rintro ⟨hS, hb⟩
        exact ⟨.inr hS, hb⟩
      · rintro ⟨rfl | hS, hb⟩
        · exact absurd hb.symm hba
        · exact ⟨hS, hb⟩

/-- An element is taken out of the chain of its bucket. -/
theorem Chained.remove (h : Chained hhPrev hhNext hashv buckets n S) (hn : 0 < n) (ha : a ∈ S)
    (hhead : (buckets' (toBkt (hashv a) n)).hhHead =
      if (buckets (toBkt (hashv a) n)).hhHead = some a then hhNext a
      else (buckets (toBkt (hashv a) n)).hhHead)
    (hcount : (buckets' (toBkt (hashv a) n)).count = (buckets (toBkt (hashv a) n)).count - 1)
    (hrest : ∀ b ≠ toBkt (hashv a) n, buckets' b = buckets b) :
    Chained (setAt hhPrev (hhNext a) (hhPrev a)) (setAt hhNext (hhPrev a) (hhNext a)) hashv buckets'
      n (S \ {a}) := by
  obtain ⟨chain, hlist, hh, hc, hmem⟩ := h (toBkt (hashv a) n) (toBkt_lt _ hn)
  obtain ⟨us, vs, rfl⟩ := List.append_of_mem ((hmem a).2 ⟨ha, rfl⟩)
  obtain ⟨hprev, hnext⟩ := hlist.links
  have hnodup := hlist.nodup
  have hnot : a ∉ us ++ vs := by
    have := (List.nodup_middle.1 hnodup)
    exact (List.nodup_cons.1 this).1
  intro b hb
  by_cases hba : b = toBkt (hashv a) n
  · subst hba
    refine ⟨us ++ vs, hlist.unlink (fun c _ => setAt_apply ..) (fun c _ => setAt_apply ..), ?_,
      ?_, fun p => ?_⟩
    · rw [hhead, hh]
      rcases us with _ | ⟨u, us⟩
      · simp [hnext]
      · have hne : u ≠ a := fun heq => hnot (by simp [heq])
        simp [hne]
    · rw [hcount, hc]
      simp only [List.length_append, List.length_cons]
      omega
    · have hp := hmem p
      simp only [List.mem_append, List.mem_cons] at hp ⊢
      rw [Set.mem_sdiff, Set.mem_singleton_iff]
      constructor
      · intro hpm
        have hpa : p ≠ a := fun heq => hnot (by simpa [heq] using hpm)
        obtain ⟨hS, hb⟩ := hp.1 (by tauto)
        exact ⟨⟨hS, hpa⟩, hb⟩
      · rintro ⟨⟨hS, hpa⟩, hb⟩
        have := hp.2 ⟨hS, hb⟩
        tauto
  · obtain ⟨chain', hlist', hh', hc', hmem'⟩ := h b hb
    -- the neighbours of `a` are in its own chain
    have hother (c : ι) (hc : c ∈ chain') : hhPrev a ≠ some c ∧ hhNext a ≠ some c := by
      have hbc := ((hmem' c).1 hc).2
      rw [hprev, hnext]
      constructor
      · intro heq
        have := ((hmem c).1 (by simp [List.mem_of_getLast? heq])).2
        exact hba (hbc.symm.trans this)
      · intro heq
        have := ((hmem c).1 (by simp [List.mem_of_mem_head? heq])).2
        exact hba (hbc.symm.trans this)
    refine ⟨chain', hlist'.congr (fun c hc => ?_) (fun c hc => ?_), by rw [hrest b hba, hh'],
      by rw [hrest b hba, hc'], fun p => ?_⟩
    · rw [setAt_apply, if_neg (hother c hc).2]
    · rw [setAt_apply, if_neg (hother c hc).1]
    · rw [hmem', Set.mem_sdiff, Set.mem_singleton_iff]
      constructor
      · rintro ⟨hS, hb⟩
        refine ⟨⟨hS, ?_⟩, hb⟩
        rintro rfl
        exact hba hb.symm
      · rintro ⟨⟨hS, -⟩, hb⟩
        exact ⟨hS, hb⟩

omit [DecidableEq ι] in
theorem chained_empty (b : Bucket ι) (hb : b = ⟨none, 0, 0⟩) :
    Chained hhPrev hhNext hashv (fun _ => b) n ∅ := by
  intro _ _
  exact ⟨[], isDList_nil, by simp [hb], by simp [hb], by simp⟩

omit [DecidableEq ι] in
/-- Only the hash values of the elements matter. -/
theorem Chained.congr_hashv {hashv' : ι → UInt32} (h : Chained hhPrev hhNext hashv buckets n S)
    (heq : ∀ p ∈ S, hashv' p = hashv p) : Chained hhPrev hhNext hashv' buckets n S := by
  intro b hb
  obtain ⟨chain, hlist, hh, hc, hmem⟩ := h b hb
  refine ⟨chain, hlist, hh, hc, fun p => ?_⟩
  rw [hmem]
  constructor
  · rintro ⟨hS, hb⟩
    exact ⟨hS, by rw [heq p hS]; exact hb⟩
  · rintro ⟨hS, hb⟩
    exact ⟨hS, by rw [← heq p hS]; exact hb⟩

end Chains

/-! ## Expansion -/

section Expansion

variable {t : Hash ι} {e : Expansion ι} {S : Set ι}

/-- The items of `S` have been moved, and the old chains of the others are as they were. -/
structure Moved (t : Hash ι) (e : Expansion ι) (S : Set ι) : Prop where
  chained : Chained e.hhPrev e.hhNext t.hashv e.newBuckets (t.numBuckets * 2) S
  rest : ∀ p ∉ S, e.hhNext p = t.hhNext p

theorem Moved.moveItem (h : Moved t e S) {a : ι} (ha : a ∉ S) :
    Moved t (moveItem t e a) (insert a S) where
  chained := h.chained.push ha (by simp [Uthash.moveItem]) (by simp [Uthash.moveItem])
    fun b hb => by simp [Uthash.moveItem, hb]
  rest p hp := by
    rw [Set.mem_insert_iff, not_or] at hp
    simp only [Uthash.moveItem]
    rw [Function.update_of_ne hp.1]
    exact h.rest p hp.2

/-- The items of a chain are moved one after the other. -/
theorem Moved.moveChain {p : Option ι} {l : List ι} (h : Moved t e S)
    (hl : Segment t.hhPrev t.hhNext p l none) (hnodup : l.Nodup) (hS : ∀ a ∈ l, a ∉ S) :
    Moved t (moveChain t l.length l.head? e) ({a | a ∈ l} ∪ S) := by
  induction l generalizing p e S with
  | nil => simpa [Uthash.moveChain] using h
  | cons a l ih =>
    obtain ⟨-, hn, hl⟩ := hl
    obtain ⟨ha, hnodup⟩ := List.nodup_cons.1 hnodup
    rw [Option.or_none] at hn
    rw [List.length_cons, List.head?_cons, Uthash.moveChain, h.rest a (hS a (by simp)), hn]
    have h' := ih (h.moveItem (hS a (by simp))) hl hnodup fun b hb => by
      rw [Set.mem_insert_iff, not_or]
      exact ⟨fun heq => ha (heq ▸ hb), hS b (by simp [hb])⟩
    convert h' using 1
    ext b
    simp [or_assoc]

/-- **Doubling the buckets keeps every item in the chain of its bucket.** -/
theorem Chained.expandBuckets
    (h : Chained t.hhPrev t.hhNext t.hashv t.buckets t.numBuckets S) :
    Chained (expandBuckets t).hhPrev (expandBuckets t).hhNext t.hashv (expandBuckets t).buckets
      (t.numBuckets * 2) S := by
  let t₁ : Hash ι := { t with
    idealChainMaxlen := t.numItems / (t.numBuckets * 2) +
      if t.numItems % (t.numBuckets * 2) = 0 then 0 else 1 }
  -- the items of the first `k` buckets have been moved
  have hfold (k : ℕ) (hk : k ≤ t.numBuckets) : Moved t₁ ((List.range k).foldl
      (fun e b => moveChain t₁ (t₁.buckets b).count (t₁.buckets b).hhHead e)
      ⟨fun _ => ⟨none, 0, 0⟩, 0, t₁.hhPrev, t₁.hhNext⟩)
      {p | p ∈ S ∧ toBkt (t.hashv p) t.numBuckets < k} := by
    induction k with
    | zero => exact ⟨by simpa using chained_empty _ rfl, fun _ _ => rfl⟩
    | succ k ih =>
      obtain ⟨chain, hlist, hh, hc, hmem⟩ := h k (by omega)
      rw [List.range_succ, List.foldl_append, List.foldl_cons, List.foldl_nil]
      have hmoved := (ih (by omega)).moveChain hlist.segment hlist.nodup (by
        rintro a ha ⟨-, hlt⟩
        have := ((hmem a).1 ha).2
        omega)
      rw [← hh, ← hc] at hmoved
      convert hmoved using 1
      ext p
      simp only [Set.mem_ofPred_eq, Set.mem_union, hmem]
      constructor
      · rintro ⟨hS, hlt⟩
        rcases Nat.lt_succ_iff_lt_or_eq.1 hlt with hlt | heq
        · exact .inr ⟨hS, hlt⟩
        · exact .inl ⟨hS, heq⟩
      · rintro (⟨hS, heq⟩ | ⟨hS, hlt⟩)
        · exact ⟨hS, by omega⟩
        · exact ⟨hS, by omega⟩
  by_cases hn : t.numBuckets = 0
  · intro b hb
    omega
  · have hall := (hfold t.numBuckets le_rfl).chained
    have hset : {p | p ∈ S ∧ toBkt (t.hashv p) t.numBuckets < t.numBuckets} = S := by
      ext p
      simp only [Set.mem_ofPred_eq, and_iff_left_iff_imp]
      exact fun _ => toBkt_lt _ (Nat.pos_of_ne_zero hn)
    rw [hset] at hall
    exact hall

end Expansion

/-! ## Tables -/

/-- The table `t` holds the elements of `l`, in this order. -/
structure Rep (hash : κ → UInt32) (key : ι → κ) (t : Hash ι) (l : List ι) : Prop where
  head : t.head = l.head?
  order : IsDList t.prev t.next l
  keys : (l.map key).Nodup
  hashv : ∀ p ∈ l, t.hashv p = hash (key p)
  tail : l ≠ [] → t.tail = l.getLast?
  numItems : l ≠ [] → t.numItems = l.length
  numBuckets : l ≠ [] → 0 < t.numBuckets
  chained : l ≠ [] → Chained t.hhPrev t.hhNext t.hashv t.buckets t.numBuckets {p | p ∈ l}

section Rep

variable {hash : κ → UInt32} {key : ι → κ} {t : Hash ι} {l : List ι}

omit [DecidableEq ι] [DecidableEq κ] in
theorem rep_nil (h : t.head = none) : Rep hash key t [] where
  head := h
  order := isDList_nil
  keys := List.nodup_nil
  hashv _ hp := absurd hp List.not_mem_nil
  tail h := absurd rfl h
  numItems h := absurd rfl h
  numBuckets h := absurd rfl h
  chained h := absurd rfl h

omit [DecidableEq ι] [DecidableEq κ] in
/-- `HASH_ITER` visits the elements in order. -/
theorem Rep.elements (h : Rep hash key t l) : elements t = l := by
  rcases l with _ | ⟨a, l⟩
  · simp [Uthash.elements, h.head]
  · rw [Uthash.elements, h.head, List.head?_cons]
    have := h.order.walk
    rw [← h.numItems (by simp), List.head?_cons] at this
    simpa [h.head] using this

omit [DecidableEq ι] in
/-- The lookup in a chain. -/
theorem findInBkt_chain {hhPrev hhNext : ι → Option ι} {p : Option ι} {chain : List ι} (k : κ)
    (h : Segment hhPrev hhNext p chain none) :
    findInBkt key k hhNext chain.length chain.head? = chain.find? fun q => key q == k := by
  induction chain generalizing p with
  | nil => rfl
  | cons a chain ih =>
    obtain ⟨-, hn, h⟩ := h
    rw [Option.or_none] at hn
    rw [List.length_cons, List.head?_cons, findInBkt, hn, ih h, List.find?_cons]
    by_cases hk : key a = k
    · simp [hk]
    · rw [if_neg hk, beq_eq_false_iff_ne.2 hk]

omit [DecidableEq ι] [DecidableEq κ] in
theorem find_eq_some_iff [BEq κ] [LawfulBEq κ] {k : κ} {p : ι}
    (hinj : ∀ x ∈ l, ∀ y ∈ l, key x = key y → x = y) :
    (l.find? fun q => key q == k) = some p ↔ p ∈ l ∧ key p = k := by
  constructor
  · intro h
    exact ⟨List.mem_of_find?_eq_some h, by simpa using List.find?_some h⟩
  · rintro ⟨hp, hk⟩
    obtain ⟨q, hq⟩ : ∃ q, (l.find? fun q => key q == k) = some q :=
      Option.isSome_iff_exists.1 (List.find?_isSome.2 ⟨p, hp, by simpa using hk⟩)
    have hqk : key q = k := by simpa using List.find?_some hq
    rw [hq, hinj q (List.mem_of_find?_eq_some hq) p hp (hqk.trans hk.symm)]

omit [DecidableEq ι] [DecidableEq κ] in
theorem Rep.key_inj (h : Rep hash key t l) : ∀ x ∈ l, ∀ y ∈ l, key x = key y → x = y :=
  fun _ hx _ hy heq => List.inj_on_of_nodup_map h.keys hx hy heq

omit [DecidableEq ι] in
/-- **`HASH_FIND` finds the element with a key.** -/
theorem Rep.find_eq_some_iff (h : Rep hash key t l) {k : κ} {p : ι} :
    hashFind hash key k t = some p ↔ p ∈ l ∧ key p = k := by
  by_cases hl : l = []
  · simp [hashFind, h.head, hl]
  · obtain ⟨a, ha⟩ := List.ne_nil_iff_exists_cons.1 hl
    obtain ⟨chain, hlist, hh, hc, hmem⟩ :=
      h.chained hl (toBkt (hash k) t.numBuckets) (toBkt_lt _ (h.numBuckets hl))
    have hfind : hashFind hash key k t = chain.find? fun q => key q == k := by
      obtain ⟨l', rfl⟩ := ha
      rw [hashFind, h.head, List.head?_cons]
      dsimp only
      rw [hc, hh, findInBkt_chain k hlist.segment]
    rw [hfind, Uthash.find_eq_some_iff fun x hx y hy =>
      h.key_inj x ((hmem x).1 hx).1 y ((hmem y).1 hy).1, hmem]
    constructor
    · rintro ⟨⟨hp, -⟩, hk⟩
      exact ⟨hp, hk⟩
    · rintro ⟨hp, rfl⟩
      exact ⟨⟨hp, by rw [h.hashv p hp]⟩, rfl⟩

omit [DecidableEq ι] in
/-- `HASH_FIND` is the lookup in the list of the elements. -/
theorem Rep.find [BEq κ] [LawfulBEq κ] (h : Rep hash key t l) (k : κ) :
    hashFind hash key k t = l.find? fun p => key p == k := by
  ext p
  rw [h.find_eq_some_iff, Uthash.find_eq_some_iff h.key_inj]

/-! ## Adding -/

/-- What the addition to a bucket leaves as it is. -/
theorem addToBkt_frame (b : ℕ) (p : ι) (t : Hash ι) :
    (addToBkt b p t).head = t.head ∧ (addToBkt b p t).prev = t.prev ∧
      (addToBkt b p t).next = t.next ∧ (addToBkt b p t).hashv = t.hashv ∧
      (addToBkt b p t).tail = t.tail ∧ (addToBkt b p t).numItems = t.numItems := by
  unfold addToBkt
  dsimp only
  split_ifs <;> exact ⟨rfl, rfl, rfl, rfl, rfl, rfl⟩

/-- The table in which `HASH_ADD_TO_BKT` has put an element into a bucket, before an expansion. -/
def pushBkt (bkt : ℕ) (add : ι) (t : Hash ι) : Hash ι :=
  { t with
    buckets := Function.update t.buckets bkt
      ⟨some add, (t.buckets bkt).count + 1, (t.buckets bkt).expandMult⟩
    hhNext := Function.update t.hhNext add (t.buckets bkt).hhHead
    hhPrev := setAt (Function.update t.hhPrev add none) (t.buckets bkt).hhHead (some add) }

theorem addToBkt_eq (bkt : ℕ) (add : ι) (t : Hash ι) : addToBkt bkt add t =
    if (t.buckets bkt).count + 1 ≥ ((t.buckets bkt).expandMult + 1) * bktCapacityThresh ∧
      t.noexpand = false then expandBuckets (pushBkt bkt add t) else pushBkt bkt add t := rfl

theorem Chained.pushBkt {S : Set ι} {p : ι}
    (h : Chained t.hhPrev t.hhNext t.hashv t.buckets t.numBuckets S) (hp : p ∉ S) (t' : Hash ι)
    (ht' : t' = pushBkt (toBkt (t.hashv p) t.numBuckets) p t) :
    Chained t'.hhPrev t'.hhNext t'.hashv t'.buckets t'.numBuckets (insert p S) := by
  subst ht'
  exact h.push hp (by simp [Uthash.pushBkt]) (by simp [Uthash.pushBkt]) fun b hb => by
    simp [Uthash.pushBkt, hb]

/-- An element is added to its bucket, and the buckets may be doubled. -/
theorem Chained.addToBkt {S : Set ι} {p : ι}
    (h : Chained t.hhPrev t.hhNext t.hashv t.buckets t.numBuckets S) (hp : p ∉ S)
    (hn : 0 < t.numBuckets) (t' : Hash ι)
    (ht' : t' = addToBkt (toBkt (t.hashv p) t.numBuckets) p t) :
    0 < t'.numBuckets ∧ Chained t'.hhPrev t'.hhNext t'.hashv t'.buckets t'.numBuckets
      (insert p S) := by
  have hpush := h.pushBkt hp _ rfl
  rw [ht', addToBkt_eq]
  split_ifs
  · exact ⟨Nat.mul_pos hn (by decide), hpush.expandBuckets⟩
  · exact ⟨hn, hpush⟩

/-- The list of all elements after `HASH_ADD` has appended one to it. -/
structure Appended (t t' : Hash ι) (l : List ι) (p : ι) : Prop where
  head : t'.head = (l ++ [p]).head?
  order : IsDList t'.prev t'.next (l ++ [p])
  tail : t'.tail = some p
  hashv : t'.hashv = t.hashv
  numItems : t'.numItems = l.length
  numBuckets : 0 < t'.numBuckets
  chained : Chained t'.hhPrev t'.hhNext t'.hashv t'.buckets t'.numBuckets {q | q ∈ l}

omit [DecidableEq κ] in
theorem Rep.appended (h : Rep hash key t l) {p : ι} (hp : p ∉ l) :
    Appended t (appendItem p t) l p := by
  by_cases hl : l = []
  · subst hl
    have hhead : t.head = none := h.head
    simp only [Uthash.appendItem, hhead, makeTable]
    exact ⟨rfl, isDList_singleton (by simp) (by simp), rfl, rfl, rfl, Nat.zero_lt_succ 31,
      by simpa using chained_empty _ rfl⟩
  · obtain ⟨a, l', rfl⟩ := List.ne_nil_iff_exists_cons.1 hl
    have hhead : t.head = some a := h.head
    have htail := h.tail hl
    simp only [Uthash.appendItem, hhead]
    have hne (b : ι) (hb : b ∈ a :: l') : b ≠ p := fun heq => hp (heq ▸ hb)
    refine ⟨by simp, h.order.append hp (by simp [htail]) ?_ ?_ ?_, rfl, rfl, h.numItems hl,
      h.numBuckets hl, h.chained hl⟩
    · have hlast : t.tail ≠ some p := fun heq =>
        hne p (List.mem_of_getLast? (htail.symm.trans heq)) rfl
      simp [setAt_apply, hlast]
    · intro b hb
      simp [hne b hb]
    · intro b hb
      simp [setAt_apply, htail, hne b hb]

omit [DecidableEq κ] in
/-- **`HASH_ADD` appends an element with a new key.** -/
theorem Rep.add (h : Rep hash key t l) {p : ι} (hp : p ∉ l) (hk : ∀ q ∈ l, key q ≠ key p) :
    Rep hash key (hashAdd hash (key p) p t) (l ++ [p]) := by
  have happ := h.appended hp
  let t₁ : Hash ι := { appendItem p t with
    numItems := (appendItem p t).numItems + 1
    hashv := Function.update (appendItem p t).hashv p (hash (key p)) }
  have hself : t₁.hashv p = hash (key p) := by simp [t₁]
  have hother (q : ι) (hq : q ∈ l) : t₁.hashv q = t.hashv q := by
    have hne : q ≠ p := fun heq => hp (heq ▸ hq)
    simp [t₁, hne, happ.hashv]
  have hadd : hashAdd hash (key p) p t = addToBkt (toBkt (t₁.hashv p) t₁.numBuckets) p t₁ := by
    rw [hself]
    rfl
  obtain ⟨fhead, fprev, fnext, fhashv, ftail, fitems⟩ :=
    addToBkt_frame (toBkt (t₁.hashv p) t₁.numBuckets) p t₁
  have hchained : Chained t₁.hhPrev t₁.hhNext t₁.hashv t₁.buckets t₁.numBuckets {q | q ∈ l} :=
    happ.chained.congr_hashv fun q hq => by rw [hother q hq, happ.hashv]
  obtain ⟨hn, hbuckets⟩ := hchained.addToBkt hp happ.numBuckets _ rfl
  rw [hadd]
  refine ⟨fhead.trans happ.head, ?_, ?_, ?_, fun _ => ?_, fun _ => ?_, fun _ => hn, fun _ => ?_⟩
  · rw [fprev, fnext]
    exact happ.order
  · rw [List.map_append, List.nodup_append]
    refine ⟨h.keys, List.nodup_singleton _, ?_⟩
    rintro k hkl k' hk' rfl
    obtain ⟨q, hq, rfl⟩ := List.mem_map.1 hkl
    exact hk q hq (by simpa using hk')
  · intro q hq
    rw [fhashv]
    rcases List.mem_append.1 hq with hq | hq
    · rw [hother q hq, h.hashv q hq]
    · rw [List.mem_singleton.1 hq, hself]
  · rw [ftail]
    simpa using happ.tail
  · rw [fitems]
    simp [t₁, happ.numItems]
  · convert hbuckets using 1
    ext q
    simp [or_comm]

/-! ## Deleting -/

omit [DecidableEq κ] in
/-- The only element of a table is deleted with the table. -/
theorem Rep.delete_last {p : ι} (h : Rep hash key t [p]) :
    hashDelete p t = some { t with head := none } := by
  have hlinks : t.prev p = none ∧ t.next p = none := IsDList.links (l := []) (m := []) h.order
  have hhead : t.head = some p := h.head
  simp only [hashDelete, hhead]
  rw [if_pos hlinks]

omit [DecidableEq κ] in
/-- An element with neighbours is taken out of the list and of its chain. -/
theorem Rep.delete_append {us vs : List ι} {p : ι} (h : Rep hash key t (us ++ p :: vs))
    (hne : us ++ vs ≠ []) : ∃ t', hashDelete p t = some t' ∧ Rep hash key t' (us ++ vs) := by
  obtain ⟨hprev, hnext⟩ := h.order.links
  have hself := h.order.ne_self
  have hmem : p ∈ us ++ p :: vs := by simp
  have hl : us ++ p :: vs ≠ [] := List.ne_nil_of_mem hmem
  have hlinks : ¬ (t.prev p = none ∧ t.next p = none) := by
    rw [hprev, hnext, List.getLast?_eq_none_iff, List.head?_eq_none_iff]
    rintro ⟨rfl, rfl⟩
    exact hne rfl
  obtain ⟨a, hhead⟩ : ∃ a, t.head = some a := by
    rw [h.head]
    cases us <;> simp
  have hdel : setAt t.next (t.prev p) (t.next p) p = t.next p := by
    rw [setAt_apply, if_neg hself.1]
  have hsub : (us ++ vs).Sublist (us ++ p :: vs) :=
    (List.Sublist.refl us).append (List.sublist_cons_self p vs)
  have hnp : ∀ q ∈ us ++ vs, q ≠ p := by
    rintro q hq rfl
    exact (List.nodup_cons.1 (List.nodup_middle.1 h.order.nodup)).1 hq
  have hhdel : setAt t.hhNext (t.hhPrev p) (t.hhNext p) p = t.hhNext p := by
    obtain ⟨chain, hlist, -, -, hchain⟩ := h.chained hl _ (toBkt_lt (t.hashv p) (h.numBuckets hl))
    obtain ⟨xs, ys, rfl⟩ := List.append_of_mem ((hchain p).2 ⟨hmem, rfl⟩)
    rw [setAt_apply, if_neg hlist.ne_self.1]
  refine ⟨_, by simp only [hashDelete, hhead]; rw [if_neg hlinks], ?_⟩
  refine ⟨?_, ?_, h.keys.sublist (hsub.map key), fun q hq => h.hashv q (hsub.subset hq),
    fun _ => ?_, fun _ => ?_, fun _ => h.numBuckets hl, fun _ => ?_⟩
  · -- the head
    simp only [delInBkt, ← hhead]
    rcases us with _ | ⟨u, us⟩
    · have hnone : t.prev p = none := hprev
      rw [if_pos hnone, hnext, List.nil_append]
    · rw [if_neg (by rw [hprev]; simp), h.head]
      rfl
  · simp only [delInBkt, hdel]
    exact h.order.unlink (fun b _ => setAt_apply ..) fun b _ => setAt_apply ..
  · -- the tail
    simp only [delInBkt, h.tail hl]
    rcases List.eq_nil_or_concat vs with rfl | ⟨vs, v, rfl⟩
    · rw [if_pos (by simp), hprev, List.append_nil]
    · have hv : v ≠ p := hnp v (by simp)
      rw [List.concat_eq_append, ← List.cons_append, ← List.append_assoc, ← List.append_assoc,
        List.getLast?_concat, List.getLast?_concat, if_neg (by simpa using hv)]
  · simp only [delInBkt, h.numItems hl, List.length_append, List.length_cons]
    omega
  · have hset : {q | q ∈ us ++ vs} = {q | q ∈ us ++ p :: vs} \ {p} := by
      ext q
      simp only [Set.mem_ofPred_eq, Set.mem_sdiff, Set.mem_singleton_iff]
      constructor
      · intro hq
        exact ⟨hsub.subset hq, hnp q hq⟩
      · rintro ⟨hq, hqp⟩
        simpa [hqp] using hq
    simp only [delInBkt, hhdel]
    rw [hset]
    exact (h.chained hl).remove (h.numBuckets hl) hmem (by simp) (by simp) fun b hb => by simp [hb]

omit [DecidableEq κ] in
/-- **`HASH_DELETE` of an element of the table takes it out and leaves the others.** -/
theorem Rep.delete (h : Rep hash key t l) {p : ι} (hp : p ∈ l) :
    ∃ t', hashDelete p t = some t' ∧ Rep hash key t' (l.erase p) := by
  obtain ⟨us, vs, rfl⟩ := List.append_of_mem hp
  have hus : p ∉ us := fun hmem => by
    have := (List.nodup_append.1 h.order.nodup).2.2 p hmem p (by simp)
    exact this rfl
  rw [List.erase_append_right _ hus, List.erase_cons_head]
  by_cases hne : us ++ vs = []
  · obtain ⟨rfl, rfl⟩ := List.append_eq_nil_iff.1 hne
    exact ⟨_, h.delete_last, rep_nil rfl⟩
  · exact h.delete_append hne

/-! ## Elements outside the table -/

omit [DecidableEq κ] in
/-- An element outside the table may be cleared and get another key. -/
theorem Rep.zeroHandle (h : Rep hash key t l) {p : ι} (hp : p ∉ l) (k : κ) :
    Rep hash (Function.update key p k) (zeroHandle p t) l := by
  have hne (q : ι) (hq : q ∈ l) : q ≠ p := fun heq => hp (heq ▸ hq)
  have hkey : l.map (Function.update key p k) = l.map key :=
    List.map_congr_left fun q hq => Function.update_of_ne (hne q hq) ..
  refine ⟨h.head, h.order.congr (fun q hq => Function.update_of_ne (hne q hq) ..) fun q hq =>
    Function.update_of_ne (hne q hq) .., hkey ▸ h.keys, fun q hq => ?_, h.tail, h.numItems,
    h.numBuckets, fun hl b hb => ?_⟩
  · simp only [Uthash.zeroHandle]
    rw [Function.update_of_ne (hne q hq), Function.update_of_ne (hne q hq), h.hashv q hq]
  · obtain ⟨chain, hlist, hh, hc, hmem⟩ := h.chained hl b hb
    have hne' (q : ι) (hq : q ∈ chain) : q ≠ p := hne q ((hmem q).1 hq).1
    refine ⟨chain, hlist.congr (fun q hq => Function.update_of_ne (hne' q hq) ..) fun q hq =>
      Function.update_of_ne (hne' q hq) .., hh, hc, fun q => ?_⟩
    rw [hmem]
    simp only [Uthash.zeroHandle, Set.mem_ofPred_eq]
    constructor
    · rintro ⟨hq, hb⟩
      exact ⟨hq, by rw [Function.update_of_ne (hne q hq)]; exact hb⟩
    · rintro ⟨hq, hb⟩
      exact ⟨hq, by rw [Function.update_of_ne (hne q hq)] at hb; exact hb⟩

omit [DecidableEq κ] in
/-- `HASH_ADD` leaves the links of elements outside the table. -/
theorem Rep.add_links (h : Rep hash key t l) (k : κ) (p : ι) {q : ι} (hq : q ∉ l) (hqp : q ≠ p) :
    (hashAdd hash k p t).prev q = t.prev q ∧ (hashAdd hash k p t).next q = t.next q := by
  obtain ⟨-, fprev, fnext, -⟩ := addToBkt_frame (toBkt (hash k) (appendItem p t).numBuckets) p
    { appendItem p t with
      numItems := (appendItem p t).numItems + 1
      hashv := Function.update (appendItem p t).hashv p (hash k) }
  rw [hashAdd, fprev, fnext]
  by_cases hl : l = []
  · have hhead : t.head = none := by rw [h.head, hl]; rfl
    simp [appendItem, hhead, makeTable, hqp]
  · obtain ⟨a, hhead⟩ : ∃ a, t.head = some a := by
      rw [h.head]
      exact Option.isSome_iff_exists.1 (List.isSome_head?.2 hl)
    have htail : t.tail ≠ some q := fun heq =>
      hq (List.mem_of_getLast? ((h.tail hl).symm.trans heq))
    simp [appendItem, hhead, hqp, setAt_apply, htail]

omit [DecidableEq κ] in
/-- `HASH_DELETE` of an element of the table leaves the links of elements outside it. -/
theorem Rep.delete_links (h : Rep hash key t l) {p : ι} (hp : p ∈ l) {t' : Hash ι}
    (ht : hashDelete p t = some t') {q : ι} (hq : q ∉ l) :
    t'.prev q = t.prev q ∧ t'.next q = t.next q := by
  obtain ⟨us, vs, rfl⟩ := List.append_of_mem hp
  obtain ⟨hprev, hnext⟩ := h.order.links
  have hself := h.order.ne_self.1
  have hq₁ : t.prev p ≠ some q := fun heq =>
    hq (by simp [List.mem_of_getLast? (hprev.symm.trans heq)])
  have hq₂ : t.next p ≠ some q := fun heq =>
    hq (by simp [List.mem_of_mem_head? (hnext.symm.trans heq)])
  unfold hashDelete at ht
  split at ht
  · exact absurd ht (by simp)
  · by_cases hlinks : t.prev p = none ∧ t.next p = none
    · rw [if_pos hlinks] at ht
      obtain rfl := Option.some.inj ht
      exact ⟨rfl, rfl⟩
    · rw [if_neg hlinks] at ht
      obtain rfl := Option.some.inj ht
      simp [delInBkt, setAt_apply, hq₁, hq₂, hself]

/-- **An element that was never added takes the whole table with it.** -/
theorem hashDelete_unlinked {p : ι} {t' : Hash ι} (hp : t.prev p = none) (hn : t.next p = none)
    (ht : hashDelete p t = some t') : t'.head = none := by
  unfold hashDelete at ht
  split at ht
  · exact absurd ht (by simp)
  · rw [if_pos ⟨hp, hn⟩] at ht
    obtain rfl := Option.some.inj ht
    rfl

end Rep

end LinkProxy.Uthash
