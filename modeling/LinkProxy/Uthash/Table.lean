import LinkProxy.Foundations.LinkedList

/-!
# The hash table of `uthash.h`

A hash table is a pointer to its first element. The elements carry the links of two kinds of lists
in their handles: the list of all elements in the order in which they were added, and for every
bucket the chain of the elements in it. `HASH_FIND`, `HASH_ADD` and `HASH_DELETE` are modelled on
these links, field by field, with the doubling of the buckets when a chain gets long
(`expandBuckets`). The hash function and the keys of the elements are parameters, and a field of the
handles is a function of the element.

The counters are `unsigned` in the source and have no bound here. `Hash.InRange` is the condition
for the two to agree, and `run_answers` says which runs meet it.

In particular `hashDelete` believes the links of the element it is given: one without neighbours is
taken for the only element of the table, and the table is freed.
-/

namespace LinkProxy.Uthash

/-- `HASH_INITIAL_NUM_BUCKETS`. -/
def initialNumBuckets : ℕ := 32

/-- `HASH_BKT_CAPACITY_THRESH`. -/
def bktCapacityThresh : ℕ := 10

/-- `UT_hash_bucket`, with counters that do not wrap. -/
structure Bucket (ι : Type) where
  hhHead : Option ι
  count : ℕ
  expandMult : ℕ

/-- The first element, its `UT_hash_table`, which means something only if there is a first element,
and the handles of all elements. Its counters do not wrap either. -/
structure Hash (ι : Type) where
  head : Option ι
  buckets : ℕ → Bucket ι
  numBuckets : ℕ
  numItems : ℕ
  tail : Option ι
  idealChainMaxlen : ℕ
  nonidealItems : ℕ
  ineffExpands : ℕ
  noexpand : Bool
  prev : ι → Option ι
  next : ι → Option ι
  hhPrev : ι → Option ι
  hhNext : ι → Option ι
  hashv : ι → UInt32

/-- `HASH_TO_BKT`. -/
def toBkt (hashv : UInt32) (numBkts : ℕ) : ℕ := hashv.toNat &&& (numBkts - 1)

theorem toBkt_lt (hashv : UInt32) {numBkts : ℕ} (h : 0 < numBkts) : toBkt hashv numBkts < numBkts :=
  lt_of_le_of_lt Nat.and_le_right (by omega)

section

variable {ι κ : Type} [DecidableEq ι] [DecidableEq κ]

/-- `if (o) o->field = v`. -/
def setAt (field : ι → Option ι) (o v : Option ι) : ι → Option ι :=
  match o with
  | none => field
  | some a => Function.update field a v

theorem setAt_apply (field : ι → Option ι) (o v : Option ι) (b : ι) :
    setAt field o v b = if o = some b then v else field b := by
  cases o with
  | none => simp [setAt]
  | some a => by_cases h : b = a <;> simp [setAt, h, eq_comm]

/-! ## Lookup -/

/-- `HASH_FIND_IN_BKT`: follow the chain to an element with the key. -/
def findInBkt (key : ι → κ) (k : κ) (hhNext : ι → Option ι) : ℕ → Option ι → Option ι
  | 0, _ => none
  | _ + 1, none => none
  | n + 1, some out => if key out = k then some out else findInBkt key k hhNext n (hhNext out)

/-- `HASH_FIND`. The chain has as many elements as its bucket counts. -/
def hashFind (hash : κ → UInt32) (key : ι → κ) (k : κ) (t : Hash ι) : Option ι :=
  match t.head with
  | none => none
  | some _ =>
    let bkt := t.buckets (toBkt (hash k) t.numBuckets)
    findInBkt key k t.hhNext bkt.count bkt.hhHead

omit [DecidableEq ι] in
theorem findInBkt_key {key : ι → κ} {k : κ} {hhNext : ι → Option ι} {n : ℕ} {o : Option ι} {p : ι}
    (h : findInBkt key k hhNext n o = some p) : key p = k := by
  induction n generalizing o with
  | zero => exact absurd h (by simp [findInBkt])
  | succ n ih =>
    cases o with
    | none => exact absurd h (by simp [findInBkt])
    | some q =>
      rw [findInBkt] at h
      split_ifs at h with hq
      · exact Option.some.inj h ▸ hq
      · exact ih h

omit [DecidableEq ι] in
/-- What is found has the key, in any table. -/
theorem hashFind_key {hash : κ → UInt32} {key : ι → κ} {k : κ} {t : Hash ι} {p : ι}
    (h : hashFind hash key k t = some p) : key p = k := by
  unfold hashFind at h
  split at h
  · exact absurd h (by simp)
  · exact findInBkt_key h

/-- The elements of the table, in the order of `HASH_ITER`. -/
def elements (t : Hash ι) : List ι :=
  match t.head with
  | none => []
  | some _ => walk t.next t.numItems t.head

/-! ## Expansion -/

/-- The new buckets while items are moved to them. -/
structure Expansion (ι : Type) where
  newBuckets : ℕ → Bucket ι
  nonidealItems : ℕ
  hhPrev : ι → Option ι
  hhNext : ι → Option ι

/-- Move one item to its new bucket. -/
def moveItem (t : Hash ι) (e : Expansion ι) (thh : ι) : Expansion ι :=
  let bkt := toBkt (t.hashv thh) (t.numBuckets * 2)
  let newbkt := e.newBuckets bkt
  let count := newbkt.count + 1
  let nonideal : Bool := t.idealChainMaxlen < count
  { newBuckets := Function.update e.newBuckets bkt ⟨some thh, count,
      if nonideal then count / t.idealChainMaxlen else newbkt.expandMult⟩
    nonidealItems := if nonideal then e.nonidealItems + 1 else e.nonidealItems
    hhPrev := setAt (Function.update e.hhPrev thh none) newbkt.hhHead (some thh)
    hhNext := Function.update e.hhNext thh newbkt.hhHead }

/-- Move the items of an old chain; the next one is noted before an item is moved. -/
def moveChain (t : Hash ι) : ℕ → Option ι → Expansion ι → Expansion ι
  | 0, _, e => e
  | _ + 1, none, e => e
  | n + 1, some thh, e => moveChain t n (e.hhNext thh) (moveItem t e thh)

/-- `HASH_EXPAND_BUCKETS`. -/
def expandBuckets (t : Hash ι) : Hash ι :=
  let t := { t with
    idealChainMaxlen := t.numItems / (t.numBuckets * 2) +
      if t.numItems % (t.numBuckets * 2) = 0 then 0 else 1 }
  let e := (List.range t.numBuckets).foldl
    (fun e b => moveChain t (t.buckets b).count (t.buckets b).hhHead e)
    ⟨fun _ => ⟨none, 0, 0⟩, 0, t.hhPrev, t.hhNext⟩
  let ineffExpands := if e.nonidealItems > t.numItems / 2 then t.ineffExpands + 1 else 0
  { t with
    buckets := e.newBuckets
    numBuckets := t.numBuckets * 2
    nonidealItems := e.nonidealItems
    ineffExpands := ineffExpands
    noexpand := if ineffExpands > 1 then true else t.noexpand
    hhPrev := e.hhPrev
    hhNext := e.hhNext }

/-! ## Adding and deleting -/

/-- `HASH_ADD_TO_BKT`. -/
def addToBkt (bkt : ℕ) (add : ι) (t : Hash ι) : Hash ι :=
  let head := t.buckets bkt
  let t := { t with
    buckets := Function.update t.buckets bkt ⟨some add, head.count + 1, head.expandMult⟩
    hhNext := Function.update t.hhNext add head.hhHead
    hhPrev := setAt (Function.update t.hhPrev add none) head.hhHead (some add) }
  if head.count + 1 ≥ (head.expandMult + 1) * bktCapacityThresh ∧ t.noexpand = false then
    expandBuckets t
  else t

/-- `HASH_MAKE_TABLE`, for a first element. -/
def makeTable (add : ι) (t : Hash ι) : Hash ι :=
  { t with
    buckets := fun _ => ⟨none, 0, 0⟩
    numBuckets := initialNumBuckets
    numItems := 0
    tail := some add
    idealChainMaxlen := 0
    nonidealItems := 0
    ineffExpands := 0
    noexpand := false }

/-- The part of `HASH_ADD_KEYPTR` that appends to the list of all elements. -/
def appendItem (add : ι) (t : Hash ι) : Hash ι :=
  let t := { t with next := Function.update t.next add none }
  match t.head with
  | none => makeTable add { t with head := some add, prev := Function.update t.prev add none }
  | some _ => { t with
      next := setAt t.next t.tail (some add)
      prev := Function.update t.prev add t.tail
      tail := some add }

/-- `HASH_ADD`, with the key of the element. -/
def hashAdd (hash : κ → UInt32) (k : κ) (add : ι) (t : Hash ι) : Hash ι :=
  let t := appendItem add t
  let t := { t with
    numItems := t.numItems + 1
    hashv := Function.update t.hashv add (hash k) }
  addToBkt (toBkt (hash k) t.numBuckets) add t

/-- `HASH_DEL_IN_BKT`. -/
def delInBkt (bkt : ℕ) (del : ι) (t : Hash ι) : Hash ι :=
  let head := t.buckets bkt
  let hhNext := setAt t.hhNext (t.hhPrev del) (t.hhNext del)
  { t with
    buckets := Function.update t.buckets bkt ⟨if head.hhHead = some del then t.hhNext del
      else head.hhHead, head.count - 1, head.expandMult⟩
    hhNext := hhNext
    hhPrev := setAt t.hhPrev (hhNext del) (t.hhPrev del) }

/-- `HASH_DELETE`; `none` where the table of a `NULL` head is accessed. -/
def hashDelete (del : ι) (t : Hash ι) : Option (Hash ι) :=
  match t.head with
  | none => none
  | some _ =>
    if t.prev del = none ∧ t.next del = none then some { t with head := none }
    else
      let next := setAt t.next (t.prev del) (t.next del)
      let t := { t with
        tail := if t.tail = some del then t.prev del else t.tail
        head := if t.prev del = none then t.next del else t.head
        next := next
        prev := setAt t.prev (next del) (t.prev del) }
      let t := delInBkt (toBkt (t.hashv del) t.numBuckets) del t
      some { t with numItems := t.numItems - 1 }

/-- The handle of an element after `memset`. -/
def zeroHandle (p : ι) (t : Hash ι) : Hash ι :=
  { t with
    prev := Function.update t.prev p none
    next := Function.update t.next p none
    hhPrev := Function.update t.hhPrev p none
    hhNext := Function.update t.hhNext p none
    hashv := Function.update t.hashv p 0 }

end

end LinkProxy.Uthash
