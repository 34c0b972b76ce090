import LinkProxy.Uthash.Counters

/-!
# Runs of a hash table

What a program sees of `uthash.h` are its answers: the element that `HASH_FIND` finds, the number
that `HASH_COUNT` returns, and the elements that a loop with `HASH_ITER` meets. `run` executes a
sequence of operations on the links of a table, from a table without elements, and `runList`
executes them on a list to which elements are appended and from which they are taken. As long as a
new element has a new key, only elements of the table are deleted, and the counters keep to their 32
bits, the answers are the same (`run_answers`).

`HASH_FSCK` is the check that the debugging version of `uthash.h` makes after every change: it
follows all chains and the list of all elements, compares the links back, and counts. It passes for
every table of such a run (`Rep.fsck`).
-/

namespace LinkProxy.Uthash

section

variable {ι κ : Type} [DecidableEq ι] [DecidableEq κ]

/-! ## `HASH_FSCK` -/

/-- Follow the links from `thh` and compare the links back; the number of elements, or `none` for
`HASH_OOPS` and for a list that does not end. -/
def fsckList (prevOf nextOf : ι → Option ι) : ℕ → Option ι → Option ι → ℕ → Option ℕ
  | 0, _, _, _ => none
  | _ + 1, _, none, count => some count
  | fuel + 1, prev, some thh, count =>
    if prev ≠ prevOf thh then none
    else fsckList prevOf nextOf fuel (some thh) (nextOf thh) (count + 1)

/-- `HASH_FSCK`. No list of a sound table is longer than `num_items`. -/
def hashFsck (t : Hash ι) : Bool :=
  match t.head with
  | none => true
  | some _ =>
    ((List.range t.numBuckets).all fun b => fsckList t.hhPrev t.hhNext (t.numItems + 1) none
      (t.buckets b).hhHead 0 = some (t.buckets b).count) &&
    (((List.range t.numBuckets).map fun b => (t.buckets b).count).sum = t.numItems) &&
    fsckList t.prev t.next (t.numItems + 1) none t.head 0 = some t.numItems

theorem fsckList_segment {prevOf nextOf : ι → Option ι} {p : Option ι} {l : List ι}
    (h : Segment prevOf nextOf p l none) {fuel : ℕ} (hfuel : l.length < fuel) (count : ℕ) :
    fsckList prevOf nextOf fuel p l.head? count = some (count + l.length) := by
  induction l generalizing p fuel count with
  | nil =>
    obtain ⟨fuel, rfl⟩ := Nat.exists_eq_succ_of_ne_zero (Nat.ne_of_gt hfuel)
    rfl
  | cons a l ih =>
    obtain ⟨fuel, rfl⟩ := Nat.exists_eq_succ_of_ne_zero (Nat.ne_of_gt (Nat.zero_lt_of_lt hfuel))
    obtain ⟨hprev, hnext, h⟩ := h
    rw [Option.or_none] at hnext
    rw [List.head?_cons, fsckList, if_neg (not_not.2 hprev.symm), hnext,
      ih h (by simpa using hfuel), List.length_cons]
    congr 1
    omega

section Rep

variable {hash : κ → UInt32} {key : ι → κ} {t : Hash ι} {l : List ι}

omit [DecidableEq κ] in
/-- **`HASH_FSCK` passes.** -/
theorem Rep.fsck (h : Rep hash key t l) : hashFsck t = true := by
  by_cases hl : l = []
  · simp [hashFsck, h.head, hl]
  · obtain ⟨a, hhead⟩ : ∃ a, t.head = some a := by
      rw [h.head]
      exact Option.isSome_iff_exists.1 (List.isSome_head?.2 hl)
    have hitems := h.numItems hl
    have happ := fsckList_segment h.order.segment (by omega : l.length < t.numItems + 1) 0
    rw [← h.head, Nat.zero_add, ← hitems] at happ
    have hchains (b : ℕ) (hb : b < t.numBuckets) : fsckList t.hhPrev t.hhNext (t.numItems + 1) none
        (t.buckets b).hhHead 0 = some (t.buckets b).count := by
      obtain ⟨chain, hlist, hhd, hcount, hmem⟩ := h.chained hl b hb
      have hle : chain.length ≤ l.length :=
        (hlist.nodup.subperm fun p hp => ((hmem p).1 hp).1).length_le
      rw [hhd, hcount, fsckList_segment hlist.segment (by omega), Nat.zero_add]
    have hsum := (h.chained hl).sum_counts (h.numBuckets hl) h.order.nodup fun _ => Iff.rfl
    rw [← hitems] at hsum
    simp only [hashFsck, hhead, hsum, decide_true, Bool.and_true, Bool.and_eq_true,
      List.all_eq_true, List.mem_range, decide_eq_true_eq]
    exact ⟨hchains, hhead ▸ happ⟩

end Rep

/-! ## Runs -/

/-- What a program does with a table. `sweep` is a loop with `HASH_ITER` that removes some of the
elements. -/
inductive Op (ι κ : Type)
  | add (p : ι)
  | delete (p : ι)
  | find (k : κ)
  | count
  | sweep (doomed : ι → Bool)

def Op.additions : Op ι κ → ℕ
  | .add _ => 1
  | _ => 0

def additions (ops : List (Op ι κ)) : ℕ := (ops.map Op.additions).sum

/-- What it sees. -/
inductive Answer (ι : Type)
  | done
  | found (o : Option ι)
  | number (n : ℕ)
  | met (l : List ι)

/-- `HASH_COUNT`. -/
def hashCount (t : Hash ι) : ℕ :=
  match t.head with
  | none => 0
  | some _ => t.numItems

section

variable (hash : κ → UInt32) (key : ι → κ)

/-- An operation on the links. -/
def exec (t : Hash ι) : Op ι κ → Option (Answer ι × Hash ι)
  | .add p => some (.done, hashAdd hash (key p) p t)
  | .delete p => (hashDelete p t).map (.done, ·)
  | .find k => some (.found (hashFind hash key k t), t)
  | .count => some (.number (hashCount t), t)
  | .sweep doomed =>
    (hashIter (fun p met => some (doomed p, met ++ [p])) ⟨t, [], []⟩).map fun s =>
      (.met s.st, s.table)

/-- A sequence of operations on the links. -/
def run : List (Op ι κ) → Hash ι → Option (List (Answer ι) × Hash ι)
  | [], t => some ([], t)
  | op :: ops, t => do
    let (a, t) ← exec hash key t op
    let (as, t) ← run ops t
    return (a :: as, t)

/-- The tables of a run: the one that it begins with, and those that its operations leave. -/
def tables : List (Op ι κ) → Hash ι → List (Hash ι)
  | [], t => [t]
  | op :: ops, t => t :: ((exec hash key t op).map fun r => tables ops r.2).getD []

/-- No table of the run has too many buckets. -/
def BucketsFit (ops : List (Op ι κ)) (t : Hash ι) : Prop :=
  ∀ u ∈ tables hash key ops t, u.head ≠ none → u.numBuckets ≤ maxNumBuckets

/-- An operation on a list. An added element has a new key, and a deleted one is in the list. -/
def execList (l : List ι) : Op ι κ → Option (Answer ι × List ι)
  | .add p => if p ∉ l ∧ key p ∉ l.map key then some (.done, l ++ [p]) else none
  | .delete p => if p ∈ l then some (.done, l.erase p) else none
  | .find k => some (.found (l.find? fun p => key p = k), l)
  | .count => some (.number l.length, l)
  | .sweep doomed => some (.met l, l.filter fun p => !doomed p)

/-- A sequence of operations on a list. -/
def runList : List (Op ι κ) → List ι → Option (List (Answer ι) × List ι)
  | [], l => some ([], l)
  | op :: ops, l => do
    let (a, l) ← execList key l op
    let (as, l) ← runList ops l
    return (a :: as, l)

end

section

variable {hash : κ → UInt32} {key : ι → κ} {t : Hash ι} {l : List ι}

/-- The table holds the list, with counters that are right after `n` additions. -/
structure Sim (hash : κ → UInt32) (key : ι → κ) (t : Hash ι) (l : List ι) (n : ℕ) : Prop where
  rep : Rep hash key t l
  accounted : l ≠ [] → Accounted t n

omit [DecidableEq ι] [DecidableEq κ] in
theorem sim_nil (h : t.head = none) : Sim hash key t [] 0 := ⟨rep_nil h, fun hl => absurd rfl hl⟩

omit [DecidableEq ι] [DecidableEq κ] in
theorem Sim.ne_nil {n : ℕ} (h : Sim hash key t l n) (hhead : t.head ≠ none) : l ≠ [] := by
  rintro rfl
  exact hhead h.rep.head

omit [DecidableEq ι] in
theorem visitAll_sweep (doomed : ι → Bool) (l met : List ι) :
    visitAll (fun p met => some (doomed p, met ++ [p])) l met =
      some (l.filter fun p => !doomed p, l.filter doomed, met ++ l) := by
  induction l generalizing met with
  | nil => simp [visitAll]
  | cons a l ih =>
    rw [visitAll]
    simp only [Option.bind_eq_bind, Option.bind_some, ih, Option.pure_def]
    cases hd : doomed a <;> simp [hd]

/-- **One operation on the links does what it does to the list.** -/
theorem Sim.exec {n : ℕ} (h : Sim hash key t l n) {op : Op ι κ} {a : Answer ι} {l' : List ι}
    (hop : execList key l op = some (a, l')) :
    ∃ t', exec hash key t op = some (a, t') ∧ Sim hash key t' l' (n + op.additions) := by
  cases op with
  | add p =>
    rw [execList] at hop
    split_ifs at hop with hnew
    obtain ⟨rfl, rfl⟩ := Prod.mk.inj (Option.some.inj hop)
    have hkeys : ∀ q ∈ l, key q ≠ key p := fun q hq heq =>
      hnew.2 (List.mem_map.2 ⟨q, hq, heq⟩)
    exact ⟨_, rfl, h.rep.add hnew.1 hkeys, fun _ =>
      Accounted.hashAdd h.rep hnew.1 hkeys h.accounted⟩
  | delete p =>
    rw [execList] at hop
    split_ifs at hop with hp
    obtain ⟨rfl, rfl⟩ := Prod.mk.inj (Option.some.inj hop)
    obtain ⟨t', ht', hrep⟩ := h.rep.delete hp
    exact ⟨t', by rw [Uthash.exec, ht']; rfl, hrep, fun _ =>
      (h.accounted (List.ne_nil_of_mem hp)).shrunk (shrunk_hashDelete ht')⟩
  | find k =>
    obtain ⟨rfl, rfl⟩ := Prod.mk.inj (Option.some.inj hop)
    refine ⟨t, ?_, h⟩
    rw [Uthash.exec, h.rep.find k]
    rfl
  | count =>
    obtain ⟨rfl, rfl⟩ := Prod.mk.inj (Option.some.inj hop)
    refine ⟨t, ?_, h⟩
    rw [Uthash.exec, hashCount, h.rep.head]
    rcases l with _ | ⟨b, l⟩
    · rfl
    · simp [h.rep.numItems]
  | sweep doomed =>
    obtain ⟨rfl, rfl⟩ := Prod.mk.inj (Option.some.inj hop)
    have hat : (⟨t, [], []⟩ : Iter ι (List ι)).At hash key [] l :=
      ⟨h.rep, fun _ _ => List.not_mem_nil⟩
    have hiter := hashIter_eq (fun p met => some (doomed p, met ++ [p])) hat
    rw [visitAll_sweep] at hiter
    obtain ⟨t', ht', hrep⟩ := hiter
    refine ⟨t', by rw [Uthash.exec, ht']; rfl, hrep, fun hl => ?_⟩
    have hne : l ≠ [] := fun hnil => hl (by simp [hnil])
    exact (h.accounted hne).shrunk (shrunk_hashIter ht')

/-- **A run on the links is a run on the list**, and every table of it is one of a list, after no
more additions than the run makes. -/
theorem Sim.run {n : ℕ} (h : Sim hash key t l n) {ops : List (Op ι κ)} {as : List (Answer ι)}
    {l' : List ι} (hops : runList key ops l = some (as, l')) :
    (∃ t', run hash key ops t = some (as, t') ∧ Sim hash key t' l' (n + additions ops)) ∧
      ∀ u ∈ tables hash key ops t, ∃ l' m, m ≤ n + additions ops ∧ Sim hash key u l' m := by
  induction ops generalizing t l n as with
  | nil =>
    obtain ⟨rfl, rfl⟩ := Prod.mk.inj (Option.some.inj hops)
    refine ⟨⟨t, rfl, h⟩, fun u hu => ?_⟩
    rw [tables, List.mem_singleton] at hu
    exact ⟨_, n, le_rfl, hu ▸ h⟩
  | cons op ops ih =>
    obtain ⟨⟨a, l₁⟩, hop, hops⟩ := Option.bind_eq_some_iff.1 hops
    obtain ⟨⟨as₁, l₂⟩, hrest, hops⟩ := Option.bind_eq_some_iff.1 hops
    obtain ⟨rfl, rfl⟩ := Prod.mk.inj (Option.some.inj hops)
    obtain ⟨t₁, ht₁, hsim⟩ := h.exec hop
    obtain ⟨⟨t', ht', hsim'⟩, htables⟩ := ih hsim hrest
    have hadd : n + additions (op :: ops) = n + op.additions + additions ops := by
      rw [additions, List.map_cons, List.sum_cons, Nat.add_assoc]
      rfl
    rw [hadd]
    refine ⟨⟨t', ?_, hsim'⟩, fun u hu => ?_⟩
    · rw [Uthash.run, ht₁]
      simp [ht']
    · rw [tables, ht₁, List.mem_cons] at hu
      rcases hu with rfl | hu
      · exact ⟨l, n, by omega, h⟩
      · exact htables u hu

/-- **`uthash.h` is a list of elements with different keys, in the order of their addition.** From a
table without elements, and for any hash function: a sequence of additions, deletions, lookups,
counts and loops that remove elements, which adds only elements with new keys and deletes only
elements of the table, comes to its end on the links, with the answers of the list. The table that
is left passes `HASH_FSCK`, and the mask that selects a bucket is a remainder.

The counters are `unsigned`: this is so as long as no table of the run has more than `2 ^ 28`
buckets and the run makes fewer than `2 ^ 28` additions, and no counter of any table of the run
leaves its 32 bits then. A run of fewer than 168 additions has no table with more buckets, whatever
the hash function. -/
theorem run_answers (hash : κ → UInt32) (key : ι → κ) (ht : t.head = none) {ops : List (Op ι κ)}
    {as : List (Answer ι)} (hops : runList key ops [] = some (as, l)) :
    (additions ops < 168 → BucketsFit hash key ops t) ∧
      (BucketsFit hash key ops t → additions ops < 2 ^ 28 →
        (∀ u ∈ tables hash key ops t, u.head ≠ none → u.InRange) ∧
        ∃ t', run hash key ops t = some (as, t') ∧ elements t' = l ∧ hashFsck t' = true ∧
          (l ≠ [] → ∀ hashv, toBkt hashv t'.numBuckets = hashv.toNat % t'.numBuckets)) := by
  obtain ⟨⟨t', hrun, hsim⟩, htables⟩ := (sim_nil ht : Sim hash key t [] 0).run hops
  rw [Nat.zero_add] at hsim htables
  refine ⟨fun hadd u hu hhead => ?_, fun hfit hadd => ⟨fun u hu hhead => ?_,
    t', hrun, hsim.rep.elements, hsim.rep.fsck, fun hl => (hsim.accounted hl).doubled.toBkt_eq_mod⟩⟩
  · obtain ⟨l', m, hm, hsim⟩ := htables u hu
    obtain ⟨k, hroomy⟩ := (hsim.accounted (hsim.ne_nil hhead)).roomy (by omega)
    exact hroomy.numBuckets_le (by omega)
  · obtain ⟨l', m, hm, hsim⟩ := htables u hu
    exact (hsim.accounted (hsim.ne_nil hhead)).counted.inRange (by omega) (hfit u hu hhead)

end

/-- A `NULL` head, with nothing in the handles. -/
def Hash.empty (ι : Type) : Hash ι where
  head := none
  buckets _ := ⟨none, 0, 0⟩
  numBuckets := 0
  numItems := 0
  tail := none
  idealChainMaxlen := 0
  nonidealItems := 0
  ineffExpands := 0
  noexpand := false
  prev _ := none
  next _ := none
  hhPrev _ := none
  hhNext _ := none
  hashv _ := 0

/-- Three elements in one chain, of which a loop removes the first and the last. -/
theorem run_answers_sweep : ∃ t, run (fun _ => 7) id [.add 1, .add 2, .add 3, .find 2,
    .sweep fun p => p % 2 = 1, .count] (Hash.empty ℕ) =
      some ([.done, .done, .done, .found (some 2), .met [1, 2, 3], .number 1], t) ∧
    elements t = [2] ∧ hashFsck t = true := by
  have hops : runList id [.add 1, .add 2, .add 3, .find 2, .sweep fun p => p % 2 = 1, .count] [] =
      some ([.done, .done, .done, .found (some 2), .met [1, 2, 3], .number 1], [2]) := rfl
  obtain ⟨hfit, hrun⟩ := run_answers (t := Hash.empty ℕ) (fun _ => 7) id rfl hops
  obtain ⟨-, t, hrun, hl, hfsck, -⟩ := hrun (hfit (by decide)) (by decide)
  exact ⟨t, hrun, hl, hfsck⟩

end

end LinkProxy.Uthash
