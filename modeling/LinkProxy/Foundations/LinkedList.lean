import Mathlib

/-!
# Doubly linked lists

Elements of a type point to each other by two partial functions, `prev` and `next`. `Segment p l q`
says that they run through `l` in order, that `p` comes before its first and `q` after its last
element; `IsDList` is a whole list, with nothing before and after. Elements outside the list may
have any links.

What the usual operations do is to change an end of a segment: `Segment.changeStart` and
`Segment.changeEnd` ask how the new links look on its elements, in terms of the old ones, and so do
not depend on how they have been changed. Putting a new element to an end (`IsDList.prepend`,
`IsDList.append`) and taking one out (`IsDList.unlink`) follow from them. `walk` follows the links
from the head.
-/

namespace LinkProxy

variable {ι : Type*}

/-- The links run through a list, from `p` before it to `q` after it. -/
def Segment (prev next : ι → Option ι) : Option ι → List ι → Option ι → Prop
  | _, [], _ => True
  | p, a :: l, q => prev a = p ∧ next a = l.head?.or q ∧ Segment prev next (some a) l q

/-- A doubly linked list. -/
structure IsDList (prev next : ι → Option ι) (l : List ι) : Prop where
  nodup : l.Nodup
  segment : Segment prev next none l none

variable {prev next prev' next' : ι → Option ι} {p p' q q' : Option ι} {l m : List ι} {a : ι}

/-! ## Segments -/

theorem segment_append :
    Segment prev next p (l ++ m) q ↔
      Segment prev next p l (m.head?.or q) ∧ Segment prev next (l.getLast?.or p) m q := by
  induction l generalizing p with
  | nil => simp [Segment]
  | cons b l ih =>
    have hlast : (b :: l).getLast?.or p = l.getLast?.or (some b) := by
      rw [List.getLast?_cons]
      cases l.getLast? <;> rfl
    rw [List.cons_append, Segment, Segment, ih, List.head?_append, Option.or_assoc, hlast]
    tauto

/-- Only the links of the elements matter. -/
theorem Segment.congr (h : Segment prev next p l q) (hp : ∀ b ∈ l, prev' b = prev b)
    (hn : ∀ b ∈ l, next' b = next b) : Segment prev' next' p l q := by
  induction l generalizing p with
  | nil => trivial
  | cons b l ih =>
    obtain ⟨hpb, hnb, h⟩ := h
    exact ⟨(hp b (by simp)).trans hpb, (hn b (by simp)).trans hnb,
      ih h (fun c hc => hp c (by simp [hc])) fun c hc => hn c (by simp [hc])⟩

section

variable [DecidableEq ι]

theorem Segment.changeStart (h : Segment prev next p l q) (hl : l.Nodup)
    (hp : ∀ b ∈ l, prev' b = if l.head? = some b then p' else prev b)
    (hn : ∀ b ∈ l, next' b = next b) : Segment prev' next' p' l q := by
  rcases l with _ | ⟨b, l⟩
  · trivial
  · obtain ⟨-, hnb, h⟩ := h
    refine ⟨by simpa using hp b (by simp), (hn b (by simp)).trans hnb,
      h.congr (fun c hc => ?_) fun c hc => hn c (by simp [hc])⟩
    have hne : b ≠ c := fun heq => (List.nodup_cons.1 hl).1 (heq ▸ hc)
    simpa [hne] using hp c (by simp [hc])

theorem Segment.changeEnd (h : Segment prev next p l q) (hl : l.Nodup)
    (hp : ∀ b ∈ l, prev' b = prev b)
    (hn : ∀ b ∈ l, next' b = if l.getLast? = some b then q' else next b) :
    Segment prev' next' p l q' := by
  induction l generalizing p with
  | nil => trivial
  | cons b l ih =>
    obtain ⟨hpb, hnb, h⟩ := h
    obtain ⟨hb, hl⟩ := List.nodup_cons.1 hl
    rcases l with _ | ⟨c, l⟩
    · exact ⟨(hp b (by simp)).trans hpb, by simpa using hn b (by simp), trivial⟩
    · -- the last element is in the rest of the list
      have hlast : (b :: c :: l).getLast? = (c :: l).getLast? := List.getLast?_cons_cons
      have hne : (c :: l).getLast? ≠ some b := fun heq => hb (List.mem_of_getLast? heq)
      rw [hlast] at hn
      refine ⟨(hp b (by simp)).trans hpb, ?_, ih h hl (fun d hd => hp d (by simp [hd]))
        fun d hd => hn d (by simp [hd])⟩
      rw [hn b (by simp), if_neg hne, hnb]
      simp

end

/-! ## Lists -/

theorem isDList_nil : IsDList prev next [] := ⟨List.nodup_nil, trivial⟩

theorem isDList_singleton (hp : prev a = none) (hn : next a = none) : IsDList prev next [a] :=
  ⟨List.nodup_singleton a, hp, hn, trivial⟩

theorem IsDList.congr (h : IsDList prev next l) (hp : ∀ b ∈ l, prev' b = prev b)
    (hn : ∀ b ∈ l, next' b = next b) : IsDList prev' next' l :=
  ⟨h.nodup, h.segment.congr hp hn⟩

/-- The links of an element. -/
theorem IsDList.links (h : IsDList prev next (l ++ a :: m)) :
    prev a = l.getLast? ∧ next a = m.head? := by
  obtain ⟨-, hp, hn, -⟩ := segment_append.1 h.segment
  rw [Option.or_none] at hp hn
  exact ⟨hp, hn⟩

/-- An element is not its own neighbour. -/
theorem IsDList.ne_self (h : IsDList prev next (l ++ a :: m)) :
    prev a ≠ some a ∧ next a ≠ some a := by
  obtain ⟨hp, hn⟩ := h.links
  obtain ⟨-, hm, hdisj⟩ := List.nodup_append.1 h.nodup
  rw [hp, hn]
  exact ⟨fun heq => hdisj a (List.mem_of_getLast? heq) a (by simp) rfl,
    fun heq => (List.nodup_cons.1 hm).1 (List.mem_of_mem_head? heq)⟩

section

variable [DecidableEq ι]

/-- **A new first element.** -/
theorem IsDList.prepend (h : IsDList prev next l) (ha : a ∉ l) (hpa : prev' a = none)
    (hna : next' a = l.head?)
    (hp : ∀ b ∈ l, prev' b = if l.head? = some b then some a else prev b)
    (hn : ∀ b ∈ l, next' b = next b) : IsDList prev' next' (a :: l) :=
  ⟨List.nodup_cons.2 ⟨ha, h.nodup⟩, hpa, by simpa using hna, h.segment.changeStart h.nodup hp hn⟩

/-- **A new last element.** -/
theorem IsDList.append (h : IsDList prev next l) (ha : a ∉ l) (hpa : prev' a = l.getLast?)
    (hna : next' a = none) (hp : ∀ b ∈ l, prev' b = prev b)
    (hn : ∀ b ∈ l, next' b = if l.getLast? = some b then some a else next b) :
    IsDList prev' next' (l ++ [a]) := by
  refine ⟨?_, segment_append.2 ⟨by simpa using h.segment.changeEnd h.nodup hp hn, by simpa using hpa,
    hna, trivial⟩⟩
  refine List.nodup_append.2 ⟨h.nodup, List.nodup_singleton a, ?_⟩
  rintro b hb c hc rfl
  exact ha (List.mem_singleton.1 hc ▸ hb)

/-- **An element is taken out** by linking its neighbours to each other. -/
theorem IsDList.unlink (h : IsDList prev next (l ++ a :: m))
    (hp : ∀ b ∈ l ++ m, prev' b = if next a = some b then prev a else prev b)
    (hn : ∀ b ∈ l ++ m, next' b = if prev a = some b then next a else next b) :
    IsDList prev' next' (l ++ m) := by
  obtain ⟨hprev, hnext⟩ := h.links
  obtain ⟨hl, -, -, hm⟩ := segment_append.1 h.segment
  obtain ⟨nl, nam, disj⟩ := List.nodup_append.1 h.nodup
  have nm := (List.nodup_cons.1 nam).2
  rw [hprev, hnext] at hp hn
  -- the first element of `m` is not in `l`, nor the last element of `l` in `m`
  have hhead (b : ι) (hb : b ∈ l) : m.head? ≠ some b := fun heq =>
    disj b hb b (by simp [List.mem_of_mem_head? heq]) rfl
  have hlast (b : ι) (hb : b ∈ m) : l.getLast? ≠ some b := fun heq =>
    disj b (List.mem_of_getLast? heq) b (by simp [hb]) rfl
  refine ⟨List.nodup_append.2 ⟨nl, nm, fun b hb c hc => disj b hb c (by simp [hc])⟩,
    segment_append.2 ⟨hl.changeEnd nl ?_ ?_, hm.changeStart nm ?_ ?_⟩⟩
  · intro b hb
    rw [hp b (by simp [hb]), if_neg (hhead b hb)]
  · intro b hb
    rw [hn b (by simp [hb])]
    simp
  · intro b hb
    rw [hp b (by simp [hb])]
    simp
  · intro b hb
    rw [hn b (by simp [hb]), if_neg (hlast b hb)]

end

/-! ## Following the links -/

/-- The elements met by following `next` from a starting point, for at most a number of steps. -/
def walk (next : ι → Option ι) : ℕ → Option ι → List ι
  | 0, _ => []
  | _ + 1, none => []
  | n + 1, some a => a :: walk next n (next a)

theorem Segment.walk (h : Segment prev next p l none) : walk next l.length l.head? = l := by
  induction l generalizing p with
  | nil => rfl
  | cons a l ih =>
    obtain ⟨-, hn, h⟩ := h
    rw [Option.or_none] at hn
    rw [List.length_cons, List.head?_cons, LinkProxy.walk, hn, ih h]

theorem IsDList.walk (h : IsDList prev next l) : LinkProxy.walk next l.length l.head? = l :=
  h.segment.walk

end LinkProxy
