import Mathlib

/-!
# Singly linked lists on a heap

A heap maps pointers to cells with a value and the pointer to the next cell; what is not allocated,
or has been freed, has no cell. `Linked h p l` says that the cells from the pointer `p` on, up to
`NULL`, are those of `l`, in order, with their values. It depends on nothing but the cells of the
list (`Linked.congr`), so a cell can be freed or changed as soon as it is not in the list any more.

A cell is put in front (`Linked.prepend`) or taken out, at the front or behind another cell
(`linked_append`, `Linked.unlink`).
-/

namespace LinkProxy

variable {ι α : Type*}

/-- A cell. -/
structure Cell (ι α : Type*) where
  val : α
  next : Option ι

/-- The cells from a pointer to the end of a list. -/
def Linked (h : ι → Option (Cell ι α)) : Option ι → List (ι × α) → Prop
  | p, [] => p = none
  | p, (a, x) :: l => p = some a ∧ ∃ q, h a = some ⟨x, q⟩ ∧ Linked h q l

variable {h h' : ι → Option (Cell ι α)} {p q : Option ι} {l m : List (ι × α)} {a : ι} {x : α}

/-- The pointer is that of the first cell. -/
theorem Linked.eq_head? (hl : Linked h p l) : p = l.head?.map Prod.fst := by
  cases l with
  | nil => exact hl
  | cons c l => exact hl.1

/-- Every element of the list has its cell. -/
theorem Linked.exists_cell (hl : Linked h p l) (ha : (a, x) ∈ l) : ∃ q, h a = some ⟨x, q⟩ := by
  induction l generalizing p with
  | nil => cases ha
  | cons c l ih =>
    obtain ⟨-, q, hcell, hl⟩ := hl
    rcases List.mem_cons.1 ha with rfl | ha
    · exact ⟨q, hcell⟩
    · exact ih hl ha

/-- Only the cells of the list matter. -/
theorem Linked.congr (hl : Linked h p l) (heq : ∀ c ∈ l, h' c.1 = h c.1) : Linked h' p l := by
  induction l generalizing p with
  | nil => exact hl
  | cons c l ih =>
    obtain ⟨hp, q, hcell, hl⟩ := hl
    exact ⟨hp, q, (heq c (by simp)).trans hcell, ih hl fun d hd => heq d (by simp [hd])⟩

section

variable [DecidableEq ι]

/-- What happens to a cell outside the list does not matter. -/
theorem Linked.update (hl : Linked h p l) (ha : a ∉ l.map Prod.fst) (c : Option (Cell ι α)) :
    Linked (Function.update h a c) p l := by
  apply hl.congr
  rintro d hd
  apply Function.update_of_ne
  rintro rfl
  exact ha (List.mem_map_of_mem hd)

/-- **A new cell in front.** -/
theorem Linked.prepend (hl : Linked h p l) (ha : a ∉ l.map Prod.fst) (x : α) :
    Linked (Function.update h a (some ⟨x, p⟩)) (some a) ((a, x) :: l) :=
  ⟨rfl, p, Function.update_self .., hl.update ha _⟩

/-- **A cell behind another one is taken out.** -/
theorem Linked.unlink {b : ι} {y : α}
    (hl : Linked h p ((a, x) :: (b, y) :: l)) (hnodup : a ∉ ((b, y) :: l).map Prod.fst)
    (hq : ∃ c, h b = some c ∧ c.next = q) :
    Linked (Function.update h a (some ⟨x, q⟩)) p ((a, x) :: l) := by
  obtain ⟨hp, -, -, -, r, hb, hl⟩ := hl
  obtain ⟨c, hc, rfl⟩ := hq
  obtain rfl : c = ⟨y, r⟩ := Option.some.inj (hc.symm.trans hb)
  refine ⟨hp, r, Function.update_self .., hl.update ?_ _⟩
  simp only [List.map_cons, List.mem_cons, not_or] at hnodup
  exact hnodup.2

end

end LinkProxy
