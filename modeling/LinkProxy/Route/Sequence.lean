import Mathlib

/-!
# Sequences of reported edges

Records that report an edge from a source to a destination come one after the other. A vertex may
lose its edges on the way: it does when a record names it as the destination of a source that is new
(`Wipes`). What is left at the end is said in terms of the sequence alone:

* an edge is there at the end if its source has kept its edges since a record of it (`Present`);
* the last record of every edge is there exactly if the source of an edge keeps its edges after the
  last record of it (`KeepsReported`);
* an edge is entered by the first record of it since its source has lost its edges, and it dangles
  if its destination was not a source then (`Dangling`).

Each of these has a rule for one more record at the end of the sequence, by which it is compared
with what a program does record by record.
-/

namespace LinkProxy.Route

variable {ρ κ : Type*} (src dst : ρ → κ)

/-- The record `r` behind `rs` makes the vertex `a` lose its edges. -/
def Wipes (rs : List ρ) (r : ρ) (a : κ) : Prop := dst r = a ∧ src r ∉ rs.map src

/-- The vertex `a` does not lose its edges in `rs₂` behind `rs₁`. -/
def Kept (rs₁ rs₂ : List ρ) (a : κ) : Prop :=
  ∀ us r vs, rs₂ = us ++ r :: vs → ¬Wipes src dst (rs₁ ++ us) r a

/-- The edge from `a` to `b` has been reported, and `a` has kept its edges since. -/
def Present (rs : List ρ) (a b : κ) : Prop :=
  ∃ us r vs, rs = us ++ r :: vs ∧ (src r = a ∧ dst r = b) ∧ Kept src dst (us ++ [r]) vs a

/-- The edge from `a` to `b` has been entered when `b` was not a source, and `a` has kept its edges
since. -/
def Dangling (rs : List ρ) (a b : κ) : Prop :=
  ∃ us r vs, rs = us ++ r :: vs ∧ (src r = a ∧ dst r = b) ∧ ¬Present src dst us a b ∧
    b ∉ us.map src ∧ Kept src dst (us ++ [r]) vs a

/-- The last record of the edge from `a` to `b`. -/
def reported [DecidableEq κ] (rs : List ρ) (a b : κ) : Option ρ :=
  (rs.filter fun r => src r = a ∧ dst r = b).getLast?

/-- `a` keeps its edges after the last record of the edge from `a` to `b`. -/
def KeepsEdge (rs : List ρ) (a b : κ) : Prop :=
  ∀ us r vs, rs = us ++ r :: vs → src r = a ∧ dst r = b →
    (∀ r' ∈ vs, ¬(src r' = a ∧ dst r' = b)) → Kept src dst (us ++ [r]) vs a

/-- **After the last record of an edge its source keeps its edges.** -/
def KeepsReported (rs : List ρ) : Prop :=
  ∀ us r vs, rs = us ++ r :: vs → (∀ r' ∈ vs, ¬(src r' = src r ∧ dst r' = dst r)) →
    Kept src dst (us ++ [r]) vs (src r)

/-- **The destination of an edge that stays is a source before the record that enters it.** -/
def Grounded (rs : List ρ) : Prop :=
  ∀ us r vs, rs = us ++ r :: vs → ¬Present src dst us (src r) (dst r) →
    Kept src dst (us ++ [r]) vs (src r) → dst r ∈ us.map src

/-! ## One more record -/

section

variable {src dst} {rs rs₁ rs₂ : List ρ} {r : ρ} {a b : κ}

/-- The places in a sequence with one more record: its end, and those before it. -/
theorem concat_eq_append_cons {us vs : List ρ} {x : ρ} : rs ++ [r] = us ++ x :: vs ↔
    vs = [] ∧ us = rs ∧ x = r ∨ ∃ ws, vs = ws ++ [r] ∧ rs = us ++ x :: ws := by
  rcases List.eq_nil_or_concat vs with rfl | ⟨ws, y, rfl⟩
  · constructor
    · intro h
      obtain ⟨h₁, h₂⟩ := List.append_inj' h rfl
      exact .inl ⟨rfl, h₁.symm, by simpa using h₂.symm⟩
    · rintro (⟨-, rfl, rfl⟩ | ⟨ws, h, -⟩)
      · rfl
      · simp at h
  · rw [List.concat_eq_append]
    constructor
    · intro h
      rw [← List.cons_append, ← List.append_assoc] at h
      obtain ⟨h₁, h₂⟩ := List.append_inj' h rfl
      exact .inr ⟨ws, by simpa using h₂.symm, h₁⟩
    · rintro (⟨h, -⟩ | ⟨ws', h, rfl⟩)
      · simp at h
      · obtain ⟨rfl, hy⟩ := List.append_inj' h rfl
        rw [hy, List.append_assoc, List.cons_append]

theorem forall_mem_concat {P : ρ → Prop} : (∀ x ∈ rs ++ [r], P x) ↔ (∀ x ∈ rs, P x) ∧ P r := by
  rw [List.forall_mem_append, List.forall_mem_singleton]

theorem kept_nil : Kept src dst rs [] a := by
  intro us r vs h
  simp at h

theorem kept_concat : Kept src dst rs₁ (rs₂ ++ [r]) a ↔
    Kept src dst rs₁ rs₂ a ∧ ¬Wipes src dst (rs₁ ++ rs₂) r a := by
  simp only [Kept, concat_eq_append_cons]
  constructor
  · intro h
    exact ⟨fun us x vs hvs => h us x (vs ++ [r]) (.inr ⟨vs, rfl, hvs⟩),
      h rs₂ r [] (.inl ⟨rfl, rfl, rfl⟩)⟩
  · rintro ⟨h, hr⟩ us x vs (⟨-, rfl, rfl⟩ | ⟨ws, -, hws⟩)
    · exact hr
    · exact h us x ws hws

theorem present_nil : ¬Present src dst [] a b := by
  rintro ⟨us, r, vs, h, -⟩
  simp at h

theorem present_concat : Present src dst (rs ++ [r]) a b ↔
    (src r = a ∧ dst r = b) ∨ Present src dst rs a b ∧ ¬Wipes src dst rs r a := by
  constructor
  · rintro ⟨us, x, vs, h, hpair, hkept⟩
    rcases concat_eq_append_cons.1 h with ⟨rfl, rfl, rfl⟩ | ⟨ws, rfl, rfl⟩
    · exact .inl hpair
    · obtain ⟨hkept, hwipes⟩ := kept_concat.1 hkept
      exact .inr ⟨⟨us, x, ws, rfl, hpair, hkept⟩, by simpa using hwipes⟩
  · rintro (hpair | ⟨⟨us, x, vs, rfl, hpair, hkept⟩, hwipes⟩)
    · exact ⟨rs, r, [], rfl, hpair, kept_nil⟩
    · exact ⟨us, x, vs ++ [r], by simp, hpair, kept_concat.2 ⟨hkept, by simpa using hwipes⟩⟩

theorem Present.mem (h : Present src dst rs a b) : a ∈ rs.map src := by
  obtain ⟨us, r, vs, rfl, hpair, -⟩ := h
  simp [hpair.1]

theorem dangling_nil : ¬Dangling src dst [] a b := by
  rintro ⟨us, r, vs, h, -⟩
  simp at h

theorem dangling_concat : Dangling src dst (rs ++ [r]) a b ↔
    (src r = a ∧ dst r = b) ∧ ¬Present src dst rs a b ∧ b ∉ rs.map src ∨
      Dangling src dst rs a b ∧ ¬Wipes src dst rs r a := by
  constructor
  · rintro ⟨us, x, vs, h, hpair, hnew, hb, hkept⟩
    rcases concat_eq_append_cons.1 h with ⟨rfl, rfl, rfl⟩ | ⟨ws, rfl, rfl⟩
    · exact .inl ⟨hpair, hnew, hb⟩
    · obtain ⟨hkept, hwipes⟩ := kept_concat.1 hkept
      exact .inr ⟨⟨us, x, ws, rfl, hpair, hnew, hb, hkept⟩, by simpa using hwipes⟩
  · rintro (⟨hpair, hnew, hb⟩ | ⟨⟨us, x, vs, rfl, hpair, hnew, hb, hkept⟩, hwipes⟩)
    · exact ⟨rs, r, [], rfl, hpair, hnew, hb, kept_nil⟩
    · exact ⟨us, x, vs ++ [r], by simp, hpair, hnew, hb,
        kept_concat.2 ⟨hkept, by simpa using hwipes⟩⟩

theorem Dangling.present (h : Dangling src dst rs a b) : Present src dst rs a b := by
  obtain ⟨us, r, vs, hrs, hpair, -, -, hkept⟩ := h
  exact ⟨us, r, vs, hrs, hpair, hkept⟩

theorem grounded_iff : Grounded src dst rs ↔ ∀ a b, ¬Dangling src dst rs a b := by
  constructor
  · rintro h a b ⟨us, r, vs, rfl, ⟨rfl, rfl⟩, hnew, hb, hkept⟩
    exact hb (h us r vs rfl hnew hkept)
  · intro h us r vs hrs hnew hkept
    by_contra hb
    exact h _ _ ⟨us, r, vs, hrs, ⟨rfl, rfl⟩, hnew, hb, hkept⟩

theorem keepsEdge_nil : KeepsEdge src dst [] a b := by
  intro us r vs h
  simp at h

theorem keepsReported_iff : KeepsReported src dst rs ↔ ∀ a b, KeepsEdge src dst rs a b := by
  constructor
  · rintro h a b us r vs hrs ⟨rfl, rfl⟩ hlast
    exact h us r vs hrs hlast
  · intro h us r vs hrs hlast
    exact h _ _ us r vs hrs ⟨rfl, rfl⟩ hlast

variable [DecidableEq κ]

theorem reported_concat : reported src dst (rs ++ [r]) a b =
    if src r = a ∧ dst r = b then some r else reported src dst rs a b := by
  rw [reported, List.filter_append]
  split_ifs with h
  · simp [h]
  · simp [reported, h]

theorem exists_last_of_reported (h : reported src dst rs a b ≠ none) : ∃ us x vs,
    rs = us ++ x :: vs ∧ (src x = a ∧ dst x = b) ∧ ∀ r' ∈ vs, ¬(src r' = a ∧ dst r' = b) := by
  induction rs using List.reverseRecOn with
  | nil => simp [reported] at h
  | append_singleton rs r ih =>
    rw [reported_concat] at h
    split_ifs at h with hpair
    · exact ⟨rs, r, [], rfl, hpair, by simp⟩
    · obtain ⟨us, x, vs, rfl, hx, hlast⟩ := ih h
      exact ⟨us, x, vs ++ [r], by simp, hx, forall_mem_concat.2 ⟨hlast, hpair⟩⟩

theorem reported_ne_none {us vs : List ρ} {x : ρ} (h : rs = us ++ x :: vs)
    (hx : src x = a ∧ dst x = b) : reported src dst rs a b ≠ none := by
  simp only [reported, ne_eq, List.getLast?_eq_none_iff, List.filter_eq_nil_iff]
  intro hnone
  exact absurd (hnone x (by simp [h])) (by simp [hx])

/-- The rule for the last record of an edge. -/
theorem keepsEdge_concat : KeepsEdge src dst (rs ++ [r]) a b ↔ (src r = a ∧ dst r = b) ∨
    KeepsEdge src dst rs a b ∧ (Wipes src dst rs r a → reported src dst rs a b = none) := by
  by_cases hpair : src r = a ∧ dst r = b
  · refine iff_of_true ?_ (.inl hpair)
    intro us x vs h hx hlast
    rcases concat_eq_append_cons.1 h with ⟨rfl, rfl, rfl⟩ | ⟨ws, rfl, rfl⟩
    · exact kept_nil
    · exact absurd hpair (hlast r (by simp))
  · simp only [hpair, false_or]
    constructor
    · intro h
      have hsplit (us : List ρ) (x : ρ) (vs : List ρ) (hrs : rs = us ++ x :: vs)
          (hx : src x = a ∧ dst x = b) (hlast : ∀ r' ∈ vs, ¬(src r' = a ∧ dst r' = b)) :
          Kept src dst (us ++ [x]) vs a ∧ ¬Wipes src dst rs r a := by
        have hkept := h us x (vs ++ [r]) (by simp [hrs]) hx (forall_mem_concat.2 ⟨hlast, hpair⟩)
        obtain ⟨hkept, hwipes⟩ := kept_concat.1 hkept
        exact ⟨hkept, by simpa [hrs] using hwipes⟩
      refine ⟨fun us x vs hrs hx hlast => (hsplit us x vs hrs hx hlast).1, fun hwipes => ?_⟩
      by_contra hreported
      obtain ⟨us, x, vs, hrs, hx, hlast⟩ := exists_last_of_reported hreported
      exact (hsplit us x vs hrs hx hlast).2 hwipes
    · rintro ⟨h, hwipes⟩ us x vs hrs hx hlast
      rcases concat_eq_append_cons.1 hrs with ⟨rfl, rfl, rfl⟩ | ⟨ws, rfl, rfl⟩
      · exact absurd hx hpair
      · refine kept_concat.2 ⟨h us x ws rfl hx fun r' hr' => hlast r' (by simp [hr']), ?_⟩
        intro hw
        exact reported_ne_none rfl hx (hwipes (by simpa using hw))

end

end LinkProxy.Route
