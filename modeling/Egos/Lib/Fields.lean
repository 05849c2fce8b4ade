import Mathlib.Data.List.Basic

/-!
# Fields of a Text

A text of fields, each followed by one or more separators, and the places at which a string
stands between separators: these are the places of the fields equal to the string
(`occursAt_render_iff`). A scan of the text for such a place is a search among the fields.
-/

namespace Egos.Lib

variable {α : Type*}

/-- A field, and the number of separators after it beyond the first. -/
abbrev TextField (α : Type*) := List α × Nat

section Fields

variable (sep : α)

/-- The text of some fields. -/
def render (fields : List (TextField α)) : List α :=
  fields.flatMap fun f => f.1 ++ List.replicate (f.2 + 1) sep

/-- At this place of the text there is the string, with a separator behind it, and the
    beginning of the text or a separator before it. -/
structure OccursAt (text q : List α) (i : Nat) : Prop where
  here : ∀ n (hn : n < q.length), text[i + n]? = some q[n]
  behind : text[i + q.length]? = some sep
  before : i = 0 ∨ text[i - 1]? = some sep

/-- A field is not empty and has no separator in it. -/
structure IsField (t : List α) : Prop where
  ne_nil : t ≠ []
  notMem : sep ∉ t

variable {sep} {q t rest : List α} {i k : Nat}

theorem render_cons (f : TextField α) (fields : List (TextField α)) :
    render sep (f :: fields) = f.1 ++ List.replicate (f.2 + 1) sep ++ render sep fields := by
  simp [render]

theorem render_append (fields fields' : List (TextField α)) :
    render sep (fields ++ fields') = render sep fields ++ render sep fields' := by
  simp [render]

/-- The characters of a text are those of its fields and the separator. -/
theorem notMem_render {fields : List (TextField α)} {c : α} (hc : c ≠ sep)
    (h : ∀ f ∈ fields, c ∉ f.1) : c ∉ render sep fields := by
  intro hmem
  obtain ⟨f, hf, hmem⟩ := List.mem_flatMap.mp hmem
  rcases List.mem_append.mp hmem with hfield | hsep
  · exact h f hf hfield
  · exact hc (List.eq_of_mem_replicate hsep)

/-! ## The first field -/

theorem getElem?_field {n : Nat} (hn : n < t.length) :
    (t ++ List.replicate (k + 1) sep ++ rest)[n]? = some t[n] := by
  rw [List.append_assoc, List.getElem?_append_left hn, List.getElem?_eq_getElem hn]

theorem getElem?_sep {n : Nat} (hle : t.length ≤ n) (hlt : n < t.length + (k + 1)) :
    (t ++ List.replicate (k + 1) sep ++ rest)[n]? = some sep := by
  rw [List.getElem?_append_left (by simpa using hlt), List.getElem?_append_right hle,
    List.getElem?_replicate_of_lt (by omega)]

theorem getElem?_rest (n : Nat) :
    (t ++ List.replicate (k + 1) sep ++ rest)[t.length + (k + 1) + n]? = rest[n]? := by
  rw [List.getElem?_append_right (by simp)]
  congr 1
  simp

/-- A string occurs at the first field, or in the text behind it. -/
theorem occursAt_cons_iff (ht : IsField sep t) (hq : IsField sep q) :
    OccursAt sep (t ++ List.replicate (k + 1) sep ++ rest) q i ↔
      (i = 0 ∧ q = t) ∨ ∃ j, i = t.length + (k + 1) + j ∧ OccursAt sep rest q j := by
  have hpos : 0 < q.length := List.length_pos_iff.mpr hq.ne_nil
  constructor
  · intro h
    by_cases hbehind : t.length + (k + 1) ≤ i
    · -- the place is behind the field and its separators
      obtain ⟨j, rfl⟩ := Nat.exists_eq_add_of_le hbehind
      refine Or.inr ⟨j, rfl, fun n hn => ?_, ?_, ?_⟩
      · rw [← h.here n hn, Nat.add_assoc (t.length + (k + 1)), getElem?_rest]
      · rw [← h.behind, Nat.add_assoc (t.length + (k + 1)), getElem?_rest]
      · rcases Nat.eq_zero_or_pos j with hj | hj
        · exact Or.inl hj
        · refine Or.inr ?_
          rw [← h.before.resolve_left (by omega),
            show t.length + (k + 1) + j - 1 = t.length + (k + 1) + (j - 1) by omega, getElem?_rest]
    · have hzero : i = 0 := by
        -- a separator is before the place, so the place holds one too
        by_contra hne
        have hbefore := h.before.resolve_left hne
        have hhere := h.here 0 hpos
        rcases Nat.lt_or_ge (i - 1) t.length with hin | hout
        · rw [getElem?_field hin] at hbefore
          exact ht.notMem (Option.some.inj hbefore ▸ List.getElem_mem hin)
        · rw [Nat.add_zero, getElem?_sep (by omega) (by omega)] at hhere
          exact hq.notMem (Option.some.inj hhere ▸ List.getElem_mem hpos)
      subst hzero
      refine Or.inl ⟨rfl, ?_⟩
      have hlen : q.length = t.length := by
        have hbehind := h.behind
        rw [Nat.zero_add] at hbehind
        rcases Nat.lt_trichotomy q.length t.length with hlt | heq | hgt
        · rw [getElem?_field hlt] at hbehind
          exact absurd (Option.some.inj hbehind ▸ List.getElem_mem hlt) ht.notMem
        · exact heq
        · have hhere := h.here t.length hgt
          rw [Nat.zero_add, getElem?_sep (Nat.le_refl _) (by omega)] at hhere
          exact absurd (Option.some.inj hhere ▸ List.getElem_mem hgt) hq.notMem
      refine List.ext_getElem hlen fun n hn hn' => ?_
      have hhere := h.here n hn
      rw [Nat.zero_add, getElem?_field hn'] at hhere
      exact (Option.some.inj hhere).symm
  · rintro (⟨rfl, rfl⟩ | ⟨j, rfl, h⟩)
    · refine ⟨fun n hn => ?_, ?_, Or.inl rfl⟩
      · rw [Nat.zero_add, getElem?_field hn]
      · rw [Nat.zero_add, getElem?_sep (Nat.le_refl _) (by omega)]
    · refine ⟨fun n hn => ?_, ?_, Or.inr ?_⟩
      · rw [Nat.add_assoc (t.length + (k + 1)), getElem?_rest, h.here n hn]
      · rw [Nat.add_assoc (t.length + (k + 1)), getElem?_rest, h.behind]
      · rcases Nat.eq_zero_or_pos j with rfl | hj
        · rw [getElem?_sep (by omega) (by omega)]
        · rw [show t.length + (k + 1) + j - 1 = t.length + (k + 1) + (j - 1) by omega, getElem?_rest]
          exact h.before.resolve_left (by omega)

/-! ## All fields -/

/-- A string occurs at the fields equal to it. -/
theorem occursAt_render_iff {fields : List (TextField α)} (hfields : ∀ f ∈ fields, IsField sep f.1)
    (hq : IsField sep q) :
    OccursAt sep (render sep fields) q i ↔
      ∃ before k behind, fields = before ++ (q, k) :: behind ∧ i = (render sep before).length := by
  induction fields generalizing i with
  | nil =>
    constructor
    · intro h
      simpa [render] using h.behind
    · rintro ⟨before, k, behind, h, _⟩
      simp at h
  | cons f fields ih =>
    rw [render_cons, occursAt_cons_iff (hfields f List.mem_cons_self) hq]
    have ih' := fun j => ih (i := j) fun f hf => hfields f (List.mem_cons_of_mem _ hf)
    constructor
    · rintro (⟨rfl, rfl⟩ | ⟨j, rfl, h⟩)
      · exact ⟨[], f.2, fields, rfl, rfl⟩
      · obtain ⟨before, k, behind, rfl, rfl⟩ := (ih' j).mp h
        refine ⟨f :: before, k, behind, rfl, ?_⟩
        rw [render_cons]
        simp only [List.length_append, List.length_replicate]
    · rintro ⟨before, k, behind, heq, rfl⟩
      cases before with
      | nil =>
        obtain ⟨rfl, rfl⟩ := List.cons.inj heq
        exact Or.inl ⟨rfl, rfl⟩
      | cons f' before =>
        obtain ⟨rfl, rfl⟩ := List.cons.inj heq
        refine Or.inr ⟨(render sep before).length, ?_, (ih' _).mpr ⟨before, k, behind, rfl, rfl⟩⟩
        rw [render_cons]
        simp only [List.length_append, List.length_replicate]

/-- The first field equal to the string is where the string occurs first. -/
theorem le_of_occursAt {before behind : List (TextField α)}
    (hfields : ∀ f ∈ before ++ (q, k) :: behind, IsField sep f.1)
    (hfirst : ∀ f ∈ before, f.1 ≠ q)
    (h : OccursAt sep (render sep (before ++ (q, k) :: behind)) q i) :
    (render sep before).length ≤ i := by
  have hq : IsField sep q := hfields (q, k) (by simp)
  obtain ⟨before', k', behind', heq, rfl⟩ := (occursAt_render_iff hfields hq).mp h
  rcases List.append_eq_append_iff.mp heq with ⟨mid, rfl, _⟩ | ⟨mid, rfl, hmid⟩
  · rw [render_append, List.length_append]
    omega
  · cases mid with
    | nil => simp
    | cons f mid =>
      obtain ⟨rfl, _⟩ := List.cons.inj hmid
      exact absurd rfl (hfirst (q, k') (by simp))

end Fields

end Egos.Lib
