import TreeQuery.Proofs.Value.Same

/-! # Tags of arrays

The tag of an array has the primary kind that all elements other than null have, and none if two of them differ in it
or there are none but nulls (`Tag.ofElements_cases`). It can be told from which elements there are, wherever and
however often they stand, and it is valid if the tags of the elements are, so all tags of values are
(`Value.tag_array_exact`). -/

namespace TreeQuery

namespace Tag

variable {tags : List Tag} {s t : Tag}

/-! ### Primary kinds -/

theorem isValid_primary (t : Tag) : t.primary.isValid = t.isValid := rfl

theorem primary_ofElements_of_nil (h : tags.filter (· != nilTag) = []) : (ofElements tags).primary = {} := by
  simp only [ofElements, h]
  rfl

/-- The first element that is not null has the only kind that the array may have. -/
theorem primary_ofElements_of_cons {rest : List Tag} (h : tags.filter (· != nilTag) = t :: rest) :
    (ofElements tags).primary = if ∀ u ∈ rest, u.primary = t.primary then t.primary else {} := by
  have hall : (rest.map primary).all (· == t.primary) = decide (∀ u ∈ rest, u.primary = t.primary) := by
    rw [Bool.eq_iff_iff]
    simp
  simp only [ofElements, h, List.map_cons, hall, decide_eq_true_eq]
  split <;> rfl

/-- The tags of elements are those of nulls only, or those of the others have one primary kind, or two of these differ
    in it. -/
theorem ofElements_cases (tags : List Tag) :
    (∀ t ∈ tags, t = nilTag) ∧ (ofElements tags).primary = {} ∨
      (∃ t ∈ tags, t ≠ nilTag ∧ (∀ u ∈ tags, u ≠ nilTag → u.primary = t.primary) ∧
        (ofElements tags).primary = t.primary) ∨
      (∃ t ∈ tags, ∃ u ∈ tags, t ≠ nilTag ∧ u ≠ nilTag ∧ t.primary ≠ u.primary) ∧ (ofElements tags).primary = {} := by
  have hmem : ∀ t, t ∈ tags.filter (· != nilTag) ↔ t ∈ tags ∧ t ≠ nilTag := fun t => by simp
  cases hkinds : tags.filter (· != nilTag) with
  | nil =>
    refine Or.inl ⟨fun t ht => ?_, primary_ofElements_of_nil hkinds⟩
    by_contra hne
    exact List.not_mem_nil (hkinds ▸ (hmem t).mpr ⟨ht, hne⟩)
  | cons t rest =>
    have hkind := primary_ofElements_of_cons hkinds
    rw [hkinds] at hmem
    obtain ⟨ht, hne⟩ := (hmem t).mp List.mem_cons_self
    right
    split at hkind
    · rename_i hall
      refine Or.inl ⟨t, ht, hne, fun u hu hune => ?_, hkind⟩
      rcases List.mem_cons.mp ((hmem u).mpr ⟨hu, hune⟩) with rfl | hu
      · rfl
      · exact hall u hu
    · rename_i hall
      simp only [not_forall] at hall
      obtain ⟨u, hu, hdiffer⟩ := hall
      obtain ⟨hmemu, hune⟩ := (hmem u).mp (List.mem_cons_of_mem _ hu)
      exact Or.inr ⟨⟨t, ht, u, hmemu, hne, hune, fun h => hdiffer h.symm⟩, hkind⟩

theorem isValid_ofElements (h : ∀ t ∈ tags, t.isValid = true) : (ofElements tags).isValid = true := by
  rw [← isValid_primary]
  rcases ofElements_cases tags with ⟨-, hkind⟩ | ⟨t, ht, -, -, hkind⟩ | ⟨-, hkind⟩ <;> rw [hkind]
  · rfl
  · rw [isValid_primary]
    exact h t ht
  · rfl

/-- A tag is its modifiers and its primary kinds. -/
theorem ext_primary (hnil : s.nil = t.nil) (harray : s.array = t.array) (hkind : s.primary = t.primary) : s = t := by
  cases s
  cases t
  simp only [primary, mk.injEq, true_and] at hkind
  exact (mk.injEq ..).mpr ⟨hnil, harray, hkind⟩

end Tag

namespace Value

variable {items others : List Value} {v : Value} {kind : Tag}

/-! ### Elements -/

theorem tags_eq (items : List Value) : tags items = items.map tag := by
  induction items with
  | nil => rfl
  | cons v items ih => rw [tags, ih, List.map_cons]

/-- Only null has the tag of null. -/
theorem tag_eq_nilTag_iff : v.tag = Tag.nilTag ↔ v = null := by
  constructor
  · intro h
    cases v with
    | null => rfl
    | array => exact nomatch congrArg Tag.array h
    | bool | int | decimal | str | object => exact nomatch congrArg Tag.nil h
  · rintro rfl
    rfl

theorem tag_isValid (v : Value) : v.tag.isValid = true := by
  induction v using Value.induction with
  | array items ih =>
    rw [tag, tags_eq]
    exact Tag.isValid_ofElements (List.forall_mem_map.mpr ih)
  | null | bool | int | decimal | str | object => rfl

theorem nil_tag_array : (array items).tag.nil = true ↔ null ∈ items := by
  have hany : (array items).tag.nil = (items.map tag).any (· == Tag.nilTag) := by
    rw [tag, tags_eq]
    rfl
  rw [hany, List.any_map, List.any_eq_true]
  simp [tag_eq_nilTag_iff]

/-- Whether there are elements other than null, and these primary kinds are those of each of them. -/
def ShareKind (items : List Value) (kind : Tag) : Prop :=
  (∃ v ∈ items, v ≠ null) ∧ ∀ v ∈ items, v ≠ null → v.tag.primary = kind

/-- Whether two elements other than null have different primary kinds. -/
def DifferInKind (items : List Value) : Prop :=
  ∃ v ∈ items, ∃ w ∈ items, v ≠ null ∧ w ≠ null ∧ v.tag.primary ≠ w.tag.primary

/-- Elements that differ are not all of one kind. -/
theorem ShareKind.not_differ (h : ShareKind items kind) : ¬DifferInKind items := by
  rintro ⟨v, hv, w, hw, hvn, hwn, hdiffer⟩
  exact hdiffer ((h.2 v hv hvn).trans (h.2 w hw hwn).symm)

theorem primary_array_cases (items : List Value) :
    ShareKind items (array items).tag.primary ∨
      (array items).tag.primary = {} ∧ (DifferInKind items ∨ ∀ v ∈ items, v = null) := by
  have hcases := Tag.ofElements_cases (tags items)
  rw [tags_eq] at hcases
  simp only [List.mem_map, exists_exists_and_eq_and, forall_exists_index, and_imp, forall_apply_eq_imp_iff₂,
    tag_eq_nilTag_iff, ne_eq] at hcases
  rw [tag, tags_eq]
  rcases hcases with ⟨hnull, hkind⟩ | ⟨v, hv, hne, hshare, hkind⟩ | ⟨hdiffer, hkind⟩
  · exact Or.inr ⟨hkind, Or.inr hnull⟩
  · exact Or.inl ⟨⟨v, hv, hne⟩, fun w hw hwn => (hshare w hw hwn).trans hkind.symm⟩
  · exact Or.inr ⟨hkind, Or.inl hdiffer⟩

theorem primary_array_iff :
    (array items).tag.primary = kind ↔
      ShareKind items kind ∨ kind = {} ∧ (DifferInKind items ∨ ∀ v ∈ items, v = null) := by
  constructor
  · rintro rfl
    exact primary_array_cases items
  · intro h
    rcases primary_array_cases items with hshare | ⟨hkind, hnone⟩
    · obtain ⟨v, hv, hne⟩ := hshare.1
      rcases h with h | ⟨-, hdiffer | hnull⟩
      · rw [← hshare.2 v hv hne, h.2 v hv hne]
      · exact absurd hdiffer hshare.not_differ
      · exact absurd (hnull v hv) hne
    · rcases h with h | ⟨rfl, -⟩
      · obtain ⟨v, hv, hne⟩ := h.1
        rcases hnone with hdiffer | hnull
        · exact absurd hdiffer h.not_differ
        · exact absurd (hnull v hv) hne
      · exact hkind

/-- The tag of an array can be told from which elements it has. -/
theorem tag_array_congr (h : ∀ v, v ∈ items ↔ v ∈ others) : (array items).tag = (array others).tag := by
  refine Tag.ext_primary ?_ rfl (primary_array_iff.mpr ?_)
  · rw [Bool.eq_iff_iff, nil_tag_array, nil_tag_array, h]
  · have hothers := primary_array_cases others
    simpa only [ShareKind, DifferInKind, h] using hothers

/-- The tag of a value is valid. That of an array says that it is one, permits null if null is an element, and has the
    primary kind that all its other elements have. It has none if two of these differ in it or there are none. Neither
    the order of the elements nor how often they come matters to it, and equal values have the same tag. -/
theorem tag_array_exact (items others : List Value) (v w : Value) :
    v.tag.isValid = true ∧ (array items).tag.array = true ∧ ((array items).tag.nil = true ↔ null ∈ items) ∧
      (∀ kind, (array items).tag.primary = kind ↔
        ShareKind items kind ∨ kind = {} ∧ (DifferInKind items ∨ ∀ v ∈ items, v = null)) ∧
      (items ⊆ others → others ⊆ items → (array items).tag = (array others).tag) ∧
      (v.same w = true → v.tag = w.tag) :=
  ⟨v.tag_isValid, rfl, nil_tag_array, fun _ => primary_array_iff,
    fun hsub hsub' => tag_array_congr fun _ => ⟨fun h => hsub h, fun h => hsub' h⟩, same_tag⟩

/-- An array of integers and an empty array have different primary kinds, so an array of both has none. -/
example : (array [null, array [int 1, null], array []]).tag = { array := true, nil := true } := rfl

end Value

end TreeQuery
