import TreeQuery.Value.Basic

/-! # Values with ordered fields

The fields of every object in a value ascend by name (`Value.Ordered`), so that objects with the same fields
are the same value. The rule is one about each object, its fields and the values in them. -/

namespace TreeQuery.Value

variable {items : List Value} {fields : Fields Value} {v : Value} {name : String}

theorem orderedItems_iff : OrderedItems items ↔ ∀ v ∈ items, v.Ordered := by
  induction items with
  | nil => exact iff_of_true trivial nofun
  | cons v items ih =>
    rw [List.forall_mem_cons]
    exact and_congr_right fun _ => ih

theorem orderedFields_iff : OrderedFields fields ↔ ∀ p ∈ fields, p.2.Ordered := by
  induction fields with
  | nil => exact iff_of_true trivial nofun
  | cons p fields ih =>
    rw [List.forall_mem_cons]
    exact and_congr_right fun _ => ih

theorem ordered_array_iff : (array items).Ordered ↔ ∀ v ∈ items, v.Ordered := orderedItems_iff

theorem ordered_object_iff : (object fields).Ordered ↔ fields.Sorted ∧ ∀ p ∈ fields, p.2.Ordered :=
  and_congr_right fun _ => orderedFields_iff

theorem ordered_empty : (object []).Ordered := ordered_object_iff.mpr ⟨Fields.sorted_nil, nofun⟩

theorem ordered_singleton (h : v.Ordered) : (array [v]).Ordered := ⟨h, trivial⟩

theorem Ordered.set (h : (array items).Ordered) (hv : v.Ordered) (i : Nat) : (array (items.set i v)).Ordered := by
  refine ordered_array_iff.mpr fun w hw => ?_
  rcases List.mem_or_eq_of_mem_set hw with hw | rfl
  · exact ordered_array_iff.mp h w hw
  · exact hv

theorem Ordered.concat (h : (array items).Ordered) (hv : v.Ordered) : (array (items ++ [v])).Ordered :=
  ordered_array_iff.mpr (List.forall_mem_append.mpr ⟨ordered_array_iff.mp h, ordered_array_iff.mp (ordered_singleton hv)⟩)

theorem Ordered.sorted (h : (object fields).Ordered) : fields.Sorted := (ordered_object_iff.mp h).1

theorem Ordered.get? (h : (object fields).Ordered) (hv : Fields.get? name fields = some v) : v.Ordered :=
  (ordered_object_iff.mp h).2 _ (Fields.mem_of_get? hv)

theorem Ordered.insert (h : (object fields).Ordered) (hv : v.Ordered) (name : String) :
    (object (Fields.insert name v fields)).Ordered := by
  obtain ⟨hs, hf⟩ := ordered_object_iff.mp h
  refine ordered_object_iff.mpr ⟨hs.insert name v, fun p hp => ?_⟩
  rcases Fields.mem_insert hp with rfl | hp
  · exact hv
  · exact hf p hp

theorem Ordered.erase (h : (object fields).Ordered) (name : String) : (object (Fields.erase name fields)).Ordered :=
  have ⟨hs, hf⟩ := ordered_object_iff.mp h
  ordered_object_iff.mpr ⟨hs.erase name, fun p hp => hf p (Fields.mem_erase hp)⟩

end TreeQuery.Value
