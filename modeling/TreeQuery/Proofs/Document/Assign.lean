import TreeQuery.Document.Write
import TreeQuery.Proofs.Document.Lookup

/-! # What a write changes

A step of a write replaces one part of a value and keeps the others (`Value.Replaces`): a segment that is
not the last one replaces the part it enters, and the last one puts the new value there. Both have a place
for that part, whatever it is (`Value.Slot`), and `assign_cons` says all that a step does. So a whole write has
the new value at the keys of its path (`lookup_assign`), and what other keys lead to is as it was
(`lookup_assign_of_diverges`). -/

namespace TreeQuery

variable {σ : Type} {key : Body σ → Except ReadError Key} {p : Path σ} {v v' c new : Value} {k x : Key}
  {ks : List Key} {make overwrite : Bool} {place : String}

/-! ### One part -/

/-- `v'` has `c` as the part with a key, and every other part as `v` has it. -/
structure Value.Replaces (v : Value) (k : Key) (c v' : Value) : Prop where
  part : v'.child? k = some c
  others : ∀ x, x ≠ k → v'.child? x = v.child? x

namespace Value

theorem replaces_insert (name : String) (c : Value) (fields : Fields Value) :
    Replaces (object fields) (.name name) c (object (Fields.insert name c fields)) where
  part := by rw [child?_object, Fields.get?_insert, if_pos rfl]
  others x hx := by
    cases x with
    | name other =>
      have hne : name ≠ other := fun h => hx (h ▸ rfl)
      rw [child?_object, Fields.get?_insert, if_neg hne]
      rfl
    | current | index | append => rfl

theorem replaces_set {items : List Value} {i : Nat} (h : i < items.length) (c : Value) :
    Replaces (array items) (.index i) c (array (items.set i c)) where
  part := by rw [child?_array, List.getElem?_set_self h]
  others x hx := by
    cases x with
    | index j =>
      have hne : i ≠ j := fun h => hx (h ▸ rfl)
      rw [child?_array, List.getElem?_set_ne hne]
      rfl
    | current | name | append => rfl

theorem replaces_concat (items : List Value) (c : Value) :
    Replaces (array items) (.index items.length) c (array (items ++ [c])) where
  part := by rw [child?_array, List.getElem?_concat_length]
  others x hx := by
    cases x with
    | index j =>
      rw [child?_array, child?_array]
      rcases Nat.lt_or_gt_of_ne fun h : j = items.length => hx (h ▸ rfl) with hlt | hgt
      · exact List.getElem?_append_left hlt
      · rw [List.getElem?_eq_none (Nat.le_of_lt hgt), List.getElem?_eq_none (by simpa using Nat.succ_le_of_lt hgt)]
    | current | name | append => rfl

theorem Replaces.of_child? {w : Value} (h : Replaces w k c v') (hv : ∀ x, v.child? x = w.child? x) :
    Replaces v k c v' := ⟨h.part, fun x hx => (h.others x hx).trans (hv x).symm⟩

theorem child?_empty_object : child? k (object []) = none := by
  cases k <;> rfl

theorem child?_empty_array : child? k (array []) = none := by
  cases k <;> rfl

/-- The fields to write in are those that a value has, and the fields of an empty object where it is null. -/
theorem writableFields_cases {fields : Fields Value} (h : writableFields make v = .ok fields) :
    v = object fields ∨ v = null ∧ fields = [] := by
  cases v with
  | object own =>
    cases h
    exact Or.inl rfl
  | null =>
    cases make with
    | false => cases h
    | true =>
      cases h
      exact Or.inr ⟨rfl, rfl⟩
  | bool | int | decimal | str | array => cases h

theorem writableItems_cases {items : List Value} (h : writableItems make v = .ok items) :
    v = array items ∨ v = null ∧ items = [] := by
  cases v with
  | array own =>
    cases h
    exact Or.inl rfl
  | null =>
    cases make with
    | false => cases h
    | true =>
      cases h
      exact Or.inr ⟨rfl, rfl⟩
  | bool | int | decimal | str | object => cases h

theorem isBlank_cases (h : v.isBlank = true) : v = null ∨ v = array [] := by
  cases v with
  | array items =>
    cases items with
    | nil => exact Or.inr rfl
    | cons => cases h
  | null => exact Or.inl rfl
  | bool | int | decimal | str | object => cases h

theorem writableFields_ok {fields : Fields Value} (h : writableFields make v = .ok fields) :
    ∀ x, v.child? x = (object fields).child? x := by
  intro x
  rcases writableFields_cases h with rfl | ⟨rfl, rfl⟩
  · rfl
  · rw [child?_null, child?_empty_object]

theorem writableItems_ok {items : List Value} (h : writableItems make v = .ok items) :
    (∀ x, v.child? x = (array items).child? x) ∧ endIndex (some v) = items.length := by
  rcases writableItems_cases h with rfl | ⟨rfl, rfl⟩
  · exact ⟨fun _ => rfl, rfl⟩
  · exact ⟨fun x => by rw [child?_null, child?_empty_array], rfl⟩

theorem child?_of_isBlank (h : v.isBlank = true) : v.child? x = (array []).child? x := by
  rcases isBlank_cases h with rfl | rfl
  · rw [child?_null, child?_empty_array]
  · rfl

/-! ### One segment -/

/-- What a value becomes with a part put at a key, for any part. `make` tells whether null becomes a container. -/
inductive Slot (make : Bool) (v : Value) : Key → (Value → Value) → Prop where
  | name {fields : Fields Value} (h : writableFields make v = .ok fields) (name : String) :
    Slot make v (.name name) fun c => object (Fields.insert name c fields)
  | first (h : v.isBlank = true) : Slot make v (.index 0) fun c => array [c]
  | index {items : List Value} {i : Nat} (h : writableItems make v = .ok items) (hi : i < items.length) :
    Slot make v (.index i) fun c => array (items.set i c)
  | append {items : List Value} (h : writableItems true v = .ok items) :
    Slot make v .append fun c => array (items ++ [c])

theorem Slot.replaces {f : Value → Value} (h : Slot make v k f) (c : Value) :
    Replaces v (k.within (some v)) c (f c) := by
  cases h with
  | name h name => exact (replaces_insert name c _).of_child? (writableFields_ok h)
  | first h => exact (replaces_concat [] c).of_child? fun _ => child?_of_isBlank h
  | index h hi => exact (replaces_set hi c).of_child? (writableItems_ok h).1
  | append h =>
    obtain ⟨hchild, hend⟩ := writableItems_ok h
    rw [Key.within, hend]
    exact (replaces_concat _ c).of_child? hchild

theorem put_current (h : v.put make overwrite place new .current = .ok v') : v' = new := by
  rw [put] at h
  split at h
  · exact (Except.ok.inj h).symm
  · cases h

/-- A value is put into a slot, and what is put there does not matter to whether it can be. -/
theorem put_slot (h : v.put make overwrite place new k = .ok v') (hk : k ≠ .current) :
    ∃ f, Slot make v k f ∧ v' = f new ∧ ∀ new', v.put make overwrite place new' k = .ok (f new') := by
  cases k with
  | current => exact absurd rfl hk
  | name name =>
    obtain ⟨fields, hf, h⟩ := Outcome.bind_ok_iff.mp h
    split at h
    · cases h
    · rename_i hfree
      cases h
      exact ⟨_, .name hf name, rfl, fun new' => Outcome.bind_ok_iff.mpr ⟨fields, hf, if_neg hfree⟩⟩
  | index i =>
    simp only [put] at h ⊢
    split at h
    · rename_i hi
      cases h
      obtain ⟨rfl, hb⟩ := hi
      exact ⟨_, .first hb, rfl, fun new' => if_pos ⟨rfl, hb⟩⟩
    · rename_i hi
      obtain ⟨items, hitems, h⟩ := Outcome.bind_ok_iff.mp h
      split at h
      · rename_i hlt
        cases h
        refine ⟨_, .index hitems hlt, rfl, fun new' => ?_⟩
        rw [if_neg hi]
        exact Outcome.bind_ok_iff.mpr ⟨items, hitems, if_pos hlt⟩
      · cases h
  | append =>
    obtain ⟨items, hitems, h⟩ := Outcome.bind_ok_iff.mp h
    cases h
    exact ⟨_, .append hitems, rfl, fun new' => Outcome.bind_ok_iff.mpr ⟨items, hitems, rfl⟩⟩

/-- The part of an object that is edited is the field found, or the one begun with if fields are created. -/
theorem enter_name {blank : Except Error Value} {edit : Value → Except Error Value} {name : String} :
    v.enter make blank edit (.name name) = (do
      let fields ← (writableFields make v).mapError .write
      let part ← (Fields.get? name fields).elim (if make then blank else .error (.write (.missingKey name))) .ok
      let c ← edit part
      return object (Fields.insert name c fields)) := by
  rw [enter]
  refine bind_congr fun fields => ?_
  cases Fields.get? name fields with
  | some part => rfl
  | none => cases make <;> rfl

/-- Entering a part edits it, or what is created where there is none, and any other edit of that part would give
    what it makes of it in the same slot. -/
theorem enter_slot {blank : Except Error Value} {edit : Value → Except Error Value}
    (h : v.enter make blank edit k = .ok v') (hk : k ≠ .current) :
    ∃ f part c, Slot make v k f ∧ edit part = .ok c ∧ v' = f c ∧
      (v.child? (k.within (some v)) = some part ∨ v.child? (k.within (some v)) = none ∧ blank = .ok part) ∧
      ∀ edit' c', edit' part = .ok c' → v.enter make blank edit' k = .ok (f c') := by
  cases k with
  | current => exact absurd rfl hk
  | name name =>
    rw [enter_name] at h
    obtain ⟨fields, hf, h⟩ := Outcome.bind_ok_iff.mp h
    obtain ⟨part, hpart, h⟩ := Outcome.bind_ok_iff.mp h
    obtain ⟨c, hc, h⟩ := Outcome.bind_ok_iff.mp h
    cases h
    have hwritable := Outcome.mapError_ok_iff.mp hf
    refine ⟨_, part, c, .name hwritable name, hc, rfl, ?_, fun edit' c' hc' => ?_⟩
    · rw [Key.within_of_ne (by simp), writableFields_ok hwritable, child?_object]
      cases hget : Fields.get? name fields with
      | some found =>
        rw [hget] at hpart
        exact Or.inl (congrArg some (Except.ok.inj hpart))
      | none =>
        rw [hget] at hpart
        cases make with
        | true => exact Or.inr ⟨rfl, hpart⟩
        | false => cases hpart
    · rw [enter_name, hf, Outcome.ok_bind, hpart, Outcome.ok_bind, hc']
      rfl
  | index i =>
    rw [Key.within_of_ne (by simp)]
    simp only [enter] at h ⊢
    split at h
    · rename_i hi
      obtain ⟨part, hpart, h⟩ := Outcome.bind_ok_iff.mp h
      obtain ⟨c, hc, h⟩ := Outcome.bind_ok_iff.mp h
      cases h
      obtain ⟨rfl, hb, hmake⟩ := hi
      refine ⟨_, part, c, .first hb, hc, rfl, Or.inr ⟨child?_of_isBlank hb, hpart⟩, fun edit' c' hc' => ?_⟩
      rw [if_pos ⟨rfl, hb, hmake⟩, hpart, Outcome.ok_bind, hc']
      rfl
    · rename_i hi
      obtain ⟨items, hitems, h⟩ := Outcome.bind_ok_iff.mp h
      have hwritable := Outcome.mapError_ok_iff.mp hitems
      split at h
      · rename_i part hpart
        obtain ⟨c, hc, h⟩ := Outcome.bind_ok_iff.mp h
        obtain ⟨hlt, -⟩ := List.getElem?_eq_some_iff.mp hpart
        cases h
        refine ⟨_, part, c, .index hwritable hlt, hc, rfl, Or.inl (((writableItems_ok hwritable).1 _).trans hpart),
          fun edit' c' hc' => ?_⟩
        rw [if_neg hi, hitems, Outcome.ok_bind, hpart]
        exact Outcome.bind_ok_iff.mpr ⟨c', hc', rfl⟩
      · cases h
  | append =>
    obtain ⟨items, hitems, h⟩ := Outcome.bind_ok_iff.mp h
    obtain ⟨part, hpart, h⟩ := Outcome.bind_ok_iff.mp h
    obtain ⟨c, hc, h⟩ := Outcome.bind_ok_iff.mp h
    have hwritable := Outcome.mapError_ok_iff.mp hitems
    cases h
    refine ⟨_, part, c, .append hwritable, hc, rfl, Or.inr ⟨child?_within_append v, hpart⟩, fun edit' c' hc' => ?_⟩
    rw [enter, hitems, Outcome.ok_bind, hpart, Outcome.ok_bind, hc']
    rfl

/-! ### What is created -/

theorem child?_blankFor : (blankFor k).child? x = none := by
  cases k with
  | current => exact child?_null
  | name => exact child?_empty_object
  | index | append => exact child?_empty_array

end Value

/-- The keys that are written to in a container just created are those of no value at all. -/
theorem Key.resolve_blankFor : Key.resolve (some (Value.blankFor k)) ks = Key.resolve none ks := by
  cases ks with
  | nil => rfl
  | cons x ks =>
    have hwithin : x.within (some (Value.blankFor k)) = x.within none := by
      cases x with
      | append => cases k <;> rfl
      | current | name | index => rfl
    rw [Key.resolve_cons, Key.resolve_cons, hwithin, Option.bind_some, Value.child?_blankFor]
    rfl

/-- The value that a write goes on with behind a key: the part found there, or the container created if there
    is none. -/
def Value.Entered (found : Option Value) (part : Value) : Prop :=
  found = some part ∨ found = none ∧ ∃ k, part = Value.blankFor k

theorem Value.Entered.resolve {found : Option Value} {part : Value} (h : Value.Entered found part) :
    Key.resolve found ks = Key.resolve (some part) ks := by
  rcases h with rfl | ⟨rfl, k, rfl⟩
  · rfl
  · exact Key.resolve_blankFor.symm

theorem Value.Entered.lookup {found : Option Value} {part : Value} (h : Value.Entered found part) (hks : ks ≠ []) :
    found.bind (Value.lookup ks) = part.lookup ks := by
  rcases h with rfl | ⟨rfl, k, rfl⟩
  · rfl
  · obtain ⟨x, ks, rfl⟩ := List.exists_cons_of_ne_nil hks
    rw [Value.lookup_cons, Value.child?_blankFor]
    rfl

/-! ### A path of segments -/

theorem assign_single {s : Segment σ} (hk : key s.body = .ok k) :
    assign key overwrite place new make [s] v =
      (v.put (make || s.commands.make) overwrite place new k).mapError .write := by
  rw [assign, hk]
  rfl

theorem assign_cons_cons {s next : Segment σ} (hk : key s.body = .ok k) :
    assign key overwrite place new make (s :: next :: p) v =
      v.enter (make || s.commands.make) (((key next.body).map Value.blankFor).mapError .read)
        (assign key overwrite place new (make || s.commands.make) (next :: p)) k := by
  rw [assign, hk]
  rfl

/-- What one segment of a write does: `#` leaves the value to the segments behind it, and any other key has a slot
    for what these make of the part there. Whatever else they make of that part goes into the same slot. -/
theorem assign_cons {s : Segment σ} (h : assign key overwrite place new make (s :: p) v = .ok v') :
    ∃ k, key s.body = .ok k ∧
      (k = .current ∧ assign key overwrite place new (make || s.commands.make) p v = .ok v' ∨
        k ≠ .current ∧ ∃ f part c, Value.Slot (make || s.commands.make) v k f ∧
          Value.Entered (v.child? (k.within (some v))) part ∧
          assign key overwrite place new (make || s.commands.make) p part = .ok c ∧ v' = f c ∧
          ∀ new' c', assign key overwrite place new' (make || s.commands.make) p part = .ok c' →
            assign key overwrite place new' make (s :: p) v = .ok (f c')) := by
  cases p with
  | nil =>
    obtain ⟨k, hk, h⟩ := Outcome.bind_ok_iff.mp h
    have hk := Outcome.mapError_ok_iff.mp hk
    have hput := Outcome.mapError_ok_iff.mp h
    refine ⟨k, hk, ?_⟩
    by_cases hc : k = .current
    · subst hc
      exact Or.inl ⟨rfl, congrArg Except.ok (Value.put_current hput).symm⟩
    · obtain ⟨f, hslot, rfl, hother⟩ := Value.put_slot hput hc
      have hagain : ∀ new' c', (Except.ok new' : Except Error Value) = .ok c' →
          assign key overwrite place new' make [s] v = .ok (f c') := by
        rintro new' _ ⟨⟩
        rw [assign_single hk]
        exact Outcome.mapError_ok_iff.mpr (hother new')
      refine Or.inr ⟨hc, f, ?_⟩
      cases hchild : v.child? (k.within (some v)) with
      | some part => exact ⟨part, new, hslot, Or.inl rfl, rfl, rfl, hagain⟩
      | none => exact ⟨Value.blankFor .current, new, hslot, Or.inr ⟨rfl, .current, rfl⟩, rfl, rfl, hagain⟩
  | cons next rest =>
    obtain ⟨k, hk, h⟩ := Outcome.bind_ok_iff.mp h
    have hk := Outcome.mapError_ok_iff.mp hk
    refine ⟨k, hk, ?_⟩
    by_cases hc : k = .current
    · subst hc
      exact Or.inl ⟨rfl, h⟩
    · obtain ⟨f, part, c, hslot, hedit, rfl, hpart, hother⟩ := Value.enter_slot h hc
      refine Or.inr ⟨hc, f, part, c, hslot, ?_, hedit, rfl, fun new' c' hc' => ?_⟩
      · rcases hpart with hsome | ⟨hnone, hblank⟩
        · exact Or.inl hsome
        · obtain ⟨k', -, rfl⟩ := Outcome.map_ok_iff.mp (Outcome.mapError_ok_iff.mp hblank)
          exact Or.inr ⟨hnone, k', rfl⟩
      · rw [assign_cons_cons hk]
        exact hother _ c' hc'

/-- A write has the new value at the keys of its path. -/
theorem lookup_assign (h : assign key overwrite place new make p v = .ok v') :
    v'.lookup (Key.resolve (some v) (Path.keys key p)) = some new := by
  -- The value reached changes with each segment, and with it the index that a `+` further on stands for.
  induction p generalizing make v v' with
  | nil => exact congrArg some (Except.ok.inj h).symm
  | cons s p ih =>
    obtain ⟨k, hk, ⟨rfl, hrest⟩ | ⟨hc, f, part, c, hslot, hpart, hrest, rfl, -⟩⟩ := assign_cons h
    · rw [Path.keys_cons_current hk]
      exact ih hrest
    · rw [Path.keys_cons hk hc, Key.resolve_cons, Value.lookup_cons, (hslot.replaces c).part, Option.bind_some,
        Option.bind_some, hpart.resolve]
      exact ih hrest

/-- Keys that part from those of a write lead to the same as before. -/
theorem lookup_assign_of_diverges (h : assign key overwrite place new make p v = .ok v')
    (hd : Diverges ks (Key.resolve (some v) (Path.keys key p))) : v'.lookup ks = v.lookup ks := by
  induction p generalizing make v v' ks with
  | nil => exact (not_diverges_nil_right hd).elim
  | cons s p ih =>
    obtain ⟨k, hk, ⟨rfl, hrest⟩ | ⟨hc, f, part, c, hslot, hpart, hrest, rfl, -⟩⟩ := assign_cons h
    · rw [Path.keys_cons_current hk] at hd
      exact ih hrest hd
    · have hreplaces := hslot.replaces c
      rw [Path.keys_cons hk hc, Key.resolve_cons, Option.bind_some, hpart.resolve] at hd
      cases ks with
      | nil => exact (not_diverges_nil_left hd).elim
      | cons x ks =>
        rw [Value.lookup_cons, Value.lookup_cons]
        -- Either `ks` leaves the path here, for a part that is kept, or it follows it into the part replaced.
        rcases diverges_cons.mp hd with hne | ⟨rfl, hrestd⟩
        · rw [hreplaces.others x hne]
        · have hks : ks ≠ [] := by
            rintro rfl
            exact not_diverges_nil_left hrestd
          rw [hreplaces.part, hpart.lookup hks]
          exact ih hrest hrestd

end TreeQuery
