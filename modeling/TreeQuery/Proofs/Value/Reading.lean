import TreeQuery.Proofs.Outcome
import TreeQuery.Proofs.Value.Ordered
import TreeQuery.Value.Make

/-! # Values read from text

A tree read from a JSON text has the fields of its objects in ascending order, also where the text has them in
another order or twice, and the value of a tree keeps their names. So every value read from a text is
ordered (`Value.ofText_ordered`), and so is every value built from floating-point numbers. -/

namespace TreeQuery

/-! ### Trees of JSON -/

/-- The rule of `Value.Ordered` for a tree of JSON. -/
inductive Json.Ordered : Json → Prop
  | null : Ordered null
  | bool (b : Bool) : Ordered (bool b)
  | number (n : Numeral) : Ordered (number n)
  | str (s : String) : Ordered (str s)
  | array {items : List Json} (h : ∀ j ∈ items, Ordered j) : Ordered (array items)
  | object {fields : Fields Json} (hs : fields.Sorted) (h : ∀ p ∈ fields, Ordered p.2) : Ordered (object fields)

namespace Json

section
variable {α : Type} {part : Reader α} {P : α → Prop} {closing : Char} {fuel : Nat} {cs rest : List Char} {xs : List α}

theorem readRest_forall (hpart : ∀ {cs x rest}, part cs = some (x, rest) → P x)
    (h : readRest part closing fuel cs = some (xs, rest)) : ∀ x ∈ xs, P x := by
  induction fuel generalizing cs xs with
  | zero => cases h
  | succ fuel ih =>
    unfold readRest at h
    split at h
    · split at h
      · cases h
        exact List.forall_mem_nil P
      · split at h
        · obtain ⟨⟨x, cs'⟩, hx, h⟩ := Option.bind_eq_some_iff.mp h
          obtain ⟨⟨ys, cs''⟩, hys, h⟩ := Option.bind_eq_some_iff.mp h
          cases h
          exact List.forall_mem_cons.mpr ⟨hpart hx, ih hys⟩
        · cases h
    · cases h

theorem readParts_forall (hpart : ∀ {cs x rest}, part cs = some (x, rest) → P x)
    (h : readParts part closing cs = some (xs, rest)) : ∀ x ∈ xs, P x := by
  unfold readParts at h
  split at h
  · cases h
    exact List.forall_mem_nil P
  · obtain ⟨⟨x, cs'⟩, hx, h⟩ := Option.bind_eq_some_iff.mp h
    obtain ⟨⟨ys, cs''⟩, hys, h⟩ := Option.bind_eq_some_iff.mp h
    cases h
    exact List.forall_mem_cons.mpr ⟨hpart hx, readRest_forall hpart hys⟩

end

variable {value : Reader Json} {cs rest : List Char} {j : Json} {p : String × Json}

theorem readField_of_value {P : Json → Prop} (hvalue : ∀ {cs j rest}, value cs = some (j, rest) → P j)
    (h : readField value cs = some (p, rest)) : P p.2 := by
  obtain ⟨cs₁, -, h⟩ := Option.bind_eq_some_iff.mp h
  obtain ⟨⟨name, cs₂⟩, -, h⟩ := Option.bind_eq_some_iff.mp h
  obtain ⟨cs₃, -, h⟩ := Option.bind_eq_some_iff.mp h
  obtain ⟨⟨j, cs₄⟩, hj, h⟩ := Option.bind_eq_some_iff.mp h
  cases h
  exact hvalue hj

theorem readScalar_ordered (h : readScalar cs = some (j, rest)) : j.Ordered := by
  unfold readScalar at h
  split at h
  · cases h
    exact .null
  · cases h
    exact .bool true
  · cases h
    exact .bool false
  · obtain ⟨a, -, h⟩ := Option.map_eq_some_iff.mp h
    cases h
    exact .str _
  · obtain ⟨a, -, h⟩ := Option.map_eq_some_iff.mp h
    cases h
    exact .number _

theorem readValue_ordered {levels : Nat} (h : readValue levels cs = some (j, rest)) : j.Ordered := by
  induction levels generalizing cs j rest with
  | zero => exact readScalar_ordered h
  | succ levels ih =>
    unfold readValue at h
    split at h
    · obtain ⟨⟨items, cs'⟩, hitems, h⟩ := Option.map_eq_some_iff.mp h
      cases h
      exact .array (readParts_forall ih hitems)
    · obtain ⟨⟨pairs, cs'⟩, hpairs, h⟩ := Option.map_eq_some_iff.mp h
      cases h
      have hordered := readParts_forall (P := fun p => p.2.Ordered) (readField_of_value ih) hpairs
      exact .object (Fields.sorted_ofList pairs) fun p hp => hordered p (Fields.mem_ofList hp)
    · exact readScalar_ordered h

theorem ofText?_ordered {text : String} (h : ofText? text = some j) : j.Ordered := by
  unfold ofText? ofChars? at h
  split at h
  · rename_i hread
    split at h
    · cases h
      exact readValue_ordered hread
    · cases h
  · cases h

end Json

namespace Value

variable {j : Json} {items : List Json} {fields : Fields Json} {v : Value} {text : String}

/-! ### Values of trees -/

theorem ofJsonItems_eq_mapM : ofJsonItems items = items.mapM ofJson := by
  induction items with
  | nil => rfl
  | cons j items ih =>
    rw [List.mapM_cons, ← ih]
    rfl

theorem ofJsonFields_eq_mapM : ofJsonFields fields = fields.mapM fun p => (ofJson p.2).map (Prod.mk p.1) := by
  induction fields with
  | nil => rfl
  | cons p fields ih =>
    rw [List.mapM_cons, ← ih]
    cases hp : ofJson p.2 with
    | error e => exact congrArg (· >>= _) hp
    | ok v => exact congrArg (· >>= _) hp

theorem ofNumeral_ordered {n : Numeral} (h : ofNumeral n = .ok v) : v.Ordered := by
  unfold ofNumeral at h
  split at h
  · cases h
    trivial
  · split at h
    · cases h
      trivial
    · cases h

/-- Values with names, made one by one from sorted ones, are the fields of an ordered object. -/
theorem ordered_of_mapM {α ε : Type} {f : α → Except ε Value} {pairs : Fields α} {out : Fields Value}
    (hs : pairs.Sorted) (hf : ∀ p ∈ pairs, ∀ v, f p.2 = .ok v → v.Ordered)
    (h : (pairs.mapM fun p => (f p.2).map (Prod.mk p.1)) = .ok out) : (object out).Ordered := by
  have hnames : out.map Prod.fst = pairs.map Prod.fst := Outcome.map_of_mapM h fun p q hq => by
    obtain ⟨v, -, rfl⟩ := Outcome.map_ok_iff.mp hq
    rfl
  refine ordered_object_iff.mpr ⟨?_, fun q hq => ?_⟩
  · rwa [Fields.sorted_iff, hnames, ← Fields.sorted_iff]
  · obtain ⟨p, hp, hq⟩ := Outcome.exists_of_mapM h hq
    obtain ⟨v, hv, rfl⟩ := Outcome.map_ok_iff.mp hq
    exact hf p hp v hv

theorem ofJson_ordered (hj : j.Ordered) (h : ofJson j = .ok v) : v.Ordered := by
  induction hj generalizing v with
  | null | bool | str =>
    cases h
    trivial
  | number => exact ofNumeral_ordered h
  | array _ ih =>
    obtain ⟨vs, hvs, rfl⟩ := Outcome.map_ok_iff.mp h
    rw [ofJsonItems_eq_mapM] at hvs
    refine ordered_array_iff.mpr fun v hv => ?_
    obtain ⟨j, hj, hjv⟩ := Outcome.exists_of_mapM hvs hv
    exact ih j hj hjv
  | object hs _ ih =>
    obtain ⟨out, hout, rfl⟩ := Outcome.map_ok_iff.mp h
    rw [ofJsonFields_eq_mapM] at hout
    exact ordered_of_mapM hs (fun p hp v hv => ih p hp hv) hout

theorem ofText_ordered (h : ofText text = .ok v) : v.Ordered := by
  unfold ofText at h
  split at h
  · rename_i hj
    exact ofJson_ordered (Json.ofText?_ordered hj) h
  · cases h

/-! ### Values of numbers and types -/

theorem ofFloat?_ordered {x : Option Binary64} (h : ofFloat? x = .ok v) : v.Ordered := by
  cases x with
  | none =>
    cases h
    trivial
  | some x =>
    rw [ofFloat?, ofFloat] at h
    split at h
    · cases h
      trivial
    · cases h

theorem ofFloats_ordered {xs : List (Option Binary64)} (h : ofFloats xs = .ok v) : v.Ordered := by
  obtain ⟨vs, hvs, rfl⟩ := Outcome.map_ok_iff.mp h
  refine ordered_array_iff.mpr fun v hv => ?_
  obtain ⟨x, -, hx⟩ := Outcome.exists_of_mapM hvs hv
  exact ofFloat?_ordered hx

theorem ofFloatFields_ordered {pairs : List (String × List (Option Binary64))}
    (h : ofFloatFields pairs = .ok v) : v.Ordered := by
  obtain ⟨out, hout, rfl⟩ := Outcome.map_ok_iff.mp h
  exact ordered_of_mapM (Fields.sorted_ofList pairs) (fun _ _ _ => ofFloats_ordered) hout

theorem empty_ordered {t : Tag} (h : empty t = some v) : v.Ordered := by
  unfold empty at h
  split at h
  · cases h
  · obtain rfl := Option.some.inj h
    repeat' split
    all_goals first | exact ordered_empty | trivial

theorem ofTag_ordered {t : Tag} (h : ofTag t = .ok v) : v.Ordered := by
  unfold ofTag at h
  split at h
  · rename_i hempty
    cases h
    exact empty_ordered hempty
  · cases h

end Value

end TreeQuery
