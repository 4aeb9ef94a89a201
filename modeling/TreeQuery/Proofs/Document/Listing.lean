import Mathlib.Data.List.Forall2
import TreeQuery.Proofs.Document.Leaves

/-! # The listing of a document

A document is listed as one query for each of its leaves, in the order of their names (`leaves_spec`). What is listed
are its leaves without an empty name on the way (`mem_leafPlaces_iff`), and a listing fails only for names that are
more than a path may have. -/

namespace TreeQuery.Value

variable {d v w : Value} {fields : Fields Value} {names : List String} {places : List (List String)}

/-- A value that is not an object with fields. -/
def Fieldless (w : Value) : Prop := w.isObject = true → w = object []

/-- Names that are not empty and lead through objects to a value without fields. -/
structure IsLeaf (d : Value) (names : List String) : Prop where
  ne_nil : names ≠ []
  no_empty : "" ∉ names
  ends : ∃ w, d.place? names = some w ∧ w.Fieldless

/-! ### Which places are listed -/

theorem leafPairs_of_fieldless (hw : w.Fieldless) : leafPairs w = [([], w)] := by
  cases w with
  | null | bool | int | decimal | str | array => rfl
  | object fields =>
    cases hw rfl
    rfl

theorem fieldless_of_mem_leafPairs {p : List String × Value} (h : p ∈ leafPairs v) : p.2.Fieldless := by
  induction v using Value.induction generalizing p with
  | null | bool | int | decimal | str | array =>
    obtain rfl := List.mem_singleton.mp h
    exact nofun
  | object fields ih =>
    cases fields with
    | nil =>
      obtain rfl := List.mem_singleton.mp h
      exact fun _ => rfl
    | cons f fields =>
      obtain ⟨g, hg, r, hr, rfl⟩ := mem_leafPairsOf.mp h
      have hend := ih g hg hr
      exact hend

/-- The leaves of a value are the values without fields at its places. -/
theorem mem_leafPairs_iff (hv : v.Ordered) : (names, w) ∈ leafPairs v ↔ v.place? names = some w ∧ w.Fieldless := by
  refine ⟨fun h => ⟨place?_of_mem_leafPairs hv h, fieldless_of_mem_leafPairs h⟩, ?_⟩
  rintro ⟨hplace, hw⟩
  -- Along the names, into the value of each field.
  induction names generalizing v with
  | nil =>
    obtain rfl := Option.some.inj hplace
    rw [leafPairs_of_fieldless hw]
    exact List.mem_cons_self
  | cons name rest ih =>
    cases v with
    | null | bool | int | decimal | str | array => cases hplace
    | object fields =>
      rw [place?_object] at hplace
      obtain ⟨c, hc, hplace⟩ := Option.bind_eq_some_iff.mp hplace
      have hmem := Fields.mem_of_get? hc
      have hleaf : (rest, w) ∈ leafPairs c := ih ((ordered_object_iff.mp hv).2 _ hmem) hplace
      obtain ⟨f, fields, rfl⟩ := List.exists_cons_of_ne_nil (List.ne_nil_of_mem hmem)
      exact mem_leafPairsOf.mpr ⟨(name, c), hmem, (rest, w), hleaf, rfl⟩

theorem mem_leafPairsOf_iff (hd : (object fields).Ordered) : (names, w) ∈ leafPairsOf fields ↔
    names ≠ [] ∧ (object fields).place? names = some w ∧ w.Fieldless := by
  cases fields with
  | nil =>
    refine iff_of_false List.not_mem_nil ?_
    rintro ⟨hne, hplace, -⟩
    exact hne (isSome_place?_empty.mp (hplace ▸ rfl))
  | cons f fields =>
    rw [← mem_leafPairs_iff hd]
    exact ⟨fun h => ⟨ne_nil_of_mem_leafPairsOf _ h, h⟩, And.right⟩

/-- A value that is not an object has no leaf below it. -/
theorem not_isLeaf (h : d.isObject = false) : ¬d.IsLeaf names := by
  rintro ⟨hne, -, w, hplace, -⟩
  obtain ⟨name, rest, rfl⟩ := List.exists_cons_of_ne_nil hne
  rw [place?_of_not_object h] at hplace
  cases hplace

theorem mem_leafPlaces_iff (hd : d.Ordered) : names ∈ leafPlaces [] d ↔ d.IsLeaf names := by
  cases d with
  | null | bool | int | decimal | str | array => exact iff_of_false List.not_mem_nil (not_isLeaf rfl)
  | object fields =>
    rw [leafPlaces_root, List.mem_map]
    constructor
    · rintro ⟨p, hp, rfl⟩
      obtain ⟨hmem, hnamed⟩ := List.mem_filter.mp hp
      obtain ⟨hne, hends⟩ := (mem_leafPairsOf_iff hd).mp hmem
      exact ⟨hne, named_iff.mp hnamed, p.2, hends⟩
    · rintro ⟨hne, hempty, w, hends⟩
      exact ⟨(names, w), List.mem_filter.mpr ⟨(mem_leafPairsOf_iff hd).mpr ⟨hne, hends⟩, named_iff.mpr hempty⟩, rfl⟩

theorem leafPlaces_pairwise (hd : d.Ordered) : (leafPlaces [] d).Pairwise (· < ·) := by
  cases d with
  | null | bool | int | decimal | str | array => exact .nil
  | object fields =>
    rw [leafPlaces_root]
    cases fields with
    | nil => exact .nil
    | cons f fields => exact (leafPairs_pairwise hd).sublist (List.filter_sublist.map Prod.fst)

/-! ### Listing -/

/-- Places are read as queries one after another up to the first one that is too long. -/
theorem mapM_parse (h : ∀ names ∈ places, names ≠ [] ∧ "" ∉ names) :
    (∃ qs, places.mapM (fun names => Query.parse (String.ofList (dotted names))) = .ok qs ∧
      List.Forall₂ (Query.Leads false) places qs ∧ ∀ names ∈ places, names.length < maxLength) ∨
    (places.mapM (fun names => Query.parse (String.ofList (dotted names))) = .error (.tooDeep maxLength) ∧
      ∃ names ∈ places, maxLength ≤ names.length) := by
  induction places with
  | nil => exact Or.inl ⟨[], rfl, .nil, nofun⟩
  | cons names places ih =>
    rw [List.forall_mem_cons] at h
    obtain ⟨⟨hne, hempty⟩, h⟩ := h
    rw [List.mapM_cons]
    rcases Nat.lt_or_ge names.length maxLength with hshort | hlong
    · obtain ⟨q, hq, hleads⟩ := (⟨hne, hempty, hshort⟩ : Nameable names).parse_dotted
      rw [hq, Outcome.ok_bind]
      rcases ih h with ⟨qs, hqs, hall, hshorts⟩ | ⟨herror, other, hmem, hlong⟩
      · refine Or.inl ⟨q :: qs, ?_, .cons hleads hall, List.forall_mem_cons.mpr ⟨hshort, hshorts⟩⟩
        rw [hqs]
        rfl
      · refine Or.inr ⟨?_, other, List.mem_cons_of_mem _ hmem, hlong⟩
        rw [herror]
        rfl
    · refine Or.inr ⟨?_, names, List.mem_cons_self, hlong⟩
      rw [parse_dotted_tooLong hne hempty hlong]
      rfl

theorem IsLeaf.has {q : Query} (h : d.IsLeaf names) (hq : q.Leads false names) : d.has q = .ok true := by
  obtain ⟨w, hplace, -⟩ := h.ends
  rw [hq.has, hplace]
  rfl

/-- A document is listed unless a leaf has more names than a path may have. A listing has, in the order of their names, one
    query for each leaf, which leads along the names of the leaf, and which the document has. -/
theorem leaves_spec (hd : d.Ordered) :
    ((∃ e, d.leaves = .error e) ↔ ∃ names, d.IsLeaf names ∧ 254 < names.length) ∧
      (∀ e, d.leaves = .error e → e = .tooDeep 255) ∧
      ∀ qs, d.leaves = .ok qs → ∃ places, places.Pairwise (· < ·) ∧ (∀ names, names ∈ places ↔ d.IsLeaf names) ∧
        List.Forall₂ (fun names q => q.path = names.map (fun name => ⟨{}, .field name, false⟩) ∧ q.seq = 0 ∧
          d.has q = .ok true) places qs := by
  have hmem : ∀ names, names ∈ leafPlaces [] d ↔ d.IsLeaf names := fun _ => mem_leafPlaces_iff hd
  rcases mapM_parse fun names h => ⟨((hmem names).mp h).ne_nil, ((hmem names).mp h).no_empty⟩ with
    ⟨qs, hok, hleads, hshort⟩ | ⟨herror, names, hnames, hlong⟩
  · have hnot : ¬∃ names, d.IsLeaf names ∧ 254 < names.length := by
      rintro ⟨names, hleaf, hlong⟩
      exact Nat.not_lt.mpr hlong (hshort names ((hmem names).mpr hleaf))
    rw [leaves, hok]
    refine ⟨iff_of_false (by simp) hnot, by simp, fun qs' h => ?_⟩
    cases h
    refine ⟨leafPlaces [] d, leafPlaces_pairwise hd, hmem, ?_⟩
    have hleaves := (List.forall₂_and_left _ _).mpr ⟨fun names h => (hmem names).mp h, hleads⟩
    refine hleaves.imp fun names q h => ?_
    exact ⟨h.2.path.trans (Path.ofNames_eq_map names), h.2.seq, h.1.has h.2⟩
  · rw [leaves, herror]
    refine ⟨iff_of_true ⟨_, rfl⟩ ⟨names, (hmem names).mp hnames, hlong⟩, fun e h => ?_, fun qs h => ?_⟩
    · exact (Except.error.inj h).symm
    · cases h

/-- A field without a name is not listed, and an empty object under a name made of digits is a leaf. -/
theorem leaves_spec_escaped :
    ∃ qs, (object [("", int 1), ("1", object []), ("a.b", object [("c", null)])]).leaves = .ok qs ∧
      ∃ places : List (List String), places.Pairwise (· < ·) ∧
        (∀ names, names ∈ places ↔ names = ["1"] ∨ names = ["a.b", "c"]) ∧
        List.Forall₂ (fun names q => q.path = names.map (fun name => ⟨{}, .field name, false⟩) ∧ q.seq = 0 ∧
          (object [("", int 1), ("1", object []), ("a.b", object [("c", null)])]).has q = .ok true) places qs := by
  have hd : (object [("", int 1), ("1", object []), ("a.b", object [("c", null)])]).Ordered :=
    ((ordered_empty.insert (ordered_empty.insert (v := null) trivial "c") "a.b").insert ordered_empty "1").insert
      (v := int 1) trivial ""
  have hplaces : leafPlaces [] (object [("", int 1), ("1", object []), ("a.b", object [("c", null)])]) =
    [["1"], ["a.b", "c"]] := rfl
  have hleaf : ∀ names, IsLeaf (object [("", int 1), ("1", object []), ("a.b", object [("c", null)])]) names ↔
      names = ["1"] ∨ names = ["a.b", "c"] := by
    intro names
    rw [← mem_leafPlaces_iff hd, hplaces]
    simp
  obtain ⟨hfails, -, hlisted⟩ := leaves_spec hd
  cases h : leaves (object [("", int 1), ("1", object []), ("a.b", object [("c", null)])]) with
  | error e =>
    obtain ⟨names, hnames, hlong⟩ := hfails.mp ⟨e, h⟩
    rcases (hleaf names).mp hnames with rfl | rfl <;> exact absurd hlong (by decide)
  | ok qs =>
    obtain ⟨places, hsorted, hmem, hall⟩ := hlisted qs h
    exact ⟨qs, rfl, places, hsorted, fun names => (hmem names).trans (hleaf names), hall⟩

end TreeQuery.Value
