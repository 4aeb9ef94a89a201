import TreeQuery.Document.Merge
import TreeQuery.Proofs.Document.Lookup
import TreeQuery.Proofs.Value.Ordered
import TreeQuery.Proofs.Value.Same

/-! # Merging place by place

A place is reached through the fields of objects alone. Two documents merge exactly if the values that they
both have at a place are alike there (`mergeAt_ok_iff`), and the result has at each place what the two have
(`mergeAt_joins`). A document with ordered fields is determined by what is at its places up to likeness
(`same_of_places`), so the laws of merging are laws of single places: there they follow from likeness being
an equivalence. -/

namespace TreeQuery.Value

variable {place names : List String} {name : String} {a b c l r m v : Value} {own fields out : Fields Value}

/-! ### Places -/

/-- The value that names lead to through objects. -/
def place? (names : List String) (v : Value) : Option Value := v.lookup (names.map Key.name)

theorem place?_object : (object fields).place? (name :: names) = (Fields.get? name fields).bind (place? names) := rfl

theorem place?_of_not_object (h : v.isObject = false) : v.place? (name :: names) = none := by
  cases v with
  | object => cases h
  | null | bool | int | decimal | str | array => rfl

theorem isSome_place?_empty : ((object []).place? names).isSome ↔ names = [] := by
  cases names with
  | nil => exact iff_of_true rfl rfl
  | cons name names => exact iff_of_false Bool.false_ne_true (List.cons_ne_nil name names)

/-- What a place shows of a value: whether it is an object, and otherwise which value it is. -/
def Alike (v w : Value) : Prop := v.isObject = true ∧ w.isObject = true ∨ v.same w = true

theorem Alike.refl (v : Value) : Alike v v := Or.inr (same_refl v)

theorem Alike.symm (h : Alike a b) : Alike b a := h.imp And.symm same_symm

theorem Alike.isObject (h : Alike a b) : a.isObject = b.isObject := by
  rcases h with ⟨ha, hb⟩ | h
  · rw [ha, hb]
  · exact same_isObject h

theorem Alike.trans (hab : Alike a b) (hbc : Alike b c) : Alike a c := by
  rcases hab with ⟨ha, hb⟩ | hab
  · exact Or.inl ⟨ha, hbc.isObject ▸ hb⟩
  · rcases hbc with ⟨hb, hc⟩ | hbc
    · exact Or.inl ⟨same_isObject hab ▸ hb, hc⟩
    · exact Or.inr (same_trans hab hbc)

theorem Alike.same (h : Alike a b) (ha : a.isObject = false) : a.same b = true := by
  rcases h with ⟨h, -⟩ | h
  · rw [ha] at h
    cases h
  · exact h

/-! ### One place -/

section
variable {x y z w w' : Option Value}

/-- Whether what two documents have at a place can be merged. -/
def Meets (x y : Option Value) : Prop := ∀ v ∈ x, ∀ w ∈ y, Alike v w

/-- `w` is what a merge has at a place where the two documents have `x` and `y`. -/
structure Joins (x y w : Option Value) : Prop where
  left : y = none → w = x
  right : x = none → w = y
  both : ∀ a ∈ x, ∀ b ∈ y, ∃ v ∈ w, Alike a v ∧ Alike b v

theorem Meets.symm (h : Meets x y) : Meets y x := fun v hv w hw => (h w hw v hv).symm

theorem joins_none (x : Option Value) : Joins x none x := ⟨fun _ => rfl, id, nofun⟩

theorem none_joins (y : Option Value) : Joins none y y := ⟨id, fun _ => rfl, nofun⟩

theorem joins_some (ha : Alike a v) (hb : Alike b v) : Joins (some a) (some b) (some v) :=
  ⟨nofun, nofun, fun _ h₁ _ h₂ => ⟨v, rfl, Option.some.inj h₁ ▸ ha, Option.some.inj h₂ ▸ hb⟩⟩

theorem Joins.symm (h : Joins x y w) : Joins y x w :=
  ⟨h.right, h.left, fun b hb a ha => (h.both a ha b hb).imp fun _ hv => ⟨hv.1, hv.2.symm⟩⟩

theorem Joins.meets (h : Joins x y w) : Meets x y := fun a ha b hb => by
  obtain ⟨v, -, hav, hbv⟩ := h.both a ha b hb
  exact hav.trans hbv.symm

/-- What one of the documents has is alike to what the merge has. -/
theorem Joins.alike_left (h : Joins x y w) (ha : a ∈ x) : ∃ v ∈ w, Alike a v := by
  cases y with
  | none => exact ⟨a, h.left rfl ▸ ha, .refl a⟩
  | some b => exact (h.both a ha b rfl).imp fun _ hv => ⟨hv.1, hv.2.1⟩

/-- What a merge has is alike to what one of the documents has. -/
theorem Joins.alike_of_mem (h : Joins x y w) (hv : v ∈ w) : (∃ a ∈ x, Alike a v) ∨ ∃ b ∈ y, Alike b v := by
  cases x with
  | none => exact Or.inr ⟨v, h.right rfl ▸ hv, .refl v⟩
  | some a =>
    obtain ⟨u, hu, hau⟩ := h.alike_left (a := a) rfl
    exact Or.inl ⟨a, rfl, Option.mem_unique hu hv ▸ hau⟩

/-- A merge meets what both of its parts meet. -/
theorem Joins.meets_iff (h : Joins x y w) : Meets w z ↔ Meets x z ∧ Meets y z := by
  constructor
  · refine fun hw => ⟨fun a ha c hc => ?_, fun b hb c hc => ?_⟩
    · obtain ⟨v, hv, hav⟩ := h.alike_left ha
      exact hav.trans (hw v hv c hc)
    · obtain ⟨v, hv, hbv⟩ := h.symm.alike_left hb
      exact hbv.trans (hw v hv c hc)
  · rintro ⟨hx, hy⟩ v hv c hc
    rcases h.alike_of_mem hv with ⟨a, ha, hav⟩ | ⟨b, hb, hbv⟩
    · exact hav.symm.trans (hx a ha c hc)
    · exact hbv.symm.trans (hy b hb c hc)

theorem rel_alike (h : ∀ v ∈ w, ∃ v' ∈ w', Alike v v') (h' : ∀ v' ∈ w', ∃ v ∈ w, Alike v' v) :
    Option.Rel Alike w w' := by
  cases w with
  | none =>
    cases w' with
    | none => exact .none
    | some v' =>
      obtain ⟨v, hv, -⟩ := h' v' rfl
      cases hv
  | some v =>
    obtain ⟨v', hv', halike⟩ := h v rfl
    cases hv'
    exact .some halike

theorem Joins.comm (h : Joins x y w) (h' : Joins y x w') : Option.Rel Alike w w' := by
  have hto : ∀ {x y w w' : Option Value}, Joins x y w → Joins y x w' → ∀ v ∈ w, ∃ v' ∈ w', Alike v v' := by
    intro x y w w' h h' v hv
    rcases h.alike_of_mem hv with ⟨a, ha, hav⟩ | ⟨b, hb, hbv⟩
    · exact (h'.symm.alike_left ha).imp fun _ hv' => ⟨hv'.1, hav.symm.trans hv'.2⟩
    · exact (h'.alike_left hb).imp fun _ hv' => ⟨hv'.1, hbv.symm.trans hv'.2⟩
  exact rel_alike (hto h h') (hto h' h)

theorem Joins.assoc {xy yz : Option Value} (hxy : Joins x y xy) (hw : Joins xy z w) (hyz : Joins y z yz)
    (hw' : Joins x yz w') : Option.Rel Alike w w' := by
  -- What the one side has comes from one of the three, and that is found again on the other side.
  have hto : ∀ {x y z xy yz w w' : Option Value}, Joins x y xy → Joins xy z w → Joins y z yz → Joins x yz w' →
      ∀ v ∈ w, ∃ v' ∈ w', Alike v v' := by
    intro x y z xy yz w w' hxy hw hyz hw' v hv
    have hback : ∀ {u}, Alike u v → (∃ v' ∈ w', Alike u v') → ∃ v' ∈ w', Alike v v' := fun huv h =>
      h.imp fun _ hv' => ⟨hv'.1, huv.symm.trans hv'.2⟩
    have hbehind : ∀ {u}, Alike u v → (∃ t ∈ yz, Alike u t) → ∃ v' ∈ w', Alike v v' := by
      rintro u huv ⟨t, ht, hut⟩
      exact hback (hut.symm.trans huv) (hw'.symm.alike_left ht)
    rcases hw.alike_of_mem hv with ⟨u, hu, huv⟩ | ⟨c, hc, hcv⟩
    · rcases hxy.alike_of_mem hu with ⟨a, ha, hau⟩ | ⟨b, hb, hbu⟩
      · exact hback (hau.trans huv) (hw'.alike_left ha)
      · exact hbehind (hbu.trans huv) (hyz.alike_left hb)
    · exact hbehind hcv (hyz.symm.alike_left hc)
  exact rel_alike (hto hxy hw hyz hw') (hto hyz.symm hw'.symm hxy.symm hw.symm)

end

/-! ### Documents from their places -/

/-- Documents with ordered fields that are alike at every place are equal. -/
theorem same_of_places (ha : a.Ordered) (hb : b.Ordered)
    (h : ∀ names, Option.Rel Alike (a.place? names) (b.place? names)) : a.same b = true := by
  induction a using Value.induction generalizing b with
  | null | bool | int | decimal | str | array =>
    cases h [] with
    | some halike => exact halike.same rfl
  | object fields ih =>
    cases b with
    | object others =>
      refine object_same_iff.mpr ⟨others, rfl, sameFields_of_get? ha.sorted hb.sorted fun name => ?_⟩
      -- The place of the name itself shows whether both objects have it, the places behind it that its values agree.
      have hplaces := fun names => h (name :: names)
      simp only [place?_object] at hplaces
      cases hv : Fields.get? name fields with
      | none =>
        cases hw : Fields.get? name others with
        | none => exact .none
        | some w =>
          have hrel := hplaces []
          rw [hv, hw] at hrel
          cases hrel
      | some v =>
        cases hw : Fields.get? name others with
        | none =>
          have hrel := hplaces []
          rw [hv, hw] at hrel
          cases hrel
        | some w =>
          rw [hv, hw] at hplaces
          exact .some (ih (name, v) (Fields.mem_of_get? hv) (ha.get? hv) (hb.get? hw) hplaces)
    | null | bool | int | decimal | str | array =>
      cases h [] with
      | some halike => exact halike.symm.same rfl

/-! ### Merging values -/

/-- The error of two values that clash at a place with this text. -/
def clashError (text : String) (v w : Value) : MergeError :=
  if v.tag ≠ w.tag then .incompatibleTypes text v.tag w.tag
  else if v.isArray && w.isArray then .unsupportedArrayMerge text
  else .clashingKeys text

theorem tag_array (v : Value) : v.tag.array = v.isArray := by
  cases v <;> rfl

theorem isObject_of_tag (h : v.tag = Tag.objectTag) : v.isObject = true := by
  cases v with
  | object => rfl
  | array => exact nomatch congrArg Tag.array h
  | null | bool | int | decimal | str => exact nomatch congrArg Tag.object h

/-- Values that are not both objects merge if they are equal. -/
theorem mergeAt_eq (h : ¬(l.isObject = true ∧ r.isObject = true)) :
    mergeAt place l r = if l.same r then .ok l else .error (clashError (placeText place) l r) := by
  by_cases htag : l.tag = r.tag
  · have hmerge : mergeAt place l r =
        if l.tag ≠ r.tag then .error (.incompatibleTypes (placeText place) l.tag r.tag)
        else if l.same r then .ok l
        else if r.isArray then .error (.unsupportedArrayMerge (placeText place))
        else .error (.clashingKeys (placeText place)) := by
      cases r with
      | object => exact absurd ⟨isObject_of_tag htag, rfl⟩ h
      | null | bool | int | decimal | str | array => rfl
    have harray : l.isArray = r.isArray := by rw [← tag_array, ← tag_array, htag]
    rw [hmerge, clashError, if_neg (not_not.mpr htag), if_neg (not_not.mpr htag), harray, Bool.and_self]
    split
    · rfl
    · split <;> rfl
  · have hmerge : mergeAt place l r = .error (.incompatibleTypes (placeText place) l.tag r.tag) := by
      cases r with
      | object =>
        cases l with
        | object => exact absurd rfl htag
        | null | bool | int | decimal | str | array => rfl
      | null | bool | int | decimal | str | array => exact if_pos htag
    have hsame : ¬l.same r = true := fun hsame => htag (same_tag hsame)
    rw [hmerge, if_neg hsame, clashError, if_pos htag]

theorem mergeAt_of_not_object (h : r.isObject = false) :
    mergeAt place l r = .ok m ↔ m = l ∧ l.same r = true := by
  rw [mergeAt_eq fun hobjects => Bool.false_ne_true (h.symm.trans hobjects.2)]
  split
  · rename_i hsame
    exact ⟨fun h => ⟨(Except.ok.inj h).symm, hsame⟩, fun h => congrArg Except.ok h.1.symm⟩
  · rename_i hsame
    exact ⟨nofun, fun h => absurd h.2 hsame⟩

theorem mergeAt_object_iff : mergeAt place l (object fields) = .ok m ↔
    ∃ own out, l = object own ∧ mergeFields place own fields = .ok out ∧ m = object out := by
  cases l with
  | object own =>
    have hmerge : mergeAt place (object own) (object fields) = (mergeFields place own fields).map object := rfl
    rw [hmerge, Outcome.map_ok_iff]
    constructor
    · rintro ⟨out, hout, rfl⟩
      exact ⟨own, out, rfl, hout, rfl⟩
    · rintro ⟨_, out, hown, hout, rfl⟩
      cases hown
      exact ⟨out, hout, rfl⟩
  | null | bool | int | decimal | str | array => exact iff_of_false nofun nofun

/-- The value `r` of a field gives `m` when it is merged into `own`, where the name may be missing. -/
def FieldMerges (place : List String) (own : Fields Value) (name : String) (r m : Value) : Prop :=
  Fields.get? name own = none ∧ m = r ∨
    ∃ l, Fields.get? name own = some l ∧ mergeAt (place ++ [name]) l r = .ok m

theorem mergeFields_cons_iff {p : String × Value} : mergeFields place own (p :: fields) = .ok out ↔
    ∃ m others, FieldMerges place own p.1 p.2 m ∧ mergeFields place own fields = .ok others ∧
      out = Fields.insert p.1 m others := by
  rw [mergeFields]
  constructor
  · intro h
    cases hl : Fields.get? p.1 own with
    | none =>
      rw [hl] at h
      obtain ⟨m, hm, h⟩ := Outcome.bind_ok_iff.mp h
      obtain ⟨others, hothers, h⟩ := Outcome.bind_ok_iff.mp h
      exact ⟨m, others, Or.inl ⟨hl, (Except.ok.inj hm).symm⟩, hothers, (Outcome.pure_ok_iff.mp h).symm⟩
    | some l =>
      rw [hl] at h
      obtain ⟨m, hm, h⟩ := Outcome.bind_ok_iff.mp h
      obtain ⟨others, hothers, h⟩ := Outcome.bind_ok_iff.mp h
      exact ⟨m, others, Or.inr ⟨l, hl, hm⟩, hothers, (Outcome.pure_ok_iff.mp h).symm⟩
  · rintro ⟨m, others, ⟨hl, rfl⟩ | ⟨l, hl, hm⟩, hothers, rfl⟩
    · rw [hl, hothers]
      rfl
    · simp only [hl, hm, hothers]
      rfl

/-- What one field of the result is: the merge of the two where both have the name, otherwise the one there is. -/
theorem get?_mergeFields (h : mergeFields place own fields = .ok out) (name : String) :
    (Fields.get? name fields = none → Fields.get? name out = Fields.get? name own) ∧
      ∀ r, Fields.get? name fields = some r → ∃ m, Fields.get? name out = some m ∧ FieldMerges place own name r m := by
  induction fields generalizing out with
  | nil =>
    cases h
    exact ⟨fun _ => rfl, fun _ hr => absurd hr (Option.some_ne_none _).symm⟩
  | cons p fields ih =>
    obtain ⟨m, others, hm, hothers, rfl⟩ := mergeFields_cons_iff.mp h
    rw [Fields.get?_insert, Fields.get?]
    by_cases hp : p.1 = name
    · rw [if_pos hp, if_pos hp]
      refine ⟨fun hr => absurd hr (Option.some_ne_none _), fun r hr => ⟨m, rfl, ?_⟩⟩
      cases hr
      exact hp ▸ hm
    · rw [if_neg hp, if_neg hp]
      exact ih hothers

/-- Fields merge if the values of their common names do. -/
theorem mergeFields_ok (h : ∀ p ∈ fields, ∀ l, Fields.get? p.1 own = some l →
    ∃ m, mergeAt (place ++ [p.1]) l p.2 = .ok m) : ∃ out, mergeFields place own fields = .ok out := by
  induction fields with
  | nil => exact ⟨own, rfl⟩
  | cons p fields ih =>
    rw [List.forall_mem_cons] at h
    obtain ⟨others, hothers⟩ := ih h.2
    have hfield : ∃ m, FieldMerges place own p.1 p.2 m := by
      cases hl : Fields.get? p.1 own with
      | none => exact ⟨p.2, Or.inl ⟨hl, rfl⟩⟩
      | some l => exact (h.1 l hl).imp fun _ hm => Or.inr ⟨l, hl, hm⟩
    obtain ⟨m, hm⟩ := hfield
    exact ⟨_, mergeFields_cons_iff.mpr ⟨m, others, hm, hothers, rfl⟩⟩

/-- Fields that have what they are merged with stay as they are. -/
theorem mergeFields_self (hown : own.Sorted) (h : ∀ p ∈ fields, ∃ l, Fields.get? p.1 own = some l ∧
    mergeAt (place ++ [p.1]) l p.2 = .ok l) : mergeFields place own fields = .ok own := by
  induction fields with
  | nil => rfl
  | cons p fields ih =>
    rw [List.forall_mem_cons] at h
    obtain ⟨l, hl, hm⟩ := h.1
    exact mergeFields_cons_iff.mpr ⟨l, own, Or.inr ⟨l, hl, hm⟩, ih h.2, (hown.insert_of_get? hl).symm⟩

/-- A merge has at each place what the two documents have there. -/
theorem mergeAt_joins (h : mergeAt place l r = .ok m) (names : List String) :
    Joins (l.place? names) (r.place? names) (m.place? names) := by
  induction r using Value.induction generalizing place l m names with
  | null | bool | int | decimal | str | array =>
    obtain ⟨rfl, hsame⟩ := (mergeAt_of_not_object rfl).mp h
    cases names with
    | nil => exact joins_some (.refl m) (Or.inr (same_symm hsame))
    | cons name names =>
      rw [place?_of_not_object (v := m) (same_isObject hsame)]
      exact joins_none none
  | object fields ih =>
    obtain ⟨own, out, rfl, hout, rfl⟩ := mergeAt_object_iff.mp h
    cases names with
    | nil => exact joins_some (Or.inl ⟨rfl, rfl⟩) (Or.inl ⟨rfl, rfl⟩)
    | cons name names =>
      obtain ⟨hnone, hsome⟩ := get?_mergeFields hout name
      rw [place?_object, place?_object, place?_object]
      cases hr : Fields.get? name fields with
      | none =>
        rw [hnone hr]
        exact joins_none _
      | some r =>
        obtain ⟨m, hm, ⟨hl, rfl⟩ | ⟨l, hl, hmerge⟩⟩ := hsome r hr
        · rw [hl, hm]
          exact none_joins _
        · rw [hl, hm]
          exact ih (name, r) (Fields.mem_of_get? hr) hmerge names

/-- Two documents merge exactly if they can be merged at every place that both have. -/
theorem mergeAt_ok_iff (hr : r.Ordered) :
    (∃ m, mergeAt place l r = .ok m) ↔ ∀ names, Meets (l.place? names) (r.place? names) := by
  refine ⟨fun ⟨m, hm⟩ names => (mergeAt_joins hm names).meets, fun h => ?_⟩
  induction r using Value.induction generalizing place l with
  | null | bool | int | decimal | str | array =>
    exact ⟨l, (mergeAt_of_not_object rfl).mpr ⟨rfl, same_symm ((h [] l rfl _ rfl).symm.same rfl)⟩⟩
  | object fields ih =>
    cases l with
    | object own =>
      obtain ⟨out, hout⟩ : ∃ out, mergeFields place own fields = .ok out := by
        refine mergeFields_ok fun p hp l hl => ih p hp ((ordered_object_iff.mp hr).2 p hp) fun names => ?_
        have hplaces := h (p.1 :: names)
        rwa [place?_object, place?_object, hl, Fields.get?_of_mem hr.sorted hp] at hplaces
      exact ⟨object out, mergeAt_object_iff.mpr ⟨own, out, rfl, hout, rfl⟩⟩
    | null | bool | int | decimal | str | array =>
      have hobject := (h [] _ rfl _ rfl).isObject
      cases hobject

/-- Merging keeps the order of fields. -/
theorem mergeAt_ordered (h : mergeAt place l r = .ok m) (hl : l.Ordered) (hr : r.Ordered) : m.Ordered := by
  induction r using Value.induction generalizing place l m with
  | null | bool | int | decimal | str | array => exact ((mergeAt_of_not_object rfl).mp h).1 ▸ hl
  | object fields ih =>
    obtain ⟨own, out, rfl, hout, rfl⟩ := mergeAt_object_iff.mp h
    have hfields := (ordered_object_iff.mp hr).2
    clear h hr
    induction fields generalizing out with
    | nil =>
      cases hout
      exact hl
    | cons p fields ihs =>
      rw [List.forall_mem_cons] at ih hfields
      obtain ⟨m, others, hm, hothers, rfl⟩ := mergeFields_cons_iff.mp hout
      have hm : m.Ordered := by
        rcases hm with ⟨-, rfl⟩ | ⟨l, hl', hm⟩
        · exact hfields.1
        · exact ih.1 hm (hl.get? hl') hfields.1
      exact (ihs ih.2 others hothers hfields.2).insert hm p.1

/-- A document merged with one equal to it stays as it is. -/
theorem mergeAt_of_same (h : l.same r = true) (hl : l.Ordered) (hr : r.Ordered) : mergeAt place l r = .ok l := by
  induction r using Value.induction generalizing place l with
  | null | bool | int | decimal | str | array => exact (mergeAt_of_not_object rfl).mpr ⟨rfl, h⟩
  | object fields ih =>
    cases l with
    | object own =>
      refine mergeAt_object_iff.mpr ⟨own, own, rfl, mergeFields_self hl.sorted fun p hp => ?_, rfl⟩
      obtain ⟨hsorted, hfields⟩ := ordered_object_iff.mp hr
      obtain ⟨v, hv, hsame⟩ := get?_of_sameFields h (Fields.get?_of_mem hsorted hp)
      exact ⟨v, hv, ih p hp hsame (hl.get? hv) (hfields p hp)⟩
    | null | bool | int | decimal | str | array => cases h

/-! ### The laws of merging -/

theorem merge_ok_iff (hb : b.Ordered) :
    (∃ m, merge a b = .ok m) ↔ ∀ names, Meets (a.place? names) (b.place? names) := mergeAt_ok_iff hb

/-- Three documents merge, from the left, exactly if any two of them do. -/
theorem merge_left_ok_iff (hb : b.Ordered) (hc : c.Ordered) :
    (∃ ab m, merge a b = .ok ab ∧ merge ab c = .ok m) ↔
      ∀ names, Meets (a.place? names) (b.place? names) ∧ Meets (a.place? names) (c.place? names) ∧
        Meets (b.place? names) (c.place? names) := by
  constructor
  · rintro ⟨ab, m, hab, hm⟩ names
    have hjoins := mergeAt_joins hab names
    exact ⟨hjoins.meets, hjoins.meets_iff.mp (mergeAt_joins hm names).meets⟩
  · intro h
    obtain ⟨ab, hab⟩ := (merge_ok_iff hb).mpr fun names => (h names).1
    obtain ⟨m, hm⟩ := (merge_ok_iff hc).mpr fun names =>
      (mergeAt_joins hab names).meets_iff.mpr (h names).2
    exact ⟨ab, m, hab, hm⟩

/-- Three documents merge, from the right, exactly if any two of them do. -/
theorem merge_right_ok_iff (hb : b.Ordered) (hc : c.Ordered) :
    (∃ bc m, merge b c = .ok bc ∧ merge a bc = .ok m) ↔
      ∀ names, Meets (a.place? names) (b.place? names) ∧ Meets (a.place? names) (c.place? names) ∧
        Meets (b.place? names) (c.place? names) := by
  constructor
  · rintro ⟨bc, m, hbc, hm⟩ names
    have hjoins := mergeAt_joins hbc names
    obtain ⟨hba, hca⟩ := hjoins.meets_iff.mp (mergeAt_joins hm names).meets.symm
    exact ⟨hba.symm, hca.symm, hjoins.meets⟩
  · intro h
    obtain ⟨bc, hbc⟩ := (merge_ok_iff hc).mpr fun names => (h names).2.2
    obtain ⟨m, hm⟩ := (merge_ok_iff (mergeAt_ordered hbc hb hc)).mpr fun names =>
      ((mergeAt_joins hbc names).meets_iff.mpr ⟨(h names).1.symm, (h names).2.1.symm⟩).symm
    exact ⟨bc, m, hbc, hm⟩

/-- Merging is a partial operation that is idempotent, commutative and associative, up to the spelling of
    equal decimals. Each law includes when the merge succeeds. At any place a document is merged with an equal
    one by leaving it as it is, so that one part shared by both documents need not be walked through. -/
theorem merge_semilattice (ha : a.Ordered) (hb : b.Ordered) (hc : c.Ordered) :
    (∀ place a₂, a₂.Ordered → a.same a₂ = true → mergeAt place a a₂ = .ok a) ∧
    ((∃ m, merge a b = .ok m) ↔ ∃ m, merge b a = .ok m) ∧
    (∀ m m', merge a b = .ok m → merge b a = .ok m' → m.same m' = true) ∧
    ((∃ ab m, merge a b = .ok ab ∧ merge ab c = .ok m) ↔ ∃ bc m, merge b c = .ok bc ∧ merge a bc = .ok m) ∧
    ∀ ab bc m m', merge a b = .ok ab → merge ab c = .ok m → merge b c = .ok bc → merge a bc = .ok m' →
      m.same m' = true := by
  refine ⟨fun place a₂ ha₂ hsame => mergeAt_of_same hsame ha ha₂, ?_, fun m m' hm hm' => ?_, ?_,
    fun ab bc m m' hab hm hbc hm' => ?_⟩
  · rw [merge_ok_iff hb, merge_ok_iff ha]
    exact ⟨fun h names => (h names).symm, fun h names => (h names).symm⟩
  · have hplaces := fun names => (mergeAt_joins hm names).comm (mergeAt_joins hm' names)
    exact same_of_places (mergeAt_ordered hm ha hb) (mergeAt_ordered hm' hb ha) hplaces
  · rw [merge_left_ok_iff hb hc, merge_right_ok_iff hb hc]
  · have hplaces := fun names => (mergeAt_joins hab names).assoc (mergeAt_joins hm names)
      (mergeAt_joins hbc names) (mergeAt_joins hm' names)
    exact same_of_places (mergeAt_ordered hm (mergeAt_ordered hab ha hb) hc)
      (mergeAt_ordered hm' ha (mergeAt_ordered hbc hb hc)) hplaces

/-- Documents with one decimal spelled in two ways merge in either order, and the results are equal. -/
theorem merge_semilattice_decimal :
    merge (object [("a", decimal ⟨10, 1⟩)]) (object [("a", decimal ⟨1, 0⟩), ("b", null)]) =
      .ok (object [("a", decimal ⟨10, 1⟩), ("b", null)]) ∧
    ∃ m, merge (object [("a", decimal ⟨1, 0⟩), ("b", null)]) (object [("a", decimal ⟨10, 1⟩)]) = .ok m ∧
      (object [("a", decimal ⟨10, 1⟩), ("b", null)]).same m = true := by
  have ha : (object [("a", decimal ⟨10, 1⟩)]).Ordered := ordered_empty.insert (v := decimal ⟨10, 1⟩) trivial "a"
  have hb : (object [("a", decimal ⟨1, 0⟩), ("b", null)]).Ordered :=
    (ordered_empty.insert (v := decimal ⟨1, 0⟩) trivial "a").insert (v := null) trivial "b"
  have hm : merge (object [("a", decimal ⟨10, 1⟩)]) (object [("a", decimal ⟨1, 0⟩), ("b", null)]) =
      .ok (object [("a", decimal ⟨10, 1⟩), ("b", null)]) := rfl
  obtain ⟨-, hok, hsame, -⟩ := merge_semilattice ha hb hb
  obtain ⟨m, hm'⟩ := hok.mp ⟨_, hm⟩
  exact ⟨hm, m, hm', hsame _ m hm hm'⟩

end TreeQuery.Value
