import TreeQuery.Proofs.Number.Decimal
import TreeQuery.Value.Basic

/-! # Equal values

Values are compared by what they denote, and `Value.same` is an equivalence. Equal values have the same type
tag and their fields the same names. Values are trees over lists, so an induction over them comes with the
claim for every element and for the value of every field (`Value.induction`). -/

namespace TreeQuery.Value

/-- Induction over a value with its elements and the values of its fields. -/
@[elab_as_elim]
theorem induction {motive : Value → Prop} (null : motive .null) (bool : ∀ b, motive (.bool b))
    (int : ∀ i, motive (.int i)) (decimal : ∀ d, motive (.decimal d)) (str : ∀ s, motive (.str s))
    (array : ∀ items, (∀ v ∈ items, motive v) → motive (.array items))
    (object : ∀ fields, (∀ p ∈ fields, motive p.2) → motive (.object fields)) (v : Value) : motive v :=
  @Value.rec motive (fun items => ∀ v ∈ items, motive v) (fun fields => ∀ p ∈ fields, motive p.2) (fun p => motive p.2)
    null bool int decimal str array object nofun (fun _ _ hv hs => List.forall_mem_cons.mpr ⟨hv, hs⟩)
    nofun (fun _ _ hp hs => List.forall_mem_cons.mpr ⟨hp, hs⟩) (fun _ _ hv => hv) v

variable {a b c : Value} {as bs cs : List Value} {fs gs hs : List (String × Value)}

/-! ### What equals a value -/

theorem same_eq (a b : Value) : a.same b =
    match a, b with
    | null, null => true
    | bool x, bool y => x == y
    | int i, int j => i == j
    | decimal d, decimal e => d.same e
    | str s, str t => s == t
    | array as, array bs => sameItems as bs
    | object fs, object gs => sameFields fs gs
    | _, _ => false := by
  cases a <;> cases b <;> rfl

theorem null_same_iff : null.same b = true ↔ null = b := by
  rw [same_eq]
  cases b <;> simp

theorem bool_same_iff {x : Bool} : (bool x).same b = true ↔ bool x = b := by
  rw [same_eq]
  cases b <;> simp

theorem int_same_iff {i : Int} : (int i).same b = true ↔ int i = b := by
  rw [same_eq]
  cases b <;> simp

theorem str_same_iff {s : String} : (str s).same b = true ↔ str s = b := by
  rw [same_eq]
  cases b <;> simp

theorem decimal_same_iff {d : Decimal} : (decimal d).same b = true ↔ ∃ e, b = decimal e ∧ d.same e = true := by
  rw [same_eq]
  cases b <;> simp

theorem array_same_iff : (array as).same b = true ↔ ∃ bs, b = array bs ∧ sameItems as bs = true := by
  rw [same_eq]
  cases b <;> simp

theorem object_same_iff : (object fs).same b = true ↔ ∃ gs, b = object gs ∧ sameFields fs gs = true := by
  rw [same_eq]
  cases b <;> simp

theorem nil_sameItems_iff : sameItems [] bs = true ↔ bs = [] := by
  cases bs with
  | nil => exact iff_of_true rfl rfl
  | cons b bs => exact iff_of_false Bool.false_ne_true nofun

theorem cons_sameItems_iff :
    sameItems (a :: as) bs = true ↔ ∃ b rest, bs = b :: rest ∧ a.same b = true ∧ sameItems as rest = true := by
  cases bs with
  | nil => exact iff_of_false Bool.false_ne_true nofun
  | cons b bs =>
    have hcons : sameItems (a :: as) (b :: bs) = (a.same b && sameItems as bs) := rfl
    simp [hcons]

theorem nil_sameFields_iff : sameFields [] gs = true ↔ gs = [] := by
  cases gs with
  | nil => exact iff_of_true rfl rfl
  | cons q gs => exact iff_of_false Bool.false_ne_true nofun

theorem cons_sameFields_iff {p : String × Value} :
    sameFields (p :: fs) gs = true ↔
      ∃ b rest, gs = (p.1, b) :: rest ∧ p.2.same b = true ∧ sameFields fs rest = true := by
  cases gs with
  | nil => exact iff_of_false Bool.false_ne_true nofun
  | cons q rest =>
    have hcons : sameFields (p :: fs) (q :: rest) = (p.1 == q.1 && p.2.same q.2 && sameFields fs rest) := rfl
    rw [hcons, Bool.and_eq_true, Bool.and_eq_true, beq_iff_eq]
    constructor
    · rintro ⟨⟨hname, hb⟩, hrest⟩
      exact ⟨q.2, rest, by rw [hname], hb, hrest⟩
    · rintro ⟨_, _, h, hb, hrest⟩
      cases h
      exact ⟨⟨rfl, hb⟩, hrest⟩

/-! ### Comparison is an equivalence -/

theorem same_refl (a : Value) : a.same a = true := by
  induction a using Value.induction with
  | null => rfl
  | bool x => exact bool_same_iff.mpr rfl
  | int i => exact int_same_iff.mpr rfl
  | str s => exact str_same_iff.mpr rfl
  | decimal d => exact d.same_self
  | array items ih =>
    refine array_same_iff.mpr ⟨items, rfl, ?_⟩
    induction items with
    | nil => rfl
    | cons v items ihs =>
      rw [List.forall_mem_cons] at ih
      exact cons_sameItems_iff.mpr ⟨v, items, rfl, ih.1, ihs ih.2⟩
  | object fields ih =>
    refine object_same_iff.mpr ⟨fields, rfl, ?_⟩
    induction fields with
    | nil => rfl
    | cons p fields ihs =>
      rw [List.forall_mem_cons] at ih
      exact cons_sameFields_iff.mpr ⟨p.2, fields, rfl, ih.1, ihs ih.2⟩

theorem same_symm (h : a.same b = true) : b.same a = true := by
  induction a using Value.induction generalizing b with
  | null => exact null_same_iff.mp h ▸ same_refl _
  | bool x => exact bool_same_iff.mp h ▸ same_refl _
  | int i => exact int_same_iff.mp h ▸ same_refl _
  | str s => exact str_same_iff.mp h ▸ same_refl _
  | decimal d =>
    obtain ⟨e, rfl, hd⟩ := decimal_same_iff.mp h
    exact decimal_same_iff.mpr ⟨d, rfl, d.same_comm e ▸ hd⟩
  | array as ih =>
    obtain ⟨bs, rfl, hbs⟩ := array_same_iff.mp h
    refine array_same_iff.mpr ⟨as, rfl, ?_⟩
    clear h
    induction as generalizing bs with
    | nil =>
      obtain rfl := nil_sameItems_iff.mp hbs
      rfl
    | cons x as ihs =>
      rw [List.forall_mem_cons] at ih
      obtain ⟨y, bs, rfl, hxy, hbs⟩ := cons_sameItems_iff.mp hbs
      exact cons_sameItems_iff.mpr ⟨x, as, rfl, ih.1 hxy, ihs ih.2 bs hbs⟩
  | object fs ih =>
    obtain ⟨gs, rfl, hgs⟩ := object_same_iff.mp h
    refine object_same_iff.mpr ⟨fs, rfl, ?_⟩
    clear h
    induction fs generalizing gs with
    | nil =>
      obtain rfl := nil_sameFields_iff.mp hgs
      rfl
    | cons p fs ihs =>
      rw [List.forall_mem_cons] at ih
      obtain ⟨y, gs, rfl, hxy, hgs⟩ := cons_sameFields_iff.mp hgs
      exact cons_sameFields_iff.mpr ⟨p.2, fs, rfl, ih.1 hxy, ihs ih.2 gs hgs⟩

theorem same_trans (hab : a.same b = true) (hbc : b.same c = true) : a.same c = true := by
  induction a using Value.induction generalizing b c with
  | null => exact null_same_iff.mp hab ▸ hbc
  | bool x => exact bool_same_iff.mp hab ▸ hbc
  | int i => exact int_same_iff.mp hab ▸ hbc
  | str s => exact str_same_iff.mp hab ▸ hbc
  | decimal d =>
    obtain ⟨e, rfl, hd⟩ := decimal_same_iff.mp hab
    obtain ⟨f, rfl, he⟩ := decimal_same_iff.mp hbc
    exact decimal_same_iff.mpr ⟨f, rfl, Decimal.same_trans hd he⟩
  | array as ih =>
    obtain ⟨bs, rfl, hbs⟩ := array_same_iff.mp hab
    obtain ⟨cs, rfl, hcs⟩ := array_same_iff.mp hbc
    refine array_same_iff.mpr ⟨cs, rfl, ?_⟩
    clear hab hbc
    induction as generalizing bs cs with
    | nil => exact nil_sameItems_iff.mp hbs ▸ hcs
    | cons x as ihs =>
      rw [List.forall_mem_cons] at ih
      obtain ⟨y, bs, rfl, hxy, hbs⟩ := cons_sameItems_iff.mp hbs
      obtain ⟨z, cs, rfl, hyz, hcs⟩ := cons_sameItems_iff.mp hcs
      exact cons_sameItems_iff.mpr ⟨z, cs, rfl, ih.1 hxy hyz, ihs ih.2 bs hbs cs hcs⟩
  | object fs ih =>
    obtain ⟨gs, rfl, hgs⟩ := object_same_iff.mp hab
    obtain ⟨hs, rfl, hhs⟩ := object_same_iff.mp hbc
    refine object_same_iff.mpr ⟨hs, rfl, ?_⟩
    clear hab hbc
    induction fs generalizing gs hs with
    | nil => exact nil_sameFields_iff.mp hgs ▸ hhs
    | cons p fs ihs =>
      rw [List.forall_mem_cons] at ih
      obtain ⟨y, gs, rfl, hxy, hgs⟩ := cons_sameFields_iff.mp hgs
      obtain ⟨z, hs, rfl, hyz, hhs⟩ := cons_sameFields_iff.mp hhs
      exact cons_sameFields_iff.mpr ⟨z, hs, rfl, ih.1 hxy hyz, ihs ih.2 gs hgs hs hhs⟩

/-! ### Fields -/

/-- A name of equal fields looks up equal values. -/
theorem get?_of_sameFields {name : String} {w : Value} (h : sameFields fs gs = true)
    (hw : Fields.get? name gs = some w) : ∃ v, Fields.get? name fs = some v ∧ v.same w = true := by
  induction fs generalizing gs with
  | nil =>
    obtain rfl := nil_sameFields_iff.mp h
    cases hw
  | cons p fs ih =>
    obtain ⟨y, gs, rfl, hxy, hgs⟩ := cons_sameFields_iff.mp h
    rw [Fields.get?] at hw ⊢
    by_cases hp : p.1 = name
    · rw [if_pos hp] at hw ⊢
      exact ⟨p.2, rfl, Option.some.inj hw ▸ hxy⟩
    · rw [if_neg hp] at hw ⊢
      exact ih hgs hw

/-- Ordered fields in which every name looks up equal values are equal. -/
theorem sameFields_of_get? (hf : Fields.Sorted fs) (hg : Fields.Sorted gs)
    (h : ∀ name, Option.Rel (fun v w => v.same w = true) (Fields.get? name fs) (Fields.get? name gs)) :
    sameFields fs gs = true := by
  have hsome : ∀ {v w : Option Value}, Option.Rel (fun v w => v.same w = true) v w → v.isSome = w.isSome := by
    rintro _ _ (_ | _) <;> rfl
  induction fs generalizing gs with
  | nil =>
    cases gs with
    | nil => rfl
    | cons q gs => simpa [Fields.get?] using hsome (h q.1)
  | cons p fs ih =>
    cases gs with
    | nil => simpa [Fields.get?] using hsome (h p.1)
    | cons q gs =>
      have hkey : p.1 = q.1 := hf.key_eq hg fun name => hsome (h name)
      obtain ⟨hpf, hsf⟩ := Fields.sorted_cons.mp hf
      obtain ⟨hqg, hsg⟩ := Fields.sorted_cons.mp hg
      have hpq : p.2.same q.2 = true := by
        have hp := h p.1
        rw [Fields.get?, Fields.get?, if_pos rfl, if_pos hkey.symm] at hp
        cases hp with
        | some hp => exact hp
      refine cons_sameFields_iff.mpr ⟨q.2, gs, by rw [hkey], hpq, ih hsf hsg fun name => ?_⟩
      by_cases hn : p.1 = name
      · rw [Fields.get?_eq_none_of_forall_lt (hn ▸ hpf), Fields.get?_eq_none_of_forall_lt (hn ▸ hkey ▸ hqg)]
        exact .none
      · have hrest := h name
        rwa [Fields.get?, Fields.get?, if_neg hn, if_neg (hkey ▸ hn)] at hrest

/-! ### What equal values share -/

theorem same_isObject (h : a.same b = true) : a.isObject = b.isObject := by
  cases a with
  | null => exact null_same_iff.mp h ▸ rfl
  | bool x => exact bool_same_iff.mp h ▸ rfl
  | int i => exact int_same_iff.mp h ▸ rfl
  | str s => exact str_same_iff.mp h ▸ rfl
  | decimal d =>
    obtain ⟨e, rfl, -⟩ := decimal_same_iff.mp h
    rfl
  | array as =>
    obtain ⟨bs, rfl, -⟩ := array_same_iff.mp h
    rfl
  | object fs =>
    obtain ⟨gs, rfl, -⟩ := object_same_iff.mp h
    rfl

theorem same_tag (h : a.same b = true) : a.tag = b.tag := by
  induction a using Value.induction generalizing b with
  | null => exact null_same_iff.mp h ▸ rfl
  | bool x => exact bool_same_iff.mp h ▸ rfl
  | int i => exact int_same_iff.mp h ▸ rfl
  | str s => exact str_same_iff.mp h ▸ rfl
  | decimal d =>
    obtain ⟨e, rfl, -⟩ := decimal_same_iff.mp h
    rfl
  | array as ih =>
    obtain ⟨bs, rfl, hbs⟩ := array_same_iff.mp h
    have htags : tags as = tags bs := by
      clear h
      induction as generalizing bs with
      | nil => exact nil_sameItems_iff.mp hbs ▸ rfl
      | cons x as ihs =>
        rw [List.forall_mem_cons] at ih
        obtain ⟨y, bs, rfl, hxy, hbs⟩ := cons_sameItems_iff.mp hbs
        rw [tags, tags, ih.1 hxy, ihs ih.2 bs hbs]
    rw [tag, tag, htags]
  | object fs =>
    obtain ⟨gs, rfl, -⟩ := object_same_iff.mp h
    rfl

end TreeQuery.Value
