/-! # Fields

The fields of an object are a list of names with values in strictly ascending order of the names, so that
two objects with the same fields are the same list. Names are ordered by code points, which is also the
order of their UTF-8 bytes. Insertion, removal and building from pairs keep that order, and each is
described by what a name looks up afterwards. -/

namespace TreeQuery

/-- Names with values. -/
abbrev Fields (α : Type) := List (String × α)

namespace Fields
variable {α : Type}

/-- The value of a name. -/
def get? (name : String) : Fields α → Option α
  | [] => none
  | (key, value) :: rest => if key = name then some value else get? name rest

/-- The fields with the value of a name set, whether the name is there or not. -/
def insert (name : String) (value : α) : Fields α → Fields α
  | [] => [(name, value)]
  | (key, old) :: rest =>
    if name < key then (name, value) :: (key, old) :: rest
    else if key = name then (name, value) :: rest
    else (key, old) :: insert name value rest

/-- The fields without a name. -/
def erase (name : String) : Fields α → Fields α
  | [] => []
  | (key, value) :: rest => if key = name then rest else (key, value) :: erase name rest

/-- The fields that a list of names with values gives; of a name that comes twice the last value counts. -/
def ofList (pairs : List (String × α)) : Fields α := pairs.foldl (fun fields p => fields.insert p.1 p.2) []

/-- Whether the names ascend strictly. -/
def Sorted (fields : Fields α) : Prop := fields.Pairwise fun a b => a.1 < b.1

theorem sorted_nil : Sorted ([] : Fields α) := List.Pairwise.nil

theorem sorted_cons {p : String × α} {fields : Fields α} :
    Sorted (p :: fields) ↔ (∀ q ∈ fields, p.1 < q.1) ∧ Sorted fields := List.pairwise_cons

/-! ### Look-up -/

theorem get?_eq_none_of_forall_lt {name : String} {fields : Fields α} (h : ∀ p ∈ fields, name < p.1) :
    get? name fields = none := by
  induction fields with
  | nil => rfl
  | cons p rest ih =>
    have hne : p.1 ≠ name := fun he => String.lt_irrefl name (by simpa [he] using h p (by simp))
    rw [get?, if_neg hne]
    exact ih fun q hq => h q (by simp [hq])

theorem get?_insert (name other : String) (value : α) (fields : Fields α) :
    get? other (fields.insert name value) = if name = other then some value else get? other fields := by
  induction fields with
  | nil => simp [insert, get?]
  | cons p rest ih =>
    obtain ⟨key, old⟩ := p
    unfold insert
    split
    · rfl
    · split
      · rename_i heq
        subst heq
        by_cases h : key = other <;> simp [get?, h]
      · rename_i hne
        by_cases h : key = other
        · subst h
          simp [get?, Ne.symm hne]
        · simp [get?, h, ih]

theorem get?_erase_of_ne {name other : String} (h : name ≠ other) (fields : Fields α) :
    get? other (fields.erase name) = get? other fields := by
  induction fields with
  | nil => rfl
  | cons p rest ih =>
    obtain ⟨key, value⟩ := p
    unfold erase
    split
    · rename_i heq
      subst heq
      simp [get?, h]
    · by_cases hk : key = other <;> simp [get?, hk, ih]

theorem get?_erase_self {name : String} {fields : Fields α} (h : fields.Sorted) :
    get? name (fields.erase name) = none := by
  induction fields with
  | nil => rfl
  | cons p rest ih =>
    obtain ⟨key, value⟩ := p
    obtain ⟨hlt, hs⟩ := sorted_cons.mp h
    unfold erase
    split
    · rename_i heq
      subst heq
      exact get?_eq_none_of_forall_lt hlt
    · rename_i hne
      simp [get?, hne, ih hs]

theorem mem_of_get? {name : String} {value : α} {fields : Fields α} (h : get? name fields = some value) :
    (name, value) ∈ fields := by
  induction fields with
  | nil => cases h
  | cons p rest ih =>
    obtain ⟨key, v⟩ := p
    by_cases hk : key = name
    · subst hk
      have hv : v = value := by simpa [get?] using h
      rw [hv]
      exact List.mem_cons_self
    · exact List.mem_cons_of_mem _ (ih (by simpa [get?, hk] using h))

theorem get?_of_mem {fields : Fields α} (h : fields.Sorted) {p : String × α} (hp : p ∈ fields) :
    get? p.1 fields = some p.2 := by
  induction fields with
  | nil => cases hp
  | cons q rest ih =>
    obtain ⟨hlt, hs⟩ := sorted_cons.mp h
    rcases List.mem_cons.mp hp with rfl | hp
    · simp [get?]
    · have hne : q.1 ≠ p.1 := fun he => String.lt_irrefl p.1 (by simpa [he] using hlt p hp)
      rw [get?, if_neg hne]
      exact ih hs hp

/-! ### Order -/

theorem mem_insert {name : String} {value : α} {fields : Fields α} {q : String × α}
    (h : q ∈ fields.insert name value) : q = (name, value) ∨ q ∈ fields := by
  induction fields with
  | nil => exact Or.inl (by simpa [insert] using h)
  | cons p rest ih =>
    obtain ⟨key, old⟩ := p
    unfold insert at h
    split at h
    · simpa using h
    · split at h
      · rcases List.mem_cons.mp h with hq | hq
        · exact Or.inl hq
        · exact Or.inr (by simp [hq])
      · rcases List.mem_cons.mp h with hq | hq
        · exact Or.inr (by simp [hq])
        · exact (ih hq).imp id fun hq => by simp [hq]

theorem Sorted.insert {fields : Fields α} (h : fields.Sorted) (name : String) (value : α) :
    (fields.insert name value).Sorted := by
  induction fields with
  | nil => simp [Fields.insert, Sorted]
  | cons p rest ih =>
    obtain ⟨key, old⟩ := p
    obtain ⟨hlt, hs⟩ := sorted_cons.mp h
    unfold Fields.insert
    split
    · rename_i hnk
      refine sorted_cons.mpr ⟨fun q hq => ?_, h⟩
      rcases List.mem_cons.mp hq with rfl | hq
      · exact hnk
      · exact String.lt_trans hnk (hlt q hq)
    · rename_i hnk
      split
      · rename_i heq
        subst heq
        exact sorted_cons.mpr ⟨hlt, hs⟩
      · rename_i hne
        refine sorted_cons.mpr ⟨fun q hq => ?_, ih hs⟩
        rcases mem_insert hq with rfl | hq
        · exact Decidable.byContradiction fun hkn =>
            hne (String.le_antisymm (String.not_lt.mp hnk) (String.not_lt.mp hkn))
        · exact hlt q hq

/-- An insertion adds one field at most to those that are counted. -/
theorem countP_insert_le (keep : String × α → Bool) (name : String) (value : α) (fields : Fields α) :
    (fields.insert name value).countP keep ≤ fields.countP keep + 1 := by
  induction fields with
  | nil =>
    rw [insert, List.countP_cons]
    split <;> simp
  | cons p rest ih =>
    obtain ⟨key, old⟩ := p
    unfold insert
    split
    · rw [List.countP_cons]
      split <;> omega
    · split
      · rw [List.countP_cons, List.countP_cons]
        split <;> omega
      · rw [List.countP_cons, List.countP_cons]
        omega

/-- A removal only drops fields. -/
theorem erase_sublist (name : String) (fields : Fields α) : (fields.erase name).Sublist fields := by
  induction fields with
  | nil => exact List.Sublist.refl _
  | cons p rest ih =>
    obtain ⟨key, value⟩ := p
    unfold erase
    split
    · exact List.sublist_cons_self _ _
    · exact ih.cons_cons _

theorem mem_erase {name : String} {fields : Fields α} {q : String × α} (h : q ∈ fields.erase name) :
    q ∈ fields := (erase_sublist name fields).subset h

theorem Sorted.erase {fields : Fields α} (h : fields.Sorted) (name : String) : (fields.erase name).Sorted :=
  List.Pairwise.sublist (erase_sublist name fields) h

theorem Sorted.filter {fields : Fields α} (h : fields.Sorted) (keep : α → Bool) :
    Sorted (fields.filter fun p => keep p.2) := List.Pairwise.filter _ h

/-- Among the fields that are kept a name has its value, if that is kept. -/
theorem get?_filter {fields : Fields α} (h : fields.Sorted) (keep : α → Bool) (name : String) :
    get? name (fields.filter fun p => keep p.2) = (get? name fields).filter keep := by
  induction fields with
  | nil => rfl
  | cons p rest ih =>
    obtain ⟨key, value⟩ := p
    obtain ⟨hlt, hs⟩ := sorted_cons.mp h
    by_cases hk : key = name
    · subst hk
      have hrest : get? key rest = none := get?_eq_none_of_forall_lt hlt
      rw [get?, if_pos rfl, List.filter_cons, Option.filter_some]
      split
      · rw [get?, if_pos rfl]
      · rw [ih hs, hrest, Option.filter_none]
    · rw [get?, if_neg hk, ← ih hs, List.filter_cons]
      split
      · rw [get?, if_neg hk]
      · rfl

theorem sorted_ofList (pairs : List (String × α)) : (ofList pairs).Sorted := by
  suffices h : ∀ fields : Fields α, fields.Sorted →
      (pairs.foldl (fun fields p => fields.insert p.1 p.2) fields).Sorted from h [] sorted_nil
  induction pairs with
  | nil => exact fun _ h => h
  | cons p rest ih => exact fun fields h => ih _ (h.insert p.1 p.2)

theorem mem_ofList {pairs : List (String × α)} {q : String × α} (h : q ∈ ofList pairs) : q ∈ pairs := by
  suffices hfold : ∀ fields : Fields α, q ∈ pairs.foldl (fun fields p => fields.insert p.1 p.2) fields →
      q ∈ fields ∨ q ∈ pairs from (hfold [] h).resolve_left List.not_mem_nil
  clear h
  induction pairs with
  | nil => exact fun _ h => Or.inl h
  | cons p rest ih =>
    intro fields h
    rcases ih _ h with h | h
    · rcases mem_insert h with rfl | h
      · exact Or.inr List.mem_cons_self
      · exact Or.inl h
    · exact Or.inr (List.mem_cons_of_mem _ h)

theorem sorted_iff {fields : Fields α} : fields.Sorted ↔ (fields.map Prod.fst).Pairwise (· < ·) :=
  List.pairwise_map.symm

/-- Sorted fields with the same names have the same name first. -/
theorem Sorted.key_eq {p q : String × α} {as bs : Fields α} (ha : Sorted (p :: as)) (hb : Sorted (q :: bs))
    (h : ∀ name, (get? name (p :: as)).isSome = (get? name (q :: bs)).isSome) : p.1 = q.1 := by
  -- The smaller one of two different first names would be missing on the other side.
  have hle : ∀ {p q : String × α} {as bs : Fields α}, Sorted (q :: bs) →
      (∀ name, (get? name (p :: as)).isSome = (get? name (q :: bs)).isSome) → ¬p.1 < q.1 := by
    intro p q as bs hb h hlt
    have hnone : get? p.1 (q :: bs) = none := get?_eq_none_of_forall_lt fun r hr => by
      rcases List.mem_cons.mp hr with rfl | hr
      · exact hlt
      · exact String.lt_trans hlt ((sorted_cons.mp hb).1 r hr)
    have hp := h p.1
    rw [hnone] at hp
    simp [get?] at hp
  exact String.le_antisymm (String.not_lt.mp (hle ha fun name => (h name).symm)) (String.not_lt.mp (hle hb h))

/-- Sorted fields in which every name looks up the same are the same. -/
theorem Sorted.ext {a b : Fields α} (ha : a.Sorted) (hb : b.Sorted) (h : ∀ name, get? name a = get? name b) :
    a = b := by
  induction a generalizing b with
  | nil =>
    cases b with
    | nil => rfl
    | cons q rest => simpa [get?] using h q.1
  | cons p as ih =>
    cases b with
    | nil => simpa [get?] using h p.1
    | cons q bs =>
      obtain ⟨hpa, hsa⟩ := sorted_cons.mp ha
      obtain ⟨hqb, hsb⟩ := sorted_cons.mp hb
      have hkey : p.1 = q.1 := ha.key_eq hb fun name => by rw [h name]
      obtain ⟨key, v⟩ := p
      obtain ⟨key', w⟩ := q
      dsimp only at hkey
      subst hkey
      have hv : v = w := by simpa [get?] using h key
      subst hv
      congr 1
      refine ih hsa hsb fun name => ?_
      by_cases hn : key = name
      · subst hn
        rw [get?_eq_none_of_forall_lt hpa, get?_eq_none_of_forall_lt hqb]
      · simpa [get?, hn] using h name

/-- Setting a name to the value that it has changes nothing. -/
theorem Sorted.insert_of_get? {fields : Fields α} (h : fields.Sorted) {name : String} {value : α}
    (hv : get? name fields = some value) : fields.insert name value = fields := by
  refine (h.insert name value).ext h fun other => ?_
  rw [get?_insert]
  split
  · rename_i heq
    rw [← heq, hv]
  · rfl

/-- A name that was not there is gone again when it is erased. -/
theorem Sorted.erase_insert {fields : Fields α} (h : fields.Sorted) {name : String} (hfree : get? name fields = none)
    (value : α) : (fields.insert name value).erase name = fields := by
  refine ((h.insert name value).erase name).ext h fun other => ?_
  by_cases hname : name = other
  · subst hname
    rw [get?_erase_self (h.insert name value), hfree]
  · rw [get?_erase_of_ne hname, get?_insert, if_neg hname]

/-- Of two values set for one name the last one counts. -/
theorem insert_insert (name : String) (v w : α) (fields : Fields α) :
    (fields.insert name v).insert name w = fields.insert name w := by
  induction fields with
  | nil => simp [insert]
  | cons p rest ih =>
    obtain ⟨key, old⟩ := p
    by_cases hlt : name < key
    · simp [insert, hlt]
    · by_cases heq : key = name
      · simp [insert, heq]
      · simp [insert, hlt, heq, ih]

/-- Two names can be set in any order. -/
theorem insert_comm {name other : String} (h : name ≠ other) (v w : α) (fields : Fields α) :
    (fields.insert name v).insert other w = (fields.insert other w).insert name v := by
  induction fields with
  | nil => grind [insert, String.lt_trans, String.lt_irrefl, String.not_lt, String.le_antisymm]
  | cons p rest ih => grind [insert, String.lt_trans, String.lt_irrefl, String.not_lt, String.le_antisymm]

/-! ### Fields in order -/

theorem get?_eq_none_iff {name : String} {fields : Fields α} : get? name fields = none ↔ ∀ p ∈ fields, p.1 ≠ name := by
  induction fields with
  | nil => exact iff_of_true rfl nofun
  | cons p rest ih =>
    rw [get?, List.forall_mem_cons, ← ih]
    split
    · rename_i heq
      exact iff_of_false nofun fun h => h.1 heq
    · rename_i hne
      exact (and_iff_right hne).symm

/-- A name behind all others is added at the end. -/
theorem insert_of_forall_lt {name : String} {fields : Fields α} (h : ∀ p ∈ fields, p.1 < name) (value : α) :
    fields.insert name value = fields ++ [(name, value)] := by
  induction fields with
  | nil => rfl
  | cons p rest ih =>
    obtain ⟨key, old⟩ := p
    rw [List.forall_mem_cons] at h
    obtain ⟨hlt, h⟩ := h
    have hne : key ≠ name := fun heq => String.lt_irrefl name (heq ▸ hlt)
    rw [insert, if_neg fun hgt => String.lt_irrefl key (String.lt_trans hlt hgt), if_neg hne, ih h, List.cons_append]

/-- Sorted fields are what is built from them. -/
theorem ofList_of_sorted {fields : Fields α} (h : fields.Sorted) : ofList fields = fields := by
  suffices hfold : ∀ before : Fields α, Sorted (before ++ fields) →
      fields.foldl (fun fields p => fields.insert p.1 p.2) before = before ++ fields from hfold [] h
  clear h
  induction fields with
  | nil => exact fun before _ => (List.append_nil before).symm
  | cons p rest ih =>
    intro before h
    have hlt : ∀ q ∈ before, q.1 < p.1 := fun q hq => (List.pairwise_append.mp h).2.2 q hq p List.mem_cons_self
    have happend : before ++ p :: rest = before ++ [p] ++ rest := List.append_cons before p rest
    rw [List.foldl_cons, insert_of_forall_lt hlt, ih _ (happend ▸ h), happend]

end Fields

end TreeQuery
