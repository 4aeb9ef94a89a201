import TreeQuery.Document.Leaves
import TreeQuery.Proofs.Document.Merge
import TreeQuery.Proofs.Document.Overwrite
import TreeQuery.Proofs.Value.Reading

/-! # Documents as they are built

A document is read from text or built from numbers, elements or fields, and any number of operations makes
others of it (`Value.Built`). Every operation keeps the order of fields that the laws of writing and merging ask
for, so all these documents have it (`Value.Built.ordered`). -/

namespace TreeQuery

variable {σ : Type} {key : Body σ → Except ReadError Key} {p : Path σ} {v v' w new : Value} {k : Key}
  {make overwrite : Bool} {place : String} {q : Query} {spec : String}

namespace Value

/-! ### One segment -/

theorem writableFields_ordered {fields : Fields Value} (h : writableFields make v = .ok fields) (hv : v.Ordered) :
    (object fields).Ordered := by
  rcases writableFields_cases h with rfl | ⟨-, rfl⟩
  · exact hv
  · exact ordered_empty

theorem writableItems_ordered {items : List Value} (h : writableItems make v = .ok items) (hv : v.Ordered) :
    (array items).Ordered := by
  rcases writableItems_cases h with rfl | ⟨-, rfl⟩
  · exact hv
  · trivial

theorem Slot.ordered {f : Value → Value} (h : Slot make v k f) (hv : v.Ordered) (hw : w.Ordered) :
    (f w).Ordered := by
  cases h with
  | name h name => exact (writableFields_ordered h hv).insert hw name
  | first => exact ordered_singleton hw
  | index h => exact (writableItems_ordered h hv).set hw _
  | append h => exact (writableItems_ordered h hv).concat hw

theorem blankFor_ordered (k : Key) : (blankFor k).Ordered := by
  cases k with
  | current | index | append => trivial
  | name => exact ordered_empty

theorem Entered.ordered (h : Entered (v.child? k) w) (hv : v.Ordered) : w.Ordered := by
  rcases h with hchild | ⟨-, k', rfl⟩
  · exact hv.child? hchild
  · exact blankFor_ordered k'

theorem removeAt_ordered (hv : v.Ordered) (k : Key) : (v.removeAt k).Ordered := by
  cases k with
  | current => trivial
  | append => exact hv
  | name name =>
    cases v with
    | object fields => exact hv.erase name
    | null | bool | int | decimal | str | array => exact hv
  | index i =>
    cases v with
    | array items =>
      exact ordered_array_iff.mpr fun c hc => ordered_array_iff.mp hv c (List.mem_of_mem_eraseIdx hc)
    | null | bool | int | decimal | str | object => exact hv

theorem withChild_ordered (hv : v.Ordered) (hw : w.Ordered) (k : Key) : (v.withChild k w).Ordered := by
  cases k with
  | current | append => exact hv
  | name name =>
    cases v with
    | object fields => exact hv.insert hw name
    | null | bool | int | decimal | str | array => exact hv
  | index i =>
    cases v with
    | array items => exact hv.set hw i
    | null | bool | int | decimal | str | object => exact hv

theorem select_ordered {maybe : Bool} (h : v.select spec maybe k = .ok (some w)) (hv : v.Ordered) : w.Ordered := by
  rcases eq_or_child?_of_select h with ⟨-, rfl⟩ | hchild
  · exact hv
  · exact hv.child? hchild

end Value

/-! ### A path of segments -/

theorem assign_ordered (h : assign key overwrite place new make p v = .ok v') (hv : v.Ordered)
    (hnew : new.Ordered) : v'.Ordered := by
  induction p generalizing make v v' with
  | nil => exact Except.ok.inj h ▸ hnew
  | cons s p ih =>
    obtain ⟨k, -, ⟨-, hrest⟩ | ⟨-, f, part, c, hslot, hpart, hrest, rfl, -⟩⟩ := assign_cons h
    · exact ih hrest hv
    · exact hslot.ordered hv (ih hrest (hpart.ordered hv))

theorem remove_ordered (h : remove key p v = .ok v') (hv : v.Ordered) : v'.Ordered := by
  induction p generalizing v v' with
  | nil => exact Except.ok.inj h ▸ hv
  | cons s p ih =>
    cases p with
    | nil =>
      obtain ⟨k, -, h⟩ := Outcome.bind_ok_iff.mp h
      exact Except.ok.inj h ▸ Value.removeAt_ordered hv k
    | cons next rest =>
      obtain ⟨k, -, h⟩ := Outcome.bind_ok_iff.mp h
      by_cases hc : k = .current
      · subst hc
        exact ih h hv
      cases hchild : v.child? k with
      | some child =>
        rw [Value.modifyAt_of_child? hchild] at h
        obtain ⟨child', hremove, rfl⟩ := Outcome.map_ok_iff.mp h
        exact Value.withChild_ordered hv (ih hremove (hv.child? hchild)) k
      | none =>
        rw [Value.modifyAt_of_child?_eq_none hc hchild] at h
        exact Except.ok.inj h ▸ hv

theorem walk_ordered (h : walk spec key p v = .ok (some w)) (hv : v.Ordered) : w.Ordered := by
  induction p generalizing v with
  | nil =>
    cases h
    exact hv
  | cons s p ih =>
    obtain ⟨k, -, h⟩ := Outcome.bind_ok_iff.mp h
    obtain ⟨found, hfound, h⟩ := Outcome.bind_ok_iff.mp h
    cases found with
    | some child => exact ih h (Value.select_ordered hfound hv)
    | none => cases h

/-! ### Operations -/

namespace Value

theorem get_ordered (h : v.get q = .ok w) (hv : v.Ordered) : w.Ordered := by
  obtain ⟨-, found, hfound, rfl⟩ := get_ok_iff.mp h
  cases found with
  | some w => exact walk_ordered hfound hv
  | none => trivial

theorem set_ordered (h : v.set q new = .ok w) (hv : v.Ordered) (hnew : new.Ordered) : w.Ordered := by
  obtain ⟨-, -, overwrite, place, make, h⟩ := set_ok h
  exact assign_ordered h hv hnew

theorem delete_ordered (h : v.delete q = .ok w) (hv : v.Ordered) : w.Ordered := by
  unfold delete at h
  split at h
  · cases h
  split at h
  · exact remove_ordered (Outcome.mapError_ok_iff.mp h) hv
  · exact Except.ok.inj h ▸ hv
  · exact Except.ok.inj h ▸ hv

theorem move_ordered (h : v.move q = .ok w) (hv : v.Ordered) : w.Ordered := by
  unfold move at h
  split at h
  · cases h
  obtain ⟨⟨source, destination⟩, -, h⟩ := Outcome.bind_ok_iff.mp h
  obtain ⟨moved, hmoved, h⟩ := Outcome.bind_ok_iff.mp h
  obtain ⟨without, hwithout, h⟩ := Outcome.bind_ok_iff.mp h
  exact set_ordered h (delete_ordered hwithout hv) (get_ordered (Outcome.mapError_ok_iff.mp hmoved) hv)

theorem build_ordered {seen : List String} {pairs : List (Query × Value)} (h : build seen v pairs = .ok w)
    (hv : v.Ordered) (hpairs : ∀ p ∈ pairs, p.2.Ordered) : w.Ordered := by
  induction pairs generalizing seen v with
  | nil =>
    cases h
    exact hv
  | cons p pairs ih =>
    rw [List.forall_mem_cons] at hpairs
    unfold build at h
    split at h
    · cases h
    split at h
    · cases h
    obtain ⟨next, hnext, h⟩ := Outcome.bind_ok_iff.mp h
    exact ih h (set_ordered hnext hv hpairs.1) hpairs.2

theorem ofPairs_ordered {pairs : List (Query × Value)} (h : ofPairs pairs = .ok w)
    (hpairs : ∀ p ∈ pairs, p.2.Ordered) : w.Ordered := by
  obtain ⟨root, hroot, h⟩ := Outcome.bind_ok_iff.mp h
  obtain rfl := Outcome.pure_ok_iff.mp h
  split
  · exact ordered_empty
  · exact build_ordered hroot trivial hpairs

/-- What a document comes from: a text, numbers, a type, elements, fields, pairs of queries and values, or an
    operation on documents built before. -/
inductive Built : Value → Prop
  | ofText {text : String} {v : Value} (h : ofText text = .ok v) : Built v
  | ofFloat {x : Option Binary64} {v : Value} (h : ofFloat? x = .ok v) : Built v
  | ofFloats {xs : List (Option Binary64)} {v : Value} (h : ofFloats xs = .ok v) : Built v
  | ofFloatFields {pairs : List (String × List (Option Binary64))} {v : Value} (h : ofFloatFields pairs = .ok v) :
    Built v
  | ofTag {t : Tag} {v : Value} (h : ofTag t = .ok v) : Built v
  | ofItems {items : List Value} (h : ∀ v ∈ items, Built v) : Built (array items)
  | ofFields {pairs : List (String × Value)} (h : ∀ p ∈ pairs, Built p.2) : Built (object (Fields.ofList pairs))
  | ofPairs {pairs : List (Query × Value)} {v : Value} (hpairs : ∀ p ∈ pairs, Built p.2) (h : ofPairs pairs = .ok v) :
    Built v
  | get {q : Query} {v w : Value} (hv : Built v) (h : v.get q = .ok w) : Built w
  | set {q : Query} {v new w : Value} (hv : Built v) (hnew : Built new) (h : v.set q new = .ok w) : Built w
  | delete {q : Query} {v w : Value} (hv : Built v) (h : v.delete q = .ok w) : Built w
  | move {q : Query} {v w : Value} (hv : Built v) (h : v.move q = .ok w) : Built w
  | merge {a b m : Value} (ha : Built a) (hb : Built b) (h : merge a b = .ok m) : Built m

/-- The fields of every object in a document ascend strictly by name. -/
theorem Built.ordered (h : v.Built) : v.Ordered := by
  induction h with
  | ofText h => exact ofText_ordered h
  | ofFloat h => exact ofFloat?_ordered h
  | ofFloats h => exact ofFloats_ordered h
  | ofFloatFields h => exact ofFloatFields_ordered h
  | ofTag h => exact ofTag_ordered h
  | ofItems _ ih => exact ordered_array_iff.mpr ih
  | ofFields _ ih => exact ordered_object_iff.mpr ⟨Fields.sorted_ofList _, fun p hp => ih p (Fields.mem_ofList hp)⟩
  | ofPairs _ h ih => exact ofPairs_ordered h ih
  | get _ h ih => exact get_ordered h ih
  | set _ _ h ih ihnew => exact set_ordered h ih ihnew
  | delete _ h ih => exact delete_ordered h ih
  | move _ h ih => exact move_ordered h ih
  | merge _ _ h iha ihb => exact mergeAt_ordered h iha ihb

end Value

end TreeQuery
