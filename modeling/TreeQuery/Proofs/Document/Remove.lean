import TreeQuery.Proofs.Document.Overwrite

/-! # Taking away

A removal walks a path twice, first to find out whether there is a value and then to take it away. Both walks read the
keys on the document as it was, so the second one goes where the first one went and cannot fail
(`remove_of_walk`, `delete_ok`). It changes the value that holds what is taken away and no other one
(`delete_takenOut`). -/

namespace TreeQuery

variable {σ : Type} {key : Body σ → Except ReadError Key} {p : Path σ} {v w c d : Value} {k : Key} {ks ks' : List Key}
  {q : Query} {spec : String}

namespace Value

/-! ### Replacing a part further down -/

/-- A value with the part that keys lead to replaced by `new`, if they lead to one. -/
def withPart : List Key → Value → Value → Value
  | [], new, _ => new
  | k :: ks, new, v =>
    match v.child? k with
    | some c => v.withChild k (withPart ks new c)
    | none => v

theorem withPart_cons (h : v.child? k = some c) (new : Value) :
    withPart (k :: ks) new v = v.withChild k (withPart ks new c) := by
  rw [withPart, h]

theorem lookup_withPart (h : v.lookup ks = some c) (new : Value) : (withPart ks new v).lookup ks = some new := by
  induction ks generalizing v with
  | nil => rfl
  | cons k ks ih =>
    obtain ⟨child, hchild, hrest⟩ := Option.bind_eq_some_iff.mp h
    rw [withPart_cons hchild, lookup_cons, (replaces_withChild hchild _).part]
    exact ih hrest

theorem lookup_withPart_of_diverges (h : v.lookup ks = some c) (hd : Diverges ks' ks) (new : Value) :
    (withPart ks new v).lookup ks' = v.lookup ks' := by
  induction ks generalizing v ks' with
  | nil => exact (not_diverges_nil_right hd).elim
  | cons k ks ih =>
    obtain ⟨child, hchild, hrest⟩ := Option.bind_eq_some_iff.mp h
    cases ks' with
    | nil => exact (not_diverges_nil_left hd).elim
    | cons x ks' =>
      have hreplaces := replaces_withChild hchild (withPart ks new child)
      rw [withPart_cons hchild, lookup_cons, lookup_cons]
      rcases diverges_cons.mp hd with hne | ⟨rfl, hrestd⟩
      · rw [hreplaces.others x hne]
      · rw [hreplaces.part, hchild]
        exact ih hrest hrestd

/-- A part replaced by itself changes nothing. -/
theorem withPart_self (hv : v.Ordered) (h : v.lookup ks = some c) : withPart ks c v = v := by
  induction ks generalizing v with
  | nil => exact (Option.some.inj h).symm
  | cons k ks ih =>
    obtain ⟨child, hchild, hrest⟩ := Option.bind_eq_some_iff.mp h
    rw [withPart_cons hchild, ih (hv.child? hchild) hrest, withChild_self hv hchild]

theorem withPart_withPart (h : v.lookup ks = some c) (new new' : Value) :
    withPart ks new' (withPart ks new v) = withPart ks new' v := by
  induction ks generalizing v with
  | nil => rfl
  | cons k ks ih =>
    obtain ⟨child, hchild, hrest⟩ := Option.bind_eq_some_iff.mp h
    rw [withPart_cons hchild, withPart_cons hchild, withPart_cons (child?_withChild hchild _), ih hrest,
      withChild_withChild]

theorem Ordered.lookup (hv : v.Ordered) (h : v.lookup ks = some w) : w.Ordered := by
  induction ks generalizing v with
  | nil => exact Option.some.inj h ▸ hv
  | cons k ks ih =>
    obtain ⟨child, hchild, hrest⟩ := Option.bind_eq_some_iff.mp h
    exact ih (hv.child? hchild) hrest

/-! ### One part taken out -/

/-- `v'` is `v` without the part at a key: null for the value itself, an object without one name, an array without
    one element and with those behind it one place further on. -/
inductive TakenOut : Key → Value → Value → Prop
  | current (v : Value) : TakenOut .current v null
  | name {name : String} {fields fields' : Fields Value} (hname : (Fields.get? name fields).isSome)
    (hsorted : fields'.Sorted)
    (hget : ∀ other, Fields.get? other fields' = if other = name then none else Fields.get? other fields) :
    TakenOut (.name name) (object fields) (object fields')
  | index {items : List Value} {i : Nat} (hi : i < items.length) :
    TakenOut (.index i) (array items) (array (items.take i ++ items.drop (i + 1)))

theorem takenOut_removeAt (hv : v.Ordered) (h : k = .current ∧ w = v ∨ v.child? k = some w) :
    TakenOut k v (v.removeAt k) := by
  rcases h with ⟨rfl, -⟩ | h
  · exact .current v
  cases k with
  | current | append => cases h
  | name name =>
    cases v with
    | object fields =>
      rw [child?_object] at h
      refine .name (Option.isSome_of_eq_some h) (hv.sorted.erase name) fun other => ?_
      split
      · rename_i heq
        rw [heq]
        exact Fields.get?_erase_self hv.sorted
      · rename_i hne
        exact Fields.get?_erase_of_ne (Ne.symm hne) fields
    | null | bool | int | decimal | str | array => cases h
  | index i =>
    cases v with
    | array items =>
      obtain ⟨hlt, -⟩ := List.getElem?_eq_some_iff.mp h
      rw [removeAt, List.eraseIdx_eq_take_drop_succ]
      exact .index hlt
    | null | bool | int | decimal | str | object => cases h

end Value

/-! ### A path of segments -/

/-- What a path finds is taken out of the value that the segments before the last one lead to. -/
theorem remove_of_walk (hp : p ≠ []) (h : walk spec key p v = .ok (some w)) :
    ∃ front leaf k part, p = front ++ [leaf] ∧ key leaf.body = .ok k ∧
      v.lookup (Path.keys key front) = some part ∧ (k = .current ∧ w = part ∨ part.child? k = some w) ∧
      remove key p v = .ok (Value.withPart (Path.keys key front) (part.removeAt k) v) := by
  induction p generalizing v with
  | nil => exact absurd rfl hp
  | cons s p ih =>
    obtain ⟨k, hk, c, hchild, hrest⟩ := walk_cons_some h
    cases p with
    | nil =>
      cases hrest
      exact ⟨[], s, k, v, rfl, hk, rfl, hchild, remove_single hk⟩
    | cons next rest =>
      obtain ⟨front, leaf, k', part, hsplit, hk', hlookup, hpart, hremove⟩ := ih (by simp) hrest
      refine ⟨s :: front, leaf, k', part, by rw [hsplit, List.cons_append], hk', ?_⟩
      rw [remove_cons_cons hk]
      rcases hchild with ⟨rfl, rfl⟩ | hchild
      · rw [Path.keys_cons_current hk]
        exact ⟨hlookup, hpart, hremove⟩
      · have hc : k ≠ .current := by
          rintro rfl
          cases hchild
        rw [Path.keys_cons hk hc, Value.lookup_cons, hchild, Value.modifyAt_of_child? hchild, hremove,
          Value.withPart_cons hchild]
        exact ⟨hlookup, hpart, rfl⟩

/-! ### Queries -/

theorem Query.remaining_ne_nil (q : Query) : q.remaining ≠ [] := by
  have hlt := q.seq_lt
  exact fun h => absurd (List.drop_eq_nil_iff.mp h) (by omega)

namespace Value

theorem delete_of_walk (hm : Path.moves q.path = false) (h : walk q.spec (keyIn d) q.remaining d = .ok (some w)) :
    d.delete q = (remove (keyIn d) q.remaining d).mapError .read := by
  rw [delete, hm, h]
  rfl

/-- Where nothing is found, nothing is taken away. -/
theorem delete_of_not_walk (hm : Path.moves q.path = false)
    (h : ∀ w, walk q.spec (keyIn d) q.remaining d ≠ .ok (some w)) : d.delete q = .ok d := by
  rw [delete, hm, if_neg (by simp)]
  split
  · exact absurd (by assumption) (h _)
  · rfl
  · rfl

theorem delete_ok (root : Value) (hm : Path.moves q.path = false) : ∃ d, root.delete q = .ok d := by
  by_cases h : ∃ w, walk q.spec (keyIn root) q.remaining root = .ok (some w)
  · obtain ⟨w, hwalk⟩ := h
    obtain ⟨front, leaf, k, part, -, -, -, -, hremove⟩ := remove_of_walk q.remaining_ne_nil hwalk
    rw [delete_of_walk hm hwalk, hremove]
    exact ⟨_, rfl⟩
  · exact ⟨root, delete_of_not_walk hm fun w hwalk => h ⟨w, hwalk⟩⟩

end Value

/-- A removal never fails. It leaves the document as it is unless the keys of the query can be read and lead to a
    value. Then the last key is taken out of the value that the keys before it lead to, and what other keys lead to
    is as it was. -/
theorem delete_takenOut (hd : d.Ordered) (hm : Path.moves q.path = false) :
    ∃ d', d.delete q = .ok d' ∧
      (∀ w, walk q.spec (keyIn d) q.remaining d = .ok (some w) ↔
        Readable (keyIn d) q.remaining ∧ d.lookup (q.keys d) = some w) ∧
      ((∀ w, walk q.spec (keyIn d) q.remaining d ≠ .ok (some w)) → d' = d) ∧
      ∀ w, walk q.spec (keyIn d) q.remaining d = .ok (some w) →
        ∃ front leaf k part part', q.remaining = front ++ [leaf] ∧ keyIn d leaf.body = .ok k ∧
          d.lookup (Path.keys (keyIn d) front) = some part ∧ Value.TakenOut k part part' ∧
          d' = Value.withPart (Path.keys (keyIn d) front) part' d ∧
          d'.lookup (Path.keys (keyIn d) front) = some part' ∧
          ∀ ks, Diverges ks (Path.keys (keyIn d) front) → d'.lookup ks = d.lookup ks := by
  obtain ⟨d', hdelete⟩ := Value.delete_ok d hm
  refine ⟨d', hdelete, fun w => walk_ok_some_iff, fun hnone => ?_, fun w hwalk => ?_⟩
  · rw [Value.delete_of_not_walk hm hnone] at hdelete
    exact (Except.ok.inj hdelete).symm
  · obtain ⟨front, leaf, k, part, hsplit, hk, hlookup, hpart, hremove⟩ := remove_of_walk q.remaining_ne_nil hwalk
    rw [Value.delete_of_walk hm hwalk, hremove] at hdelete
    obtain rfl := Except.ok.inj hdelete
    exact ⟨front, leaf, k, part, part.removeAt k, hsplit, hk, hlookup,
      Value.takenOut_removeAt (hd.lookup hlookup) hpart, rfl, Value.lookup_withPart hlookup _,
      fun ks hdiv => Value.lookup_withPart_of_diverges hlookup hdiv _⟩

/-- Of the elements at `a`, `a.0` takes away the first one. -/
theorem delete_takenOut_element :
    ∃ d', (Value.object [("a", .array [.int 1, .int 2])]).delete
        ⟨[⟨{}, .field "a", false⟩, ⟨{}, .index ['0'], false⟩], 0, by decide⟩ = .ok d' ∧
      d'.lookup [.name "a"] = some (.array [.int 2]) := by
  have hordered : (Value.object [("a", .array [.int 1, .int 2])]).Ordered :=
    Value.ordered_empty.insert (v := .array [.int 1, .int 2]) ⟨trivial, trivial, trivial⟩ "a"
  obtain ⟨d', hdelete, -, -, htaken⟩ := delete_takenOut
    (q := ⟨[⟨{}, .field "a", false⟩, ⟨{}, .index ['0'], false⟩], 0, by decide⟩) hordered rfl
  obtain ⟨front, leaf, k, part, part', hsplit, hk, hlookup, hpart, -, hafter, -⟩ := htaken (.int 1) rfl
  have hsplit : [⟨{}, .field "a", false⟩] ++ [⟨{}, .index ['0'], false⟩] = front ++ [leaf] := hsplit
  obtain ⟨rfl, ⟨⟩⟩ := List.append_inj' hsplit rfl
  cases hk
  cases hlookup
  cases hpart
  exact ⟨d', hdelete, hafter⟩

end TreeQuery
