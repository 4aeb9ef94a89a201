import TreeQuery.Proofs.Document.Overwrite

/-! # Grafting

A write without `=` and `$` puts a value into a field that is not there yet, and goes through parts that are there
(`Grafted`). Removing the field undoes the write (`Grafted.remove`), and writing its value undoes a removal
(`Path.ToField.grafted_of_walk`), through whatever objects and arrays the path goes. -/

namespace TreeQuery

variable {σ : Type} {key key' : Body σ → Except ReadError Key} {p : Path σ} {s : Segment σ} {v v' w new : Value}
  {k : Key} {name : String} {spec : String}

/-! ### One segment without `$` -/

namespace Value

/-- Without `$` only a part that is there can be entered. -/
theorem child?_of_enter {blank : Except Error Value} {edit : Value → Except Error Value}
    (h : v.enter false blank edit k = .ok v') (hc : k ≠ .current) (ha : k ≠ .append) : ∃ c, v.child? k = some c := by
  cases hchild : v.child? k with
  | some c => exact ⟨c, rfl⟩
  | none =>
    obtain ⟨e, he, -⟩ := enter_of_missing blank edit hc ha hchild
    rw [he] at h
    cases h

/-- Without `=` and `$` a name is written where an object does not have it. -/
theorem put_name_ok_iff : v.put false false place new (.name name) = .ok v' ↔
    ∃ fields, v = object fields ∧ Fields.get? name fields = none ∧ v' = object (Fields.insert name new fields) := by
  cases v with
  | object fields =>
    cases hget : Fields.get? name fields with
    | none => simp [put, writableFields, hget, bind, Except.bind, pure, Except.pure, eq_comm]
    | some found => simp [put, writableFields, hget, bind, Except.bind]
  | null | bool | int | decimal | str | array => simp [put, writableFields, bind, Except.bind]

end Value

/-! ### Grafting -/

/-- `v'` is `v` with `w` in a field at the end of the path, where `v` has no field. -/
inductive Grafted (key : Body σ → Except ReadError Key) (w : Value) : Path σ → Value → Value → Prop where
  | field {s : Segment σ} {name : String} {fields : Fields Value} (hk : key s.body = .ok (.name name))
    (hfree : Fields.get? name fields = none) :
    Grafted key w [s] (.object fields) (.object (Fields.insert name w fields))
  | stay {s : Segment σ} {p : Path σ} {v v' : Value} (hk : key s.body = .ok .current) (h : Grafted key w p v v') :
    Grafted key w (s :: p) v v'
  | into {s : Segment σ} {k : Key} {p : Path σ} {v c c' : Value} (hk : key s.body = .ok k) (hc : v.child? k = some c)
    (h : Grafted key w p c c') : Grafted key w (s :: p) v (v.withChild k c')

namespace Grafted

theorem ne_nil (h : Grafted key w p v v') : p ≠ [] := by
  cases h <;> simp

theorem congr (h : Grafted key w p v v') (hkey : ∀ s ∈ p, key s.body = key' s.body) : Grafted key' w p v v' := by
  induction h with
  | field hk hfree => exact .field ((hkey _ List.mem_cons_self).symm.trans hk) hfree
  | stay hk _ ih =>
    obtain ⟨hs, hp⟩ := List.forall_mem_cons.mp hkey
    exact .stay (hs.symm.trans hk) (ih hp)
  | into hk hc _ ih =>
    obtain ⟨hs, hp⟩ := List.forall_mem_cons.mp hkey
    exact .into (hs.symm.trans hk) hc (ih hp)

/-- A write without commands gives what is grafted. -/
theorem assign (h : Grafted key w p v v') (hp : ∀ s ∈ p, s.commands = {}) (place : String) :
    assign key false place w false p v = .ok v' := by
  induction h with
  | @field s name fields hk hfree =>
    rw [assign_single hk, hp s List.mem_cons_self]
    exact Outcome.mapError_ok_iff.mpr (Value.put_name_ok_iff.mpr ⟨fields, rfl, hfree, rfl⟩)
  | @stay s p v v' hk hrest ih =>
    obtain ⟨hs, hp⟩ := List.forall_mem_cons.mp hp
    obtain ⟨t, p, rfl⟩ := List.exists_cons_of_ne_nil hrest.ne_nil
    rw [assign_cons_cons hk, hs]
    exact ih hp
  | @into s k p v c c' hk hc hrest ih =>
    obtain ⟨hs, hp⟩ := List.forall_mem_cons.mp hp
    obtain ⟨t, p, rfl⟩ := List.exists_cons_of_ne_nil hrest.ne_nil
    rw [assign_cons_cons hk, Value.enter_of_child? hc, hs]
    exact congrArg (·.map (v.withChild k)) (ih hp)

theorem walk (h : Grafted key w p v v') : walk spec key p v' = .ok (some w) := by
  induction h with
  | @field s name fields hk hfree =>
    have hget : (Value.object (Fields.insert name w fields)).child? (.name name) = some w := by
      rw [Value.child?_object, Fields.get?_insert, if_pos rfl]
    rw [walk_cons hk, Value.select_of_child? hget]
    rfl
  | stay hk _ ih =>
    rw [walk_cons hk]
    exact ih
  | into hk hc _ ih =>
    rw [walk_cons hk, Value.select_of_child? (Value.child?_withChild hc _)]
    exact ih

/-- What is grafted can be taken away again. -/
theorem remove (h : Grafted key w p v v') (hv : v.Ordered) : remove key p v' = .ok v := by
  induction h with
  | @field s name fields hk hfree =>
    rw [remove_single hk, Value.removeAt, hv.sorted.erase_insert hfree]
  | @stay s p v v' hk hrest ih =>
    obtain ⟨t, p, rfl⟩ := List.exists_cons_of_ne_nil hrest.ne_nil
    rw [remove_cons_cons hk]
    exact ih hv
  | @into s k p v c c' hk hc hrest ih =>
    obtain ⟨t, p, rfl⟩ := List.exists_cons_of_ne_nil hrest.ne_nil
    rw [remove_cons_cons hk, Value.modifyAt_of_child? (Value.child?_withChild hc c'), ih (hv.child? hc)]
    refine congrArg Except.ok ?_
    rw [Value.withChild_withChild, Value.withChild_self hv hc]

end Grafted

/-! ### Paths to a field -/

/-- A path without commands that ends at a name, with keys that can be read. -/
structure Path.ToField (key : Body σ → Except ReadError Key) (p : Path σ) : Prop where
  bare : ∀ s ∈ p, s.commands = {}
  readable : Readable key p
  field : ∃ s ∈ p.getLast?, ∃ name, key s.body = .ok (.name name)

namespace Path.ToField

theorem single (h : Path.ToField key [s]) : ∃ name, key s.body = .ok (.name name) := by
  obtain ⟨t, ht, name, hk⟩ := h.field
  obtain rfl : s = t := by simpa using ht
  exact ⟨name, hk⟩

theorem tail {t : Segment σ} (h : Path.ToField key (s :: t :: p)) : Path.ToField key (t :: p) where
  bare u hu := h.bare u (List.mem_cons_of_mem s hu)
  readable u hu := h.readable u (List.mem_cons_of_mem s hu)
  field := by simpa [List.getLast?_cons_cons] using h.field

/-- A write grafts, for it neither replaces anything nor creates what it goes through. -/
theorem grafted_of_assign (hp : Path.ToField key p) (h : assign key false place w false p v = .ok v') :
    Grafted key w p v v' := by
  induction p generalizing v v' with
  | nil =>
    obtain ⟨s, hs, -⟩ := hp.field
    cases hs
  | cons s p ih =>
    have hs := hp.bare s List.mem_cons_self
    cases p with
    | nil =>
      obtain ⟨name, hk⟩ := hp.single
      rw [assign_single hk, hs] at h
      obtain ⟨fields, rfl, hfree, rfl⟩ := Value.put_name_ok_iff.mp (Outcome.mapError_ok_iff.mp h)
      exact .field hk hfree
    | cons t p =>
      obtain ⟨k, hk, ha⟩ := hp.readable s List.mem_cons_self
      rw [assign_cons_cons hk, hs] at h
      by_cases hc : k = .current
      · subst hc
        exact .stay hk (ih hp.tail h)
      · obtain ⟨c, hchild⟩ := Value.child?_of_enter h hc ha
        rw [Value.enter_of_child? hchild] at h
        obtain ⟨c', hrest, rfl⟩ := Outcome.map_ok_iff.mp h
        exact .into hk hchild (ih hp.tail hrest)

/-- What is taken away can be grafted again. -/
theorem grafted_of_walk (hp : Path.ToField key p) (hv : v.Ordered) (h : walk spec key p v = .ok (some w)) :
    ∃ v', remove key p v = .ok v' ∧ Grafted key w p v' v := by
  induction p generalizing v with
  | nil =>
    obtain ⟨s, hs, -⟩ := hp.field
    cases hs
  | cons s p ih =>
    obtain ⟨k, hk, c, hchild, hrest⟩ := walk_cons_some h
    cases p with
    | nil =>
      obtain ⟨name, hname⟩ := hp.single
      obtain rfl := Except.ok.inj (hk.symm.trans hname)
      cases hrest
      rcases hchild with ⟨hcurrent, -⟩ | hchild
      · cases hcurrent
      · cases v with
        | object fields =>
          have hfree : Fields.get? name (Fields.erase name fields) = none := Fields.get?_erase_self hv.sorted
          have hgraft := Grafted.field (w := w) hk hfree
          have hsame : Fields.insert name w (Fields.erase name fields) = fields := by
            refine ((hv.sorted.erase name).insert name w).ext hv.sorted fun other => ?_
            rw [Fields.get?_insert]
            split
            · rename_i heq
              rw [← heq]
              exact hchild.symm
            · rename_i hne
              exact Fields.get?_erase_of_ne hne fields
          rw [hsame] at hgraft
          exact ⟨_, remove_single hk, hgraft⟩
        | null | bool | int | decimal | str | array => cases hchild
    | cons t p =>
      rw [remove_cons_cons hk]
      rcases hchild with ⟨rfl, rfl⟩ | hchild
      · obtain ⟨v', hremove, hgraft⟩ := ih hp.tail hv hrest
        exact ⟨v', hremove, .stay hk hgraft⟩
      · obtain ⟨c', hremove, hgraft⟩ := ih hp.tail (hv.child? hchild) hrest
        have hinto := Grafted.into hk (Value.child?_withChild hchild c') hgraft
        rw [Value.withChild_withChild, Value.withChild_self hv hchild] at hinto
        rw [Value.modifyAt_of_child? hchild, hremove]
        exact ⟨v.withChild k c', rfl, hinto⟩

end Path.ToField

end TreeQuery
