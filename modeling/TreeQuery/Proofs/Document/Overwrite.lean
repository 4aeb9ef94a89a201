import TreeQuery.Proofs.Document.Set
import TreeQuery.Proofs.Value.Ordered

/-! # Writing over what is there

Where a path can be read, a write with `=` replaces the value read and nothing else, so writing the value back
changes nothing (`assign_of_walk`). And of two writes at one place the second one counts: behind the first one
the place can be read, whether the write found it or created it (`assign_again`). -/

namespace TreeQuery

variable {σ : Type} {key key' : Body σ → Except ReadError Key} {p : Path σ} {s : Segment σ}
  {v w c d new new' : Value} {k : Key} {make : Bool} {place : String} {q : Query} {spec : String}

namespace Value

/-! ### Replacing a part -/

/-- A value with the part at a key replaced by `c`, if it has one there. -/
def withChild (v : Value) (k : Key) (c : Value) : Value :=
  match k, v with
  | .name name, object fields => object (Fields.insert name c fields)
  | .index i, array items => array (items.set i c)
  | _, v => v

/-- A part replaced by itself changes nothing. -/
theorem withChild_self (hv : v.Ordered) (h : v.child? k = some c) : v.withChild k c = v := by
  cases k with
  | current | append => cases h
  | name name =>
    cases v with
    | object fields => exact congrArg object (hv.sorted.insert_of_get? h)
    | null | bool | int | decimal | str | array => cases h
  | index i =>
    cases v with
    | array items =>
      obtain ⟨hlt, rfl⟩ := List.getElem?_eq_some_iff.mp h
      exact congrArg array (List.set_getElem_self hlt)
    | null | bool | int | decimal | str | object => cases h

theorem replaces_withChild (h : v.child? k = some c) (c' : Value) : Replaces v k c' (v.withChild k c') := by
  cases k with
  | current | append => cases h
  | name name =>
    cases v with
    | object fields => exact replaces_insert name c' fields
    | null | bool | int | decimal | str | array => cases h
  | index i =>
    cases v with
    | array items =>
      obtain ⟨hlt, -⟩ := List.getElem?_eq_some_iff.mp h
      exact replaces_set hlt c'
    | null | bool | int | decimal | str | object => cases h

theorem child?_withChild (h : v.child? k = some c) (c' : Value) : (v.withChild k c').child? k = some c' :=
  (replaces_withChild h c').part

theorem withChild_withChild (v : Value) (k : Key) (c c' : Value) :
    (v.withChild k c).withChild k c' = v.withChild k c' := by
  cases k with
  | current | append => rfl
  | name name =>
    cases v with
    | object fields => exact congrArg object (Fields.insert_insert name c c' fields)
    | null | bool | int | decimal | str | array => rfl
  | index i =>
    cases v with
    | array items => exact congrArg array (List.set_set c)
    | null | bool | int | decimal | str | object => rfl

theorem modifyAt_of_child? {f : Value → Except ReadError Value} (h : v.child? k = some c) :
    v.modifyAt f k = (f c).map (v.withChild k) := by
  cases k with
  | current | append => cases h
  | name name =>
    cases v with
    | object fields =>
      rw [child?_object] at h
      rw [modifyAt, h]
      dsimp only
      cases f c <;> rfl
    | null | bool | int | decimal | str | array => cases h
  | index i =>
    cases v with
    | array items =>
      rw [child?_array] at h
      rw [modifyAt, h]
      dsimp only
      cases f c <;> rfl
    | null | bool | int | decimal | str | object => cases h

theorem modifyAt_of_child?_eq_none {f : Value → Except ReadError Value} (hc : k ≠ .current) (h : v.child? k = none) :
    v.modifyAt f k = .ok v := by
  cases k with
  | current => exact absurd rfl hc
  | append => rfl
  | name name =>
    cases v with
    | object fields =>
      rw [child?_object] at h
      rw [modifyAt, h]
    | null | bool | int | decimal | str | array => rfl
  | index i =>
    cases v with
    | array items =>
      rw [child?_array] at h
      rw [modifyAt, h]
    | null | bool | int | decimal | str | object => rfl

theorem Ordered.child? (hv : v.Ordered) (h : v.child? k = some c) : c.Ordered := by
  cases k with
  | current | append => cases h
  | name name =>
    cases v with
    | object fields => exact hv.get? h
    | null | bool | int | decimal | str | array => cases h
  | index i =>
    cases v with
    | array items => exact ordered_array_iff.mp hv c (List.mem_of_getElem? h)
    | null | bool | int | decimal | str | object => cases h

theorem eq_or_child?_of_select {maybe : Bool} (h : v.select spec maybe k = .ok (some c)) :
    k = .current ∧ c = v ∨ v.child? k = some c := by
  by_cases hc : k = .current
  · subst hc
    exact Or.inl ⟨rfl, (Option.some.inj (Except.ok.inj h)).symm⟩
  by_cases ha : k = .append
  · subst ha
    cases h
  cases hchild : v.child? k with
  | some part =>
    rw [select_of_child? hchild] at h
    exact Or.inr (Except.ok.inj h)
  | none =>
    rcases absent_select (m := maybe) hc ha hchild with hn | ⟨e, he, -⟩
    · rw [hn] at h
      cases h
    · rw [he] at h
      cases h

/-! ### One segment with `=` -/

theorem put_of_child? (h : v.child? k = some c) : v.put make true place new k = .ok (v.withChild k new) := by
  cases k with
  | current | append => cases h
  | name name =>
    cases v with
    | object fields => simp [put, writableFields, withChild, bind, Except.bind, pure, Except.pure]
    | null | bool | int | decimal | str | array => cases h
  | index i =>
    cases v with
    | array items =>
      obtain ⟨hlt, -⟩ := List.getElem?_eq_some_iff.mp h
      cases items with
      | nil => cases h
      | cons x items =>
        simp [put, isBlank, writableItems, withChild, List.length_cons ▸ hlt, bind, Except.bind, pure, Except.pure]
    | null | bool | int | decimal | str | object => cases h

theorem enter_of_child? {blank : Except Error Value} {edit : Value → Except Error Value}
    (h : v.child? k = some c) : v.enter make blank edit k = (edit c).map (v.withChild k) := by
  cases k with
  | current | append => cases h
  | name name =>
    cases v with
    | object fields =>
      rw [child?_object] at h
      have hfields : ((object fields).writableFields make).mapError Error.write = .ok fields := rfl
      rw [enter_name, hfields, Outcome.ok_bind, h, Option.elim_some, Outcome.ok_bind]
      cases edit c <;> rfl
    | null | bool | int | decimal | str | array => cases h
  | index i =>
    cases v with
    | array items =>
      cases items with
      | nil => cases h
      | cons x items =>
        rw [child?_array] at h
        have hitems : ((array (x :: items)).writableItems make).mapError Error.write = .ok (x :: items) := rfl
        rw [enter, if_neg (by simp [isBlank]), hitems, Outcome.ok_bind, h]
        dsimp only
        cases edit c <;> rfl
    | null | bool | int | decimal | str | object => cases h

/-- Without `$` a part that is not there is not entered, and what is replaced plays no part in that. -/
theorem enter_of_missing (blank : Except Error Value) (edit : Value → Except Error Value) (hc : k ≠ .current)
    (ha : k ≠ .append) (h : v.child? k = none) :
    ∃ e, v.enter false blank edit k = .error (.write e) ∧ ∀ text, e ≠ .implicitOverwrite text := by
  cases k with
  | current => exact absurd rfl hc
  | append => exact absurd rfl ha
  | name name =>
    rw [enter_name]
    cases v with
    | object fields =>
      rw [child?_object] at h
      have hfields : ((object fields).writableFields false).mapError Error.write = .ok fields := rfl
      rw [hfields, Outcome.ok_bind, h]
      exact ⟨_, rfl, by simp⟩
    | null | bool | int | decimal | str | array => exact ⟨_, rfl, by simp⟩
  | index i =>
    rw [enter, if_neg (by simp)]
    cases v with
    | array items =>
      rw [child?_array] at h
      have hitems : ((array items).writableItems false).mapError Error.write = .ok items := rfl
      rw [hitems, Outcome.ok_bind, h]
      exact ⟨_, rfl, by simp⟩
    | null | bool | int | decimal | str | object => exact ⟨_, rfl, by simp⟩

/-- What is in a slot takes the place of what was put there before. -/
theorem Slot.withChild {f : Value → Value} (h : Slot make v k f) (ha : k ≠ .append) (c c' : Value) :
    (f c).withChild k c' = f c' := by
  cases h with
  | name _ name => exact congrArg object (Fields.insert_insert name c c' _)
  | first => rfl
  | index => exact congrArg array (List.set_set c)
  | append => exact absurd rfl ha

end Value

/-! ### A path with `=` -/

theorem walk_cons_some (h : walk spec key (s :: p) v = .ok (some w)) :
    ∃ k, key s.body = .ok k ∧ ∃ c, (k = .current ∧ c = v ∨ v.child? k = some c) ∧ walk spec key p c = .ok (some w) := by
  obtain ⟨k, hk, h⟩ := Outcome.bind_ok_iff.mp h
  obtain ⟨found, hfound, h⟩ := Outcome.bind_ok_iff.mp h
  cases found with
  | none => cases h
  | some c => exact ⟨k, hk, c, Value.eq_or_child?_of_select hfound, h⟩

/-- A value is found exactly if every key can be read and the keys lead to it. -/
theorem walk_ok_some_iff : walk spec key p v = .ok (some w) ↔ Readable key p ∧ v.lookup (Path.keys key p) = some w := by
  refine ⟨fun h => ?_, fun ⟨hp, h⟩ => (walk_spec hp v).1 w h⟩
  induction p generalizing v with
  | nil => exact ⟨nofun, congrArg some (Option.some.inj (Except.ok.inj h))⟩
  | cons s p ih =>
    obtain ⟨k, hk, c, hchild, hrest⟩ := walk_cons_some h
    obtain ⟨hp, hlookup⟩ := ih hrest
    rcases hchild with ⟨rfl, rfl⟩ | hchild
    · rw [Path.keys_cons_current hk]
      exact ⟨List.forall_mem_cons.mpr ⟨⟨_, hk, nofun⟩, hp⟩, hlookup⟩
    · have hc : k ≠ .current := by
        rintro rfl
        cases hchild
      have ha : k ≠ .append := by
        rintro rfl
        cases hchild
      rw [Path.keys_cons hk hc, Value.lookup_cons, hchild]
      exact ⟨List.forall_mem_cons.mpr ⟨⟨k, hk, ha⟩, hp⟩, hlookup⟩

theorem remove_single (hk : key s.body = .ok k) : remove key [s] v = .ok (v.removeAt k) := by
  rw [remove, hk]
  rfl

theorem remove_cons_cons {next : Segment σ} (hk : key s.body = .ok k) :
    remove key (s :: next :: p) v = v.modifyAt (remove key (next :: p)) k := by
  rw [remove, hk]
  rfl

theorem assign_cons_current (hk : key s.body = .ok .current) :
    assign key true place new make (s :: p) v = assign key true place new (make || s.commands.make) p v := by
  cases p with
  | nil =>
    rw [assign_single hk, Value.put, if_pos (by simp)]
    rfl
  | cons next rest =>
    rw [assign_cons_cons hk]
    rfl

theorem assign_cons_of_child? (hk : key s.body = .ok k) (hchild : v.child? k = some c)
    (hrest : assign key true place new (make || s.commands.make) p c = .ok d) :
    assign key true place new make (s :: p) v = .ok (v.withChild k d) := by
  cases p with
  | nil =>
    cases hrest
    rw [assign_single hk, Value.put_of_child? hchild]
    rfl
  | cons next rest =>
    rw [assign_cons_cons hk, Value.enter_of_child? hchild, hrest]
    rfl

/-- Where a path without `=` and its like leads to a value, a write with `=` replaces that value, whatever is
    written, and the value itself changes nothing. -/
theorem assign_of_walk (h : walk spec key p v = .ok (some w)) (new : Value) :
    ∃ d, assign key true place new make p v = .ok d ∧ (v.Ordered → new = w → d = v) := by
  induction p generalizing v make with
  | nil => exact ⟨new, rfl, fun _ hnew => hnew.trans (Option.some.inj (Except.ok.inj h)).symm⟩
  | cons s p ih =>
    obtain ⟨k, hk, c, ⟨rfl, rfl⟩ | hchild, hrest⟩ := walk_cons_some h
    · obtain ⟨d, hd, hsame⟩ := ih hrest
      exact ⟨d, (assign_cons_current hk).trans hd, hsame⟩
    · obtain ⟨d, hd, hsame⟩ := ih hrest
      refine ⟨v.withChild k d, assign_cons_of_child? hk hchild hd, fun hv hnew => ?_⟩
      rw [hsame (hv.child? hchild) hnew, Value.withChild_self hv hchild]

/-- Of two writes with `=` at one path the second one counts, and it succeeds if the first one does. -/
theorem assign_again (hp : Readable key p) (h : assign key true place new make p v = .ok d) (new' : Value) :
    ∃ d', assign key true place new' make p v = .ok d' ∧ assign key true place new' make p d = .ok d' := by
  induction p generalizing v d make with
  | nil => exact ⟨new', rfl, rfl⟩
  | cons s p ih =>
    have hrest : Readable key p := fun t ht => hp t (by simp [ht])
    obtain ⟨k, hk, ⟨rfl, h⟩ | ⟨hc, f, part, c, hslot, -, hedit, rfl, hother⟩⟩ := assign_cons h
    · simp only [assign_cons_current hk]
      exact ih hrest h
    · obtain ⟨k', hk', ha⟩ := hp s (by simp)
      obtain rfl := Except.ok.inj (hk.symm.trans hk')
      have hpart := (hslot.replaces c).part
      rw [Key.within_of_ne ha] at hpart
      -- Behind the first write the part is there, and the second one replaces it in the same slot.
      obtain ⟨c', hc₁, hc₂⟩ := ih hrest hedit
      refine ⟨f c', hother new' c' hc₁, ?_⟩
      rw [← hslot.withChild ha c c']
      exact assign_cons_of_child? hk hpart hc₂

theorem assign_congr {overwrite : Bool} (h : ∀ s ∈ p, key s.body = key' s.body) :
    assign key overwrite place new make p v = assign key' overwrite place new make p v := by
  induction p generalizing v make with
  | nil => rfl
  | cons s p ih =>
    have hs := h s (by simp)
    cases p with
    | nil => rw [assign, assign, hs]
    | cons next rest =>
      have hedit : assign key overwrite place new (make || s.commands.make) (next :: rest) =
          assign key' overwrite place new (make || s.commands.make) (next :: rest) :=
        funext fun _ => ih fun t ht => h t (by simp [ht])
      simp only [assign, hs, h next (by simp), hedit]

/-! ### Queries with `=` -/

/-- The query with the same path and place, and without `=`. -/
def Query.withoutOverwrite (q : Query) : Query :=
  ⟨q.path.map (Segment.edit (·.erase .overwrite)), q.seq, by simpa using q.seq_lt⟩

/-- Without `$`, there is only `=` to leave out for reading. -/
theorem Query.withoutOverwrite_eq (hk : Path.makes q.path = false) : q.withoutOverwrite = q.forReading := by
  have hpath : q.path.map (Segment.edit (·.erase .overwrite)) = Query.sourcePath q.path := by
    refine List.map_congr_left fun s hs => ?_
    have hmake : s.commands.make = false := Path.any_eq_false_iff.mp hk s hs
    simp [Segment.edit, Commands.erase, hmake]
  simp only [Query.withoutOverwrite, Query.forReading, hpath]

theorem walk_edit {f : Commands → Commands} (hf : ∀ c, (f c).maybe = c.maybe) :
    walk spec key (p.map (Segment.edit f)) v = walk spec key p v := by
  induction p generalizing v with
  | nil => rfl
  | cons s p ih => simp only [List.map_cons, walk, Segment.edit, hf, ih]

theorem walk_withoutOverwrite {key : Body PlainPath → Except ReadError Key} :
    walk spec key q.withoutOverwrite.remaining v = walk spec key q.remaining v := by
  have hdrop : q.withoutOverwrite.remaining = q.remaining.map (Segment.edit (·.erase .overwrite)) := List.map_drop.symm
  rw [hdrop]
  exact walk_edit fun _ => rfl

theorem walk_of_has {r : Query} (h : d.has r = .ok true) :
    ∃ w, walk r.spec (keyIn d) r.remaining d = .ok (some w) ∧ d.get r = .ok w := by
  unfold Value.has at h
  split at h
  · cases h
  · rename_i hread
    rw [Bool.not_eq_true, Bool.or_eq_false_iff] at hread
    cases hwalk : walk r.spec (keyIn d) r.remaining d with
    | error e =>
      rw [hwalk] at h
      simp only at h
      split at h <;> cases h
    | ok found =>
      rw [hwalk] at h
      obtain ⟨w, rfl⟩ := Option.isSome_iff_exists.mp (Except.ok.inj h)
      exact ⟨w, rfl, Value.get_ok_iff.mpr ⟨Query.checkReadonly_ok_iff.mpr hread, some w, hwalk, rfl⟩⟩

/-- There is a value at a query, and it is read, exactly if the path finds it. -/
theorem found_iff {r : Query} (hr : r.checkReadonly = .ok ()) :
    d.has r = .ok true ∧ d.get r = .ok w ↔ walk r.spec (keyIn d) r.remaining d = .ok (some w) := by
  constructor
  · rintro ⟨hhas, hget⟩
    obtain ⟨w', hwalk, hget'⟩ := walk_of_has hhas
    obtain rfl := Except.ok.inj (hget.symm.trans hget')
    exact hwalk
  · intro hwalk
    rw [Value.has_eq_walk hr, Value.get_eq_walk hr, hwalk]
    exact ⟨rfl, rfl⟩

theorem set_eq_assign (hd : Path.deletes q.path = false) (hm : Path.moves q.path = false) :
    d.set q new = assign (keyIn d) (Path.overwrites q.path) q.leaf.display new (Path.makes (q.path.take q.seq))
      q.remaining d := by
  rw [Value.set, hd, hm]
  rfl

/-- Laws of a query with `=`, which without it can be read. Where there is a value at it, writing that value back
    leaves the document as it is, and any value can be written. Without brackets, a second write gives what it
    would have given without the first one. -/
theorem set_overwriting (hq : q.Parsed) (ho : Path.overwrites q.path = true) (hm : Path.moves q.path = false) :
    (q.withoutOverwrite.Parsed ∧ q.withoutOverwrite.checkReadonly = .ok ()) ∧
      (∀ d : Value, d.has q.withoutOverwrite = .ok true →
        (∃ w, d.get q.withoutOverwrite = .ok w ∧ (d.Ordered → d.set q w = .ok d)) ∧
        ∀ new, ∃ d₂, d.set q new = .ok d₂) ∧
      (q.BracketFree → ∀ (d v₁ v₂ d₁ : Value), d.set q v₁ = .ok d₁ →
        ∃ d₂, d.set q v₂ = .ok d₂ ∧ d₁.set q v₂ = .ok d₂) := by
  have hw := Query.parsed_iff.mp hq
  obtain ⟨-, ha, hk⟩ := hw.overwrite_alone ho
  have hd : Path.deletes q.path = false := by
    obtain ⟨s, hs, hso⟩ := List.any_eq_true.mp ho
    exact Path.any_eq_false_iff.mpr fun t ht => hw.not_delete ht ⟨s, hs, Or.inl hso⟩
  refine ⟨?_, fun d hhas => ?_, fun hb d v₁ v₂ d₁ h => ?_⟩
  · rw [Query.withoutOverwrite_eq hk]
    exact ⟨Query.forReading_parsed hq, Query.forReading_readonly hd hm ha⟩
  · obtain ⟨w, hwalk, hget⟩ := walk_of_has hhas
    rw [walk_withoutOverwrite] at hwalk
    have hset : ∀ new, ∃ d₂, d.set q new = .ok d₂ ∧ (d.Ordered → new = w → d₂ = d) := fun new => by
      rw [set_eq_assign hd hm, ho]
      exact assign_of_walk hwalk new
    refine ⟨⟨w, hget, fun hordered => ?_⟩, fun new => ?_⟩
    · obtain ⟨d₂, hd₂, hsame⟩ := hset w
      rw [hd₂, hsame hordered rfl]
    · obtain ⟨d₂, hd₂, -⟩ := hset new
      exact ⟨d₂, hd₂⟩
  · have hkeys : ∀ s ∈ q.remaining, keyIn d₁ s.body = keyIn d s.body := fun s hs =>
      keyIn_eq (hb s (List.mem_of_mem_drop hs)) d₁ d
    simp only [set_eq_assign hd hm, ho] at h ⊢
    rw [assign_congr hkeys]
    exact assign_again (Query.readable hq ha hb) h v₂

/-- With `=a.0` the element can be written back, and of two other values written there the second one counts. -/
theorem set_overwriting_index :
    (∃ w, (Value.object [("a", .array [.int 1])]).get
        ⟨[⟨{}, .field "a", false⟩, ⟨{}, .index ['0'], false⟩], 0, by decide⟩ = .ok w ∧
      (Value.object [("a", .array [.int 1])]).set
        ⟨[⟨{ overwrite := true }, .field "a", false⟩, ⟨{}, .index ['0'], false⟩], 0, by decide⟩ w =
        .ok (.object [("a", .array [.int 1])])) ∧
      ∃ d₂, (Value.object [("a", .array [.int 1])]).set
          ⟨[⟨{ overwrite := true }, .field "a", false⟩, ⟨{}, .index ['0'], false⟩], 0, by decide⟩ (.int 3) = .ok d₂ ∧
        (Value.object [("a", .array [.int 2])]).set
          ⟨[⟨{ overwrite := true }, .field "a", false⟩, ⟨{}, .index ['0'], false⟩], 0, by decide⟩ (.int 3) =
          .ok d₂ := by
  have hread : Query.parse "=a.0" =
      .ok ⟨[⟨{ overwrite := true }, .field "a", false⟩, ⟨{}, .index ['0'], false⟩], 0, by decide⟩ := rfl
  have hset : (Value.object [("a", .array [.int 1])]).set
      ⟨[⟨{ overwrite := true }, .field "a", false⟩, ⟨{}, .index ['0'], false⟩], 0, by decide⟩ (.int 2) =
      .ok (.object [("a", .array [.int 2])]) := rfl
  have hordered : (Value.object [("a", .array [.int 1])]).Ordered :=
    Value.ordered_empty.insert (v := .array [.int 1]) ⟨trivial, trivial⟩ "a"
  obtain ⟨-, hsame, hagain⟩ := set_overwriting ⟨"=a.0", _, hread, rfl⟩ rfl rfl
  obtain ⟨⟨w, hget, hback⟩, -⟩ := hsame (Value.object [("a", .array [.int 1])]) rfl
  exact ⟨⟨w, hget, hback hordered⟩,
    hagain (by simp [Query.BracketFree, Body.isBracket]) _ _ (.int 3) _ hset⟩

end TreeQuery
