import Mathlib.Algebra.Order.Group.Multiset
import Mathlib.Tactic.Abel
import TreeQuery.Proofs.Document.Built
import TreeQuery.Proofs.Document.Keep
import TreeQuery.Proofs.Document.Move
import TreeQuery.Proofs.Grammar.Unambiguous

/-! # Moves lose nothing

A move takes a value away, which may shift the elements of an array, and writes it somewhere in what is left, which
may create containers. It neither loses nor doubles a scalar (`scalars_move`): a part taken away has its scalars less
(`scalars_remove`), and a write that replaces nothing has those of the new value more (`scalars_assign`). What a write
could replace is an element at an index and, with `=`, anything. -/

namespace TreeQuery

variable {σ : Type} {key : Body σ → Except ReadError Key} {p : Path σ} {s : Segment σ} {v v' w c c' d d₂ new : Value}
  {k : Key} {make : Bool} {place : String} {items : List Value} {fields : Fields Value} {name : String} {i : Nat}
  {q : Query} {spec : String}

namespace Value

/-! ### The scalars of a value -/

mutual

/-- The scalars in a value at any depth, null apart. -/
def scalars : Value → Multiset Value
  | null => 0
  | bool b => {bool b}
  | int i => {int i}
  | decimal d => {decimal d}
  | str s => {str s}
  | array items => scalarsOfItems items
  | object fields => scalarsOfFields fields

def scalarsOfItems : List Value → Multiset Value
  | [] => 0
  | v :: rest => scalars v + scalarsOfItems rest

def scalarsOfFields : List (String × Value) → Multiset Value
  | [] => 0
  | (_, v) :: rest => scalars v + scalarsOfFields rest

end

theorem scalarsOfItems_append (xs ys : List Value) :
    scalarsOfItems (xs ++ ys) = scalarsOfItems xs + scalarsOfItems ys := by
  induction xs with
  | nil => exact (zero_add _).symm
  | cons x xs ih => rw [List.cons_append, scalarsOfItems, scalarsOfItems, ih, add_assoc]

/-- The scalars of elements, where one of them is known. -/
theorem scalarsOfItems_eq (h : items[i]? = some c) :
    scalarsOfItems items = scalarsOfItems (items.take i) + scalars c + scalarsOfItems (items.drop (i + 1)) := by
  obtain ⟨hlt, rfl⟩ := List.getElem?_eq_some_iff.mp h
  conv_lhs => rw [← List.take_append_drop i items, List.drop_eq_getElem_cons hlt]
  rw [scalarsOfItems_append, scalarsOfItems, add_assoc]

theorem scalarsOfItems_set (h : items[i]? = some c) (c' : Value) :
    scalarsOfItems (items.set i c') + scalars c = scalarsOfItems items + scalars c' := by
  obtain ⟨hlt, -⟩ := List.getElem?_eq_some_iff.mp h
  have hset : (items.set i c')[i]? = some c' := List.getElem?_set_self hlt
  rw [scalarsOfItems_eq hset, scalarsOfItems_eq h, List.take_set_of_le (Nat.le_refl i),
    List.drop_set_of_lt (Nat.lt_succ_self i)]
  abel

theorem scalarsOfItems_eraseIdx (h : items[i]? = some c) :
    scalarsOfItems (items.eraseIdx i) + scalars c = scalarsOfItems items := by
  rw [scalarsOfItems_eq h, List.eraseIdx_eq_take_drop_succ, scalarsOfItems_append]
  abel

theorem scalarsOfFields_insert (hs : fields.Sorted) (name : String) (c : Value) :
    scalarsOfFields (Fields.insert name c fields) + ((Fields.get? name fields).getD null).scalars =
      scalarsOfFields fields + scalars c := by
  induction fields with
  | nil => simp [Fields.insert, Fields.get?, scalarsOfFields, scalars]
  | cons p fields ih =>
    obtain ⟨key, old⟩ := p
    obtain ⟨hlt, hs⟩ := Fields.sorted_cons.mp hs
    unfold Fields.insert
    split
    · rename_i hnk
      have hnone : Fields.get? name ((key, old) :: fields) = none := Fields.get?_eq_none_of_forall_lt fun p hp => by
        rcases List.mem_cons.mp hp with rfl | hp
        · exact hnk
        · exact String.lt_trans hnk (hlt p hp)
      simp [hnone, scalarsOfFields, scalars, add_comm]
    · split
      · rename_i heq
        simp only [Fields.get?, if_pos heq, scalarsOfFields, Option.getD_some]
        abel
      · rename_i hne
        simp only [Fields.get?, if_neg hne, scalarsOfFields, add_assoc, ih hs]

theorem scalarsOfFields_erase (h : Fields.get? name fields = some c) :
    scalarsOfFields (Fields.erase name fields) + scalars c = scalarsOfFields fields := by
  induction fields with
  | nil => cases h
  | cons p fields ih =>
    obtain ⟨key, value⟩ := p
    rw [Fields.get?] at h
    unfold Fields.erase
    split at h
    · rename_i heq
      cases h
      rw [if_pos heq, scalarsOfFields, add_comm]
    · rename_i hne
      rw [if_neg hne, scalarsOfFields, scalarsOfFields, add_assoc, ih h]

/-! ### One segment -/

theorem scalars_withChild (hv : v.Ordered) (h : v.child? k = some c) (c' : Value) :
    (v.withChild k c').scalars + c.scalars = v.scalars + c'.scalars := by
  cases k with
  | current | append => cases h
  | name name =>
    cases v with
    | object fields =>
      have hfields := scalarsOfFields_insert hv.sorted name c'
      rw [child?_object] at h
      rwa [h] at hfields
    | null | bool | int | decimal | str | array => cases h
  | index i =>
    cases v with
    | array items => exact scalarsOfItems_set h c'
    | null | bool | int | decimal | str | object => cases h

theorem scalars_removeAt (h : v.child? k = some c) : (v.removeAt k).scalars + c.scalars = v.scalars := by
  cases k with
  | current | append => cases h
  | name name =>
    cases v with
    | object fields => exact scalarsOfFields_erase h
    | null | bool | int | decimal | str | array => cases h
  | index i =>
    cases v with
    | array items => exact scalarsOfItems_eraseIdx h
    | null | bool | int | decimal | str | object => cases h

theorem scalars_of_isBlank (h : v.isBlank = true) : v.scalars = 0 := by
  rcases isBlank_cases h with rfl | rfl <;> rfl

theorem scalars_blankFor (k : Key) : (blankFor k).scalars = 0 := by
  cases k <;> rfl

theorem writableFields_scalars (h : writableFields make v = .ok fields) : scalarsOfFields fields = v.scalars := by
  rcases writableFields_cases h with rfl | ⟨rfl, rfl⟩ <;> rfl

theorem writableItems_scalars (h : writableItems make v = .ok items) : scalarsOfItems items = v.scalars := by
  rcases writableItems_cases h with rfl | ⟨rfl, rfl⟩ <;> rfl

theorem scalarsOfItems_concat (items : List Value) (c : Value) :
    scalarsOfItems (items ++ [c]) = scalarsOfItems items + c.scalars := by
  rw [scalarsOfItems_append, scalarsOfItems, scalarsOfItems, add_zero]

/-- A slot has the scalars of what is put there in place of those of the part that was there. -/
theorem Slot.scalars {f : Value → Value} (h : Slot make v k f) (hv : v.Ordered) (c : Value) :
    (f c).scalars + ((v.child? (k.within (some v))).getD null).scalars = v.scalars + c.scalars := by
  cases h with
  | name h name =>
    rw [Key.within_of_ne (by simp), writableFields_ok h, child?_object, ← writableFields_scalars h]
    exact scalarsOfFields_insert (writableFields_ordered h hv).sorted name c
  | first h =>
    have hchild : v.child? (.index 0) = none := child?_of_isBlank h
    rw [Key.within_of_ne (by simp), hchild, scalars_of_isBlank h, add_comm]
    exact congrArg (_ + ·) (add_zero _)
  | @index items i h hi =>
    have hchild : v.child? (.index i) = some items[i] := by
      rw [(writableItems_ok h).1, child?_array, List.getElem?_eq_getElem hi]
    rw [Key.within_of_ne (by simp), hchild, ← writableItems_scalars h]
    exact scalarsOfItems_set (List.getElem?_eq_getElem hi) c
  | @append items h =>
    rw [child?_within_append, ← writableItems_scalars h]
    exact (add_zero _).trans (scalarsOfItems_concat items c)

theorem Entered.scalars {found : Option Value} (h : Entered found c) : c.scalars = (found.getD null).scalars := by
  rcases h with rfl | ⟨rfl, k, rfl⟩
  · rfl
  · exact scalars_blankFor k

/-- Without `=`, what is put at a key replaces nothing but null, unless it is put at an index. -/
theorem scalars_put (hv : v.Ordered) (hk : ∀ i, k ≠ .index i) (h : v.put make false place new k = .ok v') :
    v'.scalars = v.scalars + new.scalars := by
  rcases put_fresh hk h with ⟨-, rfl, rfl⟩ | ⟨-, f, hslot, rfl, hnone⟩
  · exact (zero_add _).symm
  · have hsum := hslot.scalars hv new
    rw [hnone] at hsum
    exact (add_zero _).symm.trans hsum

end Value

/-! ### A path of segments -/

/-- A write without `=` adds the scalars of the new value, unless the last key of its path is an index. -/
theorem scalars_assign (hp : p ≠ []) (hlast : ∀ s ∈ p.getLast?, ∀ i, key s.body ≠ .ok (.index i)) (hv : v.Ordered)
    (h : assign key false place new make p v = .ok v') : v'.scalars = v.scalars + new.scalars := by
  induction p generalizing make v v' with
  | nil => exact absurd rfl hp
  | cons s p ih =>
    cases p with
    | nil =>
      obtain ⟨k, hk, h⟩ := Outcome.bind_ok_iff.mp h
      have hk := Outcome.mapError_ok_iff.mp hk
      refine Value.scalars_put hv (fun i hi => hlast s rfl i ?_) (Outcome.mapError_ok_iff.mp h)
      rw [hk, hi]
    | cons next rest =>
      have hnext : next :: rest ≠ [] := by simp
      obtain ⟨k, -, ⟨-, hrest⟩ | ⟨-, f, part, c, hslot, hpart, hrest, rfl, -⟩⟩ := assign_cons h
      · exact ih hnext hlast hv hrest
      · have hsum := hslot.scalars hv c
        rw [← hpart.scalars, ih hnext hlast (hpart.ordered hv) hrest] at hsum
        refine add_right_cancel (b := part.scalars) (hsum.trans ?_)
        abel

/-- What is taken away has its scalars taken along. -/
theorem scalars_remove (hp : p ≠ []) (hv : v.Ordered) (h : walk spec key p v = .ok (some w))
    (hremove : remove key p v = .ok v') : v'.scalars + w.scalars = v.scalars := by
  induction p generalizing v v' with
  | nil => exact absurd rfl hp
  | cons s p ih =>
    obtain ⟨k, hk, c, hchild, hrest⟩ := walk_cons_some h
    cases p with
    | nil =>
      cases hrest
      rw [remove_single hk] at hremove
      cases hremove
      rcases hchild with ⟨rfl, rfl⟩ | hchild
      · exact zero_add _
      · exact Value.scalars_removeAt hchild
    | cons next rest =>
      have hnext : next :: rest ≠ [] := by simp
      rw [remove_cons_cons hk] at hremove
      rcases hchild with ⟨rfl, rfl⟩ | hchild
      · exact ih hnext hv hrest hremove
      · rw [Value.modifyAt_of_child? hchild] at hremove
        obtain ⟨c', hpart, rfl⟩ := Outcome.map_ok_iff.mp hremove
        have hsum := Value.scalars_withChild hv hchild c'
        refine add_right_cancel (b := c.scalars) ?_
        rw [add_right_comm, hsum, add_assoc, ih hnext (hv.child? hchild) hrest hpart]

/-! ### Moving -/

namespace Value

theorem scalars_delete (hv : v.Ordered) (hget : v.get q = .ok w) (hdelete : v.delete q = .ok v') :
    v'.scalars + w.scalars = v.scalars := by
  obtain ⟨-, found, hwalk, rfl⟩ := get_ok_iff.mp hget
  unfold delete at hdelete
  rw [hwalk] at hdelete
  split at hdelete
  · cases hdelete
  cases found with
  | some w => exact scalars_remove q.remaining_ne_nil hv hwalk (Outcome.mapError_ok_iff.mp hdelete)
  | none =>
    cases hdelete
    exact add_zero _

theorem scalars_set (hv : v.Ordered) (ho : Path.overwrites q.path = false)
    (hleaf : ∀ i, keyIn v q.leaf.segment.body ≠ .ok (.index i)) (h : v.set q new = .ok v') :
    v'.scalars = v.scalars + new.scalars := by
  obtain ⟨hd, hm, -⟩ := set_ok h
  rw [set_eq_assign hd hm, ho] at h
  refine scalars_assign q.remaining_ne_nil (fun s hs => ?_) hv h
  rw [Query.body_of_getLast? hs]
  exact hleaf

end Value

section
variable {before tail : Path PlainPath} {m first : Segment PlainPath} {destination : Query} (hq : q.Parsed)
  (hsplit : Path.SplitAt q.path before m first tail)
  (h : Query.parse (Path.spec (Query.destinationPath (before ++ [m]) (first :: tail))) = .ok destination)
include hq hsplit h

/-- The destination of a move as it is read again. -/
theorem Query.destination_path :
    destination.path = Path.canonical (destinationPath (before ++ [m]) (first :: tail)) := by
  have hw := parsed_iff.mp hq
  have hmem : ∀ t ∈ first :: tail, t ∈ q.path := by
    intro t ht
    rw [hsplit.path]
    exact List.mem_append_right _ (List.mem_cons_of_mem _ ht)
  refine (path_of_parse_spec (by simp [destinationPath_cons]) (fun t ht => ?_) (fun t ht => ?_) h).1
  · exact Path.any_eq_false_iff.mp (destination_unmarked hsplit.unmarked_behind) t (List.mem_of_getLast? ht)
  · rw [destinationPath_cons] at ht
    rcases List.mem_cons.mp ht with rfl | ht
    · have hs := (hw.lawful (hmem first (by simp))).spellable
      exact ⟨hs.body, fun ha => (Path.carried_append first).trans (hs.append ha)⟩
    · exact (hw.lawful (hmem t (by simp [ht]))).spellable

theorem Query.destination_overwrites (ho : Path.overwrites q.path = false) :
    Path.overwrites destination.path = false := by
  have ho : ∀ t ∈ q.path, t.commands.overwrite = false := Path.any_eq_false_iff.mp ho
  have hcarried : (Path.carried (before ++ [m]) (first :: tail)).overwrite = false := by
    refine Path.any_eq_false_iff.mpr fun t ht => ho t ?_
    rw [hsplit.path]
    simpa using ht
  rw [destination_path hq hsplit h, destinationPath_cons]
  refine Path.any_eq_false_iff.mpr fun t ht => ?_
  obtain ⟨s, hs, rfl⟩ := List.mem_map.mp ht
  rcases List.mem_cons.mp hs with rfl | hs
  · exact Bool.or_eq_false_iff.mpr ⟨ho first (by simp [hsplit.path]), hcarried⟩
  · exact ho s (by simp [hsplit.path, hs])

/-- The destination ends as the move does. -/
theorem Query.destination_leaf : destination.leaf.segment.body = q.leaf.segment.body.canonical := by
  have hbodies : destination.path.map Segment.body = ((first :: tail).map Segment.body).map Body.canonical := by
    rw [destination_path hq hsplit h, destinationPath_cons, Path.canonical, List.map_map, List.map_map]
    rfl
  have hlast : ((first :: tail).map Segment.body).getLast? = some q.leaf.segment.body := by
    have hpath : q.path = (before ++ [m]) ++ first :: tail := by simp [hsplit.path]
    rw [← q.getLast?_path, hpath, List.map_append, List.getLast?_append_of_ne_nil _ (by simp)]
  have hleaf := destination.getLast?_path
  rw [hbodies, List.getLast?_map, hlast] at hleaf
  exact (Option.some.inj hleaf).symm

end

/-- A move whose destination ends with a name, `+` or `#`, and which has no `=`, keeps every scalar. -/
theorem scalars_move (hq : q.Parsed) (hd : d.Ordered) (ho : Path.overwrites q.path = false)
    (hleaf : (∃ name, q.leaf.segment.body = .field name) ∨ q.leaf.segment.body = .append ∨ q.leaf.segment.body = .here)
    (h : d.move q = .ok d₂) : d₂.scalars = d.scalars := by
  unfold Value.move at h
  split at h
  · cases h
  rename_i hm
  obtain ⟨before, m, first, tail, hsplit⟩ := (Query.parsed_iff.mp hq).exists_splitAt (by simpa using hm)
  obtain ⟨⟨source, destination⟩, hparts, h⟩ := Outcome.bind_ok_iff.mp h
  obtain ⟨moved, hmoved, h⟩ := Outcome.bind_ok_iff.mp h
  obtain ⟨without, hwithout, h⟩ := Outcome.bind_ok_iff.mp h
  rw [Query.splitMove_eq (Query.splitAtMarker_eq hsplit)] at hparts
  obtain ⟨_, -, hparts⟩ := Outcome.bind_ok_iff.mp hparts
  obtain ⟨_, hdestination, hparts⟩ := Outcome.bind_ok_iff.mp hparts
  cases hparts
  have hdestination := Outcome.mapError_ok_iff.mp hdestination
  have hkey : ∀ i, keyIn without destination.leaf.segment.body ≠ .ok (.index i) := by
    intro i
    rw [Query.destination_leaf hq hsplit hdestination]
    rcases hleaf with ⟨name, hb⟩ | hb | hb <;> rw [hb] <;> exact nofun
  have htaken := Value.scalars_delete hd (Outcome.mapError_ok_iff.mp hmoved) hwithout
  have hordered := Value.delete_ordered hwithout hd
  rw [Value.scalars_set hordered (Query.destination_overwrites hq hsplit hdestination ho) hkey h, htaken]

/-- `a.0>a.0.$b.+` moves the first of two elements into the one that takes its place. -/
theorem scalars_move_shifted :
    (Value.object [("a", .array [.int 1, .object []])]).move
        ⟨[⟨{}, .field "a", false⟩, ⟨{}, .index ['0'], true⟩, ⟨{}, .field "a", false⟩, ⟨{}, .index ['0'], false⟩,
          ⟨{ make := true }, .field "b", false⟩, ⟨{ append := true }, .append, false⟩], 0, by decide⟩ =
        .ok (.object [("a", .array [.object [("b", .array [.int 1])]])]) ∧
      (Value.object [("a", .array [.object [("b", .array [.int 1])]])]).scalars =
        (Value.object [("a", .array [.int 1, .object []])]).scalars := by
  have hread : Query.parse "a.0>a.0.$b.+" =
      .ok ⟨[⟨{}, .field "a", false⟩, ⟨{}, .index ['0'], true⟩, ⟨{}, .field "a", false⟩, ⟨{}, .index ['0'], false⟩,
        ⟨{ make := true }, .field "b", false⟩, ⟨{ append := true }, .append, false⟩], 0, by decide⟩ := rfl
  have hmove : (Value.object [("a", .array [.int 1, .object []])]).move
      ⟨[⟨{}, .field "a", false⟩, ⟨{}, .index ['0'], true⟩, ⟨{}, .field "a", false⟩, ⟨{}, .index ['0'], false⟩,
        ⟨{ make := true }, .field "b", false⟩, ⟨{ append := true }, .append, false⟩], 0, by decide⟩ =
      .ok (.object [("a", .array [.object [("b", .array [.int 1])]])]) := rfl
  have hordered : (Value.object [("a", .array [.int 1, .object []])]).Ordered :=
    Value.ordered_empty.insert (v := .array [.int 1, .object []]) ⟨trivial, Value.ordered_empty, trivial⟩ "a"
  exact ⟨hmove, scalars_move ⟨"a.0>a.0.$b.+", _, hread, rfl⟩ hordered rfl (Or.inr (Or.inl rfl)) hmove⟩

end TreeQuery
