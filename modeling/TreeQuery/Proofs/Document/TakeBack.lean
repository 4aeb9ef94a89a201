import TreeQuery.Proofs.Document.Accept
import TreeQuery.Proofs.Document.Append
import TreeQuery.Proofs.Document.Graft

/-! # Writes taken back

A write without `=` and `$` adds a field or an element and changes nothing else (`Value.Added`). The value that it was
added to is at the keys of all nodes but the last one, before the write and after it, so a removal finds what was
written and puts that value back as it was (`remove_of_assign`). Where the last node is `+`, the removal names the index
that the new element has (`delete_of_set`). -/

namespace TreeQuery

variable {σ : Type} {key key' : Body σ → Except ReadError Key} {front : Path σ} {s t : Segment σ}
  {v v' w w' c d d₂ new : Value} {k k' : Key} {place : String} {q r : Query} {spec : String}

/-! ### One part added -/

/-- `w'` is `w` with `new` at a key, and `w` again without it. -/
structure Value.Added (w : Value) (k : Key) (new w' : Value) : Prop where
  part : w'.child? k = some new
  rest : w'.removeAt k = w

namespace Value

theorem added_put_name {name : String} (hw : w.Ordered) (h : w.put false false place new (.name name) = .ok w') :
    Added w (.name name) new w' := by
  obtain ⟨fields, rfl, hfree, rfl⟩ := put_name_ok_iff.mp h
  refine ⟨?_, ?_⟩
  · rw [child?_object, Fields.get?_insert, if_pos rfl]
  · rw [removeAt, hw.sorted.erase_insert hfree]

theorem added_put_append {items : List Value} (h : (array items).put false false place new .append = .ok w') :
    Added (array items) (.index items.length) new w' := by
  cases h
  refine ⟨(replaces_concat items new).part, ?_⟩
  rw [removeAt, List.eraseIdx_append_of_length_le (Nat.le_refl _), Nat.sub_self]
  simp

end Value

/-! ### A path of segments -/

/-- What the last segment finds is removed from the value that the segments before it lead to. -/
theorem remove_concat (hk : key s.body = .ok k) (hfront : v.lookup (Path.keys key front) = some w)
    (h : walk spec key (front ++ [s]) v = .ok (some c)) :
    remove key (front ++ [s]) v = .ok (Value.withPart (Path.keys key front) (w.removeAt k) v) := by
  obtain ⟨before, leaf, x, part, hsplit, hx, hpart, -, hremove⟩ := remove_of_walk (by simp) h
  obtain ⟨rfl, ⟨⟩⟩ := List.append_inj' hsplit rfl
  obtain rfl := Except.ok.inj (hk.symm.trans hx)
  obtain rfl := Option.some.inj (hfront.symm.trans hpart)
  exact hremove

/-- Where a write adds a part to the value that its front leads to, a removal with the key of that part finds what was
    written and restores what was there before. -/
theorem remove_of_assign (hfront : Readable key front) (hmake : ∀ u ∈ front, u.commands.make = false)
    (hsame : ∀ u ∈ front, key u.body = key' u.body) (hs : s.commands.make = false) (hk : key s.body = .ok k)
    (hk' : key' t.body = .ok k') (hv : v.Ordered)
    (hadded : ∀ w w', v.lookup (Path.keys key front) = some w → w.put false false place new k = .ok w' →
      Value.Added w k' new w')
    (h : assign key false place new false (front ++ [s]) v = .ok v') :
    walk spec key' (front ++ [t]) v' = .ok (some new) ∧ remove key' (front ++ [t]) v' = .ok v := by
  rcases assign_concat hfront hmake hs hk spec false place new v with ⟨w, hwalk, heq⟩ | ⟨-, e, he, -⟩
  · rw [heq] at h
    obtain ⟨w', hput, rfl⟩ := Outcome.map_ok_iff.mp h
    have hlookup := (walk_ok_some_iff.mp hwalk).2
    have hadded := hadded w w' hlookup (Outcome.mapError_ok_iff.mp hput)
    -- The removal reads the keys again, in another document, so it must find the same ones there.
    have hkeys : Path.keys key front = Path.keys key' front := Path.keys_congr hsame
    rw [hkeys] at hlookup ⊢
    have hholder := Value.lookup_withPart hlookup w'
    have hcurrent : k' ≠ .current := fun hc => nomatch hc ▸ hadded.part
    have happend : k' ≠ .append := fun ha => nomatch ha ▸ hadded.part
    have hreadable : Readable key' (front ++ [t]) := by
      refine List.forall_mem_append.mpr ⟨fun u hu => ?_, List.forall_mem_singleton.mpr ⟨k', hk', happend⟩⟩
      rw [← hsame u hu]
      exact hfront u hu
    have hfound : walk spec key' (front ++ [t]) (Value.withPart (Path.keys key' front) w' v) = .ok (some new) := by
      refine walk_ok_some_iff.mpr ⟨hreadable, ?_⟩
      rw [Path.keys_append, Path.keys_cons hk' hcurrent, Value.lookup_append, hholder, Option.bind_some,
        Value.lookup_cons, hadded.part]
      rfl
    refine ⟨hfound, ?_⟩
    rw [remove_concat hk' hholder hfound, hadded.rest, Value.withPart_withPart hlookup, Value.withPart_self hv hlookup]
  · rw [he] at h
    cases h

/-! ### Queries -/

/-- A query with another last node removes what was written, if the one takes away what the other one adds. -/
theorem delete_of_added {front : Path PlainPath} {s t : Segment PlainPath} (hq : q.Parsed) (hroot : q.seq = 0)
    (hb : q.BracketFree) (ho : Path.overwrites q.path = false) (hmakes : Path.makes q.path = false) (hd : d.Ordered)
    (h : d.set q new = .ok d₂) (hpath : q.path = front ++ [s]) (ha : Path.appends front = false)
    (hr : r.path = front ++ [t]) (hrroot : r.seq = 0) (hrm : Path.moves r.path = false)
    (hk : keyIn d s.body = .ok k) (hk' : keyIn d₂ t.body = .ok k')
    (hadded : ∀ w w', d.lookup (Path.keys (keyIn d) front) = some w →
      w.put false false q.leaf.display new k = .ok w' → Value.Added w k' new w') : d₂.delete r = .ok d := by
  obtain ⟨hdeletes, hm, -⟩ := set_ok h
  have hfront : Readable (keyIn d) front := fun u hu => by
    obtain ⟨x, hx, happend⟩ := Query.exists_key hq hb (s := u) (by simp [hpath, hu]) d
    exact ⟨x, hx, fun hxa => Bool.false_ne_true ((Path.any_eq_false_iff.mp ha u hu).symm.trans (happend.mp hxa))⟩
  have hmake : ∀ u ∈ front ++ [s], u.commands.make = false := hpath ▸ Path.any_eq_false_iff.mp hmakes
  obtain ⟨hmake, hlast⟩ := List.forall_mem_append.mp hmake
  have hsame : ∀ u ∈ front, keyIn d u.body = keyIn d₂ u.body := fun u hu => keyIn_eq (hb u (by simp [hpath, hu])) d d₂
  rw [set_eq_assign hdeletes hm, ho, Query.remaining_of_root hroot, hroot, hpath] at h
  obtain ⟨hwalk, hremove⟩ :=
    remove_of_assign hfront hmake hsame (hlast s List.mem_cons_self) hk hk' hd hadded h
  rw [← hr, ← Query.remaining_of_root hrroot] at hwalk hremove
  rw [Value.delete_of_walk hrm hwalk, hremove]
  rfl

/-- A write without `=`, `$` and brackets is undone by a removal. At a name the same query removes what was written. Where
    a `+` stands at the end and nowhere else, the value is removed at the index behind the elements that were there. -/
theorem delete_of_set (hq : q.Parsed) (hroot : q.seq = 0) (hb : q.BracketFree) (ho : Path.overwrites q.path = false)
    (hmakes : Path.makes q.path = false) (hd : d.Ordered) (h : d.set q new = .ok d₂) :
    (Path.appends q.path = false → ∀ name, q.leaf.segment.body = .field name → d₂.delete q = .ok d) ∧
      (Path.appends q.path.dropLast = false → q.leaf.segment.body = .append →
        ∀ items, d.lookup (Path.keys (keyIn d) q.path.dropLast) = some (.array items) → items.length < 2 ^ 32 →
          (q.indexed items.length).Parsed ∧ d₂.delete (q.indexed items.length) = .ok d) := by
  have hm := (set_ok h).2.1
  obtain ⟨front, s, hpath⟩ := q.exists_path_concat
  have hbody : s.body = q.leaf.segment.body :=
    Query.body_of_getLast? (by rw [Query.remaining_of_root hroot, hpath, List.getLast?_concat]; rfl)
  constructor
  · intro ha name hname
    have hk : ∀ e, keyIn e s.body = .ok (.name name) := fun e => by rw [hbody, hname]; rfl
    have ha : Path.appends front = false := Path.any_eq_false_iff.mpr fun u hu =>
      Path.any_eq_false_iff.mp ha u (by simp [hpath, hu])
    exact delete_of_added hq hroot hb ho hmakes hd h hpath ha hpath hroot hm (hk d) (hk d₂)
      fun w w' hw => Value.added_put_name (hd.lookup hw)
  · intro ha happend items hitems hlt
    rw [hpath, List.dropLast_concat] at ha hitems
    have hk : keyIn d s.body = .ok .append := by rw [hbody, happend]; rfl
    have hs : s.commands.append = true := ((Query.parsed_iff.mp hq).append s (by simp [hpath])).mpr (hbody.trans happend)
    have hindexed : (q.indexed items.length).path = front ++ [s.indexed items.length] := by
      refine (congrArg (List.map (Segment.indexed items.length)) hpath).trans ?_
      rw [List.map_append, Path.map_indexed (Path.any_eq_false_iff.mp ha), List.map_singleton]
    have hmoves : Path.moves (q.indexed items.length).path = false := (Path.moves_indexed _ _).trans hm
    refine ⟨Query.indexed_parsed hq hlt, ?_⟩
    refine delete_of_added hq hroot hb ho hmakes hd h hpath ha hindexed hroot hmoves hk (keyIn_indexed hs d₂)
      fun w w' hw hput => ?_
    obtain rfl := Option.some.inj (hitems.symm.trans hw)
    exact Value.added_put_append hput

/-- The field that `a.b` adds is removed at `a.b`, and the element that `a.+` adds behind another one at `a.1`. -/
theorem delete_of_set_added :
    (Value.object [("a", .object [("b", .int 1)])]).delete
        ⟨[⟨{}, .field "a", false⟩, ⟨{}, .field "b", false⟩], 0, by decide⟩ = .ok (.object [("a", .object [])]) ∧
      (Value.object [("a", .array [.int 1, .int 2])]).delete
        ⟨[⟨{}, .field "a", false⟩, ⟨{}, .index ['1'], false⟩], 0, by decide⟩ =
        .ok (.object [("a", .array [.int 1])]) := by
  have hname : Query.parse "a.b" = .ok ⟨[⟨{}, .field "a", false⟩, ⟨{}, .field "b", false⟩], 0, by decide⟩ := rfl
  have happend : Query.parse "a.+" =
      .ok ⟨[⟨{}, .field "a", false⟩, ⟨{ append := true }, .append, false⟩], 0, by decide⟩ := rfl
  have hfields : (Value.object [("a", .object [])]).Ordered := Value.ordered_empty.insert Value.ordered_empty "a"
  have hitems : (Value.object [("a", .array [.int 1])]).Ordered :=
    Value.ordered_empty.insert (v := .array [.int 1]) ⟨trivial, trivial⟩ "a"
  have hset : (Value.object [("a", .object [])]).set
      ⟨[⟨{}, .field "a", false⟩, ⟨{}, .field "b", false⟩], 0, by decide⟩ (.int 1) =
      .ok (.object [("a", .object [("b", .int 1)])]) := rfl
  have hsetEnd : (Value.object [("a", .array [.int 1])]).set
      ⟨[⟨{}, .field "a", false⟩, ⟨{ append := true }, .append, false⟩], 0, by decide⟩ (.int 2) =
      .ok (.object [("a", .array [.int 1, .int 2])]) := rfl
  constructor
  · exact (delete_of_set ⟨"a.b", _, hname, rfl⟩ rfl (by simp [Query.BracketFree, Body.isBracket]) rfl rfl hfields
      hset).1 rfl "b" rfl
  · exact ((delete_of_set ⟨"a.+", _, happend, rfl⟩ rfl (by simp [Query.BracketFree, Body.isBracket]) rfl rfl hitems
      hsetEnd).2 rfl rfl [.int 1] rfl (by decide)).2

end TreeQuery
