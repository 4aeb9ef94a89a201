import TreeQuery.Proofs.Document.Remove
import TreeQuery.Proofs.Query.Concat

/-! # Reading and writing along two paths

A path behind another one begins where the other one ends. Reading along the two is reading along the second one in the
value that the first one finds (`get_concat`), and where the first one finds nothing or fails, so do both. Writing
along the two is writing in that value, and putting what it becomes in its place (`set_concat`). -/

namespace TreeQuery

variable {σ : Type} {key key' : Body σ → Except ReadError Key} {p behind : Path σ} {v w d d₂ new : Value}
  {make overwrite : Bool} {place spec : String} {a b ab : Query}

/-! ### Paths -/

theorem walk_congr (h : ∀ s ∈ p, key s.body = key' s.body) : walk spec key p v = walk spec key' p v := by
  induction p generalizing v with
  | nil => rfl
  | cons s p ih =>
    obtain ⟨hs, hp⟩ := List.forall_mem_cons.mp h
    simp only [walk, hs, ih hp]

theorem walk_append : walk spec key (p ++ behind) v =
    (walk spec key p v).bind fun found => found.elim (.ok none) (walk spec key behind) := by
  induction p generalizing v with
  | nil => rfl
  | cons s p ih =>
    cases hk : key s.body with
    | error e => simp only [List.cons_append, walk, hk, bind, Except.bind]
    | ok k =>
      rw [List.cons_append, walk_cons hk, walk_cons hk]
      cases v.select spec s.commands.maybe k with
      | error e => rfl
      | ok found =>
        cases found with
        | none => rfl
        | some c => exact ih

/-- Where a path without `$` leads to a value, a write behind it is a write in that value. -/
theorem assign_append (hp : ∀ s ∈ p, s.commands.make = false) (hbehind : behind ≠ [])
    (h : walk spec key p v = .ok (some w)) :
    assign key overwrite place new make (p ++ behind) v =
      (assign key overwrite place new make behind w).map fun w' => Value.withPart (Path.keys key p) w' v := by
  induction p generalizing v with
  | nil =>
    obtain rfl : v = w := Option.some.inj (Except.ok.inj h)
    rw [List.nil_append]
    cases assign key overwrite place new make behind v with
    | error e => rfl
    | ok w' => rfl
  | cons s p ih =>
    obtain ⟨hs, hp⟩ := List.forall_mem_cons.mp hp
    obtain ⟨k, hk, c, hchild, hrest⟩ := walk_cons_some h
    obtain ⟨next, rest, hnext⟩ := List.exists_cons_of_ne_nil (List.append_ne_nil_of_right_ne_nil p hbehind)
    have hedit := ih hp hrest
    rw [hnext] at hedit
    rw [List.cons_append, hnext, assign_cons_cons hk, hs, Bool.or_false]
    rcases hchild with ⟨rfl, rfl⟩ | hchild
    · rw [Path.keys_cons_current hk]
      exact hedit
    · have hc : k ≠ .current := by
        rintro rfl
        cases hchild
      rw [Value.enter_of_child? hchild, hedit, Path.keys_cons hk hc]
      cases assign key overwrite place new make behind w with
      | error e => rfl
      | ok w' => exact congrArg Except.ok (Value.withPart_cons hchild w').symm

/-! ### Queries -/

theorem Query.followedBy_readonly (ha : a.checkReadonly = .ok ()) (hb : b.checkReadonly = .ok ()) :
    (a.followedBy b).checkReadonly = .ok () := by
  rw [checkReadonly_ok_iff] at ha hb ⊢
  exact ⟨(any_followedBy ha.1).trans hb.1, (any_followedBy ha.2).trans hb.2⟩

theorem Query.walk_followedBy (ha : a.Parsed) (hb : b.Parsed) (hra : a.seq = 0) (hreada : a.checkReadonly = .ok ())
    (hreadb : b.checkReadonly = .ok ()) : walk (a.followedBy b).spec (keyIn d) (a.followedBy b).remaining d =
      (walk a.spec (keyIn d) a.remaining d).bind fun found => found.elim (.ok none) (walk b.spec (keyIn d) b.path) := by
  have hfront : walk (a.followedBy b).spec (keyIn d) a.path d = walk a.spec (keyIn d) a.path d :=
    walk_congr_spec (keyIn_ne_append ha hreada)
  have hbehind : walk (a.followedBy b).spec (keyIn d) b.path = walk b.spec (keyIn d) b.path :=
    funext fun _ => walk_congr_spec (keyIn_ne_append hb hreadb)
  rw [remaining_of_root hra, ← hfront, ← hbehind]
  exact walk_append

/-- Without brackets it does not matter to a path in which document it is followed. -/
theorem Query.walk_behind (hrb : b.seq = 0) (hfree : b.BracketFree) :
    walk b.spec (keyIn d) b.path w = walk b.spec (keyIn w) b.remaining w := by
  rw [remaining_of_root hrb]
  exact walk_congr fun s hs => keyIn_eq (hfree s hs) d w

section
variable (ha : a.Parsed) (hb : b.Parsed) (hra : a.seq = 0) (hrb : b.seq = 0)
  (hreada : a.checkReadonly = .ok ()) (hreadb : b.checkReadonly = .ok ()) (hfree : b.BracketFree)
include ha hb hra hrb hreada hreadb hfree

theorem get_followedBy : d.get (a.followedBy b) =
    (walk a.spec (keyIn d) a.remaining d).bind fun found => found.elim (.ok .null) (·.get b) := by
  rw [Value.get_eq_walk (Query.followedBy_readonly hreada hreadb), Query.walk_followedBy ha hb hra hreada hreadb]
  cases walk a.spec (keyIn d) a.remaining d with
  | error e => rfl
  | ok found =>
    cases found with
    | none => rfl
    | some w =>
      rw [Except.bind, Option.elim_some, Query.walk_behind hrb hfree, Except.bind, Option.elim_some,
        Value.get_eq_walk hreadb]

theorem has_followedBy : d.has (a.followedBy b) =
    match walk a.spec (keyIn d) a.remaining d with
    | .ok found => found.elim (.ok false) (·.has b)
    | .error e => if Value.isAbsence e then .ok false else .error e := by
  rw [Value.has_eq_walk (Query.followedBy_readonly hreada hreadb), Query.walk_followedBy ha hb hra hreada hreadb]
  cases walk a.spec (keyIn d) a.remaining d with
  | error e => rfl
  | ok found =>
    cases found with
    | none => rfl
    | some w =>
      rw [Except.bind, Option.elim_some, Query.walk_behind hrb hfree]
      exact (Value.has_eq_walk hreadb).symm

end

/-- Where `a` finds a value, what it is followed by is read in that value. Where it fails, so does the whole, in the
    same way, and where it finds nothing, nothing is found. -/
theorem get_concat (ha : a.Parsed) (hb : b.Parsed) (hra : a.seq = 0) (hrb : b.seq = 0)
    (hreada : a.checkReadonly = .ok ()) (hreadb : b.checkReadonly = .ok ()) (hfree : b.BracketFree)
    (hab : a.concat b = .ok ab) (d : Value) :
    (d.has a = .ok true → ∃ w, d.get a = .ok w ∧ d.get ab = w.get b ∧ d.has ab = w.has b) ∧
      (∀ e, d.get a = .error e → d.get ab = .error e) ∧
      ∀ w, d.get a = .ok w → d.has a = .ok false → d.get ab = .ok .null ∧ d.has ab = .ok false := by
  obtain rfl := Query.concat_eq ha hb hab
  rw [Value.get_normal, Value.has_normal, get_followedBy ha hb hra hrb hreada hreadb hfree,
    has_followedBy ha hb hra hrb hreada hreadb hfree, Value.get_eq_walk hreada, Value.has_eq_walk hreada]
  cases walk a.spec (keyIn d) a.remaining d with
  | error e =>
    refine ⟨fun hhas => ?_, fun e' herror => ?_, fun w hget => ?_⟩
    · dsimp only at hhas
      split at hhas <;> cases hhas
    · cases herror
      rfl
    · cases hget
  | ok found =>
    cases found with
    | none =>
      refine ⟨fun hhas => ?_, fun e herror => ?_, fun w hget hhas => ⟨rfl, rfl⟩⟩
      · cases hhas
      · cases herror
    | some w =>
      refine ⟨fun hhas => ⟨w, rfl, rfl, rfl⟩, fun e herror => ?_, fun w' hget hhas => ?_⟩
      · cases herror
      · cases hhas

/-- `[k]` finds the object at `a`, and `[k].?b` reads in it what `?b` does. -/
theorem get_concat_bracket :
    (Value.object [("a", .object [("b", .int 1)]), ("k", .str "a")]).get
      ⟨[⟨{}, .bracket ['k'] [⟨{}, .field "k", false⟩], false⟩, ⟨{ maybe := true }, .field "b", false⟩], 0, by decide⟩ =
      (Value.object [("b", .int 1)]).get ⟨[⟨{ maybe := true }, .field "b", false⟩], 0, by decide⟩ := by
  have hfront : Query.parse "[k]" = .ok ⟨[⟨{}, .bracket ['k'] [⟨{}, .field "k", false⟩], false⟩], 0, by decide⟩ := rfl
  have hbehind : Query.parse "?b" = .ok ⟨[⟨{ maybe := true }, .field "b", false⟩], 0, by decide⟩ := rfl
  have hconcat : Query.concat ⟨[⟨{}, .bracket ['k'] [⟨{}, .field "k", false⟩], false⟩], 0, by decide⟩
      ⟨[⟨{ maybe := true }, .field "b", false⟩], 0, by decide⟩ =
      .ok ⟨[⟨{}, .bracket ['k'] [⟨{}, .field "k", false⟩], false⟩, ⟨{ maybe := true }, .field "b", false⟩], 0,
        by decide⟩ := rfl
  obtain ⟨hfound, -, -⟩ := get_concat ⟨"[k]", _, hfront, rfl⟩ ⟨"?b", _, hbehind, rfl⟩ rfl rfl rfl rfl
    (by simp [Query.BracketFree, Body.isBracket]) hconcat
    (.object [("a", .object [("b", .int 1)]), ("k", .str "a")])
  obtain ⟨w, hget, hsame, -⟩ := hfound rfl
  cases hget
  exact hsame

/-- Where `a` finds a value, a write behind it is the write in that value, up to the text that an error quotes. -/
theorem set_followedBy (hra : a.seq = 0) (hrb : b.seq = 0) (hread : a.checkReadonly = .ok ()) (hfree : b.BracketFree)
    (hd : Path.deletes b.path = false) (hm : Path.moves b.path = false)
    (hwalk : walk a.spec (keyIn d) a.remaining d = .ok (some w)) (new : Value) :
    Outcome.Agree Error.unquoted (d.set (a.followedBy b) new)
      ((w.set b new).map fun w' => Value.withPart (a.keys d) w' d) := by
  obtain ⟨hwrites, hmoves⟩ := Query.checkReadonly_ok_iff.mp hread
  obtain ⟨hoverwrites, hmakes, -, hdeletes⟩ := Path.writes_eq_false_iff.mp hwrites
  have hkeys : ∀ s ∈ b.path, keyIn d s.body = keyIn w s.body := fun s hs => keyIn_eq (hfree s hs) d w
  have hoverwrites : Path.overwrites (a.followedBy b).path = Path.overwrites b.path := Query.any_followedBy hoverwrites
  -- No command of `a` writes, so those of `b` mean behind `a` what they mean by themselves.
  have hwhole : d.set (a.followedBy b) new = (assign (keyIn d) (Path.overwrites b.path) (a.followedBy b).leaf.display
      new false b.path w).map fun w' => Value.withPart (a.keys d) w' d := by
    rw [set_eq_assign ((Query.any_followedBy hdeletes).trans hd) ((Query.any_followedBy hmoves).trans hm),
      hoverwrites, Query.keys, Query.remaining_of_root hra]
    exact assign_append (Path.any_eq_false_iff.mp hmakes) b.path_ne_nil (Query.remaining_of_root hra ▸ hwalk)
  have hpart : w.set b new = assign (keyIn w) (Path.overwrites b.path) b.leaf.display new false b.path w := by
    rw [set_eq_assign hd hm, Query.remaining_of_root hrb, hrb]
    rfl
  rw [hwhole, hpart, assign_congr hkeys]
  exact assign_agree.map _

/-- Where `a` finds a value, a write at what follows it succeeds exactly if it does in that value. The document then has
    what this becomes in its place: the keys of `a` lead to it, they are read as it, and what other keys lead to is as it
    was. -/
theorem set_concat (ha : a.Parsed) (hb : b.Parsed) (hra : a.seq = 0) (hrb : b.seq = 0)
    (hread : a.checkReadonly = .ok ()) (hfree : b.BracketFree) (hd : Path.deletes b.path = false)
    (hm : Path.moves b.path = false) (hab : a.concat b = .ok ab) (hhas : d.has a = .ok true) :
    ∃ w, d.get a = .ok w ∧ d.lookup (a.keys d) = some w ∧ ∀ new,
      ((∃ d₂, d.set ab new = .ok d₂) ↔ ∃ w₂, w.set b new = .ok w₂) ∧
        ∀ w₂, w.set b new = .ok w₂ → ∃ d₂, d.set ab new = .ok d₂ ∧ d₂ = Value.withPart (a.keys d) w₂ d ∧
          d₂.lookup (a.keys d) = some w₂ ∧ (a.BracketFree → d₂.has a = .ok true ∧ d₂.get a = .ok w₂) ∧
          ∀ ks, Diverges ks (a.keys d) → d₂.lookup ks = d.lookup ks := by
  obtain rfl := Query.concat_eq ha hb hab
  obtain ⟨w, hwalk, hget⟩ := walk_of_has hhas
  obtain ⟨hreadable, hlookup⟩ := walk_ok_some_iff.mp hwalk
  refine ⟨w, hget, hlookup, fun new => ?_⟩
  have hset : ∀ d₂, d.set (a.followedBy b).normal new = .ok d₂ ↔
      ∃ w₂, w.set b new = .ok w₂ ∧ Value.withPart (a.keys d) w₂ d = d₂ := fun d₂ => by
    rw [Value.set_normal, (set_followedBy hra hrb hread hfree hd hm hwalk new).ok_iff, Outcome.map_ok_iff]
  refine ⟨⟨fun ⟨d₂, hd₂⟩ => ?_, fun ⟨w₂, hw₂⟩ => ⟨_, (hset _).mpr ⟨w₂, hw₂, rfl⟩⟩⟩, fun w₂ hw₂ => ?_⟩
  · obtain ⟨w₂, hw₂, -⟩ := (hset d₂).mp hd₂
    exact ⟨w₂, hw₂⟩
  · refine ⟨_, (hset _).mpr ⟨w₂, hw₂, rfl⟩, rfl, Value.lookup_withPart hlookup w₂, fun hbracket => ?_,
      fun ks hdiv => Value.lookup_withPart_of_diverges hlookup hdiv w₂⟩
    have hkeys : ∀ s ∈ a.remaining, keyIn d s.body = keyIn (Value.withPart (a.keys d) w₂ d) s.body := fun s hs =>
      keyIn_eq (hbracket s (List.mem_of_mem_drop hs)) d _
    rw [found_iff hread, ← walk_congr hkeys]
    exact walk_ok_some_iff.mpr ⟨hreadable, Value.lookup_withPart hlookup w₂⟩

/-- Writing at `a.0.$b.c` is writing at `$b.c` in the first element of `a`. -/
theorem set_concat_created :
    ∃ w₂, (Value.object [("b", .null)]).set
        ⟨[⟨{ make := true }, .field "b", false⟩, ⟨{}, .field "c", false⟩], 0, by decide⟩ (.int 1) = .ok w₂ ∧
      ∃ d₂, (Value.object [("a", .array [.object [("b", .null)]])]).set
          ⟨[⟨{}, .field "a", false⟩, ⟨{}, .index ['0'], false⟩, ⟨{ make := true }, .field "b", false⟩,
            ⟨{}, .field "c", false⟩], 0, by decide⟩ (.int 1) = .ok d₂ ∧
        d₂.get ⟨[⟨{}, .field "a", false⟩, ⟨{}, .index ['0'], false⟩], 0, by decide⟩ = .ok w₂ := by
  have hfront : Query.parse "a.0" = .ok ⟨[⟨{}, .field "a", false⟩, ⟨{}, .index ['0'], false⟩], 0, by decide⟩ := rfl
  have hbehind : Query.parse "$b.c" =
      .ok ⟨[⟨{ make := true }, .field "b", false⟩, ⟨{}, .field "c", false⟩], 0, by decide⟩ := rfl
  have hconcat : Query.concat ⟨[⟨{}, .field "a", false⟩, ⟨{}, .index ['0'], false⟩], 0, by decide⟩
      ⟨[⟨{ make := true }, .field "b", false⟩, ⟨{}, .field "c", false⟩], 0, by decide⟩ =
      .ok ⟨[⟨{}, .field "a", false⟩, ⟨{}, .index ['0'], false⟩, ⟨{ make := true }, .field "b", false⟩,
        ⟨{}, .field "c", false⟩], 0, by decide⟩ := rfl
  obtain ⟨w, hget, -, hset⟩ := set_concat (d := .object [("a", .array [.object [("b", .null)]])])
    ⟨"a.0", _, hfront, rfl⟩ ⟨"$b.c", _, hbehind, rfl⟩ rfl rfl rfl (by simp [Query.BracketFree, Body.isBracket]) rfl rfl
    hconcat rfl
  cases hget
  obtain ⟨d₂, hd₂, -, -, hread, -⟩ := (hset (.int 1)).2 (.object [("b", .object [("c", .int 1)])]) rfl
  exact ⟨_, rfl, d₂, hd₂, (hread (by simp [Query.BracketFree, Body.isBracket])).2⟩

end TreeQuery
