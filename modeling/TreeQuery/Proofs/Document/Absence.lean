import TreeQuery.Proofs.Document.Extend

/-! # Where nothing is

A query that only reads is answered by following its path. That fails where nothing is or where something of another
kind is, or over an integer in a bracket that is no index, and for no other reason (`walk_error`): what else reading
could report is kept out of every path, and out of the brackets in it, when its text is read. So `get` and `has` follow
the path to the same end (`Value.get_has_cases`), and one `?` more on it lets some failures pass and changes nothing
else (`walk_of_extends`). -/

namespace TreeQuery

variable {σ : Type} {Inner : List Char → σ → Prop} {evaluate : σ → Except ReadError Value}
  {key : Body σ → Except ReadError Key} {p p' : Path σ} {s t : Segment σ} {v d : Value} {k : Key} {e : ReadError}
  {q : Query} {spec : String}

/-! ### Errors about a document -/

/-- An error about what is in a document: there is nothing, or something of another kind, or an integer that is no
    index. -/
def ReadError.OfDocument (e : ReadError) : Prop := Value.isAbsence e = true ∨ ∃ i, e = .integerOverflow i

theorem Value.isAbsence_of_select {m : Bool} (ha : k ≠ .append) (h : v.select spec m k = .error e) :
    isAbsence e = true := by
  by_cases hc : k = .current
  · subst hc
    cases h
  · cases hchild : v.child? k with
    | some c =>
      rw [select_of_child? hchild] at h
      cases h
    | none =>
      rcases absent_select hc ha hchild with hn | ⟨e', he, habsent⟩
      · cases hn.symm.trans h
      · exact Except.error.inj (he.symm.trans h) ▸ habsent

theorem Value.key_error (h : v.key = .error e) : e.OfDocument := by
  cases v with
  | str => cases h
  | int i =>
    rw [Value.key] at h
    split at h
    · cases h
    · exact Or.inr ⟨i, (Except.error.inj h).symm⟩
  | null | bool | decimal | array | object => exact Except.error.inj h ▸ Or.inl rfl

/-! ### Following a path -/

/-- Each segment has a key that selects from a value, or fails over what is in the document. -/
def Answerable (key : Body σ → Except ReadError Key) (p : Path σ) : Prop :=
  ∀ s ∈ p, key s.body ≠ .ok .append ∧ ∀ e, key s.body = .error e → e.OfDocument

theorem walk_error (hp : Answerable key p) (h : walk spec key p v = .error e) : e.OfDocument := by
  induction p generalizing v with
  | nil => cases h
  | cons s p ih =>
    obtain ⟨⟨happend, hkey⟩, hp⟩ := List.forall_mem_cons.mp hp
    rcases Outcome.bind_error_iff.mp h with h | ⟨k, hk, h⟩
    · exact hkey e h
    rcases Outcome.bind_error_iff.mp h with h | ⟨found, -, h⟩
    · exact Or.inl (Value.isAbsence_of_select (fun ha => happend (ha ▸ hk)) h)
    · cases found with
      | none => cases h
      | some c => exact ih hp h

/-- A path without `+` can be followed, if the brackets in it fail over the document at most. -/
theorem answerable_of_wellFormed (hw : Path.WellFormed Inner p) (ha : Path.appends p = false)
    (heval : ∀ raw inner, Inner raw inner → ∀ e, evaluate inner = .error e → e.OfDocument) :
    Answerable (Body.key evaluate) p := by
  intro s hs
  have hbody := hw.bodies s hs
  have hne : s.body ≠ .append := fun hb => List.any_eq_false.mp ha s hs ((hw.append s hs).mpr hb)
  refine ⟨Body.key_ne_append hne, fun e h => ?_⟩
  cases hb : s.body with
  | append => exact absurd hb hne
  | here | field | index =>
    rw [hb] at h
    cases h
  | bracket raw inner =>
    rw [hb] at hbody h
    rcases Outcome.bind_error_iff.mp h with h | ⟨w, -, hk⟩
    · exact heval raw inner hbody e h
    · exact Value.key_error hk

/-- What is in a bracket is a path that reads, so its failures are about the document too. -/
theorem readFrom_error {raw : List Char} {inner : PlainPath} (h : Bracketed raw inner)
    (he : readFrom plainKey inner 0 d = .error e) : e.OfDocument := by
  obtain ⟨hw, -, hwrites, hmoves⟩ := h
  have ha := Path.appends_of_not_writes hwrites
  have hanswerable : Answerable plainKey inner := answerable_of_wellFormed hw ha fun _ _ h => h.elim
  rw [readFrom, ha, hwrites, hmoves] at he
  exact walk_error hanswerable (Outcome.map_error_iff.mp he)

theorem Query.answerable (hq : q.Parsed) (ha : Path.appends q.path = false) : Answerable (keyIn d) q.remaining := by
  have hpath : Answerable (keyIn d) q.path :=
    answerable_of_wellFormed (parsed_iff.mp hq) ha fun _ _ h _ => readFrom_error h
  exact fun s hs => hpath s (List.mem_of_mem_drop hs)

namespace Value

/-! ### Getting and having -/

/-- The three ways in which reading ends: the path finds something or passes a `?`, nothing of the kind is there, or an
    integer is no index. -/
theorem get_has_cases (hq : q.Parsed) (hread : q.checkReadonly = .ok ()) (d : Value) :
    (∃ found, walk q.spec (keyIn d) q.remaining d = .ok found ∧ d.get q = .ok (found.getD .null) ∧
      d.has q = .ok found.isSome) ∨
    (∃ e, d.get q = .error e ∧ isAbsence e = true ∧ d.has q = .ok false) ∨
    ∃ i, d.get q = .error (.integerOverflow i) ∧ d.has q = .error (.integerOverflow i) := by
  rw [get_eq_walk hread, has_eq_walk hread]
  cases hwalk : walk q.spec (keyIn d) q.remaining d with
  | ok found => exact Or.inl ⟨found, rfl, rfl, rfl⟩
  | error e =>
    have ha := Path.appends_of_not_writes (Query.checkReadonly_ok_iff.mp hread).1
    rcases walk_error (Query.answerable hq ha) hwalk with habsent | ⟨i, rfl⟩
    · exact Or.inr (Or.inl ⟨e, rfl, habsent, if_pos habsent⟩)
    · exact Or.inr (Or.inr ⟨i, rfl, rfl⟩)

theorem not_readonly (h : Path.writes q.path = true ∨ Path.moves q.path = true) (d : Value) :
    d.has q = .error (.notReadonly q.spec) ∧
      d.get q = .error (if Path.appends q.path then .indeterministic q.spec else .notReadonly q.spec) := by
  have hblocked : (Path.writes q.path || Path.moves q.path) = true := Bool.or_eq_true_iff.mpr h
  refine ⟨if_pos hblocked, ?_⟩
  rw [get, readFrom, if_pos hblocked]
  split <;> rfl

/-- `has` and `get` refuse the same queries. Of a query that reads, an integer that is no index is the one thing that
    both report; where `get` fails in another way `has` says no, and it says yes where `get` gives more than null. The
    other way round a yes means that `get` gives something, and without `?` the two say the same. -/
theorem has_agrees_get (hq : q.Parsed) (d : Value) :
    (Path.writes q.path = true ∨ Path.moves q.path = true → d.has q = .error (.notReadonly q.spec) ∧
      d.get q = .error (if Path.appends q.path then .indeterministic q.spec else .notReadonly q.spec)) ∧
    (Path.writes q.path = false → Path.moves q.path = false →
      (∀ e, d.has q = .error e ↔ d.get q = .error e ∧ ∃ i, e = .integerOverflow i) ∧
      (∀ e, d.get q = .error e → isAbsence e = true ∨ ∃ i, e = .integerOverflow i) ∧
      (∀ e, d.get q = .error e → isAbsence e = true → d.has q = .ok false) ∧
      (∀ v, d.get q = .ok v → v ≠ .null → d.has q = .ok true) ∧
      (d.has q = .ok true → ∃ v, d.get q = .ok v) ∧
      ((∀ s ∈ q.remaining, s.commands.maybe = false) → (d.has q = .ok true ↔ ∃ v, d.get q = .ok v))) ∧
    ∀ spec, d.has q ≠ .error (.indeterministic spec) := by
  refine ⟨fun h => not_readonly h d, fun hwrites hmoves => ?_, fun spec h => ?_⟩
  · have hread := Query.checkReadonly_ok_iff.mpr ⟨hwrites, hmoves⟩
    rcases get_has_cases hq hread d with ⟨found, hwalk, hget, hhas⟩ | ⟨e, hget, habsent, hhas⟩ | ⟨i, hget, hhas⟩
    · rw [hget, hhas]
      refine ⟨by simp, by simp, by simp, fun v hv hne => ?_, fun _ => ⟨_, rfl⟩, fun hmaybe => ?_⟩
      · cases found with
        | none => exact absurd (Except.ok.inj hv).symm hne
        | some w => rfl
      · cases found with
        | none => exact absurd hwalk (walk_ne_none hmaybe)
        | some w => exact iff_of_true rfl ⟨w, rfl⟩
    · have hindex : ∀ i, e ≠ .integerOverflow i := by
        rintro i rfl
        cases habsent
      rw [hget, hhas]
      simp [habsent, hindex]
    · rw [hget, hhas]
      simp [isAbsence]
  · by_cases hblocked : Path.writes q.path = true ∨ Path.moves q.path = true
    · cases (not_readonly hblocked d).1.symm.trans h
    · rw [not_or, Bool.not_eq_true, Bool.not_eq_true] at hblocked
      have hread := Query.checkReadonly_ok_iff.mpr hblocked
      rcases get_has_cases hq hread d with ⟨_, -, -, hhas⟩ | ⟨_, -, -, hhas⟩ | ⟨_, -, hhas⟩ <;> cases hhas.symm.trans h

/-- `a.[k]` is there in a document whose `k` names a field of its `a`. -/
theorem has_agrees_get_bracket :
    (object [("a", object [("x", int 1)]), ("k", str "x")]).has
      ⟨[⟨{}, .field "a", false⟩, ⟨{}, .bracket ['k'] [⟨{}, .field "k", false⟩], false⟩], 0, by decide⟩ = .ok true := by
  have hread : Query.parse "a.[k]" =
      .ok ⟨[⟨{}, .field "a", false⟩, ⟨{}, .bracket ['k'] [⟨{}, .field "k", false⟩], false⟩], 0, by decide⟩ := rfl
  obtain ⟨-, hagree, -⟩ :=
    has_agrees_get (Query.parsed_of_parse hread) (object [("a", object [("x", int 1)]), ("k", str "x")])
  obtain ⟨-, -, -, hvalue, -⟩ := hagree rfl rfl
  exact hvalue (int 1) rfl nofun

end Value

/-! ### One `?` more -/

/-- The errors that a `?` excuses: nothing is there, or null is. -/
def ReadError.Excusable : ReadError → Prop
  | .missingKey _ | .outOfBounds .. => True
  | .unexpectedType _ found => found = Tag.nilTag
  | .indeterministic _ | .notReadonly _ | .integerOverflow _ => False

theorem ReadError.Excusable.isAbsence (h : e.Excusable) : Value.isAbsence e = true := by
  cases e with
  | missingKey | outOfBounds | unexpectedType => rfl
  | indeterministic | notReadonly | integerOverflow => exact h.elim

/-- With a `?` the same is selected, but for the failures that it excuses. -/
theorem Value.select_true (v : Value) (k : Key) : v.select spec true k = v.select spec false k ∨
    ∃ e, v.select spec false k = .error e ∧ e.Excusable ∧ v.select spec true k = .ok none := by
  cases k with
  | current | append => exact Or.inl rfl
  | name name =>
    cases v with
    | object fields =>
      simp only [select]
      cases Fields.get? name fields with
      | some c => exact Or.inl rfl
      | none => exact Or.inr ⟨_, rfl, trivial, rfl⟩
    | null => exact Or.inr ⟨_, rfl, rfl, rfl⟩
    | bool | int | decimal | str | array => exact Or.inl rfl
  | index i =>
    cases v with
    | array items =>
      simp only [select]
      cases items[i]? with
      | some c => exact Or.inl rfl
      | none => exact Or.inr ⟨_, rfl, trivial, rfl⟩
    | null => exact Or.inr ⟨_, rfl, rfl, rfl⟩
    | bool | int | decimal | str | object => exact Or.inl rfl

theorem Value.select_mono {m m' : Bool} (hm : m = true → m' = true) (v : Value) (k : Key) :
    v.select spec m' k = v.select spec m k ∨
      ∃ e, v.select spec m k = .error e ∧ e.Excusable ∧ v.select spec m' k = .ok none := by
  cases m with
  | true => exact Or.inl (by rw [hm rfl])
  | false =>
    cases m' with
    | true => exact v.select_true k
    | false => exact Or.inl rfl

/-- A path with more commands leads where it led before, or past a failure that one of them excuses. -/
theorem walk_of_extends (key : Body σ → Except ReadError Key) (h : Path.Extends p p') (v : Value) :
    walk spec key p' v = walk spec key p v ∨
      ∃ e, walk spec key p v = .error e ∧ e.Excusable ∧ walk spec key p' v = .ok none := by
  induction h generalizing v with
  | nil => exact Or.inl rfl
  | @cons s t rest rest' hst _ ih =>
    have hkey : key t.body = key s.body := congrArg key hst.body
    have hmaybe : s.commands.maybe = true → t.commands.maybe = true := hst.commands .maybe
    cases hk : key s.body with
    | error e =>
      -- What stands in a bracket is not excused by a `?` in front of it.
      refine Or.inl ?_
      simp only [walk, hkey, hk]
      rfl
    | ok k =>
      rw [walk_cons hk, walk_cons (hkey.trans hk)]
      rcases v.select_mono hmaybe k with hsame | ⟨e, hfail, he, hnone⟩
      · rw [hsame]
        cases v.select spec s.commands.maybe k with
        | error e => exact Or.inl rfl
        | ok found =>
          cases found with
          | none => exact Or.inl rfl
          | some c => exact ih c
      · rw [hfail, hnone]
        exact Or.inr ⟨e, rfl, he, rfl⟩

namespace Query

variable {chosen : Nat → Bool}

/-- The query with `?` written on the nodes chosen. -/
def excused (q : Query) (chosen : Nat → Bool) : Query :=
  ⟨q.path.mapIdx fun i s => if chosen i then s.edit (·.insert .maybe) else s, q.seq, by
    rw [List.length_mapIdx]
    exact q.seq_lt⟩

theorem extends_excused (q : Query) (chosen : Nat → Bool) : Path.Extends q.path (q.excused chosen).path := by
  refine Path.extends_mapIdx (fun i s => ?_) q.path
  split
  · exact .insert s nofun
  · exact .refl s

theorem exists_of_mem_excused {s : Segment PlainPath} (h : s ∈ (q.excused chosen).path) :
    ∃ i t, q.path[i]? = some t ∧ s = if chosen i then t.edit (·.insert .maybe) else t := by
  obtain ⟨i, hi, rfl⟩ := List.mem_mapIdx.mp h
  exact ⟨i, q.path[i], List.getElem?_eq_getElem hi, rfl⟩

theorem excused_writes (h : Path.writes q.path = false) : Path.writes (q.excused chosen).path = false := by
  refine Path.any_eq_false_iff.mpr fun s hs => ?_
  obtain ⟨i, t, ht, rfl⟩ := exists_of_mem_excused hs
  have hwrite : t.commands.isWrite = false := Path.any_eq_false_iff.mp h t (List.mem_of_getElem? ht)
  split
  · exact hwrite
  · exact hwrite

theorem excused_checkReadonly (h : q.checkReadonly = .ok ()) : (q.excused chosen).checkReadonly = .ok () := by
  obtain ⟨hwrites, hmoves⟩ := checkReadonly_ok_iff.mp h
  have hmoves' := (q.extends_excused chosen).any_eq (f := (·.marker)) fun _ _ hst => hst.marker
  exact checkReadonly_ok_iff.mpr ⟨excused_writes hwrites, hmoves'.trans hmoves⟩

/-- `?` can be written on every node of a path that reads, except on `#`. -/
theorem excused_parsed (hq : q.Parsed) (hread : q.checkReadonly = .ok ())
    (hchosen : ∀ i s, q.path[i]? = some s → chosen i = true → s.body ≠ .here) : (q.excused chosen).Parsed := by
  have hw := parsed_iff.mp hq
  have hwrites := (checkReadonly_ok_iff.mp hread).1
  have hmarker := (q.extends_excused chosen).map_marker
  rw [parsed_iff]
  refine Path.wellFormed_of_reading (q.excused chosen).path_ne_nil ?_ (fun s hs => ?_) (fun s hs hhere => ?_)
    (excused_writes hwrites) ?_ fun s hs => ?_
  · rw [excused, List.length_mapIdx]
    exact hw.length_lt
  · obtain ⟨i, t, ht, rfl⟩ := exists_of_mem_excused hs
    have ht := List.mem_of_getElem? ht
    have hbody : (if chosen i then t.edit (·.insert .maybe) else t).body = t.body := by split <;> rfl
    have hplus : ¬t.commands.append = true := List.any_eq_false.mp (Path.appends_of_not_writes hwrites) t ht
    rw [hbody]
    exact ⟨hw.bodies t ht, fun ha => hplus ((hw.append t ht).mpr ha)⟩
  · obtain ⟨i, t, ht, rfl⟩ := exists_of_mem_excused hs
    by_cases hi : chosen i = true
    · rw [if_pos hi] at hhere
      exact absurd hhere (hchosen i t ht hi)
    · rw [if_neg hi] at hhere ⊢
      exact hw.here t (List.mem_of_getElem? ht) hhere
  · have hcount := congrArg (List.countP id) hmarker
    rw [List.countP_map, List.countP_map] at hcount
    exact Nat.le_trans (Nat.le_of_eq hcount) hw.one_marker
  · have hlast := congrArg List.getLast? hmarker
    rw [List.getLast?_map, List.getLast?_map, Option.mem_def.mp hs] at hlast
    obtain ⟨t, ht, hst⟩ := Option.map_eq_some_iff.mp hlast.symm
    exact hst.symm.trans (hw.last_unmarked t ht)

/-- `?` on any nodes of a query that reads, except on `#`, changes no answer but a failure: where nothing was there or
    null was, the value may be null instead. Whether there is a value is answered as before. -/
theorem excused_weakens (hq : q.Parsed) (hread : q.checkReadonly = .ok ()) (chosen : Nat → Bool)
    (hchosen : ∀ i s, q.path[i]? = some s → chosen i = true → s.body ≠ .here) :
    (q.excused chosen).Parsed ∧ ∀ d : Value, d.has (q.excused chosen) = d.has q ∧
      (∀ v, d.get q = .ok v → d.get (q.excused chosen) = .ok v) ∧
      ∀ e, d.get q = .error e →
        d.get (q.excused chosen) = .error e ∨ d.get (q.excused chosen) = .ok .null ∧ e.Excusable := by
  refine ⟨excused_parsed hq hread hchosen, fun d => ?_⟩
  have hbehind : Path.Extends q.remaining (q.excused chosen).remaining :=
    List.forall₂_drop q.seq (q.extends_excused chosen)
  have hspec : walk (q.excused chosen).spec (keyIn d) (q.excused chosen).remaining d =
      walk q.spec (keyIn d) (q.excused chosen).remaining d :=
    walk_congr_spec fun s hs => keyIn_ne_append (excused_parsed hq hread hchosen) (excused_checkReadonly hread) s
      (List.mem_of_mem_drop hs)
  rw [Value.get_eq_walk hread, Value.has_eq_walk hread, Value.get_eq_walk (excused_checkReadonly hread),
    Value.has_eq_walk (excused_checkReadonly hread), hspec]
  rcases walk_of_extends (keyIn d) hbehind d with hsame | ⟨e, hfail, he, hnone⟩
  · rw [hsame]
    exact ⟨rfl, fun v => id, fun e => Or.inl⟩
  · rw [hfail, hnone]
    refine ⟨?_, fun v hv => ?_, fun e' he' => Or.inr ⟨rfl, ?_⟩⟩
    · simp [he.isAbsence]
    · cases hv
    · exact Except.error.inj he' ▸ he

/-- With `?` on both nodes `a.[k]` is still not there in a document without `a`. -/
theorem excused_weakens_bracket :
    (Value.object [("k", .str "x")]).has
      ⟨[⟨{ maybe := true }, .field "a", false⟩, ⟨{ maybe := true }, .bracket ['k'] [⟨{}, .field "k", false⟩], false⟩],
        0, by decide⟩ = .ok false := by
  have hread : Query.parse "a.[k]" =
      .ok ⟨[⟨{}, .field "a", false⟩, ⟨{}, .bracket ['k'] [⟨{}, .field "k", false⟩], false⟩], 0, by decide⟩ := rfl
  have hhas : (Value.object [("k", .str "x")]).has
      ⟨[⟨{}, .field "a", false⟩, ⟨{}, .bracket ['k'] [⟨{}, .field "k", false⟩], false⟩], 0, by decide⟩ =
        .ok false := rfl
  obtain ⟨-, hsame⟩ := excused_weakens (parsed_of_parse hread) rfl (fun _ => true) fun i s hs _ => by
    have hs := List.mem_of_getElem? hs
    simp only [List.mem_cons, List.not_mem_nil, or_false] at hs
    rcases hs with rfl | rfl <;> nofun
  exact (hsame _).1.trans hhas

end Query

end TreeQuery
