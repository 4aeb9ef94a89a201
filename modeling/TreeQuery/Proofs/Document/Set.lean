import TreeQuery.Proofs.Document.Assign
import TreeQuery.Proofs.Grammar.Canonical

/-! # Reading what was written

Laws of a write with regard to the reads that follow it. A path without brackets selects the same keys in
every document, so what was written is read back at the same place, and a place whose keys part from those
of the write reads as before. -/

namespace TreeQuery

variable {σ : Type} {key key' : Body σ → Except ReadError Key} {p : Path σ} {d d₂ v : Value} {q r : Query}

/-! ### Paths without brackets -/

/-- Whether no segment of a query is a bracket. -/
def Query.BracketFree (q : Query) : Prop := ∀ s ∈ q.path, s.body.isBracket = false

theorem keyIn_eq {b : Body PlainPath} (h : b.isBracket = false) (d d₂ : Value) : keyIn d b = keyIn d₂ b := by
  cases b with
  | bracket => cases h
  | field | index | here | append => rfl

theorem Path.keys_congr (h : ∀ s ∈ p, key s.body = key' s.body) : Path.keys key p = Path.keys key' p := by
  induction p with
  | nil => rfl
  | cons s p ih =>
    have hrest := ih fun t ht => h t (by simp [ht])
    unfold Path.keys at hrest ⊢
    rw [List.filterMap_cons, List.filterMap_cons, h s (by simp), hrest]

theorem Path.keys_edit (f : Commands → Commands) : Path.keys key (p.map (Segment.edit f)) = Path.keys key p := by
  rw [Path.keys, List.filterMap_map]
  rfl

theorem Query.keys_eq (hb : q.BracketFree) (d d₂ : Value) : q.keys d = q.keys d₂ :=
  Path.keys_congr fun s hs => keyIn_eq (hb s (List.mem_of_mem_drop hs)) d d₂

/-- Without brackets every segment has a key, and it is that of `+` where `+` is written. -/
theorem Query.exists_key (hq : q.Parsed) (hb : q.BracketFree) {s : Segment PlainPath} (hs : s ∈ q.path) (d : Value) :
    ∃ k, keyIn d s.body = .ok k ∧ (k = .append ↔ s.commands.append = true) := by
  have hbracket := hb s hs
  rw [(Query.parsed_iff.mp hq).append s hs]
  cases hbody : s.body with
  | field name => exact ⟨.name name, rfl, by simp⟩
  | index digits => exact ⟨.index (Digits.value digits), rfl, by simp⟩
  | here => exact ⟨.current, rfl, by simp⟩
  | append => exact ⟨.append, rfl, by simp⟩
  | bracket => simp [hbody, Body.isBracket] at hbracket

theorem Query.readable (hq : q.Parsed) (ha : Path.appends q.path = false) (hb : q.BracketFree) :
    Readable (keyIn d) q.remaining := by
  intro s hs
  have hs : s ∈ q.path := List.mem_of_mem_drop hs
  obtain ⟨k, hk, happend⟩ := Query.exists_key hq hb hs d
  exact ⟨k, hk, fun hka => List.any_eq_false.mp ha s hs (happend.mp hka)⟩

/-- The key of a segment of a path that reads is none of a `+`, in brackets or not. -/
theorem Query.keyIn_ne_append (hq : q.Parsed) (hread : q.checkReadonly = .ok ()) :
    ∀ s ∈ q.path, keyIn d s.body ≠ .ok .append := fun s hs =>
  Body.key_ne_append fun hb =>
    List.any_eq_false.mp (Path.appends_of_not_writes (checkReadonly_ok_iff.mp hread).1) s hs
      (((parsed_iff.mp hq).append s hs).mpr hb)

theorem Readable.append_not_mem_keys (h : Readable key p) : .append ∉ Path.keys key p := by
  induction p with
  | nil => simp [Path.keys]
  | cons s p ih =>
    obtain ⟨k, hk, ha⟩ := h s (by simp)
    have hrest := ih fun t ht => h t (by simp [ht])
    by_cases hc : k = .current
    · subst hc
      rw [Path.keys_cons_current hk]
      exact hrest
    · rw [Path.keys_cons hk hc]
      simpa using ⟨ha.symm, hrest⟩

theorem set_ok (h : d.set q v = .ok d₂) :
    Path.deletes q.path = false ∧ Path.moves q.path = false ∧
      ∃ overwrite place make, assign (keyIn d) overwrite place v make q.remaining d = .ok d₂ := by
  unfold Value.set at h
  split at h
  · cases h
  · rename_i hd
    split at h
    · cases h
    · rename_i hm
      exact ⟨by simpa using hd, by simpa using hm, _, _, _, h⟩

/-! ### The query that reads what a query wrote -/

/-- The query with the same path and place, and without `=` and `$`. -/
def Query.forReading (q : Query) : Query :=
  ⟨Query.sourcePath q.path, q.seq, by simpa [Query.sourcePath] using q.seq_lt⟩

theorem Query.forReading_keys (q : Query) (d : Value) : q.forReading.keys d = q.keys d := by
  have hdrop : q.forReading.remaining = q.remaining.map (Segment.edit fun c => (c.erase .overwrite).erase .make) :=
    List.map_drop.symm
  rw [Query.keys, hdrop, Path.keys_edit]
  rfl

theorem Query.sourcePath_wellFormed {p : Path PlainPath} (hw : Path.WellFormed Bracketed p) :
    Path.WellFormed Bracketed (Query.sourcePath p) := by
  have herase : ∀ (c : Commands) d, ((c.erase .overwrite).erase .make).has d = true → c.has d = true :=
    fun c d h => Commands.has_of_has_erase (Commands.has_of_has_erase h)
  refine hw.map (fun s hs => ?_) (fun s c => herase s.commands c) fun _ => rfl
  obtain ⟨hbody, hfits, hcompatible, hmarker⟩ := hw.lawful hs
  refine ⟨hbody, ⟨fun hhere => ?_, hfits.append⟩, hcompatible.mono fun c => herase s.commands c, hmarker⟩
  have hnone : s.commands = {} := hfits.here hhere
  exact congrArg (fun c : Commands => (c.erase .overwrite).erase .make) hnone

theorem Query.forReading_parsed (hq : q.Parsed) : q.forReading.Parsed :=
  Query.parsed_iff.mpr (Query.sourcePath_wellFormed (Query.parsed_iff.mp hq))

theorem Query.forReading_readonly (hd : Path.deletes q.path = false) (hm : Path.moves q.path = false)
    (ha : Path.appends q.path = false) : q.forReading.checkReadonly = .ok () := by
  rw [Query.checkReadonly_ok_iff]
  constructor
  · refine List.any_eq_false.mpr fun s hs => ?_
    obtain ⟨t, ht, rfl⟩ := List.mem_map.mp hs
    have hd : t.commands.delete = false := Path.any_eq_false_iff.mp hd t ht
    have ha : t.commands.append = false := Path.any_eq_false_iff.mp ha t ht
    simp [Segment.edit, Commands.isWrite, Commands.erase, hd, ha]
  · refine List.any_eq_false.mpr fun s hs => ?_
    obtain ⟨t, ht, rfl⟩ := List.mem_map.mp hs
    exact List.any_eq_false.mp hm t ht

/-! ### The laws -/

/-- What was written is read back: a value written at a query without `+` and brackets is there when it
    is read at the same place, without the commands that write. -/
theorem get_set (hq : q.Parsed) (ha : Path.appends q.path = false) (hb : q.BracketFree) (h : d.set q v = .ok d₂) :
    q.forReading.Parsed ∧ d₂.get q.forReading = .ok v ∧ d₂.has q.forReading = .ok true := by
  obtain ⟨hd, hm, _, _, _, hassign⟩ := set_ok h
  have hparsed := Query.forReading_parsed hq
  have hreadonly := Query.forReading_readonly hd hm ha
  have hreadable : Readable (keyIn d₂) q.forReading.remaining := by
    refine Query.readable hparsed ?_ fun s hs => ?_
    · exact Path.appends_of_not_writes (Query.checkReadonly_ok_iff.mp hreadonly).1
    · obtain ⟨t, ht, rfl⟩ := List.mem_map.mp hs
      exact hb t ht
  have hlookup : d₂.lookup (q.forReading.keys d₂) = some v := by
    have hkeys : Readable (keyIn d) q.remaining := Query.readable hq ha hb
    rw [Query.forReading_keys, Query.keys_eq hb d₂ d, Query.keys,
      ← Key.resolve_of_not_append (o := some d) hkeys.append_not_mem_keys]
    exact lookup_assign hassign
  refine ⟨hparsed, get_of_lookup hreadonly hreadable hlookup, ?_⟩
  rw [has_eq_isSome_lookup hreadonly hreadable, hlookup]
  rfl

/-- Writing at `$a.b` creates an object for `a`, and `a.b` reads the value in it. -/
theorem get_set_created :
    (Value.object [("a", .object [("b", .int 1)])]).get
      ⟨[⟨{}, .field "a", false⟩, ⟨{}, .field "b", false⟩], 0, by decide⟩ = .ok (.int 1) := by
  have hread : Query.parse "$a.b" =
      .ok ⟨[⟨{ make := true }, .field "a", false⟩, ⟨{}, .field "b", false⟩], 0, by decide⟩ := rfl
  have hset : (Value.object [("a", .null)]).set
      ⟨[⟨{ make := true }, .field "a", false⟩, ⟨{}, .field "b", false⟩], 0, by decide⟩ (.int 1) =
      .ok (.object [("a", .object [("b", .int 1)])]) := rfl
  exact (get_set ⟨"$a.b", _, hread, rfl⟩ rfl (by simp [Query.BracketFree, Body.isBracket]) hset).2.1

/-- A write leaves alone what it does not lead to: a query that only reads, and whose keys part from those
    that are written to, finds what it found before. -/
theorem read_set_of_diverges (hr : r.Parsed) (hread : r.checkReadonly = .ok ()) (hb : r.BracketFree)
    (h : d.set q v = .ok d₂) (hdiv : Diverges (r.keys d) (Key.resolve (some d) (q.keys d))) :
    d₂.has r = d.has r ∧ (d.has r = .ok true → d₂.get r = d.get r) := by
  obtain ⟨-, -, _, _, _, hassign⟩ := set_ok h
  have ha := Path.appends_of_not_writes (Query.checkReadonly_ok_iff.mp hread).1
  have hsame : d₂.lookup (r.keys d₂) = d.lookup (r.keys d) := by
    rw [Query.keys_eq hb d₂ d]
    exact lookup_assign_of_diverges hassign hdiv
  have hhas : ∀ e : Value, e.has r = .ok (e.lookup (r.keys e)).isSome := fun e =>
    has_eq_isSome_lookup hread (Query.readable hr ha hb)
  refine ⟨by rw [hhas, hhas, hsame], fun htrue => ?_⟩
  have hfound : (d.lookup (r.keys d)).isSome = true := Except.ok.inj ((hhas d).symm.trans htrue)
  obtain ⟨w, hw⟩ := Option.isSome_iff_exists.mp hfound
  rw [get_of_lookup hread (Query.readable hr ha hb) hw,
    get_of_lookup hread (Query.readable hr ha hb) (hsame.trans hw)]

/-- Writing at `a.+` adds a second element, and the first one reads as before. -/
theorem read_set_of_diverges_append :
    (Value.object [("a", .array [.int 1, .int 2])]).has
      ⟨[⟨{}, .field "a", false⟩, ⟨{}, .index ['0'], false⟩], 0, by decide⟩ = .ok true := by
  have hread : Query.parse "a.0" = .ok ⟨[⟨{}, .field "a", false⟩, ⟨{}, .index ['0'], false⟩], 0, by decide⟩ := rfl
  have hset : (Value.object [("a", .array [.int 1])]).set
      ⟨[⟨{}, .field "a", false⟩, ⟨{ append := true }, .append, false⟩], 0, by decide⟩ (.int 2) =
      .ok (.object [("a", .array [.int 1, .int 2])]) := rfl
  have hdiv : Diverges [.name "a", .index 0] [.name "a", .index 1] :=
    ⟨[.name "a"], .index 0, .index 1, [], [], by decide, rfl, rfl⟩
  exact (read_set_of_diverges ⟨"a.0", _, hread, rfl⟩ rfl (by simp [Query.BracketFree, Body.isBracket]) hset hdiv).1

end TreeQuery
