import TreeQuery.Proofs.Grammar.Unambiguous
import TreeQuery.Query.Edit

/-! # Queries that can be reached

Queries come from texts, and from other queries by navigation, by edits, by splitting a move and by looking into
brackets. Whichever way a query was reached, its path is what some text is read as (`Query.Reachable.parsed`). An
edit changes one node of the path and stays at it (`Query.editCommands_path`). -/

namespace TreeQuery

variable {σ : Type} {Inner : List Char → σ → Prop} {p : Path σ} {s : Segment σ} {q r : Query}

namespace Query

/-! ### Reaching a query -/

/-- Queries that some operations on read texts give. -/
inductive Reachable : Query → Prop where
  | parse {text : String} {q : Query} : Query.parse text = .ok q → Reachable q
  | root {q : Query} : Reachable q → Reachable q.root
  | leaf {q : Query} : Reachable q → Reachable q.leaf
  | prev {q r : Query} : Reachable q → q.prev = .ok r → Reachable r
  | next {q r : Query} : Reachable q → q.next = .ok r → Reachable r
  | concat {q other r : Query} : Reachable q → Reachable other → q.concat other = .ok r → Reachable r
  | concatField {q r : Query} {name : String} : Reachable q → q.concatField name = .ok r → Reachable r
  | addMake {q r : Query} : Reachable q → q.addCommand .make = .ok r → Reachable r
  | addOverwrite {q r : Query} : Reachable q → q.addCommand .overwrite = .ok r → Reachable r
  | dropOverwrite {q r : Query} : Reachable q → q.dropCommand .overwrite = .ok r → Reachable r
  | source {q source destination : Query} : Reachable q → q.splitMove = .ok (source, destination) → Reachable source
  | destination {q source destination : Query} :
    Reachable q → q.splitMove = .ok (source, destination) → Reachable destination
  | inner {q r : Query} : Reachable q → q.inner? = some r → Reachable r

theorem parsed_of_parse {text : String} (h : parse text = .ok q) : q.Parsed := ⟨text, q, h, rfl⟩

theorem Parsed.moveTo (h : q.Parsed) (seq : Nat) : (q.moveTo seq).Parsed := h

theorem Parsed.editCommands {edit : Commands → Commands} (h : q.editCommands edit = .ok r) : r.Parsed := by
  obtain ⟨edited, hread, h⟩ := Outcome.bind_ok_iff.mp h
  obtain rfl := Outcome.pure_ok_iff.mp h
  exact (parsed_of_parse hread).moveTo q.seq

theorem splitMove_parsed {source destination : Query} (h : q.splitMove = .ok (source, destination)) :
    source.Parsed ∧ destination.Parsed := by
  unfold splitMove at h
  split at h
  · cases h
  · obtain ⟨a, ha, h⟩ := Outcome.bind_ok_iff.mp h
    obtain ⟨b, hb, h⟩ := Outcome.bind_ok_iff.mp h
    cases h
    exact ⟨parsed_of_parse (Outcome.mapError_ok_iff.mp ha), parsed_of_parse (Outcome.mapError_ok_iff.mp hb)⟩

theorem segment_mem (q : Query) : q.segment ∈ q.path := List.get_mem _ _

/-! ### Inside brackets -/

theorem ofPlain_body_wellFormed {b : Body Empty} (h : b.WellFormed NoBracket) :
    (b.map fun e => nomatch e : Body σ).WellFormed Inner := by
  cases b with
  | field | index | here | append => exact h
  | bracket => exact h.elim

/-- A path without brackets obeys the same rules where brackets are allowed. -/
theorem ofPlain_wellFormed {inner : PlainPath} (h : Path.WellFormed NoBracket inner) :
    Path.WellFormed Inner (Path.ofPlain inner) := by
  refine h.map (fun s hs => ?_) (fun s c hc => hc) fun s => rfl
  obtain ⟨hbody, hfits, hcompatible, hmarker⟩ := h.lawful hs
  refine ⟨ofPlain_body_wellFormed hbody, ⟨fun hhere => hfits.here ?_, ?_⟩, hcompatible, hmarker⟩
  · cases hb : s.body <;> simp_all [Segment.map, Body.map]
  · have happend : (s.body.map fun e => nomatch e : Body σ) = .append ↔ s.body = .append := by
      cases s.body <;> simp [Body.map]
    exact hfits.append.trans happend.symm

/-- What is in a bracket is the query that the text inside is read as. -/
theorem inner?_eq_some (hq : q.Parsed) {raw : List Char} {inner : PlainPath}
    (hb : q.segment.body = .bracket raw inner) :
    ∃ r, q.inner? = some r ∧ r.Parsed ∧ ∀ offset, parseAt offset 1 (String.ofList raw) = .ok r := by
  have hs := q.segment_mem
  have hbracketed : Bracketed raw inner := by
    have hw := (parsed_iff.mp hq).bodies _ hs
    rw [hb] at hw
    exact hw
  obtain ⟨hw, hspell, -, -⟩ := hbracketed
  have hplain : Path.WellFormed Bracketed (Path.ofPlain inner) := ofPlain_wellFormed hw
  have hlength : 0 < (Path.ofPlain inner : Path PlainPath).length := List.length_pos_iff.mpr hplain.nonempty
  refine ⟨⟨Path.ofPlain inner, 0, hlength⟩, ?_, parsed_iff.mpr hplain, fun offset => ?_⟩
  · rw [inner?, hb]
    exact dif_pos hlength
  · exact parseAt_inner_ok_iff.mpr ⟨rfl, inner, rfl, hw, by rwa [String.toList_ofList]⟩

theorem isBracket_of_inner? (h : q.inner? = some r) : ∃ raw inner, q.segment.body = .bracket raw inner := by
  unfold inner? at h
  cases hb : q.segment.body with
  | bracket raw inner => exact ⟨raw, inner, rfl⟩
  | field | index | here | append =>
    rw [hb] at h
    cases h

/-- Whichever way a query was reached, its path can be written. -/
theorem Reachable.parsed (h : q.Reachable) : q.Parsed := by
  induction h with
  | parse h => exact parsed_of_parse h
  | root _ ih => exact ih.moveTo 0
  | leaf _ ih => exact ih.moveTo _
  | @prev q r _ h ih =>
    unfold Query.prev at h
    split at h
    · cases h
    · exact Except.ok.inj h ▸ ih.moveTo _
  | @next q r _ h ih =>
    unfold Query.next at h
    split at h
    · exact Except.ok.inj h ▸ ih.moveTo _
    · cases h
  | concat _ _ h => exact parsed_of_parse h
  | @concatField q r name _ h =>
    unfold Query.concatField at h
    split at h
    · cases h
    · exact parsed_of_parse h
  | addMake _ h => exact Parsed.editCommands h
  | addOverwrite _ h => exact Parsed.editCommands h
  | dropOverwrite _ h => exact Parsed.editCommands h
  | source _ h => exact (splitMove_parsed h).1
  | destination _ h => exact (splitMove_parsed h).2
  | inner _ h ih =>
    obtain ⟨raw, inner, hb⟩ := isBracket_of_inner? h
    obtain ⟨r, hr, hparsed, -⟩ := inner?_eq_some ih hb
    exact Option.some.inj (hr.symm.trans h) ▸ hparsed

/-! ### Edits stay in place -/

/-- The query with the commands of its node edited, whether its text can be read or not. -/
def edited (q : Query) (edit : Commands → Commands) : Query :=
  ⟨q.path.modify q.seq (Segment.edit edit), q.seq, by rw [List.length_modify]; exact q.seq_lt⟩

/-- An edit replaces the segment of the query. -/
theorem exists_edited (q : Query) (edit : Commands → Commands) : ∃ before behind, before.length = q.seq ∧
    q.path = before ++ q.segment :: behind ∧ (q.edited edit).path = before ++ q.segment.edit edit :: behind := by
  obtain ⟨before, s, behind, hpath, hlength, hedited⟩ := List.exists_of_modify (Segment.edit edit) q.seq_lt
  have hs : q.segment = s := by
    have hget : q.path[q.seq]? = some q.segment := List.getElem?_eq_getElem q.seq_lt
    rw [hpath, ← hlength, List.getElem?_append_right (Nat.le_refl _), Nat.sub_self] at hget
    exact (Option.some.inj hget).symm
  exact ⟨before, behind, hlength, hs ▸ hpath, hs ▸ hedited⟩

theorem forall_mem_edited {P : Segment PlainPath → Prop} {edit : Commands → Commands} (h : ∀ s ∈ q.path, P s)
    (he : P (q.segment.edit edit)) : ∀ s ∈ (q.edited edit).path, P s := by
  obtain ⟨before, behind, -, hpath, hedited⟩ := q.exists_edited edit
  rw [hpath, List.forall_mem_append, List.forall_mem_cons] at h
  rw [hedited, List.forall_mem_append, List.forall_mem_cons]
  exact ⟨h.1, he, h.2.2⟩

theorem Parsed.edited_last_unmarked (hq : q.Parsed) (edit : Commands → Commands) :
    ∀ s ∈ (q.edited edit).path.getLast?, s.marker = false := by
  obtain ⟨before, behind, -, hpath, hedited⟩ := q.exists_edited edit
  have hlast := (parsed_iff.mp hq).last_unmarked
  rw [hpath] at hlast
  rw [hedited]
  exact Path.last_unmarked_replace (s := q.segment) rfl hlast

/-- An edit that keeps every `+` gives the path with that one node edited, at the same node. -/
theorem editCommands_path {edit : Commands → Commands} (hq : q.Parsed)
    (he : ∀ c : Commands, c.append = true → (edit c).append = true) (h : q.editCommands edit = .ok r) :
    r.path = Path.canonical (q.edited edit).path ∧ r.seq = q.seq := by
  have hw := parsed_iff.mp hq
  obtain ⟨root, hread, h⟩ := Outcome.bind_ok_iff.mp h
  obtain rfl := Outcome.pure_ok_iff.mp h
  -- The edited path need not obey the rules, so all that its text is asked for is to spell no other path.
  have hspellable : ∀ s ∈ (q.edited edit).path, s.Spellable Bracketed := by
    refine forall_mem_edited (fun s hs => (hw.lawful hs).spellable) ⟨hw.bodies q.segment q.segment_mem, fun ha => ?_⟩
    exact he _ ((hw.append q.segment q.segment_mem).mpr ha)
  have hpath := (path_of_parse_spec (q.edited edit).path_ne_nil (hq.edited_last_unmarked edit) hspellable hread).1
  have hlt : q.seq < root.path.length := by
    rw [hpath, Path.canonical_length]
    exact (q.edited edit).seq_lt
  exact ⟨hpath, Nat.min_eq_left (Nat.le_sub_one_of_lt hlt)⟩

theorem addCommand_path {c : Command} (hq : q.Parsed) (h : q.addCommand c = .ok r) :
    r.path = Path.canonical (q.path.modify q.seq (Segment.edit (·.insert c))) ∧ r.seq = q.seq := by
  refine editCommands_path hq (fun commands ha => ?_) h
  have hhas := Commands.has_insert commands c .append
  simpa [Commands.has, ha] using hhas

theorem dropCommand_path (hq : q.Parsed) (h : q.dropCommand .overwrite = .ok r) :
    r.path = Path.canonical (q.path.modify q.seq (Segment.edit (·.erase .overwrite))) ∧ r.seq = q.seq :=
  editCommands_path hq (fun _ ha => ha) h

end Query

end TreeQuery
