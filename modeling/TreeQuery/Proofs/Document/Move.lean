import TreeQuery.Proofs.Document.Remove
import TreeQuery.Proofs.Grammar.Display

/-! # Moves that split

The source and the destination of a move are written out and read again. The source can always be read. The
destination takes over `=` and `$` at its first segment, which keeps every rule but one: `#` carries no command. So
a move splits unless its destination begins with `#` and there is something to take over, and where it splits,
moving is never refused as a query. -/

namespace TreeQuery

variable {σ : Type} {Inner : List Char → σ → Prop} {reader : BracketReader σ} {p head tail : Path σ}
  {m s : Segment σ} {position : Nat}

/-! ### The two parts -/

/-- The segments of a move on the two sides of its `>`. -/
structure Path.SplitAt (p before : Path σ) (m s : Segment σ) (tail : Path σ) : Prop where
  path : p = before ++ m :: s :: tail
  marker : m.marker = true
  unmarked_before : ∀ t ∈ before, t.marker = false
  unmarked_behind : ∀ t ∈ s :: tail, t.marker = false

theorem Path.WellFormed.exists_splitAt (h : Path.WellFormed Inner p) (hm : Path.moves p = true) :
    ∃ before m s tail, Path.SplitAt p before m s tail := by
  obtain ⟨m, hmem, hmark⟩ := List.any_eq_true.mp hm
  obtain ⟨before, rest, rfl⟩ := List.append_of_mem hmem
  obtain ⟨-, hrest, hbefore⟩ := List.pairwise_append.mp h.pairwise
  cases rest with
  | nil =>
    have hlast := h.last_unmarked m (by simp)
    rw [hlast] at hmark
    cases hmark
  | cons s tail =>
    refine ⟨before, m, s, tail, rfl, hmark, fun t ht => ((hbefore t ht m (by simp)).marker hmark).2, fun t ht => ?_⟩
    have hfollow := (List.pairwise_cons.mp hrest).1 t ht
    exact Commands.eq_false_of_imp (fun htm => (hfollow.marker htm).2) hmark

theorem Query.splitAtMarker_eq {p before tail : Path PlainPath} {m s : Segment PlainPath}
    (h : Path.SplitAt p before m s tail) : Query.splitAtMarker p = some (before ++ [m], s :: tail) := by
  obtain ⟨rfl, hm, hb, -⟩ := h
  have hnone : before.findIdx? (·.marker) = none := List.findIdx?_eq_none_iff.mpr hb
  have hindex : (before ++ m :: s :: tail).findIdx? (·.marker) = some before.length := by
    simp [List.findIdx?_append, hnone, List.findIdx?_cons, hm]
  simp [Query.splitAtMarker, hindex, List.take_append, List.drop_append, List.take_of_length_le]

theorem Query.moves_of_splitAtMarker {p head tail : Path PlainPath} (h : splitAtMarker p = some (head, tail)) :
    Path.moves p = true := by
  unfold splitAtMarker at h
  split at h
  · rename_i i hi
    rw [Path.moves, ← List.findIdx?_isSome, hi]
    rfl
  · cases h

theorem Query.splitMove_eq {q : Query} {head tail : Path PlainPath} (h : splitAtMarker q.path = some (head, tail)) :
    q.splitMove = (do
      let source ← (parse (Path.spec (sourcePath head))).mapError .parse
      let destination ← (parse (Path.spec (destinationPath head tail))).mapError .parse
      return (source, destination)) := by
  rw [splitMove, h]

/-! ### The source -/

/-- The segment without the `>` behind it. -/
def Segment.unmarked (s : Segment σ) : Segment σ := { s with marker := false }

/-- What ends the source of a move is not part of it. -/
theorem Path.WellFormed.source {before : Path σ} (h : Path.WellFormed Inner p) (hp : Path.SplitAt p before m s tail) :
    Path.WellFormed Inner (before ++ [m.unmarked]) := by
  obtain ⟨rfl, hm, -, -⟩ := hp
  obtain ⟨hbefore, -, hfollow⟩ := List.pairwise_append.mp h.pairwise
  have hlawful := h.lawful (s := m) (by simp)
  have hlength := h.length_lt
  have hcontinues : Path.Continues Inner [] (before ++ [m.unmarked]) := by
    refine ⟨fun t ht => ?_, by simp, List.pairwise_append.mpr ⟨hbefore, by simp, fun b hb t ht => ?_⟩, ?_⟩
    · rcases List.mem_append.mp ht with ht | ht
      · exact h.lawful (by simp [ht])
      · rw [List.mem_singleton.mp ht]
        exact ⟨hlawful.body, hlawful.fits, hlawful.compatible, nofun⟩
    · have hbm := hfollow b hb m (by simp)
      rw [List.mem_singleton.mp ht]
      exact ⟨hbm.commands, hbm.delete, nofun⟩
    · simp only [List.length_append, List.length_cons, List.length_nil] at hlength ⊢
      omega
  refine hcontinues.wellFormed (by simp) fun t ht => ?_
  obtain rfl : m.unmarked = t := by simpa using ht
  rfl

theorem Path.canonical_moves (p : Path σ) : Path.moves (Path.canonical p) = Path.moves p := by
  rw [Path.moves, Path.canonical, List.any_map]
  rfl

theorem Query.parse_source {p before tail : Path PlainPath} {m s : Segment PlainPath}
    (h : Path.WellFormed Bracketed p) (hp : Path.SplitAt p before m s tail) :
    ∃ q, parse (Path.spec (sourcePath (before ++ [m]))) = .ok q ∧
      q.path = Path.canonical (sourcePath (before ++ [m.unmarked])) := by
  have htext : Path.spec (sourcePath (before ++ [m])) = Path.spec (sourcePath (before ++ [m.unmarked])) := by
    simp only [Path.spec, sourcePath, List.map_append, List.map_cons, List.map_nil, Path.render_concat]
    rfl
  rw [htext]
  exact parse_path_spec (sourcePath_wellFormed (h.source hp))

theorem Query.source_unmarked {p before tail : Path PlainPath} {m s : Segment PlainPath}
    (hp : Path.SplitAt p before m s tail) : Path.moves (sourcePath (before ++ [m.unmarked])) = false := by
  refine Path.any_eq_false_iff.mpr fun t ht => ?_
  obtain ⟨b, hb, rfl⟩ := List.mem_map.mp ht
  rcases List.mem_append.mp hb with hb | hb
  · exact hp.unmarked_before b hb
  · rw [List.mem_singleton.mp hb]
    rfl

/-! ### The destination -/

/-- What the destination of a move takes over. -/
def Path.carried (head tail : Path σ) : Commands where
  overwrite := Path.overwrites (head ++ tail)
  make := Path.makes head

theorem Query.destinationPath_cons (head tail : Path PlainPath) (s : Segment PlainPath) :
    destinationPath head (s :: tail) = s.edit (·.union (Path.carried head (s :: tail))) :: tail := rfl

theorem Path.carried_append (s : Segment σ) :
    (s.commands.union (Path.carried head tail)).append = s.commands.append := Bool.or_false _

theorem Path.carried_maybe (s : Segment σ) :
    (s.commands.union (Path.carried head tail)).maybe = s.commands.maybe := Bool.or_false _

theorem Path.carried_delete (s : Segment σ) :
    (s.commands.union (Path.carried head tail)).delete = s.commands.delete := Bool.or_false _

section
variable (h : Path.WellFormed Inner (head ++ s :: tail))
include h

/-- Where `=` is taken over, the path has no command that it excludes. -/
theorem Path.WellFormed.carried_overwrite (ho : Path.overwrites (head ++ s :: tail) = true) {t : Segment σ}
    (ht : t ∈ s :: tail) : t.commands.maybe = false ∧ t.commands.append = false ∧ t.commands.make = false ∧
      Path.makes head = false := by
  have ht : t ∈ head ++ s :: tail := List.mem_append_right head ht
  obtain ⟨hmaybe, happend, hmake⟩ := h.overwrite_alone ho
  refine ⟨hmaybe t ht, any_eq_false_iff.mp happend t ht, any_eq_false_iff.mp hmake t ht, ?_⟩
  exact any_eq_false_iff.mpr fun b hb => any_eq_false_iff.mp hmake b (List.mem_append_left _ hb)

/-- Where `$` is taken over, no `?` is written behind it. -/
theorem Path.WellFormed.carried_make (hk : Path.makes head = true) {t : Segment σ} (ht : t ∈ s :: tail) :
    t.commands.maybe = false ∧ Path.overwrites (head ++ s :: tail) = false := by
  obtain ⟨b, hb, hbk⟩ := List.any_eq_true.mp hk
  obtain ⟨-, -, hfollow⟩ := List.pairwise_append.mp h.pairwise
  refine ⟨Commands.eq_false_of_imp (fun hm => ((hfollow b hb t ht).commands.maybe hm).2) hbk, ?_⟩
  exact Commands.eq_false_of_imp (fun ho => (h.carried_overwrite ho ht).2.2.2) hk

/-- The first segment of the destination with what it takes over. -/
theorem Path.WellFormed.carried_compatible (hd : s.commands.delete = false) :
    (s.commands.union (Path.carried head (s :: tail))).Compatible := by
  have hs : s ∈ s :: tail := List.mem_cons_self
  have hoverwrite : (s.commands.union (Path.carried head (s :: tail))).overwrite = true →
      Path.overwrites (head ++ s :: tail) = true := by
    intro ho
    rcases Bool.or_eq_true_iff.mp ho with ho | ho
    · exact List.any_eq_true.mpr ⟨s, List.mem_append_right head hs, ho⟩
    · exact ho
  refine ⟨fun ho => ?_, fun hk => ⟨?_, (Path.carried_delete s).trans hd⟩, fun _ => (Path.carried_delete s).trans hd⟩
  · obtain ⟨hmaybe, happend, hmake, hhead⟩ := h.carried_overwrite (hoverwrite ho) hs
    exact ⟨(Path.carried_maybe s).trans hmaybe, (Path.carried_append s).trans happend,
      Bool.or_eq_false_iff.mpr ⟨hmake, hhead⟩, (Path.carried_delete s).trans hd⟩
  · rw [Path.carried_maybe]
    rcases Bool.or_eq_true_iff.mp hk with hk | hk
    · exact ((h.lawful (List.mem_append_right head hs)).compatible.make hk).1
    · exact (h.carried_make hk hs).1

theorem Path.WellFormed.carried_mayFollow {t : Segment σ} (ht : t ∈ s :: tail) :
    Commands.MayFollow (Path.carried head (s :: tail)) t.commands := by
  have htp : t ∈ head ++ s :: tail := List.mem_append_right head ht
  refine ⟨fun ho => ⟨rfl, rfl, ?_, rfl⟩, fun hm => ⟨?_, ?_⟩, fun hk => ⟨?_, rfl⟩, fun ha => ⟨?_, rfl⟩⟩
  · exact (h.carried_overwrite (List.any_eq_true.mpr ⟨t, htp, ho⟩) ht).2.2.2
  · exact Commands.eq_false_of_imp (fun ho => (h.carried_overwrite ho ht).1) hm
  · exact Commands.eq_false_of_imp (fun hk => (h.carried_make hk ht).1) hm
  · exact Commands.eq_false_of_imp (fun ho => (h.carried_overwrite ho ht).2.2.1) hk
  · exact Commands.eq_false_of_imp (fun ho => (h.carried_overwrite ho ht).2.1) ha

end

section
variable {p head tail : Path PlainPath} {m s : Segment PlainPath}

theorem Query.destination_unmarked (hmark : ∀ t ∈ s :: tail, t.marker = false) :
    Path.moves (destinationPath head (s :: tail)) = false := by
  refine Path.any_eq_false_iff.mpr fun t ht => ?_
  rcases List.mem_cons.mp ht with rfl | ht
  · exact hmark s (by simp)
  · exact hmark t (by simp [ht])

/-- The destination obeys the rules, unless it begins with `#` and takes something over. -/
theorem Query.destination_wellFormed (h : Path.WellFormed Bracketed (head ++ s :: tail))
    (hd : ∀ t ∈ s :: tail, t.commands.delete = false) (hmark : ∀ t ∈ s :: tail, t.marker = false)
    (hhere : s.body = .here → Path.carried head (s :: tail) = {}) :
    Path.WellFormed Bracketed (destinationPath head (s :: tail)) := by
  obtain ⟨-, htail, -⟩ := List.pairwise_append.mp h.pairwise
  obtain ⟨hs, htail⟩ := List.pairwise_cons.mp htail
  have hlawful := h.lawful (s := s) (by simp)
  have hlength := h.length_lt
  have hfits : s.body.Fits (s.commands.union (Path.carried head (s :: tail))) := by
    refine ⟨fun hb => ?_, by rw [Path.carried_append]; exact hlawful.fits.append⟩
    rw [hhere hb, hlawful.fits.here hb]
    rfl
  have hsd : (s.commands.union (Path.carried head (s :: tail))).delete = false :=
    (Path.carried_delete s).trans (hd s (by simp))
  have hcontinues : Path.Continues Bracketed [] (destinationPath head (s :: tail)) := by
    rw [destinationPath_cons]
    refine ⟨fun t ht => ?_, by simp, List.pairwise_cons.mpr ⟨fun t ht => ?_, htail⟩, ?_⟩
    · rcases List.mem_cons.mp ht with rfl | ht
      · exact ⟨hlawful.body, hfits, h.carried_compatible (hd s (by simp)), fun _ => hsd⟩
      · exact h.lawful (by simp [ht])
    · have ht' : t ∈ s :: tail := List.mem_cons_of_mem s ht
      refine ⟨Commands.mayFollow_union.mpr ⟨(hs t ht).commands, h.carried_mayFollow ht'⟩, hd t ht', fun hm => ?_⟩
      rw [hmark t ht'] at hm
      cases hm
    · simp only [List.length_append, List.length_cons, List.length_nil] at hlength ⊢
      omega
  refine hcontinues.wellFormed (by simp [destinationPath_cons]) fun t ht => ?_
  exact Path.any_eq_false_iff.mp (destination_unmarked hmark) t (List.mem_of_getLast? ht)

end

/-! ### A command before `#` -/

theorem readTokens_command_here (c : Command) (rest : List Char) :
    readTokens reader { position } (Token.split false (c.symbol :: '#' :: rest)) =
      .error (.conflicting '#' c.symbol (position + 1)) := by
  -- Where the token ends does not depend on the two characters, and the second one stops the reading of it.
  have hsolid : Token.Solid [c.symbol, '#'] :=
    (Token.solid_symbol c).append (Token.solid_of_not_special (by decide) (by decide) (by decide) (by decide))
  have htokens : Token.split false (c.symbol :: '#' :: rest) =
      Token.prepend [c.symbol, '#'] (Token.split false rest) := hsolid rest
  obtain ⟨t, ts, hts⟩ := List.exists_cons_of_ne_nil (Token.split_ne_nil false rest)
  have htoken : readToken reader { position } ⟨c.symbol :: '#' :: t.text, t.closedBy⟩ =
      .error (.conflicting '#' c.symbol (position + 1)) := by
    cases c <;> rfl
  rw [htokens, hts]
  simp [Token.prepend, readTokens, htoken, bind, Except.bind]

theorem Query.parse_command_here (c : Command) (rest : List Char) :
    parse (String.ofList (c.symbol :: '#' :: rest)) = .error (.conflicting '#' c.symbol 1) := by
  have hpre : dialectPrefix.isPrefixOf (c.symbol :: '#' :: rest) = false := by
    cases c <;> rfl
  have hread : readSpec (c.symbol :: '#' :: rest) = .error (.conflicting '#' c.symbol 1) := by
    rw [readSpec, hpre, if_neg (by simp), readOuter, readPath, readTokens_command_here]
  rw [parse, String.toList_ofList, hread]
  rfl

theorem Path.render_cons (s : Segment σ) (p : Path σ) : ∃ rest, Path.render (s :: p) = s.render ++ rest := by
  cases p with
  | nil => exact ⟨[], (List.append_nil _).symm⟩
  | cons t p => exact ⟨_, rfl⟩

/-- Where the destination begins with `#`, what it takes over is refused. -/
theorem Query.parse_destination_here {head tail : Path PlainPath} {s : Segment PlainPath} {c : Command}
    (hb : s.body = .here) (hs : s.commands = {}) (hc : (Path.carried head (s :: tail)).text = [c.symbol]) :
    parse (Path.spec (destinationPath head (s :: tail))) = .error (.conflicting '#' c.symbol 1) := by
  obtain ⟨rest, hrest⟩ := Path.render_cons (s.edit (·.union (Path.carried head (s :: tail)))) tail
  have hunion : s.commands.union (Path.carried head (s :: tail)) = Path.carried head (s :: tail) := by
    rw [hs]
    simp [Commands.union]
  have hrender : (s.edit (·.union (Path.carried head (s :: tail)))).render = [c.symbol, '#'] := by
    rw [Segment.render, Segment.edit, hunion, hc, hb]
    rfl
  rw [destinationPath_cons, Path.spec, hrest, hrender]
  exact parse_command_here c rest

/-! ### Splitting -/

section
variable {q : Query} {before tail : Path PlainPath} {m first : Segment PlainPath} (hq : q.Parsed)
  (hsplit : Path.SplitAt q.path before m first tail)
include hq hsplit

theorem Query.splitMove_ok (hhere : first.body = .here → Path.carried (before ++ [m]) (first :: tail) = {}) :
    ∃ source destination, q.splitMove = .ok (source, destination) ∧ Path.moves source.path = false ∧
      Path.moves destination.path = false := by
  have hw := parsed_iff.mp hq
  have hpath : q.path = (before ++ [m]) ++ first :: tail := by simp [hsplit.path]
  have hd : ∀ t ∈ first :: tail, t.commands.delete = false := by
    intro t ht
    have hmark : m ∈ q.path := by simp [hpath]
    exact hw.not_delete (hpath ▸ List.mem_append_right _ ht) ⟨m, hmark, Or.inr (Or.inr (Or.inr hsplit.marker))⟩
  have hdw := destination_wellFormed (hpath ▸ hw) hd hsplit.unmarked_behind hhere
  obtain ⟨source, hsource, hsp⟩ := parse_source hw hsplit
  obtain ⟨destination, hdestination, hdp⟩ := parse_path_spec hdw
  refine ⟨source, destination, ?_, ?_, ?_⟩
  · rw [splitMove_eq (splitAtMarker_eq hsplit), hsource, hdestination]
    rfl
  · rw [hsp, Path.canonical_moves, source_unmarked hsplit]
  · rw [hdp, Path.canonical_moves, destination_unmarked hsplit.unmarked_behind]

theorem Query.splitMove_error {c : Command} (hb : first.body = .here)
    (hc : (Path.carried (before ++ [m]) (first :: tail)).text = [c.symbol]) :
    q.splitMove = .error (.parse (.conflicting '#' c.symbol 1)) := by
  have hw := parsed_iff.mp hq
  have hnone : first.commands = {} := hw.here first (by simp [hsplit.path]) hb
  obtain ⟨source, hsource, -⟩ := parse_source hw hsplit
  rw [splitMove_eq (splitAtMarker_eq hsplit), hsource, parse_destination_here hb hnone hc]
  rfl

end

/-- A move takes over one command at most. -/
theorem Path.WellFormed.carried_text {c : Command} (h : Path.WellFormed Inner (head ++ s :: tail))
    (hc : c = .overwrite ∧ Path.overwrites (head ++ s :: tail) = true ∨ c = .make ∧ Path.makes head = true) :
    (Path.carried head (s :: tail)).text = [c.symbol] := by
  rw [Path.carried]
  rcases hc with ⟨rfl, ho⟩ | ⟨rfl, hk⟩
  · rw [ho, (h.carried_overwrite ho List.mem_cons_self).2.2.2]
    rfl
  · rw [hk, (h.carried_make hk List.mem_cons_self).2]
    rfl

/-! ### Moving -/

namespace Value

variable {v root : Value} {k : Key} {make : Bool} {e : ParseError}

/-- Entering a part is refused as a query only if what is done there is. -/
theorem enter_error_parse {blank : Except Error Value} {edit : Value → Except Error Value}
    (h : v.enter make blank edit k = .error (.parse e)) :
    blank = .error (.parse e) ∨ ∃ part, edit part = .error (.parse e) := by
  have hwrite : ∀ {α : Type} {x : Except WriteError α}, x.mapError Error.write ≠ .error (.parse e) := by
    intro α x hx
    obtain ⟨_, -, hx⟩ := Outcome.mapError_error_iff.mp hx
    cases hx
  have hpure : ∀ {part : Value} {f : Value → Value},
      (edit part >>= fun c => pure (f c)) = .error (.parse e) → edit part = .error (.parse e) := by
    intro part f hx
    rcases Outcome.bind_error_iff.mp hx with hx | ⟨c, -, hx⟩
    · exact hx
    · cases hx
  cases k with
  | current => exact Or.inr ⟨v, h⟩
  | name name =>
    rw [enter_name] at h
    rcases Outcome.bind_error_iff.mp h with h | ⟨fields, -, h⟩
    · exact absurd h hwrite
    rcases Outcome.bind_error_iff.mp h with h | ⟨part, -, h⟩
    · cases hget : Fields.get? name fields with
      | some found =>
        rw [hget] at h
        cases h
      | none =>
        rw [hget] at h
        cases make with
        | true => exact Or.inl h
        | false => cases h
    · exact Or.inr ⟨part, hpure h⟩
  | index i =>
    simp only [enter] at h
    split at h
    · rcases Outcome.bind_error_iff.mp h with h | ⟨part, -, h⟩
      · exact Or.inl h
      · exact Or.inr ⟨part, hpure h⟩
    · rcases Outcome.bind_error_iff.mp h with h | ⟨items, -, h⟩
      · exact absurd h hwrite
      split at h
      · exact Or.inr ⟨_, hpure h⟩
      · cases h
  | append =>
    rcases Outcome.bind_error_iff.mp h with h | ⟨items, -, h⟩
    · exact absurd h hwrite
    rcases Outcome.bind_error_iff.mp h with h | ⟨part, -, h⟩
    · exact Or.inl h
    · exact Or.inr ⟨part, hpure h⟩

end Value

theorem assign_ne_parse {key : Body σ → Except ReadError Key} {overwrite make : Bool} {place : String}
    {new v : Value} {e : ParseError} : assign key overwrite place new make p v ≠ .error (.parse e) := by
  have hkey : ∀ {α : Type} {x : Except ReadError α}, x.mapError Error.read ≠ .error (.parse e) := by
    intro α x hx
    obtain ⟨_, -, hx⟩ := Outcome.mapError_error_iff.mp hx
    cases hx
  induction p generalizing make v with
  | nil => exact nofun
  | cons s p ih =>
    intro h
    cases p with
    | nil =>
      rcases Outcome.bind_error_iff.mp h with h | ⟨k, -, h⟩
      · exact hkey h
      · obtain ⟨_, -, h⟩ := Outcome.mapError_error_iff.mp h
        cases h
    | cons next rest =>
      rcases Outcome.bind_error_iff.mp h with h | ⟨k, -, h⟩
      · exact hkey h
      rcases Value.enter_error_parse h with h | ⟨part, h⟩
      · exact hkey h
      · exact ih h

namespace Value

variable {root v : Value} {q : Query} {e : ParseError}

theorem set_ne_parse (hm : Path.moves q.path = false) : root.set q v ≠ .error (.parse e) := by
  unfold Value.set
  rw [hm]
  split
  · exact nofun
  · exact assign_ne_parse

theorem move_of_splitMove {source destination : Query} (hm : Path.moves q.path = true)
    (h : q.splitMove = .ok (source, destination)) :
    root.move q = (do
      let moved ← (root.get source).mapError .read
      let without ← root.delete source
      without.set destination moved) := by
  rw [move, hm, h]
  rfl

theorem move_of_splitMove_error {fault : Error} (hm : Path.moves q.path = true) (h : q.splitMove = .error fault) :
    root.move q = .error fault := by
  rw [move, hm, h]
  rfl

/-- A move that splits is not refused as a query. -/
theorem move_ne_parse {source destination : Query} (hm : Path.moves q.path = true)
    (h : q.splitMove = .ok (source, destination)) (hs : Path.moves source.path = false)
    (hd : Path.moves destination.path = false) : root.move q ≠ .error (.parse e) := by
  intro herror
  rw [move_of_splitMove hm h] at herror
  rcases Outcome.bind_error_iff.mp herror with herror | ⟨moved, -, herror⟩
  · obtain ⟨_, -, herror⟩ := Outcome.mapError_error_iff.mp herror
    cases herror
  obtain ⟨without, hdelete⟩ := delete_ok root hs
  rw [hdelete] at herror
  exact set_ne_parse hd herror

end Value

/-- A move splits into a source and a destination, and moving is not refused as a query, unless the destination
    begins with `#` and has `=` or `$` to take over. Then splitting and moving are refused with what is taken over
    in front of the `#`. -/
theorem splitMove_of_moves {q : Query} (hq : q.Parsed) (hm : Path.moves q.path = true) :
    ∃ head first tail, Query.splitAtMarker q.path = some (head, first :: tail) ∧
      ((first.body = .here → Path.overwrites q.path = false ∧ Path.makes head = false) →
        (∃ source destination, q.splitMove = .ok (source, destination)) ∧
        ∀ (root : Value) e, root.move q ≠ .error (.parse e)) ∧
      (first.body = .here → ∀ c : Command,
        (c = .overwrite ∧ Path.overwrites q.path = true ∨ c = .make ∧ Path.makes head = true) →
        q.splitMove = .error (.parse (.conflicting '#' c.symbol 1)) ∧
        ∀ root : Value, root.move q = .error (.parse (.conflicting '#' c.symbol 1))) := by
  have hw := Query.parsed_iff.mp hq
  obtain ⟨before, m, first, tail, hsplit⟩ := hw.exists_splitAt hm
  have hpath : q.path = (before ++ [m]) ++ first :: tail := by simp [hsplit.path]
  refine ⟨before ++ [m], first, tail, Query.splitAtMarker_eq hsplit, fun hhere => ?_, fun hb c hc => ?_⟩
  · have hnone : first.body = .here → Path.carried (before ++ [m]) (first :: tail) = {} := fun hb => by
      rw [Path.carried, ← hpath, (hhere hb).1, (hhere hb).2]
    obtain ⟨source, destination, hok, hsm, hdm⟩ := Query.splitMove_ok hq hsplit hnone
    exact ⟨⟨source, destination, hok⟩, fun root e => Value.move_ne_parse hm hok hsm hdm⟩
  · rw [hpath] at hw hc
    have herror := Query.splitMove_error hq hsplit hb (hw.carried_text hc)
    exact ⟨herror, fun root => Value.move_of_splitMove_error hm herror⟩

/-- `=a>b` splits, and moving along it is not refused as a query. -/
theorem splitMove_of_moves_field :
    (∃ source destination,
      Query.splitMove ⟨[⟨{ overwrite := true }, .field "a", true⟩, ⟨{}, .field "b", false⟩], 0, by decide⟩ =
        .ok (source, destination)) ∧
      ∀ e, (Value.object [("a", .int 1)]).move
        ⟨[⟨{ overwrite := true }, .field "a", true⟩, ⟨{}, .field "b", false⟩], 0, by decide⟩ ≠ .error (.parse e) := by
  have hread : Query.parse "=a>b" =
      .ok ⟨[⟨{ overwrite := true }, .field "a", true⟩, ⟨{}, .field "b", false⟩], 0, by decide⟩ := rfl
  obtain ⟨head, first, tail, hmark, hok, -⟩ := splitMove_of_moves ⟨"=a>b", _, hread, rfl⟩ rfl
  cases hmark
  obtain ⟨hsplit, hmove⟩ := hok nofun
  exact ⟨hsplit, hmove _⟩

/-- `=a>#` is a move that does not split, since `=` would have to stand before `#`. -/
theorem not_splitMove_here :
    Query.parse "=a>#" =
        .ok ⟨[⟨{ overwrite := true }, .field "a", true⟩, ⟨{}, .here, false⟩], 0, by decide⟩ ∧
      Path.moves [(⟨{ overwrite := true }, .field "a", true⟩ : Segment PlainPath), ⟨{}, .here, false⟩] = true ∧
      Query.splitMove ⟨[⟨{ overwrite := true }, .field "a", true⟩, ⟨{}, .here, false⟩], 0, by decide⟩ =
        .error (.parse (.conflicting '#' '=' 1)) := ⟨rfl, rfl, rfl⟩

end TreeQuery
