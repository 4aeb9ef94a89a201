import TreeQuery.Proofs.Grammar.Reading

/-! # Canonical texts

Every well-formed path has a spelling (`Path.spelledBy_verbatim`), so it is what some text is read as. Rendering
gives such a spelling up to the leading zeros of indices: what is read back is the path with every index
spelled by its number alone (`Path.canonical`), which is rendered in the same way and whose nodes are
alike. -/

namespace TreeQuery

variable {σ : Type} {Inner : List Char → σ → Prop} {reader : BracketReader σ} {before p : Path σ}
  {s : Segment σ} {pr : Progress}

/-! ### The canonical form -/

/-- The body with an index spelled without leading zeros. -/
def Body.canonical : Body σ → Body σ
  | .index digits => .index (Digits.ofNat (Digits.value digits))
  | b => b

/-- The segment with an index spelled without leading zeros. -/
def Segment.canonical (s : Segment σ) : Segment σ := { s with body := s.body.canonical }

/-- The path with its indices spelled without leading zeros. -/
def Path.canonical (p : Path σ) : Path σ := p.map Segment.canonical

@[simp] theorem Segment.canonical_commands (s : Segment σ) : s.canonical.commands = s.commands := rfl

@[simp] theorem Segment.canonical_marker (s : Segment σ) : s.canonical.marker = s.marker := rfl

@[simp] theorem Segment.canonical_body (s : Segment σ) : s.canonical.body = s.body.canonical := rfl

@[simp] theorem Path.canonical_length (p : Path σ) : (Path.canonical p).length = p.length := List.length_map _

@[simp] theorem Body.canonical_isArray (b : Body σ) : b.canonical.isArray = b.isArray := by
  cases b <;> rfl

@[simp] theorem Body.canonical_value (b : Body σ) : b.canonical.value = b.value := by
  cases b with
  | index digits => exact Digits.value_ofNat _
  | field | here | append | bracket => rfl

/-- Whatever is no index is spelled as it is. -/
theorem Body.canonical_of_ne {b : Body σ} (h : ∀ digits, b ≠ .index digits) : b.canonical = b := by
  cases b with
  | index digits => exact absurd rfl (h digits)
  | field | here | append | bracket => rfl

theorem Body.canonical_eq_append_iff {b : Body σ} : b.canonical = .append ↔ b = .append := by
  cases b <;> simp [Body.canonical]

theorem Body.canonical_wellFormed {b : Body σ} (h : b.WellFormed Inner) : b.canonical.WellFormed Inner := by
  cases b with
  | index digits => exact ⟨Digits.ofNat_ne_nil _, Digits.isDigits_ofNat _, by simpa using h.2.2⟩
  | field | here | append | bracket => exact h

theorem Body.canonical_fits {b : Body σ} {written : Commands} (h : b.Fits written) : b.canonical.Fits written := by
  cases b with
  | index digits => exact ⟨by simp [Body.canonical], by simpa [Body.canonical] using h.append⟩
  | field | here | append | bracket => exact h

theorem Segment.Lawful.canonical (h : s.Lawful Inner) : s.canonical.Lawful Inner :=
  ⟨Body.canonical_wellFormed h.body, Body.canonical_fits h.fits, h.compatible, h.marker⟩

theorem Body.canonical_canonical (b : Body σ) : b.canonical.canonical = b.canonical := by
  cases b with
  | index digits => exact congrArg Body.index (congrArg Digits.ofNat (Digits.value_ofNat _))
  | field | here | append | bracket => rfl

theorem Path.canonical_canonical (p : Path σ) : Path.canonical (Path.canonical p) = Path.canonical p := by
  rw [Path.canonical, Path.canonical, List.map_map]
  exact List.map_congr_left fun s _ => congrArg (Segment.mk s.commands · s.marker) s.body.canonical_canonical

theorem Path.canonical_append (p behind : Path σ) :
    Path.canonical (p ++ behind) = Path.canonical p ++ Path.canonical behind := List.map_append

theorem Path.canonical_last_unmarked (hlast : ∀ s ∈ p.getLast?, s.marker = false) :
    ∀ s ∈ (Path.canonical p).getLast?, s.marker = false := by
  intro s hs
  rw [Path.canonical, List.getLast?_map, Option.mem_def, Option.map_eq_some_iff] at hs
  obtain ⟨t, ht, rfl⟩ := hs
  exact hlast t ht

/-! ### A spelling of every path -/

/-- The text of a body, with the digits of an index as they are. -/
def Body.verbatim : Body σ → List Char
  | .index digits => digits
  | b => b.render

/-- The text of a segment, with the digits of an index as they are. -/
def Segment.verbatim (s : Segment σ) : List Char := s.commands.text ++ s.body.verbatim

/-- The text of a path, with the digits of its indices as they are. -/
def Path.verbatim (p : Path σ) : List Char := Path.join (fun _ s => s.verbatim) 0 p

theorem Commands.spelledBy_text (c : Commands) : c.SpelledBy c.text := by
  have hnodup : Command.writingOrder.Nodup := by decide
  refine ⟨Command.writingOrder.filter c.has, hnodup.sublist List.filter_sublist, fun d => ?_, fun hd => ?_, rfl⟩
  · cases d <;> simp [Command.writingOrder]
  · simp only [List.mem_filter] at hd
    simp [Command.writingOrder, hd.2]

theorem nameText_escapeReserved (name : List Char) : NameText (escapeReserved name) name := by
  induction name with
  | nil => exact .nil
  | cons c rest ih =>
    rw [escapeReserved]
    split
    · exact .escaped ih
    · rename_i hc
      exact .plain (by simpa using hc) ih

theorem nameText_escapeName (name : List Char) : NameText (escapeName name) name := by
  unfold escapeName
  split
  · rename_i h
    cases name with
    | nil => exact absurd rfl h.1
    | cons c rest =>
      have hd := List.all_eq_true.mp h.2
      exact .escaped (nameText_digits (List.all_eq_true.mpr fun d hm => hd d (by simp [hm])))
  · exact nameText_escapeReserved name

theorem isDigits_escapeName {name : List Char} (h : name ≠ []) : Digits.isDigits (escapeName name) = false := by
  unfold escapeName
  split
  · rfl
  · rename_i hd
    have hd : Digits.isDigits name = false := by simpa [h] using hd
    by_cases he : escapeReserved name = name
    · rw [he, hd]
    · exact isDigits_eq_false_of_ne (nameText_escapeReserved name) he

theorem Body.WellFormed.spelledBy_verbatim {b : Body σ} (h : b.WellFormed Inner) : b.SpelledBy b.verbatim := by
  cases b with
  | field name => exact ⟨nameText_escapeName _, isDigits_escapeName fun he => h (by simpa using he)⟩
  | index | here | append | bracket => rfl

theorem Segment.spelledBy_verbatim (h : s.body.WellFormed Inner) : s.SpelledBy s.verbatim :=
  ⟨_, _, Commands.spelledBy_text s.commands, h.spelledBy_verbatim, rfl⟩

theorem Path.join_cons_cons (f : Nat → Segment σ → List Char) (i : Nat) (s t : Segment σ) (rest : Path σ) :
    Path.join f i (s :: t :: rest) = f i s ++ s.separator :: Path.join f (i + 1) (t :: rest) := rfl

/-- Segments with their texts joined spell the path of these segments. -/
theorem spelledBy_join {f : Nat → Segment σ → List Char} (hne : p ≠ [])
    (hlast : ∀ s ∈ p.getLast?, s.marker = false) (hf : ∀ s ∈ p, ∀ i, s.SpelledBy (f i s)) (i : Nat) :
    Path.SpelledBy p (Path.join f i p) := by
  induction p generalizing i with
  | nil => exact absurd rfl hne
  | cons s rest ih =>
    cases rest with
    | nil => exact .last (hf s (by simp) i) (hlast s (by simp))
    | cons t rest =>
      have hrest := ih (by simp) (fun u hu => hlast u (by simpa [List.getLast?_cons_cons] using hu))
        (fun u hu => hf u (by simp [hu])) (i + 1)
      rw [Path.join_cons_cons]
      exact .cons (hf s (by simp) i) hrest

theorem Path.spelledBy_verbatim (hne : p ≠ []) (hlast : ∀ s ∈ p.getLast?, s.marker = false)
    (hb : ∀ s ∈ p, s.body.WellFormed Inner) : Path.SpelledBy p (Path.verbatim p) :=
  spelledBy_join hne hlast (fun s hs _ => Segment.spelledBy_verbatim (hb s hs)) 0

/-! ### Rules that editing keeps -/

/-- An edit that takes commands away and leaves the separators alone keeps the rules, if every segment
    keeps its own. -/
theorem Path.WellFormed.map {τ : Type} {Inner' : List Char → τ → Prop} {g : Segment σ → Segment τ}
    (h : Path.WellFormed Inner p) (hl : ∀ s ∈ p, (g s).Lawful Inner')
    (hc : ∀ s c, (g s).commands.has c = true → s.commands.has c = true) (hm : ∀ s, (g s).marker = s.marker) :
    Path.WellFormed Inner' (p.map g) := by
  have hc' : ∀ s : Segment σ, s.commands.delete = false → (g s).commands.delete = false := fun s hs =>
    Commands.has_eq_false_mono (c := .delete) (hc s) hs
  have hcont : Path.Continues Inner' [] (p.map g) :=
    { lawful := by simpa using hl
      follows := by simp
      pairwise := List.pairwise_map.mpr (h.pairwise.imp fun {b s} hbs =>
        ⟨(hbs.commands.mono_seen (hc b)).mono (hc s), hc' s hbs.delete, fun hmark =>
          ⟨hc' b (hbs.marker (hm s ▸ hmark)).1, (hm b).trans (hbs.marker (hm s ▸ hmark)).2⟩⟩)
      length_lt := by simpa using h.length_lt }
  refine hcont.wellFormed (by simpa using h.nonempty) fun s hs => ?_
  rw [List.getLast?_map, Option.mem_def, Option.map_eq_some_iff] at hs
  obtain ⟨t, ht, rfl⟩ := hs
  exact (hm t).trans (h.last_unmarked t ht)

/-- A path with one segment replaced ends as before. -/
theorem Path.last_unmarked_replace {before behind : Path σ} {t : Segment σ} (hmarker : t.marker = s.marker)
    (h : ∀ u ∈ (before ++ s :: behind).getLast?, u.marker = false) :
    ∀ u ∈ (before ++ t :: behind).getLast?, u.marker = false := by
  intro u hu
  rcases List.eq_nil_or_concat behind with rfl | ⟨rest, v, rfl⟩
  · obtain rfl : t = u := by simpa using hu
    exact hmarker.trans (h s (by simp))
  · exact h u (by simpa [List.getLast?_cons] using hu)

/-- Where one segment is replaced, the rules are about that one and about it with each of the others. -/
theorem Path.WellFormed.replace_iff {before behind : Path σ} {t : Segment σ}
    (h : Path.WellFormed Inner (before ++ s :: behind)) (hmarker : t.marker = s.marker) :
    Path.WellFormed Inner (before ++ t :: behind) ↔
      t.Lawful Inner ∧ (∀ b ∈ before, Segment.MayFollow b t) ∧ ∀ u ∈ behind, Segment.MayFollow t u := by
  constructor
  · intro h
    obtain ⟨-, hrest, hcross⟩ := List.pairwise_append.mp h.pairwise
    exact ⟨h.lawful (by simp), fun b hb => hcross b hb t List.mem_cons_self, (List.pairwise_cons.mp hrest).1⟩
  · rintro ⟨hlawful, hbefore, hbehind⟩
    obtain ⟨hfront, hrest, hcross⟩ := List.pairwise_append.mp h.pairwise
    have hcontinues : Path.Continues Inner [] (before ++ t :: behind) :=
      { lawful := List.forall_mem_append.mpr ⟨fun u hu => h.lawful (by simp [hu]),
          List.forall_mem_cons.mpr ⟨hlawful, fun u hu => h.lawful (by simp [hu])⟩⟩
        follows := nofun
        pairwise := List.pairwise_append.mpr ⟨hfront, List.pairwise_cons.mpr ⟨hbehind, (List.pairwise_cons.mp hrest).2⟩,
          fun b hb => List.forall_mem_cons.mpr ⟨hbefore b hb, fun u hu => hcross b hb u (List.mem_cons_of_mem s hu)⟩⟩
        length_lt := by simpa using h.length_lt }
    exact hcontinues.wellFormed (by simp) (Path.last_unmarked_replace hmarker h.last_unmarked)

/-- The rules about several segments do not look at bodies. -/
theorem Path.WellFormed.withBody {before behind : Path σ} {b : Body σ}
    (h : Path.WellFormed Inner (before ++ s :: behind)) (hl : Segment.Lawful Inner { s with body := b }) :
    Path.WellFormed Inner (before ++ { s with body := b } :: behind) := by
  obtain ⟨-, hbefore, hbehind⟩ := (h.replace_iff rfl).mp h
  refine (h.replace_iff (t := { s with body := b }) rfl).mpr ⟨hl, fun t ht => ?_, fun t ht => ?_⟩
  · obtain ⟨hcommands, hdelete, hmarker⟩ := hbefore t ht
    exact ⟨hcommands, hdelete, hmarker⟩
  · obtain ⟨hcommands, hdelete, hmarker⟩ := hbehind t ht
    exact ⟨hcommands, hdelete, hmarker⟩

theorem Path.WellFormed.canonical (h : Path.WellFormed Inner p) : Path.WellFormed Inner (Path.canonical p) :=
  h.map (fun _ hs => (h.lawful hs).canonical) (fun _ _ hc => hc) fun _ => rfl

/-- No rule but the one on each body sees how an index is spelled. -/
theorem Path.wellFormed_of_canonical (h : Path.WellFormed Inner (Path.canonical p))
    (hb : ∀ s ∈ p, s.body.WellFormed Inner) : Path.WellFormed Inner p := by
  have hlawful : ∀ s ∈ p, s.Lawful Inner := fun s hs => by
    obtain ⟨-, hfits, hcompatible, hmarker⟩ := h.lawful (List.mem_map_of_mem hs)
    have happend := hfits.append.trans Body.canonical_eq_append_iff
    refine ⟨hb s hs, ⟨fun hhere => hfits.here ?_, happend⟩, hcompatible, hmarker⟩
    rw [Segment.canonical_body, hhere]
    rfl
  have hcontinues : Path.Continues Inner [] p :=
    { lawful := hlawful
      follows := nofun
      pairwise := (List.pairwise_map.mp h.pairwise).imp fun ⟨hcommands, hdelete, hmarker⟩ =>
        ⟨hcommands, hdelete, hmarker⟩
      length_lt := by simpa using h.length_lt }
  refine hcontinues.wellFormed (fun hnil => h.nonempty (congrArg Path.canonical hnil)) fun s hs => ?_
  exact h.last_unmarked s.canonical (by rw [Path.canonical, List.getLast?_map, hs]; rfl)

/-! ### Rendering -/

theorem Segment.canonical_verbatim (s : Segment σ) : s.canonical.verbatim = s.render := by
  obtain ⟨commands, body, marker⟩ := s
  cases body <;> rfl

theorem Segment.spelledBy_render (h : s.body.WellFormed Inner) : s.canonical.SpelledBy s.render :=
  s.canonical_verbatim ▸ Segment.spelledBy_verbatim (s := s.canonical) (Body.canonical_wellFormed h)

/-- Segments may be edited one by one before they are joined. -/
theorem Path.join_map {τ : Type} (f : Nat → Segment τ → List Char) {g : Segment σ → Segment τ}
    (hg : ∀ s, (g s).marker = s.marker) (i : Nat) (p : Path σ) :
    Path.join f i (p.map g) = Path.join (fun i s => f i (g s)) i p := by
  induction p generalizing i with
  | nil => rfl
  | cons s rest ih =>
    cases rest with
    | nil => rfl
    | cons t rest =>
      have hsep : (g s).separator = s.separator := by simp [Segment.separator, hg]
      have hrest := ih (i + 1)
      rw [List.map_cons] at hrest
      rw [List.map_cons, List.map_cons, Path.join_cons_cons, Path.join_cons_cons, hrest, hsep]

/-- What a bracket holds is not in the text of a path, which has the text of the bracket. -/
theorem Path.spec_map {τ : Type} (f : σ → τ) (p : Path σ) : Path.spec (p.map (Segment.map f)) = p.spec := by
  have hrender : ∀ s : Segment σ, (s.map f).render = s.render := fun s => by
    obtain ⟨commands, body, marker⟩ := s
    cases body <;> rfl
  have hmarker : ∀ s : Segment σ, (s.map f).marker = s.marker := fun _ => rfl
  rw [Path.spec, Path.spec, Path.render, Path.render, Path.join_map _ hmarker]
  simp only [hrender]

theorem Path.canonical_verbatim (p : Path σ) : Path.verbatim (Path.canonical p) = Path.render p := by
  rw [Path.verbatim, Path.canonical, Path.join_map _ Segment.canonical_marker]
  simp only [Segment.canonical_verbatim]
  rfl

theorem Segment.canonical_render (s : Segment σ) : s.canonical.render = s.render := by
  obtain ⟨commands, body, marker⟩ := s
  cases body <;> simp [Segment.canonical, Segment.render, Body.canonical, Body.render]

theorem Path.canonical_render (p : Path σ) : Path.render (Path.canonical p) = Path.render p := by
  rw [Path.render, Path.canonical, Path.join_map _ Segment.canonical_marker]
  simp only [Segment.canonical_render]
  rfl

theorem Path.spelledBy_render (hne : p ≠ []) (hlast : ∀ s ∈ p.getLast?, s.marker = false)
    (hb : ∀ s ∈ p, s.body.WellFormed Inner) : Path.SpelledBy (Path.canonical p) (Path.render p) := by
  have hbodies : ∀ s ∈ Path.canonical p, s.body.WellFormed Inner := by
    intro s hs
    obtain ⟨t, ht, rfl⟩ := List.mem_map.mp hs
    exact Body.canonical_wellFormed (hb t ht)
  rw [← p.canonical_verbatim]
  exact spelledBy_verbatim (by simpa [Path.canonical] using hne) (Path.canonical_last_unmarked hlast) hbodies

/-! ### Nodes -/

/-- Nodes that differ in the spelling of an index at most. -/
structure Node.Alike (m n : Node σ) : Prop where
  kind : m.body.isArray = n.body.isArray
  mode : m.mode = n.mode
  commands : m.commands = n.commands
  value : m.body.value = n.body.value
  seq : m.seq = n.seq
  /-- The same name, or the same text and the same path in a bracket. -/
  body : n.index? = none → m.body = n.body

theorem Path.canonical_mode (p : Path σ) (seq : Nat) (s : Segment σ) :
    (Path.canonical p).mode seq s.canonical = p.mode seq s := by
  have hhere : s.body.canonical.isHere = s.body.isHere := by cases s.body <;> rfl
  have hbracket : s.body.canonical.isBracket = s.body.isBracket := by cases s.body <;> rfl
  have hmakes : Path.makes ((p.map Segment.canonical).take (seq + 1)) = Path.makes (p.take (seq + 1)) := by
    rw [← List.map_take, Path.makes, List.any_map]
    rfl
  simp [Path.mode, hhere, hbracket, hmakes, Path.canonical, Path.overwrites, Path.appends, Path.deletes,
    Path.moves, Path.writes, Function.comp_def]

theorem Path.nodes_getElem? (p : Path σ) (i : Nat) : (Path.nodes p)[i]? = p[i]?.map (p.nodeAt i) := by
  simp [Path.nodes]

theorem Node.body_ne_index {n : Node σ} (h : n.index? = none) (digits : List Char) : n.body ≠ .index digits := by
  intro hb
  rw [index?, hb] at h
  cases h

theorem Path.canonical_alike {p : Path σ} {i : Nat} {m n : Node σ}
    (hm : (Path.nodes (Path.canonical p))[i]? = some m) (hn : (Path.nodes p)[i]? = some n) : m.Alike n := by
  rw [Path.nodes_getElem?, Option.map_eq_some_iff] at hm hn
  obtain ⟨s, hs, rfl⟩ := hn
  obtain ⟨t, ht, rfl⟩ := hm
  obtain rfl : s.canonical = t := by simpa [Path.canonical, hs] using ht
  exact ⟨Body.canonical_isArray _, Path.canonical_mode p i s, rfl, Body.canonical_value _, rfl,
    fun h => Body.canonical_of_ne (Node.body_ne_index h)⟩

/-! ### Queries -/

namespace Query

theorem path_ne_nil (q : Query) : q.path ≠ [] := List.length_pos_iff.mp (Nat.zero_lt_of_lt q.seq_lt)

/-- A path is its last segment behind the others. -/
theorem exists_path_concat (q : Query) : ∃ front s, q.path = front ++ [s] := by
  obtain hnil | ⟨front, s, hpath⟩ := List.eq_nil_or_concat q.path
  · exact absurd hnil q.path_ne_nil
  · exact ⟨front, s, by rw [hpath, List.concat_eq_append]⟩

/-- The query at the root of the canonical path. -/
def canonical (q : Query) : Query :=
  ⟨Path.canonical q.path, 0, by have := q.seq_lt; rw [Path.canonical_length]; omega⟩

theorem parse_spec {q : Query} (h : Path.WellFormed Bracketed q.path) : parse q.spec = .ok q.canonical := by
  rw [parse_ok_iff, readSpec_ok_iff]
  have htext : q.spec.toList = Path.render q.path := String.toList_ofList
  exact ⟨⟨h.canonical, Or.inl (htext ▸ Path.spelledBy_render h.nonempty h.last_unmarked h.bodies)⟩, rfl⟩

theorem parse_path_spec {p : Path PlainPath} (h : Path.WellFormed Bracketed p) :
    ∃ q, parse (Path.spec p) = .ok q ∧ q.path = Path.canonical p :=
  ⟨_, parse_spec (q := ⟨p, 0, List.length_pos_iff.mpr h.nonempty⟩) h, rfl⟩

theorem canonical_spec (q : Query) : q.canonical.spec = q.spec :=
  congrArg String.ofList (Path.canonical_render q.path)

/-- Whether the path of a query, at whichever place, is what some text is read as. -/
def Parsed (q : Query) : Prop := ∃ text root, parse text = .ok root ∧ root.path = q.path

theorem parsed_iff {q : Query} : q.Parsed ↔ Path.WellFormed Bracketed q.path := by
  constructor
  · rintro ⟨text, root, hread, hpath⟩
    exact hpath ▸ (readSpec_ok_iff.mp (parse_ok_iff.mp hread).1).1
  · intro h
    have htext := String.toList_ofList (l := Path.verbatim q.path)
    refine ⟨String.ofList (Path.verbatim q.path), ⟨q.path, 0, Nat.zero_lt_of_lt q.seq_lt⟩, ?_, rfl⟩
    rw [parse_ok_iff, readSpec_ok_iff, htext]
    exact ⟨⟨h, Or.inl (Path.spelledBy_verbatim h.nonempty h.last_unmarked h.bodies)⟩, rfl⟩

end Query

end TreeQuery
