import TreeQuery.Proofs.Document.Equal
import TreeQuery.Proofs.Grammar.Conflict
import TreeQuery.Proofs.Query.Split

/-! # Commands written on a node

The commands of a node are edited by writing the whole path anew, so an edit succeeds exactly if the path with that
node edited obeys the rules, and otherwise it is refused over a conflict (`Query.editCommands_orConflict`). The edited
path differs from a valid one in a single segment, so only the rules about that segment and each of the others are
left to look at. For `$` and `=` they say which commands must not be written, and where
(`Query.editCommands_exact`). -/

namespace TreeQuery

variable {σ : Type} {Inner : List Char → σ → Prop} {s t : Segment σ} {c : Command}

/-! ### One command more -/

namespace Commands

variable {s t : Commands}

theorem erase_insert_overwrite (h : s.overwrite = false) : (s.insert .overwrite).erase .overwrite = s :=
  congrArg (Commands.mk · s.maybe s.make s.append s.delete) h.symm

theorem Compatible.insert_make_iff (h : s.Compatible) :
    (s.insert .make).Compatible ↔ s.overwrite = false ∧ s.maybe = false ∧ s.delete = false := by
  constructor
  · rintro ⟨ho, hk, -⟩
    exact ⟨eq_false_of_imp (fun hs => (ho hs).2.2.1) rfl, hk rfl⟩
  · rintro ⟨ho, hs⟩
    exact ⟨fun hs => absurd (hs.symm.trans ho) nofun, fun _ => hs, h.append⟩

theorem Compatible.insert_overwrite_iff (h : s.Compatible) : (s.insert .overwrite).Compatible ↔
    s.maybe = false ∧ s.append = false ∧ s.make = false ∧ s.delete = false :=
  ⟨fun h => h.overwrite rfl, fun hs => ⟨fun _ => hs, h.make, h.append⟩⟩

theorem MayFollow.insert_make_iff (h : MayFollow s t) :
    MayFollow s (t.insert .make) ↔ s.overwrite = false ∧ s.delete = false :=
  ⟨fun h => h.make rfl, fun hs => ⟨h.overwrite, h.maybe, fun _ => hs, h.append⟩⟩

theorem MayFollow.insert_overwrite_iff (h : MayFollow s t) : MayFollow s (t.insert .overwrite) ↔
    s.maybe = false ∧ s.append = false ∧ s.make = false ∧ s.delete = false :=
  ⟨fun h => h.overwrite rfl, fun hs => ⟨fun _ => hs, h.maybe, h.make, h.append⟩⟩

theorem MayFollow.behind_make_iff (h : MayFollow s t) :
    MayFollow (s.insert .make) t ↔ t.overwrite = false ∧ t.maybe = false := by
  constructor
  · intro h
    exact ⟨eq_false_of_imp (fun ht => (h.overwrite ht).2.2.1) rfl, eq_false_of_imp (fun ht => (h.maybe ht).2) rfl⟩
  · rintro ⟨ho, hm⟩
    exact ⟨fun ht => absurd (ht.symm.trans ho) nofun, fun ht => absurd (ht.symm.trans hm) nofun, h.make, h.append⟩

theorem MayFollow.behind_overwrite_iff (h : MayFollow s t) :
    MayFollow (s.insert .overwrite) t ↔ t.maybe = false ∧ t.append = false ∧ t.make = false := by
  constructor
  · intro h
    exact ⟨eq_false_of_imp (fun ht => (h.maybe ht).1) rfl, eq_false_of_imp (fun ht => (h.append ht).1) rfl,
      eq_false_of_imp (fun ht => (h.make ht).1) rfl⟩
  · rintro ⟨hm, ha, hk⟩
    exact ⟨h.overwrite, fun ht => absurd (ht.symm.trans hm) nofun, fun ht => absurd (ht.symm.trans hk) nofun,
      fun ht => absurd (ht.symm.trans ha) nofun⟩

end Commands

/-- Of what a segment obeys by itself, a command changes whether it fits the body and the other commands. -/
theorem Segment.Lawful.insert_iff (h : s.Lawful Inner) (ha : c ≠ .append) (hd : c ≠ .delete) :
    (s.edit (·.insert c)).Lawful Inner ↔ s.body ≠ .here ∧ (s.commands.insert c).Compatible := by
  constructor
  · rintro ⟨-, hfits, hcompatible, -⟩
    exact ⟨fun hhere => Commands.insert_ne_empty (hfits.here hhere), hcompatible⟩
  · rintro ⟨hne, hcompatible⟩
    have happend : (s.commands.insert c).append = s.commands.append := Commands.insert_append_of_ne ha
    have hdelete : (s.commands.insert c).delete = s.commands.delete := Commands.insert_delete_of_ne hd
    exact ⟨h.body, ⟨fun hhere => absurd hhere hne, happend ▸ h.fits.append⟩, hcompatible,
      fun hm => hdelete.trans (h.marker hm)⟩

theorem Segment.MayFollow.insert_iff (h : s.MayFollow t) (hd : c ≠ .delete) :
    s.MayFollow (t.edit (·.insert c)) ↔ s.commands.MayFollow (t.commands.insert c) :=
  ⟨fun h => h.commands, fun hc => ⟨hc, (Commands.insert_delete_of_ne hd).trans h.delete, h.marker⟩⟩

theorem Segment.MayFollow.behind_iff (h : s.MayFollow t) (hd : c ≠ .delete) :
    (s.edit (·.insert c)).MayFollow t ↔ (s.commands.insert c).MayFollow t.commands :=
  ⟨fun h => h.commands, fun hc =>
    ⟨hc, h.delete, fun hm => ⟨(Commands.insert_delete_of_ne hd).trans (h.marker hm).1, (h.marker hm).2⟩⟩⟩

namespace Query

variable {q r : Query} {f g : Commands → Commands}

/-! ### Reading the edited path -/

theorem canonical_moveTo (q : Query) : q.canonical.moveTo q.seq = q.normal := by
  have hlast : q.seq ≤ q.canonical.path.length - 1 := Nat.le_sub_one_of_lt q.normal.seq_lt
  simp only [moveTo, Nat.min_eq_left hlast]
  rfl

theorem editCommands_eq : q.editCommands f = (do return (← parse (q.edited f).spec).moveTo q.seq) := rfl

/-- The edited text is read as the path with that one node edited, or it is refused over a conflict. -/
theorem editCommands_orConflict (hq : q.Parsed) (hf : ∀ c : Commands, (f c).append = c.append) :
    OrConflict (q.edited f).normal (q.editCommands f) := by
  have hw := parsed_iff.mp hq
  have hformed : ∀ s ∈ (q.edited f).path, s.Formed Bracketed := by
    refine forall_mem_edited (fun s hs => ⟨hw.bodies s hs, hw.append s hs⟩) ⟨hw.bodies q.segment q.segment_mem, ?_⟩
    exact hf q.segment.commands ▸ hw.append q.segment q.segment_mem
  have hmarkers : (q.edited f).path.countP (·.marker) ≤ 1 := by
    obtain ⟨before, behind, -, hpath, hedited⟩ := q.exists_edited f
    have hone := hw.one_marker
    rw [hpath, List.countP_append, List.countP_cons] at hone
    rw [hedited, List.countP_append, List.countP_cons]
    exact hone
  have hlength : (q.edited f).path.length < maxLength := by
    rw [edited, List.length_modify]
    exact hw.length_lt
  exact (parse_spec_orConflict hformed hmarkers (hq.edited_last_unmarked f) hlength).bind
    (Or.inl (congrArg Except.ok (q.edited f).canonical_moveTo))

/-- A node can be edited exactly if the path obeys the rules with the node edited. -/
theorem editCommands_ok_iff (hq : q.Parsed) (hf : ∀ c : Commands, (f c).append = c.append) :
    q.editCommands f = .ok r ↔ (q.edited f).Parsed ∧ r = (q.edited f).normal := by
  constructor
  · intro h
    have hr := (editCommands_orConflict hq hf).eq_of_ok h
    have hw : Path.WellFormed Bracketed (Path.canonical (q.edited f).path) := parsed_iff.mp (hr ▸ Parsed.editCommands h)
    have hbodies : ∀ s ∈ (q.edited f).path, s.body.WellFormed Bracketed :=
      forall_mem_edited (parsed_iff.mp hq).bodies ((parsed_iff.mp hq).bodies q.segment q.segment_mem)
    exact ⟨parsed_iff.mpr (Path.wellFormed_of_canonical hw hbodies), hr⟩
  · rintro ⟨hparsed, rfl⟩
    rw [editCommands_eq, parse_spec (parsed_iff.mp hparsed), Outcome.ok_bind]
    exact congrArg Except.ok (q.edited f).canonical_moveTo

/-! ### Where a command can be written -/

/-- What the segment of a query obeys with those before and behind it, and what the edited one has to obey. -/
theorem Parsed.exists_edited_iff (hq : q.Parsed) (f : Commands → Commands) : ∃ before behind,
    q.path = before ++ q.segment :: behind ∧ q.remaining = q.segment :: behind ∧ q.segment.Lawful Bracketed ∧
      (∀ s ∈ before, s.MayFollow q.segment) ∧ (∀ s ∈ behind, q.segment.MayFollow s) ∧
      ((q.edited f).Parsed ↔ (q.segment.edit f).Lawful Bracketed ∧ (∀ s ∈ before, s.MayFollow (q.segment.edit f)) ∧
        ∀ s ∈ behind, (q.segment.edit f).MayFollow s) := by
  obtain ⟨before, behind, hlength, hpath, hedited⟩ := q.exists_edited f
  have hw := hpath ▸ parsed_iff.mp hq
  obtain ⟨hlawful, hbefore, hbehind⟩ := (hw.replace_iff rfl).mp hw
  refine ⟨before, behind, hpath, by rw [remaining, hpath, List.drop_left' hlength], hlawful, hbefore, hbehind, ?_⟩
  rw [parsed_iff, hedited, hw.replace_iff (t := q.segment.edit f) rfl]

theorem insertMake_parsed_iff (hq : q.Parsed) : (q.edited (·.insert .make)).Parsed ↔
    q.segment.body ≠ .here ∧ Path.overwrites q.path = false ∧ Path.deletes q.path = false ∧
      ∀ s ∈ q.remaining, s.commands.maybe = false := by
  obtain ⟨before, behind, hpath, hremaining, hlawful, hbefore, hbehind, hiff⟩ := hq.exists_edited_iff (·.insert .make)
  have hdelete : ∀ s ∈ behind, s.commands.delete = false := fun s hs => (hbehind s hs).delete
  rw [hiff, hlawful.insert_iff (c := .make) nofun nofun, hlawful.compatible.insert_make_iff,
    forall₂_congr fun s hs => ((hbefore s hs).insert_iff (c := .make) nofun).trans
      (hbefore s hs).commands.insert_make_iff,
    forall₂_congr fun s hs => ((hbehind s hs).behind_iff (c := .make) nofun).trans
      (hbehind s hs).commands.behind_make_iff, hpath, hremaining]
  simp only [Path.overwrites, Path.deletes, Path.any_eq_false_iff, List.forall_mem_append, List.forall_mem_cons,
    forall_and]
  constructor
  · rintro ⟨⟨hne, ho, hm, hd⟩, ⟨hob, hdb⟩, hot, hmt⟩
    exact ⟨hne, ⟨hob, ho, hot⟩, ⟨hdb, hd, hdelete⟩, hm, hmt⟩
  · rintro ⟨hne, ⟨hob, ho, hot⟩, ⟨hdb, hd, -⟩, hm, hmt⟩
    exact ⟨⟨hne, ho, hm, hd⟩, ⟨hob, hdb⟩, hot, hmt⟩

theorem insertOverwrite_parsed_iff (hq : q.Parsed) : (q.edited (·.insert .overwrite)).Parsed ↔
    q.segment.body ≠ .here ∧ (∀ s ∈ q.path, s.commands.maybe = false) ∧ Path.appends q.path = false ∧
      Path.makes q.path = false ∧ Path.deletes q.path = false := by
  obtain ⟨before, behind, hpath, -, hlawful, hbefore, hbehind, hiff⟩ := hq.exists_edited_iff (·.insert .overwrite)
  have hdelete : ∀ s ∈ behind, s.commands.delete = false := fun s hs => (hbehind s hs).delete
  rw [hiff, hlawful.insert_iff (c := .overwrite) nofun nofun, hlawful.compatible.insert_overwrite_iff,
    forall₂_congr fun s hs => ((hbefore s hs).insert_iff (c := .overwrite) nofun).trans
      (hbefore s hs).commands.insert_overwrite_iff,
    forall₂_congr fun s hs => ((hbehind s hs).behind_iff (c := .overwrite) nofun).trans
      (hbehind s hs).commands.behind_overwrite_iff, hpath]
  simp only [Path.appends, Path.makes, Path.deletes, Path.any_eq_false_iff, List.forall_mem_append,
    List.forall_mem_cons, forall_and]
  constructor
  · rintro ⟨⟨hne, hm, ha, hk, hd⟩, ⟨hmb, hab, hkb, hdb⟩, hmt, hat, hkt⟩
    exact ⟨hne, ⟨hmb, hm, hmt⟩, ⟨hab, ha, hat⟩, ⟨hkb, hk, hkt⟩, hdb, hd, hdelete⟩
  · rintro ⟨hne, ⟨hmb, hm, hmt⟩, ⟨hab, ha, hat⟩, ⟨hkb, hk, hkt⟩, hdb, hd, -⟩
    exact ⟨⟨hne, hm, ha, hk, hd⟩, ⟨hmb, hab, hkb, hdb⟩, hmt, hat, hkt⟩

/-- A command less stands in no way, if it is not the `+` that stands for a body. -/
theorem erase_parsed (hq : q.Parsed) (ha : c ≠ .append) : (q.edited (·.erase c)).Parsed := by
  obtain ⟨before, behind, -, -, hlawful, hbefore, hbehind, hiff⟩ := hq.exists_edited_iff (·.erase c)
  have hmono : ∀ d, (q.segment.commands.erase c).has d = true → q.segment.commands.has d = true :=
    fun d => Commands.has_of_has_erase
  have hdelete : q.segment.commands.delete = false → (q.segment.commands.erase c).delete = false :=
    Commands.has_eq_false_mono (c := .delete) hmono
  have happend : (q.segment.commands.erase c).append = q.segment.commands.append := by
    cases c with
    | append => exact absurd rfl ha
    | overwrite | maybe | make | delete => rfl
  refine hiff.mpr ⟨⟨hlawful.body, ⟨fun hhere => ?_, happend ▸ hlawful.fits.append⟩, hlawful.compatible.mono hmono,
    fun hm => hdelete (hlawful.marker hm)⟩, fun s hs => ?_, fun s hs => ?_⟩
  · have hempty : q.segment.commands = {} := hlawful.fits.here hhere
    rw [Segment.edit, hempty]
    cases c <;> rfl
  · obtain ⟨hcommands, hd, hm⟩ := hbefore s hs
    exact ⟨hcommands.mono hmono, hdelete hd, hm⟩
  · obtain ⟨hcommands, hd, hm⟩ := hbehind s hs
    exact ⟨hcommands.mono_seen hmono, hd, fun hmarker => ⟨hdelete (hm hmarker).1, (hm hmarker).2⟩⟩

/-! ### Edits one after another -/

theorem edited_edited (q : Query) (f g : Commands → Commands) : (q.edited f).edited g = q.edited (g ∘ f) := by
  simp only [edited, List.modify_modify_eq]
  rfl

theorem edited_normal (q : Query) (f : Commands → Commands) : q.normal.edited f = (q.edited f).normal := by
  have hpath : (Path.canonical q.path).modify q.seq (Segment.edit f) =
      Path.canonical (q.path.modify q.seq (Segment.edit f)) := by
    refine List.ext_getElem? fun i => ?_
    simp only [Path.canonical, List.getElem?_modify, List.getElem?_map]
    cases q.path[i]? with
    | none => rfl
    | some s =>
      by_cases hi : q.seq = i
      · simp [hi, Segment.edit, Segment.canonical]
      · simp [hi]
  simp only [edited, normal, hpath]

/-- An edit that changes nothing written on the node changes nothing. -/
theorem edited_eq_self (h : f q.segment.commands = q.segment.commands) : q.edited f = q := by
  obtain ⟨before, behind, -, hpath, hedited⟩ := q.exists_edited f
  have hsegment : q.segment.edit f = q.segment := by rw [Segment.edit, h]
  rw [hsegment, ← hpath] at hedited
  obtain ⟨path, seq, hlt⟩ := q
  exact mk.injEq .. ▸ ⟨hedited, rfl⟩

/-- `r` is `q` with the commands of its node edited, read anew. -/
structure EditOf (f : Commands → Commands) (q r : Query) : Prop where
  seq : r.seq = q.seq
  length : r.length = q.length
  node : ∀ (i : Nat) m n, (Path.nodes r.path)[i]? = some m → (Path.nodes q.path)[i]? = some n →
    m.Keeps (if i = q.seq then f else id) n

theorem editOf_edited (q : Query) (f : Commands → Commands) : EditOf f q (q.edited f).normal where
  seq := rfl
  length := (Path.canonical_length _).trans (List.length_modify ..)
  node i m n hm hn := by
    refine Path.nodes_keeps ?_ hm hn
    rw [edited, List.getElem?_modify]
    by_cases hi : i = q.seq
    · simp [hi]
    · simp [hi, Ne.symm hi, Segment.edit_id]

/-- What an edit puts on a node that another one takes away again leaves an equal query. -/
theorem eq_of_edited_edited (hf : g (f q.segment.commands) = q.segment.commands) :
    ((q.edited f).normal.edited g).normal = q.normal := by
  rw [edited_normal, normal_normal, edited_edited, edited_eq_self hf]

/-! ### The edits together -/

theorem addCommand_ok_iff (hq : q.Parsed) (hc : c ≠ .append) : q.addCommand c = .ok r ↔
    (q.edited (·.insert c)).Parsed ∧ r = (q.edited (·.insert c)).normal :=
  editCommands_ok_iff hq fun _ => Commands.insert_append_of_ne hc

theorem dropOverwrite_eq (hq : q.Parsed) : q.dropCommand .overwrite = .ok (q.edited (·.erase .overwrite)).normal := by
  have hparsed : (q.edited (·.erase .overwrite)).Parsed := erase_parsed (c := .overwrite) hq nofun
  exact (editCommands_ok_iff hq (f := (·.erase .overwrite)) fun _ => rfl).mpr ⟨hparsed, rfl⟩

/-- `$` can be written on any node but `#`, where no `=` and no `!` is written and no `?` from that node on; `=` where
    no other command is written at all. `=` can always be taken away. A refusal is over a conflict, and an edit changes
    nothing but the one command on the one node, so to write `=` and take it away again gives an equal query. -/
theorem editCommands_exact (hq : q.Parsed) :
    ((∃ r, q.addCommand .make = .ok r) ↔ q.segment.body ≠ .here ∧ Path.overwrites q.path = false ∧
      Path.deletes q.path = false ∧ ∀ s ∈ q.remaining, s.commands.maybe = false) ∧
    ((∃ r, q.addCommand .overwrite = .ok r) ↔ q.segment.body ≠ .here ∧ (∀ s ∈ q.path, s.commands.maybe = false) ∧
      Path.appends q.path = false ∧ Path.makes q.path = false ∧ Path.deletes q.path = false) ∧
    (∃ r, q.dropCommand .overwrite = .ok r) ∧
    (∀ c, c ≠ .append → (∀ r, q.addCommand c = .ok r → EditOf (·.insert c) q r) ∧
      ∀ e, q.addCommand c = .error e → ∃ a b n, e = .conflicting a b n) ∧
    (∀ r, q.dropCommand .overwrite = .ok r → EditOf (·.erase .overwrite) q r) ∧
    (q.segment.commands.overwrite = false → ∀ r, q.addCommand .overwrite = .ok r →
      ∃ q₂, r.dropCommand .overwrite = .ok q₂ ∧ (q₂ == q) = true) := by
  refine ⟨?_, ?_, ⟨_, dropOverwrite_eq hq⟩, fun c hc => ⟨fun r h => ?_, fun e h => ?_⟩, fun r h => ?_, fun ho r h => ?_⟩
  · simp only [addCommand_ok_iff hq (c := .make) nofun, exists_and_left, exists_eq, and_true, insertMake_parsed_iff hq]
  · simp only [addCommand_ok_iff hq (c := .overwrite) nofun, exists_and_left, exists_eq, and_true,
      insertOverwrite_parsed_iff hq]
  · obtain ⟨-, rfl⟩ := (addCommand_ok_iff hq hc).mp h
    exact editOf_edited q _
  · exact (editCommands_orConflict hq fun _ => Commands.insert_append_of_ne hc).conflicting_of_error h
  · obtain rfl := Except.ok.inj ((dropOverwrite_eq hq).symm.trans h)
    exact editOf_edited q _
  · obtain ⟨hparsed, rfl⟩ := (addCommand_ok_iff hq (c := .overwrite) nofun).mp h
    have hdrop := dropOverwrite_eq hparsed.normal
    refine ⟨_, hdrop, (eq_iff_normal_eq (Parsed.editCommands hdrop) hq).mpr ?_⟩
    rw [normal_normal]
    exact eq_of_edited_edited (Commands.erase_insert_overwrite ho)

/-- `=` is written on the second node of `a.01` and taken away again. -/
theorem editCommands_exact_index : ∃ q₂,
    dropCommand ⟨[⟨{}, .field "a", false⟩, ⟨{ overwrite := true }, .index ['1'], false⟩], 1, by decide⟩ .overwrite =
      .ok q₂ ∧ (q₂ == ⟨[⟨{}, .field "a", false⟩, ⟨{}, .index ['0', '1'], false⟩], 1, by decide⟩) = true := by
  have hread : parse "a.01" = .ok ⟨[⟨{}, .field "a", false⟩, ⟨{}, .index ['0', '1'], false⟩], 0, by decide⟩ := rfl
  have hadd : addCommand ⟨[⟨{}, .field "a", false⟩, ⟨{}, .index ['0', '1'], false⟩], 1, by decide⟩ .overwrite =
      .ok ⟨[⟨{}, .field "a", false⟩, ⟨{ overwrite := true }, .index ['1'], false⟩], 1, by decide⟩ := rfl
  obtain ⟨-, -, -, -, -, hback⟩ :=
    editCommands_exact (q := ⟨[⟨{}, .field "a", false⟩, ⟨{}, .index ['0', '1'], false⟩], 1, by decide⟩)
      ⟨"a.01", _, hread, rfl⟩
  exact hback rfl _ hadd

end Query

end TreeQuery
