import TreeQuery.Proofs.Document.Built
import TreeQuery.Proofs.Document.Equal
import TreeQuery.Proofs.Document.Graft

/-! # Moves undone

A move takes a value out of one field and grafts it into another one. Without commands each of the two steps undoes the
other, so a move and the move back relate the same two documents, by way of the one without the value
(`move_ok_iff`). It does not matter what the two paths have in common: where the one is in the way of the other, the
move fails. -/

namespace TreeQuery

variable {σ : Type} {key : Body σ → Except ReadError Key} {p : Path σ} {v v' w d d₂ : Value} {q : Query}

/-! ### Taking away and putting in -/

theorem Path.any_eq_false_of_bare (hp : ∀ s ∈ p, s.commands = {}) {f : Commands → Bool} (hf : f {} = false) :
    p.any (fun s => f s.commands) = false :=
  any_eq_false_iff.mpr fun s hs => by rw [hp s hs, hf]

/-- A query at the root of a path that leads to a field, with neither commands nor brackets nor `>`. -/
structure Query.ToField (q : Query) : Prop where
  parsed : q.Parsed
  root : q.seq = 0
  unmarked : ∀ s ∈ q.path, s.marker = false
  bare : ∀ s ∈ q.path, s.commands = {}
  bracketFree : q.BracketFree
  field : ∃ s ∈ q.path.getLast?, ∃ name, s.body = .field name

namespace Query.ToField

theorem remaining (h : q.ToField) : q.remaining = q.path := Query.remaining_of_root h.root

theorem moves (h : q.ToField) : Path.moves q.path = false := Path.any_eq_false_iff.mpr h.unmarked

theorem path (h : q.ToField) (d : Value) : Path.ToField (keyIn d) q.path where
  bare := h.bare
  readable := by
    rw [← h.remaining]
    exact readable h.parsed (Path.any_eq_false_of_bare h.bare rfl) h.bracketFree
  field := by
    obtain ⟨s, hs, name, hbody⟩ := h.field
    exact ⟨s, hs, name, by rw [hbody]; rfl⟩

theorem get_ok_iff (h : q.ToField) : d.get q = .ok w ↔ walk q.spec (keyIn d) q.path d = .ok (some w) := by
  have hread : q.checkReadonly = .ok () :=
    checkReadonly_ok_iff.mpr ⟨Path.any_eq_false_of_bare h.bare rfl, h.moves⟩
  rw [Value.get_ok_iff, h.remaining, and_iff_right hread]
  constructor
  · rintro ⟨found, hwalk, rfl⟩
    cases found with
    | none => exact absurd hwalk (walk_ne_none fun s hs => by rw [h.bare s hs])
    | some w => exact hwalk
  · exact fun hwalk => ⟨some w, hwalk, rfl⟩

theorem delete_of_walk (h : q.ToField) (hwalk : walk q.spec (keyIn d) q.path d = .ok (some w)) :
    d.delete q = (remove (keyIn d) q.path d).mapError .read := by
  rw [← h.remaining] at hwalk ⊢
  exact Value.delete_of_walk h.moves hwalk

/-- What is taken from a field can be grafted there again. -/
theorem taken_iff (h : q.ToField) (hd : d.Ordered) :
    (d.get q = .ok w ∧ d.delete q = .ok v) ↔ v.Ordered ∧ Grafted (keyIn d) w q.path v d := by
  rw [h.get_ok_iff]
  constructor
  · rintro ⟨hwalk, hdelete⟩
    rw [h.delete_of_walk hwalk] at hdelete
    obtain ⟨v', hremove, hgraft⟩ := (h.path d).grafted_of_walk hd hwalk
    obtain rfl := Except.ok.inj (hremove.symm.trans (Outcome.mapError_ok_iff.mp hdelete))
    exact ⟨remove_ordered hremove hd, hgraft⟩
  · rintro ⟨hv, hgraft⟩
    refine ⟨hgraft.walk, ?_⟩
    rw [h.delete_of_walk hgraft.walk, hgraft.remove hv]
    rfl

theorem set_ok_iff (h : q.ToField) : v.set q w = .ok v' ↔ Grafted (keyIn v) w q.path v v' := by
  have hdeletes : Path.deletes q.path = false := Path.any_eq_false_of_bare h.bare rfl
  have hoverwrites : Path.overwrites q.path = false := Path.any_eq_false_of_bare h.bare rfl
  have hmakes : Path.makes (q.path.take q.seq) = false := by
    rw [h.root]
    rfl
  rw [set_eq_assign hdeletes h.moves, hoverwrites, hmakes, h.remaining]
  exact ⟨(h.path v).grafted_of_assign, fun hgraft => hgraft.assign h.bare _⟩

end Query.ToField

/-! ### Two parts of a path -/

/-- The segment with a `>` behind it. -/
def Segment.marked (s : Segment σ) : Segment σ := { s with marker := true }

/-- What the commands and the bodies of a path obey does not depend on what stands behind its last segment. -/
theorem Path.forall_concat {before : Path σ} {m m' : Segment σ} {P : Commands → Body σ → Prop}
    (h : ∀ s ∈ p, P s.commands s.body) (hp : p = before ++ [m]) (hcommands : m'.commands = m.commands)
    (hbody : m'.body = m.body) : ∀ s ∈ before ++ [m'], P s.commands s.body := by
  subst hp
  obtain ⟨hbefore, hm⟩ := List.forall_mem_append.mp h
  refine List.forall_mem_append.mpr ⟨hbefore, fun s hs => ?_⟩
  rw [List.mem_singleton.mp hs, hcommands, hbody]
  exact hm m (List.mem_singleton_self m)

theorem Path.spec_concat_marked (before : Path σ) (m : Segment σ) :
    Path.spec (before ++ [m.marked]) = Path.spec (before ++ [m]) := by
  rw [Path.spec, Path.spec, Path.render_concat, Path.render_concat]
  rfl

theorem Path.spec_join {before : Path σ} {m : Segment σ} (hp : p ≠ []) :
    Path.spec (before ++ m.marked :: p) = Path.spec (before ++ [m]) ++ ">" ++ Path.spec p := by
  rw [List.append_cons, Path.spec_append hp, Path.spec_concat_marked]
  rfl

namespace Query

variable {head tail : Path PlainPath}

theorem sourcePath_of_bare (hh : ∀ s ∈ head, s.commands = {}) : sourcePath head = head := by
  have hsame : sourcePath head = head.map id := by
    refine List.map_congr_left fun s hs => ?_
    rw [Segment.edit, hh s hs]
    exact congrArg (Segment.mk · s.body s.marker) (hh s hs).symm
  rw [hsame, List.map_id]

theorem carried_of_bare (hh : ∀ s ∈ head, s.commands = {}) (ht : ∀ s ∈ tail, s.commands = {}) :
    Path.carried head tail = {} := by
  have hboth : ∀ s ∈ head ++ tail, s.commands = {} := List.forall_mem_append.mpr ⟨hh, ht⟩
  have hoverwrites : Path.overwrites (head ++ tail) = false := Path.any_eq_false_of_bare hboth rfl
  have hmakes : Path.makes head = false := Path.any_eq_false_of_bare hh rfl
  rw [Path.carried, hoverwrites, hmakes]

theorem destinationPath_of_bare (hh : ∀ s ∈ head, s.commands = {}) (ht : ∀ s ∈ tail, s.commands = {}) :
    destinationPath head tail = tail := by
  cases tail with
  | nil => rfl
  | cons s tail =>
    have hs := ht s List.mem_cons_self
    rw [destinationPath_cons, carried_of_bare hh ht, Segment.edit, hs]
    exact congrArg (· :: tail) (congrArg (Segment.mk · s.body s.marker) hs.symm)

end Query

/-! ### From one field to another -/

/-- Whether `q` goes from the end of the path of `a` to that of `b`. -/
def Query.Joins (a b q : Query) : Prop :=
  ∃ before m, a.path = before ++ [m] ∧ q.path = before ++ m.marked :: b.path

section
variable {a b : Query}

theorem Query.exists_joins (a b : Query) : ∃ q, Joins a b q := by
  obtain ⟨before, m, hpath⟩ := a.exists_path_concat
  exact ⟨⟨before ++ m.marked :: b.path, 0, by simp⟩, before, m, hpath, rfl⟩

namespace Query.Joins

variable (hq : Joins a b q)
include hq

theorem moves : Path.moves q.path = true := by
  obtain ⟨before, m, -, hpath⟩ := hq
  exact List.any_eq_true.mpr ⟨m.marked, by simp [hpath], rfl⟩

theorem length : q.length = a.length + b.length := by
  obtain ⟨before, m, hsource, hpath⟩ := hq
  rw [Query.length, Query.length, Query.length, hsource, hpath]
  simp only [List.length_append, List.length_cons, List.length_nil]
  omega

theorem spec : q.spec = a.spec ++ ">" ++ b.spec := by
  obtain ⟨before, m, hsource, hpath⟩ := hq
  rw [Query.spec, Query.spec, Query.spec, hsource, hpath, Path.spec_join b.path_ne_nil]

end Query.Joins

namespace Query.ToField

theorem parse_spec (h : q.ToField) : parse q.spec = .ok q.normal := by
  have hnormal : q.normal = q.canonical := by simp only [normal, canonical, h.root]
  rw [hnormal]
  exact Query.parse_spec (parsed_iff.mp h.parsed)

theorem bodies (h : q.ToField) : ∀ s ∈ q.path, s.body.WellFormed Bracketed ∧ s.body ≠ .append := by
  have hw := parsed_iff.mp h.parsed
  refine fun s hs => ⟨hw.bodies s hs, fun happend => ?_⟩
  have hcommand := (hw.append s hs).mpr happend
  rw [h.bare s hs] at hcommand
  cases hcommand

variable (ha : a.ToField) (hb : b.ToField) (hq : Joins a b q)
include ha hb hq

/-- A path from one field to another is split into the paths to the two. -/
theorem splitMove_join : q.splitMove = .ok (a.normal, b.normal) := by
  obtain ⟨before, m, hsource, hpath⟩ := hq
  have ha' := ha.unmarked
  have hb' := hb.unmarked
  obtain ⟨first, tail, hdestination⟩ := List.exists_cons_of_ne_nil (parsed_iff.mp hb.parsed).nonempty
  rw [hsource] at ha'
  rw [hdestination] at hpath hb'
  have hsplit : Path.SplitAt q.path before m.marked first tail :=
    ⟨hpath, rfl, fun t ht => ha' t (List.mem_append_left _ ht), hb'⟩
  have hbare : ∀ s ∈ before ++ [m.marked], s.commands = {} :=
    Path.forall_concat (P := fun c _ => c = {}) ha.bare hsource rfl rfl
  have hparse : parse (Path.spec (sourcePath (before ++ [m.marked]))) = .ok a.normal := by
    rw [sourcePath_of_bare hbare, Path.spec_concat_marked, ← hsource]
    exact ha.parse_spec
  have hparse' : parse (Path.spec (destinationPath (before ++ [m.marked]) (first :: tail))) = .ok b.normal := by
    rw [← hdestination, destinationPath_of_bare hbare hb.bare]
    exact hb.parse_spec
  rw [splitMove_eq (splitAtMarker_eq hsplit), hparse, hparse']
  rfl

theorem parsed_join (hlength : q.length < maxLength) : q.Parsed := by
  obtain ⟨before, m, hsource, hpath⟩ := hq
  have hpath : q.path = (before ++ [m.marked]) ++ b.path := by rw [hpath, List.append_cons]
  have hlength : q.path.length < maxLength := hlength
  rw [hpath] at hlength
  rw [parsed_iff, hpath]
  have hbare : ∀ s ∈ (before ++ [m.marked]) ++ b.path, s.commands = {} :=
    List.forall_mem_append.mpr ⟨Path.forall_concat (P := fun c _ => c = {}) ha.bare hsource rfl rfl, hb.bare⟩
  refine Path.wellFormed_of_reading (by simp) hlength (List.forall_mem_append.mpr ⟨?_, hb.bodies⟩)
    (fun s hs _ => hbare s hs) (Path.any_eq_false_of_bare hbare rfl) ?_ fun s hs => ?_
  · exact Path.forall_concat (P := fun _ b => b.WellFormed Bracketed ∧ b ≠ .append) ha.bodies hsource rfl rfl
  · have hbefore : before.countP (·.marker) = 0 := List.countP_eq_zero.mpr fun s hs =>
      Bool.not_eq_true _ ▸ ha.unmarked s (hsource ▸ List.mem_append_left _ hs)
    have hbehind : b.path.countP (·.marker) = 0 :=
      List.countP_eq_zero.mpr fun s hs => Bool.not_eq_true _ ▸ hb.unmarked s hs
    rw [List.countP_append, List.countP_append, hbefore, hbehind]
    rfl
  · obtain ⟨t, ht, -⟩ := hb.field
    rw [List.getLast?_append, ht, Option.some_or] at hs
    cases hs
    exact hb.unmarked s (List.mem_of_getLast? ht)

end Query.ToField

end

/-- Without commands and brackets, the parts of a move that end at names are paths to a field. -/
theorem Query.exists_toField {a b : Path PlainPath} (hq : q.Parsed) (hsplit : splitAtMarker q.path = some (a, b))
    (hbare : ∀ s ∈ q.path, s.commands = {}) (hbracket : q.BracketFree)
    (ha : ∃ s ∈ a.getLast?, ∃ name, s.body = .field name) (hb : ∃ s ∈ b.getLast?, ∃ name, s.body = .field name) :
    ∃ source destination : Query, (source.ToField ∧ source.spec = Path.spec a) ∧
      (destination.ToField ∧ destination.spec = Path.spec b) ∧ Joins source destination q := by
  have hw := parsed_iff.mp hq
  obtain ⟨before, m, s, tail, hat⟩ := hw.exists_splitAt (moves_of_splitAtMarker hsplit)
  rw [splitAtMarker_eq hat] at hsplit
  cases hsplit
  have hsource : Parsed ⟨before ++ [m.unmarked], 0, by simp⟩ := parsed_iff.mpr (hw.source hat)
  have hmarked : m.unmarked.marked = m := by rw [Segment.marked, Segment.unmarked, ← hat.marker]
  have hpath : q.path = (before ++ [m]) ++ s :: tail := by rw [hat.path, List.append_cons]
  have hbracket : ∀ t ∈ q.path, t.body.isBracket = false := hbracket
  rw [hpath] at hbare hbracket hw
  obtain ⟨hhead, htail⟩ := List.forall_mem_append.mp hbare
  obtain ⟨hbracket, hbracket'⟩ := List.forall_mem_append.mp hbracket
  have hdestination : Path.WellFormed Bracketed (destinationPath (before ++ [m]) (s :: tail)) :=
    destination_wellFormed hw (fun t ht => by rw [htail t ht]) hat.unmarked_behind fun _ => carried_of_bare hhead htail
  rw [destinationPath_of_bare hhead htail] at hdestination
  refine ⟨⟨before ++ [m.unmarked], 0, by simp⟩, ⟨s :: tail, 0, by simp⟩, ⟨?_, ?_⟩, ⟨?_, rfl⟩,
    before, m.unmarked, rfl, ?_⟩
  · refine ⟨hsource, rfl, List.forall_mem_append.mpr ⟨hat.unmarked_before, by simp [Segment.unmarked]⟩, ?_, ?_, ?_⟩
    · exact Path.forall_concat (P := fun c _ => c = {}) hhead rfl rfl rfl
    · exact Path.forall_concat (P := fun _ b => b.isBracket = false) hbracket rfl rfl rfl
    · obtain ⟨t, ht, name, hname⟩ := ha
      obtain rfl : m = t := by simpa using ht
      exact ⟨m.unmarked, by simp, name, hname⟩
  · have hspec := Path.spec_concat_marked before m.unmarked
    rw [hmarked] at hspec
    exact hspec.symm
  · exact ⟨parsed_iff.mpr hdestination, rfl, hat.unmarked_behind, htail, hbracket', hb⟩
  · rw [hmarked]
    exact hat.path

/-! ### The move back -/

section
variable {a b r : Query}

/-- A move from one field to another relates two documents that come from a third one, with the value grafted at the
    one field or at the other. -/
theorem move_ok_iff (ha : a.ToField) (hb : b.ToField) (hq : Query.Joins a b q) (hd : d.Ordered) :
    d.move q = .ok d₂ ↔
      ∃ w v, v.Ordered ∧ Grafted (keyIn .null) w a.path v d ∧ Grafted (keyIn .null) w b.path v d₂ := by
  have hkey : ∀ {c : Query} {w v v' : Value} (d₁ d₂ : Value), c.ToField → Grafted (keyIn d₁) w c.path v v' →
      Grafted (keyIn d₂) w c.path v v' := fun d₁ d₂ hc h => h.congr fun s hs => keyIn_eq (hc.bracketFree s hs) d₁ d₂
  rw [Value.move_of_splitMove hq.moves (ha.splitMove_join hb hq)]
  constructor
  · intro h
    obtain ⟨w, hget, h⟩ := Outcome.bind_ok_iff.mp h
    obtain ⟨v, hdelete, hset⟩ := Outcome.bind_ok_iff.mp h
    rw [Value.get_normal] at hget
    rw [Value.delete_normal] at hdelete
    rw [Value.set_normal] at hset
    obtain ⟨hv, hgraft⟩ := (ha.taken_iff hd).mp ⟨Outcome.mapError_ok_iff.mp hget, hdelete⟩
    exact ⟨w, v, hv, hkey _ _ ha hgraft, hkey _ _ hb (hb.set_ok_iff.mp hset)⟩
  · rintro ⟨w, v, hv, hgraft, hgraft'⟩
    obtain ⟨hget, hdelete⟩ := (ha.taken_iff hd).mpr ⟨hv, hkey _ _ ha hgraft⟩
    have hset := hb.set_ok_iff.mpr (hkey _ v hb hgraft')
    rw [Value.get_normal, hget, Value.delete_normal, hdelete]
    exact (Value.set_normal v b w).trans hset

theorem move_of_move (ha : a.ToField) (hb : b.ToField) (hq : Query.Joins a b q) (hr : Query.Joins b a r)
    (hd : d.Ordered) (h : d.move q = .ok d₂) : d₂.move r = .ok d := by
  obtain ⟨w, v, hv, htaken, hgrafted⟩ := (move_ok_iff ha hb hq hd).mp h
  exact (move_ok_iff hb ha hr (Value.move_ordered h hd)).mpr ⟨w, v, hv, hgrafted, htaken⟩

end

theorem Value.move_moveTo (d : Value) (q : Query) (i : Nat) : d.move (q.moveTo i) = d.move q := rfl

/-- A move without commands and brackets whose two parts end at names can be undone: its parts in the other order are
    the text of a move, and a query of this text takes each document that the move gives back to the one it was. -/
theorem move_back {a b : Path PlainPath} (hq : q.Parsed) (hsplit : Query.splitAtMarker q.path = some (a, b))
    (hbare : ∀ s ∈ q.path, s.commands = {}) (hbracket : q.BracketFree)
    (ha : ∃ s ∈ a.getLast?, ∃ name, s.body = .field name) (hb : ∃ s ∈ b.getLast?, ∃ name, s.body = .field name) :
    q.spec = Path.spec a ++ ">" ++ Path.spec b ∧
      (∃ r, Query.parse (Path.spec b ++ ">" ++ Path.spec a) = .ok r) ∧
      ∀ r : Query, r.Parsed → r.spec = Path.spec b ++ ">" ++ Path.spec a →
        ∀ d d₂ : Value, d.Ordered → d.move q = .ok d₂ → d₂.move r = .ok d := by
  obtain ⟨source, destination, ⟨hs, hsource⟩, ⟨ht, hdestination⟩, hjoins⟩ :=
    Query.exists_toField hq hsplit hbare hbracket ha hb
  obtain ⟨back, hback⟩ := Query.exists_joins destination source
  have hlength : back.length < maxLength := by
    have hlt : q.length < maxLength := (Query.parsed_iff.mp hq).length_lt
    have hforth := hjoins.length
    have hswap := hback.length
    omega
  have hparsed : back.Parsed := ht.parsed_join hs hback hlength
  rw [← hsource, ← hdestination, ← hback.spec]
  refine ⟨hjoins.spec, ⟨_, Query.parse_spec (Query.parsed_iff.mp hparsed)⟩, fun r hr hspec d d₂ hd hmove => ?_⟩
  -- What a move does is determined by its text, whatever place a query of this text is at.
  have hnormal : (r.moveTo 0).normal = (back.moveTo 0).normal :=
    (Query.eq_iff_normal_eq (hr.moveTo 0) (hparsed.moveTo 0)).mp
      (Query.eq_iff.mpr ⟨(Nat.zero_min _).trans (Nat.zero_min _).symm, hspec⟩)
  rw [← Value.move_moveTo d₂ r 0, ← Value.move_normal, hnormal, Value.move_normal, Value.move_moveTo]
  exact move_of_move hs ht hjoins hback hd hmove

/-- From `a.0.b` to `a.#.0.c.d` and back, within one element of an array. -/
theorem move_back_nested :
    (Value.object [("a", .array [.object [("b", .int 1), ("c", .object [])]])]).move
        ⟨[⟨{}, .field "a", false⟩, ⟨{}, .index ['0'], false⟩, ⟨{}, .field "b", true⟩, ⟨{}, .field "a", false⟩,
          ⟨{}, .here, false⟩, ⟨{}, .index ['0'], false⟩, ⟨{}, .field "c", false⟩, ⟨{}, .field "d", false⟩], 0,
          by decide⟩ =
        .ok (.object [("a", .array [.object [("c", .object [("d", .int 1)])]])]) ∧
      ∃ r, Query.parse "a.#.0.c.d>a.0.b" = .ok r ∧
        (Value.object [("a", .array [.object [("c", .object [("d", .int 1)])]])]).move r =
          .ok (.object [("a", .array [.object [("b", .int 1), ("c", .object [])]])]) := by
  have hread : Query.parse "a.0.b>a.#.0.c.d" =
      .ok ⟨[⟨{}, .field "a", false⟩, ⟨{}, .index ['0'], false⟩, ⟨{}, .field "b", true⟩, ⟨{}, .field "a", false⟩,
        ⟨{}, .here, false⟩, ⟨{}, .index ['0'], false⟩, ⟨{}, .field "c", false⟩, ⟨{}, .field "d", false⟩], 0,
        by decide⟩ := rfl
  have hmove : (Value.object [("a", .array [.object [("b", .int 1), ("c", .object [])]])]).move
      ⟨[⟨{}, .field "a", false⟩, ⟨{}, .index ['0'], false⟩, ⟨{}, .field "b", true⟩, ⟨{}, .field "a", false⟩,
        ⟨{}, .here, false⟩, ⟨{}, .index ['0'], false⟩, ⟨{}, .field "c", false⟩, ⟨{}, .field "d", false⟩], 0,
        by decide⟩ =
      .ok (.object [("a", .array [.object [("c", .object [("d", .int 1)])]])]) := rfl
  have helement : (Value.object [("b", .int 1), ("c", .object [])]).Ordered :=
    (Value.ordered_empty.insert (v := .object []) Value.ordered_empty "c").insert (v := .int 1) trivial "b"
  have hordered : (Value.object [("a", .array [.object [("b", .int 1), ("c", .object [])]])]).Ordered :=
    Value.ordered_empty.insert (v := .array [_]) (Value.ordered_singleton helement) "a"
  have hreadBack : Query.parse "a.#.0.c.d>a.0.b" =
      .ok ⟨[⟨{}, .field "a", false⟩, ⟨{}, .here, false⟩, ⟨{}, .index ['0'], false⟩, ⟨{}, .field "c", false⟩,
        ⟨{}, .field "d", true⟩, ⟨{}, .field "a", false⟩, ⟨{}, .index ['0'], false⟩, ⟨{}, .field "b", false⟩], 0,
        by decide⟩ := rfl
  obtain ⟨-, -, hback⟩ := move_back (Query.parsed_of_parse hread) rfl (by simp)
    (by simp [Query.BracketFree, Body.isBracket]) ⟨_, rfl, "b", rfl⟩ ⟨_, rfl, "d", rfl⟩
  exact ⟨hmove, _, hreadBack, hback _ (Query.parsed_of_parse hreadBack) rfl _ _ hordered hmove⟩

end TreeQuery
