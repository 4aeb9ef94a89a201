import TreeQuery.Proofs.Document.Move
import TreeQuery.Proofs.Document.Stage
import TreeQuery.Proofs.Text.Digits

/-! # Equal queries

Queries are compared by their canonical text and their place. A text that can be read spells one path, so equal queries
have one path but for the zeros in front of its indices (`Query.eq_iff_normal_eq`). No view of a query and no operation
on a document sees these zeros, so equal queries may stand for each other (`Query.congr_of_eq`). -/

namespace TreeQuery

variable {σ : Type} {b b' : Body σ} {m n : Node σ} {d : Value} {q r : Query} {i : Nat}

/-! ### The normal form -/

namespace Query

/-- The query with its indices spelled without leading zeros, at the same place. -/
def normal (q : Query) : Query := ⟨Path.canonical q.path, q.seq, by rw [Path.canonical_length]; exact q.seq_lt⟩

theorem spec_normal (q : Query) : q.normal.spec = q.spec := q.canonical_spec

theorem normal_normal (q : Query) : q.normal.normal = q.normal := by
  simp only [normal, Path.canonical_canonical]

theorem Parsed.normal (h : q.Parsed) : q.normal.Parsed := parsed_iff.mpr (parsed_iff.mp h).canonical

theorem eq_iff : (q == r) = true ↔ q.seq = r.seq ∧ q.spec = r.spec := by
  simp [BEq.beq]

/-- Equal queries are those with one normal form. -/
theorem eq_iff_normal_eq (hq : q.Parsed) (hr : r.Parsed) : (q == r) = true ↔ q.normal = r.normal := by
  rw [eq_iff]
  constructor
  · rintro ⟨hseq, hspec⟩
    have hread := parse_spec (parsed_iff.mp hq)
    rw [hspec, parse_spec (parsed_iff.mp hr)] at hread
    have hpath : Path.canonical r.path = Path.canonical q.path := congrArg path (Except.ok.inj hread)
    simp only [normal, hseq, hpath]
  · intro h
    have hseq : q.normal.seq = r.normal.seq := congrArg seq h
    refine ⟨hseq, ?_⟩
    rw [← spec_normal q, h, spec_normal]

end Query

/-! ### Nodes -/

theorem Body.eq_of_canonical_eq (h : b.canonical = b'.canonical) :
    b = b' ∨ ∃ ds ds', b = .index ds ∧ b' = .index ds' ∧ Digits.value ds = Digits.value ds' := by
  cases b with
  | index ds =>
    cases b' with
    | index ds' =>
      have hvalue := congrArg Body.value h
      rw [Body.canonical, Body.canonical, Body.value, Body.value, Digits.value_ofNat, Digits.value_ofNat] at hvalue
      exact Or.inr ⟨ds, ds', rfl, rfl, hvalue⟩
    | field | here | append | bracket => cases h
  | field | here | append | bracket =>
    cases b' with
    | index => cases h
    | field | here | append | bracket => exact Or.inl h

/-- The texts of an index: the digits of the number with zeros in front. -/
def IndexText (i : Nat) (text : String) : Prop := ∃ k, text.toList = List.replicate k '0' ++ Digits.ofNat i

/-- The word of a node does not tell how its index is spelled. -/
theorem Node.Alike.word (h : m.Alike n) : m.word = n.word := by
  rw [Node.word, Node.word, kindBits, kindBits, h.value, h.seq, h.mode, h.kind]

theorem Path.alike_of_canonical_eq {p p' : Path σ} (h : Path.canonical p = Path.canonical p')
    (hm : (Path.nodes p)[i]? = some m) (hn : (Path.nodes p')[i]? = some n) : m.Alike n ∧ m.index? = n.index? := by
  rw [Path.nodes_getElem?, Option.map_eq_some_iff] at hm hn
  obtain ⟨s, hs, rfl⟩ := hm
  obtain ⟨t, ht, rfl⟩ := hn
  have hsegment : s.canonical = t.canonical := by
    have hi := congrArg (·[i]?) h
    simpa [Path.canonical, hs, ht] using hi
  have hcommands : s.canonical.commands = t.canonical.commands := congrArg Segment.commands hsegment
  have hmode : p.mode i s = p'.mode i t := by
    rw [← Path.canonical_mode p, ← Path.canonical_mode p', h, hsegment]
  rcases Body.eq_of_canonical_eq (congrArg Segment.body hsegment) with hbody | ⟨ds, ds', hb, hb', hvalue⟩
  · have halike : (p.nodeAt i s).Alike (p'.nodeAt i t) :=
      ⟨congrArg Body.isArray hbody, hmode, hcommands, congrArg Body.value hbody, rfl, fun _ => hbody⟩
    refine ⟨halike, ?_⟩
    rw [Node.index?, Node.index?, Path.nodeAt, Path.nodeAt, hbody]
  · have hindex : (p.nodeAt i s).index? = some (Digits.value ds) := by rw [Node.index?, Path.nodeAt, hb]
    have hindex' : (p'.nodeAt i t).index? = some (Digits.value ds') := by rw [Node.index?, Path.nodeAt, hb']
    refine ⟨⟨?_, hmode, hcommands, ?_, rfl, fun hnone => ?_⟩, by rw [hindex, hindex', hvalue]⟩
    · rw [Path.nodeAt, Path.nodeAt, hb, hb']
      rfl
    · rw [Path.nodeAt, Path.nodeAt, hb, hb']
      exact hvalue
    · rw [hindex'] at hnone
      cases hnone

theorem Path.WellFormed.indexText {Inner : List Char → σ → Prop} {p : Path σ} {value : Nat}
    (h : Path.WellFormed Inner p) (hn : (Path.nodes p)[i]? = some n) (hv : n.index? = some value) :
    IndexText value n.body.text := by
  rw [Path.nodes_getElem?, Option.map_eq_some_iff] at hn
  obtain ⟨s, hs, rfl⟩ := hn
  have hw := h.bodies s (List.mem_of_getElem? hs)
  unfold Node.index? at hv
  split at hv
  · rename_i ds hb
    have hb : s.body = .index ds := hb
    cases hv
    rw [Path.nodeAt, hb]
    rw [hb] at hw
    obtain ⟨k, hk⟩ := Digits.eq_zeros_append hw.2.1 hw.1
    exact ⟨k, String.toList_ofList.trans hk⟩
  · cases hv

/-! ### Views -/

theorem Path.spec_canonical (p : Path σ) : Path.spec (Path.canonical p) = Path.spec p :=
  congrArg String.ofList (Path.canonical_render p)

theorem Path.renderMarked_canonical (seq : Nat) (p : Path σ) :
    Path.renderMarked seq (Path.canonical p) = Path.renderMarked seq p := by
  rw [Path.renderMarked, Path.canonical, Path.join_map _ Segment.canonical_marker]
  simp only [Segment.canonical_render]
  rfl

namespace Query

theorem display_normal (q : Query) : q.normal.display = q.display := by
  have hmarked : Path.renderMarked q.normal.seq q.normal.path = Path.renderMarked q.seq q.path :=
    Path.renderMarked_canonical q.seq q.path
  rw [display, display, spec_normal, hmarked]
  rfl

theorem moveTo_normal (q : Query) (i : Nat) : q.normal.moveTo i = (q.moveTo i).normal := by
  simp [moveTo, normal]

theorem segment_normal (q : Query) : q.normal.segment = q.segment.canonical := by
  simp [segment, normal, Path.canonical]

theorem inner?_normal (q : Query) : q.normal.inner? = q.inner? := by
  rw [inner?, inner?, segment_normal, Segment.canonical_body]
  cases q.segment.body <;> rfl

/-! ### Reading and writing -/

theorem actsAs_normal (q : Query) (d : Value) : ActsAs d Segment.canonical q q.normal :=
  ⟨rfl, rfl, fun s _ => ⟨rfl, rfl, keyIn_canonical s.body⟩⟩

end Query

namespace Value

variable (d q)

theorem get_normal : d.get q.normal = d.get q := by
  have hacts := q.actsAs_normal d
  have hspec : Path.spec q.normal.path = Path.spec q.path := q.spec_normal
  have hwalk : walk (Path.spec q.path) (keyIn d) (q.normal.path.drop q.normal.seq) d =
      walk (Path.spec q.path) (keyIn d) (q.path.drop q.seq) d := hacts.walk
  rw [get, get, readFrom, readFrom, hacts.appends, hacts.writes, hacts.moves, hspec, hwalk]

theorem has_normal : d.has q.normal = d.has q := by
  have hacts := q.actsAs_normal d
  rw [has, has, hacts.writes, hacts.moves, Query.spec_normal, hacts.walk]

theorem set_normal (new : Value) : d.set q.normal new = d.set q new := by
  have hacts := q.actsAs_normal d
  have hplace : q.normal.leaf.display = q.leaf.display := by
    rw [Query.leaf, Query.moveTo_normal, Query.display_normal, hacts.path, List.length_map]
    rfl
  rw [set, set, hacts.deletes, hacts.moves, hacts.overwrites, hacts.makes, hplace, hacts.remaining,
    assign_map hacts.segments_remaining, Query.spec_normal]

theorem delete_normal : d.delete q.normal = d.delete q := by
  have hacts := q.actsAs_normal d
  rw [delete, delete, hacts.moves, Query.spec_normal, hacts.walk, hacts.remaining, remove_map hacts.segments_remaining]

end Value

/-! ### Moving -/

namespace Query

theorem splitAtMarker_canonical (p : Path PlainPath) :
    splitAtMarker (Path.canonical p) = (splitAtMarker p).map (Prod.map Path.canonical Path.canonical) := by
  have hindex : (Path.canonical p).findIdx? (·.marker) = p.findIdx? (·.marker) := by
    rw [Path.canonical, List.findIdx?_map]
    rfl
  rw [splitAtMarker, splitAtMarker, hindex]
  cases p.findIdx? (·.marker) with
  | none => rfl
  | some i => simp [Path.canonical, List.map_take, List.map_drop]

theorem sourcePath_canonical (head : Path PlainPath) :
    sourcePath (Path.canonical head) = Path.canonical (sourcePath head) := by
  rw [sourcePath, sourcePath, Path.canonical, Path.canonical, List.map_map, List.map_map]
  rfl

theorem destinationPath_canonical (head tail : Path PlainPath) :
    destinationPath (Path.canonical head) (Path.canonical tail) = Path.canonical (destinationPath head tail) := by
  have hcarried : Path.carried (Path.canonical head) (Path.canonical tail) = Path.carried head tail := by
    simp [Path.carried, Path.overwrites, Path.makes, Path.canonical, Function.comp_def]
  cases tail with
  | nil => rfl
  | cons s rest =>
    have hcons : Path.canonical (s :: rest) = s.canonical :: Path.canonical rest := rfl
    rw [hcons] at hcarried ⊢
    rw [destinationPath_cons, destinationPath_cons, hcarried]
    rfl

theorem splitMove_normal (q : Query) : q.normal.splitMove = q.splitMove := by
  have hpath : q.normal.path = Path.canonical q.path := rfl
  cases hsplit : splitAtMarker q.path with
  | none =>
    have hnormal : splitAtMarker q.normal.path = none := by
      rw [hpath, splitAtMarker_canonical, hsplit]
      rfl
    rw [splitMove, splitMove, hsplit, hnormal, spec_normal]
  | some parts =>
    obtain ⟨head, tail⟩ := parts
    have hnormal : splitAtMarker q.normal.path = some (Path.canonical head, Path.canonical tail) := by
      rw [hpath, splitAtMarker_canonical, hsplit]
      rfl
    rw [splitMove_eq hsplit, splitMove_eq hnormal, sourcePath_canonical, destinationPath_canonical, Path.spec_canonical,
      Path.spec_canonical]

end Query

namespace Value

variable (q)

theorem move_normal : d.move q.normal = d.move q := by
  rw [move, move, (q.actsAs_normal d).moves, Query.splitMove_normal, Query.spec_normal]

theorem apply_normal (new : Option Value) : d.apply q.normal new = d.apply q new := by
  have hacts := q.actsAs_normal d
  cases new with
  | none => rw [apply, apply, hacts.deletes, hacts.moves, delete_normal, move_normal, Query.spec_normal]
  | some v => rw [apply, apply, hacts.deletes, hacts.moves, set_normal, Query.spec_normal]

end Value

/-! ### Equal queries for each other -/

/-- Equal queries have equally many nodes, which are alike and differ in the zeros in front of an index at most, and the
    same queries in their brackets. On every document each operation gives the same for the one as for the other, errors
    included. -/
theorem Query.congr_of_eq (hq : q.Parsed) (hr : r.Parsed) (h : (q == r) = true) :
    q.length = r.length ∧
      (∀ (i : Nat) (m n : Node PlainPath), (Path.nodes q.path)[i]? = some m → (Path.nodes r.path)[i]? = some n →
        m.Alike n ∧ m.word = n.word ∧
          ∀ value, n.index? = some value → IndexText value m.body.text ∧ IndexText value n.body.text) ∧
      (∀ i, (q.moveTo i).inner? = (r.moveTo i).inner?) ∧
      ∀ d : Value, d.get q = d.get r ∧ d.has q = d.has r ∧ (∀ new, d.set q new = d.set r new) ∧
        d.delete q = d.delete r ∧ d.move q = d.move r ∧ ∀ new, d.apply q new = d.apply r new := by
  have hnormal := (eq_iff_normal_eq hq hr).mp h
  have hpath : Path.canonical q.path = Path.canonical r.path := congrArg path hnormal
  have hinto : ∀ {α : Type} {f : Query → α}, (∀ q : Query, f q.normal = f q) → f q = f r := fun hf => by
    rw [← hf q, hnormal, hf r]
  refine ⟨?_, fun i m n hm hn => ?_, fun i => ?_, fun d => ⟨?_, ?_, fun new => ?_, ?_, ?_, fun new => ?_⟩⟩
  · exact hinto fun q => Path.canonical_length q.path
  · obtain ⟨halike, hindex⟩ := Path.alike_of_canonical_eq hpath hm hn
    refine ⟨halike, halike.word, fun value hvalue => ⟨?_, ?_⟩⟩
    · exact (parsed_iff.mp hq).indexText hm (hindex.trans hvalue)
    · exact (parsed_iff.mp hr).indexText hn hvalue
  · exact hinto (f := fun q => (q.moveTo i).inner?) fun q => by rw [moveTo_normal, inner?_normal]
  · exact hinto d.get_normal
  · exact hinto d.has_normal
  · exact hinto (f := fun q => d.set q new) fun q => d.set_normal q new
  · exact hinto d.delete_normal
  · exact hinto fun q => Value.move_normal q
  · exact hinto (f := fun q => d.apply q new) fun q => Value.apply_normal q new

/-- `a.01>b` and `a.1>b` are equal, so a move along one is a move along the other. -/
theorem Query.congr_of_eq_zeros :
    parse "a.01>b" =
        .ok ⟨[⟨{}, .field "a", false⟩, ⟨{}, .index ['0', '1'], true⟩, ⟨{}, .field "b", false⟩], 0, by decide⟩ ∧
      parse "a.1>b" =
        .ok ⟨[⟨{}, .field "a", false⟩, ⟨{}, .index ['1'], true⟩, ⟨{}, .field "b", false⟩], 0, by decide⟩ ∧
      ∀ d : Value,
        d.move ⟨[⟨{}, .field "a", false⟩, ⟨{}, .index ['0', '1'], true⟩, ⟨{}, .field "b", false⟩], 0, by decide⟩ =
          d.move ⟨[⟨{}, .field "a", false⟩, ⟨{}, .index ['1'], true⟩, ⟨{}, .field "b", false⟩], 0, by decide⟩ := by
  have hread : parse "a.01>b" =
      .ok ⟨[⟨{}, .field "a", false⟩, ⟨{}, .index ['0', '1'], true⟩, ⟨{}, .field "b", false⟩], 0, by decide⟩ := rfl
  have hread' : parse "a.1>b" =
      .ok ⟨[⟨{}, .field "a", false⟩, ⟨{}, .index ['1'], true⟩, ⟨{}, .field "b", false⟩], 0, by decide⟩ := rfl
  obtain ⟨-, -, -, hall⟩ := congr_of_eq (parsed_of_parse hread) (parsed_of_parse hread') (eq_iff.mpr ⟨rfl, rfl⟩)
  exact ⟨hread, hread', fun d => (hall d).2.2.2.2.1⟩

end TreeQuery
