import TreeQuery.Proofs.Document.Overwrite
import TreeQuery.Proofs.Query.Consistent

/-! # Brackets replaced by what they evaluate to

A bracket is evaluated on the document as it is before an operation, wherever it stands and whatever has been reached.
So each bracket of a path may be replaced by the name or the index that it evaluates to: the path that this gives can
be written, and reads, writes and deletes as the path with the brackets does (`staged_agrees`). Errors then quote
another text, and nothing else of them changes.

Two paths act alike if their segments carry the same commands and select the same keys (`Segment.ActsAs`), and this is
all that an operation sees of them. -/

namespace TreeQuery

variable {σ τ : Type} {key : Body σ → Except ReadError Key} {key' : Body τ → Except ReadError Key} {p : Path σ}
  {g : Segment σ → Segment τ} {v new d : Value} {k : Key} {make overwrite : Bool} {place place' : String} {q r : Query}
  {spec spec' : String}

/-! ### Segments that act alike -/

/-- Segments with the same commands and separators that select the same key. -/
structure Segment.ActsAs (key : Body σ → Except ReadError Key) (key' : Body τ → Except ReadError Key) (s : Segment σ)
    (t : Segment τ) : Prop where
  commands : t.commands = s.commands
  marker : t.marker = s.marker
  key : key' t.body = key s.body

section
variable (h : ∀ s ∈ p, Segment.ActsAs key key' s (g s))
include h

theorem Path.any_map_of_actsAs {f : Segment σ → Bool} {f' : Segment τ → Bool}
    (hf : ∀ s t, Segment.ActsAs key key' s t → f' t = f s) : (p.map g).any f' = p.any f := by
  rw [List.any_map, Bool.eq_iff_iff, List.any_eq_true, List.any_eq_true]
  refine exists_congr fun s => and_congr_right fun hs => ?_
  rw [Function.comp_apply, hf s (g s) (h s hs)]

theorem walk_map : walk spec key' (p.map g) v = walk spec key p v := by
  induction p generalizing v with
  | nil => rfl
  | cons s p ih =>
    obtain ⟨hs, hp⟩ := List.forall_mem_cons.mp h
    simp only [List.map_cons, walk, hs.key, hs.commands, ih hp]

theorem assign_map : assign key' overwrite place new make (p.map g) v = assign key overwrite place new make p v := by
  induction p generalizing make v with
  | nil => rfl
  | cons s p ih =>
    obtain ⟨hs, hp⟩ := List.forall_mem_cons.mp h
    cases p with
    | nil => simp only [List.map_cons, List.map_nil, assign, hs.key, hs.commands]
    | cons next rest =>
      have hrest : assign key' overwrite place new (make || s.commands.make) (g next :: rest.map g) =
          assign key overwrite place new (make || s.commands.make) (next :: rest) := funext fun _ => ih hp
      simp only [List.map_cons, assign, hs.key, hs.commands, (hp next List.mem_cons_self).key, hrest]

theorem remove_map : remove key' (p.map g) v = remove key p v := by
  induction p generalizing v with
  | nil => rfl
  | cons s p ih =>
    obtain ⟨hs, hp⟩ := List.forall_mem_cons.mp h
    cases p with
    | nil => simp only [List.map_cons, List.map_nil, remove, hs.key]
    | cons next rest =>
      have hrest : remove key' (g next :: rest.map g) = remove key (next :: rest) := funext fun _ => ih hp
      simp only [List.map_cons, remove, hs.key, hrest]

end

/-! ### Errors without the text they quote -/

def ReadError.unquoted : ReadError → ReadError
  | indeterministic _ => indeterministic ""
  | notReadonly _ => notReadonly ""
  | e => e

def WriteError.unquoted : WriteError → WriteError
  | implicitOverwrite _ => implicitOverwrite ""
  | unexpectedValue _ => unexpectedValue ""
  | e => e

/-- An error of reading or writing without the text of the query that it quotes. -/
def Error.unquoted : Error → Error
  | parse (.notWritable _) => parse (.notWritable "")
  | read e => read e.unquoted
  | write e => write e.unquoted
  | e => e

open Outcome (Agree)

theorem Value.put_agree :
    Agree WriteError.unquoted (v.put make overwrite place new k) (v.put make overwrite place' new k) := by
  cases k with
  | current =>
    simp only [put]
    split <;> rfl
  | name name =>
    refine Agree.bind_right fun fields => ?_
    split <;> rfl
  | index i => rfl
  | append => rfl

theorem Value.enter_agree {forget : Error → Error} {blank : Except Error Value} {edit edit' : Value → Except Error Value}
    (h : ∀ part, Agree forget (edit part) (edit' part)) :
    Agree forget (v.enter make blank edit k) (v.enter make blank edit' k) := by
  cases k with
  | current => exact h v
  | name name =>
    rw [enter_name, enter_name]
    exact Agree.bind_right fun fields => Agree.bind_right fun part => (h part).bind_left _
  | index i =>
    simp only [enter]
    split
    · exact Agree.bind_right fun part => (h part).bind_left _
    · refine Agree.bind_right fun items => ?_
      split
      · exact (h _).bind_left _
      · rfl
  | append => exact Agree.bind_right fun items => Agree.bind_right fun part => (h part).bind_left _

theorem ReadError.isAbsence_unquoted (e : ReadError) : Value.isAbsence e.unquoted = Value.isAbsence e := by
  cases e <;> rfl

theorem Value.select_agree (spec spec' : String) (maybe : Bool) (k : Key) (v : Value) :
    Agree ReadError.unquoted (v.select spec maybe k) (v.select spec' maybe k) := by
  cases k <;> rfl

/-- The text of a query plays no part in following its path but to be quoted. -/
theorem walk_agree : Agree ReadError.unquoted (walk spec key p v) (walk spec' key p v) := by
  induction p generalizing v with
  | nil => rfl
  | cons s p ih =>
    refine Agree.bind_right fun k => (Value.select_agree spec spec' s.commands.maybe k v).bind fun found => ?_
    cases found with
    | none => rfl
    | some child => exact ih

/-- The text of a query plays no part in a write but to be quoted. -/
theorem assign_agree : Agree Error.unquoted (assign key overwrite place new make p v)
    (assign key overwrite place' new make p v) := by
  induction p generalizing make v with
  | nil => rfl
  | cons s p ih =>
    cases p with
    | nil => exact Agree.bind_right fun k => Value.put_agree.mapError fun _ => rfl
    | cons next rest => exact Agree.bind_right fun k => Value.enter_agree fun part => ih

/-! ### Queries that act alike -/

/-- `r` is `q` with each segment replaced by one that acts as it does on the document `d`. -/
structure Query.ActsAs (d : Value) (g : Segment PlainPath → Segment PlainPath) (q r : Query) : Prop where
  path : r.path = q.path.map g
  seq : r.seq = q.seq
  segments : ∀ s ∈ q.path, Segment.ActsAs (keyIn d) (keyIn d) s (g s)

section
variable {g : Segment PlainPath → Segment PlainPath} (h : Query.ActsAs d g q r)
include h

theorem Query.ActsAs.remaining : r.remaining = q.remaining.map g := by
  rw [Query.remaining, Query.remaining, h.path, h.seq, List.map_drop]

theorem Query.ActsAs.segments_remaining : ∀ s ∈ q.remaining, Segment.ActsAs (keyIn d) (keyIn d) s (g s) :=
  fun s hs => h.segments s (List.mem_of_mem_drop hs)

theorem Query.ActsAs.any {f : Segment PlainPath → Bool}
    (hf : ∀ s t, Segment.ActsAs (keyIn d) (keyIn d) s t → f t = f s) : r.path.any f = q.path.any f := by
  rw [h.path]
  exact Path.any_map_of_actsAs h.segments hf

theorem Query.ActsAs.appends : Path.appends r.path = Path.appends q.path := h.any fun _ _ hst => by rw [hst.commands]

theorem Query.ActsAs.deletes : Path.deletes r.path = Path.deletes q.path := h.any fun _ _ hst => by rw [hst.commands]

theorem Query.ActsAs.overwrites : Path.overwrites r.path = Path.overwrites q.path :=
  h.any fun _ _ hst => by rw [hst.commands]

theorem Query.ActsAs.writes : Path.writes r.path = Path.writes q.path := h.any fun _ _ hst => by rw [hst.commands]

theorem Query.ActsAs.moves : Path.moves r.path = Path.moves q.path := h.any fun _ _ hst => hst.marker

/-- `$` is written before the place of the one query if it is before that of the other. -/
theorem Query.ActsAs.makes : Path.makes (r.path.take r.seq) = Path.makes (q.path.take q.seq) := by
  rw [h.path, h.seq, ← List.map_take]
  exact Path.any_map_of_actsAs (fun s hs => h.segments s (List.mem_of_mem_take hs)) fun _ _ hst => by rw [hst.commands]

theorem Query.ActsAs.walk : walk spec (keyIn d) r.remaining v = walk spec (keyIn d) q.remaining v := by
  rw [h.remaining]
  exact walk_map h.segments_remaining

theorem Query.ActsAs.get : Agree ReadError.unquoted (d.get q) (d.get r) := by
  have hwalk : TreeQuery.walk r.path.spec (keyIn d) (r.path.drop r.seq) d =
      TreeQuery.walk r.path.spec (keyIn d) (q.path.drop q.seq) d := h.walk
  rw [Value.get, Value.get, readFrom, readFrom, h.appends, h.writes, h.moves, hwalk]
  split
  · rfl
  · split
    · rfl
    · exact walk_agree.map _

theorem Query.ActsAs.has : Agree ReadError.unquoted (d.has q) (d.has r) := by
  rw [Value.has, Value.has, h.writes, h.moves, h.walk]
  split
  · rfl
  · rcases Outcome.agree_iff.mp walk_agree with ⟨found, hq, hr⟩ | ⟨e, e', hq, hr, he⟩
    · rw [hq, hr]
      exact Agree.refl _
    · have habsence : Value.isAbsence e = Value.isAbsence e' := by
        rw [← e.isAbsence_unquoted, he, e'.isAbsence_unquoted]
      rw [hq, hr]
      dsimp only
      rw [habsence]
      split
      · rfl
      · exact congrArg Except.error he

theorem Query.ActsAs.set (new : Value) : Agree Error.unquoted (d.set q new) (d.set r new) := by
  rw [Value.set, Value.set, h.deletes, h.moves, h.overwrites, h.makes, h.remaining, assign_map h.segments_remaining]
  split
  · rfl
  · split
    · rfl
    · exact assign_agree

theorem Query.ActsAs.delete : Agree Error.unquoted (d.delete q) (d.delete r) := by
  rw [Value.delete, Value.delete, h.moves, h.walk, h.remaining, remove_map h.segments_remaining]
  split
  · rfl
  · rcases Outcome.agree_iff.mp walk_agree with ⟨found, hq, hr⟩ | ⟨e, e', hq, hr, -⟩
    · rw [hq, hr]
      exact Agree.refl _
    · rw [hq, hr]
      exact Agree.refl _

end

/-! ### Inside brackets -/

theorem segment_ofPlain (s : Segment Empty) :
    Segment.ActsAs plainKey (keyIn d) s (s.map fun e => nomatch e) := by
  refine ⟨rfl, rfl, ?_⟩
  cases hs : s.body with
  | bracket _ inner => cases inner
  | field | index | here | append => simp [Segment.map, Body.map, hs, keyIn, plainKey, Body.key]

theorem Query.ofPath?_eq_some {path : Path PlainPath} (h : ofPath? path = some r) : r.path = path ∧ r.seq = 0 := by
  unfold ofPath? at h
  split at h
  · cases h
    exact ⟨rfl, rfl⟩
  · cases h

/-- A bracket is evaluated as the query inside it is. -/
theorem get_ofPlain {inner : PlainPath} (hw : Path.writes inner = false) (hm : Path.moves inner = false)
    (hr : Query.ofPath? (Path.ofPlain inner) = some r) : d.get r = readFrom plainKey inner 0 d := by
  obtain ⟨hpath, hseq⟩ := Query.ofPath?_eq_some hr
  have hsegments : ∀ s ∈ inner, Segment.ActsAs plainKey (keyIn d) s (s.map fun e => nomatch e) :=
    fun s _ => segment_ofPlain s
  have hwrites : Path.writes r.path = false := by
    rw [hpath, ← hw]
    exact Path.any_map_of_actsAs hsegments fun _ _ hst => by rw [hst.commands]
  have hmoves : Path.moves r.path = false := by
    rw [hpath, ← hm]
    exact Path.any_map_of_actsAs hsegments fun _ _ hst => hst.marker
  have hwalk : walk r.path.spec (keyIn d) (r.path.drop r.seq) d = walk inner.spec plainKey inner d := by
    have hspec : Path.spec (Path.ofPlain inner : Path PlainPath) = inner.spec := Path.spec_map _ inner
    rw [hpath, hseq, hspec]
    exact walk_map hsegments
  rw [Value.get, readFrom, readFrom, Path.appends_of_not_writes hwrites, Path.appends_of_not_writes hw, hwrites, hw,
    hmoves, hm, hwalk]
  rfl

/-! ### Staging -/

/-- Whether a value is a key that can be written in a path. -/
def Value.IsKey (v : Value) : Prop :=
  (∃ name, v = .str name ∧ name ≠ "") ∨ ∃ i : Int, v = .int i ∧ 0 ≤ i ∧ i < 2 ^ 32

/-- Whether each bracket of a query evaluates to a key that can be written in a path. -/
def Query.HasKeys (q : Query) (d : Value) : Prop :=
  ∀ i inner, (q.moveTo i).inner? = some inner → ∃ v, d.get inner = .ok v ∧ v.IsKey

/-- A body with its bracket replaced by the name or the index that the query inside evaluates to. -/
def Body.staged (d : Value) : Body PlainPath → Body PlainPath
  | .bracket raw inner =>
    match (Query.ofPath? (Path.ofPlain inner)).map d.get with
    | some (.ok (.str name)) => .field name
    | some (.ok (.int i)) => .index (Digits.ofNat i.toNat)
    | _ => .bracket raw inner
  | b => b

/-- A segment with its bracket replaced, and its commands kept. -/
def Segment.staged (d : Value) (s : Segment PlainPath) : Segment PlainPath := { s with body := s.body.staged d }

/-- A body without a bracket that can be written where `b` is and selects the same key. -/
structure Body.Replaces (d : Value) (b b' : Body PlainPath) : Prop where
  isBracket : b'.isBracket = false
  wellFormed : b'.WellFormed Bracketed
  here : b' = .here → b = .here
  append : b' = .append ↔ b = .append
  key : keyIn d b' = keyIn d b

theorem replaces_bracket {raw : List Char} {inner : PlainPath} (hw : Path.writes inner = false)
    (hm : Path.moves inner = false) (hr : Query.ofPath? (Path.ofPlain inner) = some r) (hv : d.get r = .ok v)
    (hk : v.IsKey) : Body.Replaces d (.bracket raw inner) (Body.staged d (.bracket raw inner)) := by
  have hkey : keyIn d (.bracket raw inner) = v.key := by
    rw [keyIn, Body.key, ← get_ofPlain hw hm hr, hv]
    rfl
  rcases hk with ⟨name, rfl, hname⟩ | ⟨i, rfl, hi, hlt⟩
  · have hstaged : Body.staged d (.bracket raw inner) = .field name := by
      simp [Body.staged, hr, hv]
    rw [hstaged]
    exact ⟨rfl, hname, nofun, ⟨nofun, nofun⟩, hkey.symm⟩
  · have hstaged : Body.staged d (.bracket raw inner) = .index (Digits.ofNat i.toNat) := by
      simp [Body.staged, hr, hv]
    have hdigits : keyIn d (.index (Digits.ofNat i.toNat)) = .ok (.index i.toNat) := by
      rw [keyIn, Body.key, Digits.value_ofNat]
    rw [hstaged]
    refine ⟨rfl, ⟨Digits.ofNat_ne_nil _, Digits.isDigits_ofNat _, ?_⟩, nofun, ⟨nofun, nofun⟩, ?_⟩
    · rw [Digits.value_ofNat]
      omega
    · rw [hdigits, hkey, Value.key, if_pos ⟨hi, by omega⟩]

theorem replaces_staged (hq : q.Parsed) (hk : q.HasKeys d) {s : Segment PlainPath} (hs : s ∈ q.path) :
    Body.Replaces d s.body (s.body.staged d) := by
  have hw := (Query.parsed_iff.mp hq).bodies s hs
  cases hb : s.body with
  | field | index | here | append =>
    rw [hb] at hw
    exact ⟨rfl, hw, id, Iff.rfl, rfl⟩
  | bracket raw inner =>
    rw [hb] at hw
    obtain ⟨i, hi⟩ := List.mem_iff_getElem?.mp hs
    have hsegment : (q.moveTo i).segment.body = .bracket raw inner := by
      rw [Query.segment_moveTo hi, hb]
    obtain ⟨r, hr, -⟩ := Query.inner?_eq_some (hq.moveTo i) hsegment
    obtain ⟨v, hv, hkey⟩ := hk i r hr
    rw [Query.inner?, hsegment] at hr
    exact replaces_bracket hw.2.2.1 hw.2.2.2 hr hv hkey

theorem staged_wellFormed (hq : q.Parsed) (hk : q.HasKeys d) :
    Path.WellFormed Bracketed (q.path.map (Segment.staged d)) := by
  have hw := Query.parsed_iff.mp hq
  refine hw.map (fun s hs => ?_) (fun _ _ hc => hc) fun _ => rfl
  have hreplaces := replaces_staged hq hk hs
  obtain ⟨-, hfits, hcompatible, hmarker⟩ := hw.lawful hs
  exact ⟨hreplaces.wellFormed, ⟨fun hb => hfits.here (hreplaces.here hb), hfits.append.trans hreplaces.append.symm⟩,
    hcompatible, hmarker⟩

theorem keyIn_canonical (b : Body PlainPath) : keyIn d b.canonical = keyIn d b := by
  cases b with
  | index digits => simp only [Body.canonical, keyIn, Body.key, Digits.value_ofNat]
  | field | here | append | bracket => rfl

/-- Brackets that evaluate to keys may be replaced by these keys. The path without brackets can be written, and at the
    same place of it every operation gives the same result on the document, or refuses for the same reason. -/
theorem staged_agrees (hq : q.Parsed) (hk : q.HasKeys d) :
    ∃ q₂, Query.parse (Path.spec (q.path.map (Segment.staged d))) = .ok q₂ ∧ q₂.BracketFree ∧ q₂.length = q.length ∧
      (q₂.moveTo q.seq).seq = q.seq ∧
      Agree ReadError.unquoted (d.get q) (d.get (q₂.moveTo q.seq)) ∧
      Agree ReadError.unquoted (d.has q) (d.has (q₂.moveTo q.seq)) ∧
      (∀ new, Agree Error.unquoted (d.set q new) (d.set (q₂.moveTo q.seq) new)) ∧
      Agree Error.unquoted (d.delete q) (d.delete (q₂.moveTo q.seq)) := by
  obtain ⟨q₂, hparse, hpath⟩ := Query.parse_path_spec (staged_wellFormed hq hk)
  have hlength : q₂.path.length = q.path.length := by
    rw [hpath, Path.canonical_length, List.length_map]
  have hseq : (q₂.moveTo q.seq).seq = q.seq := by
    have hlt := q.seq_lt
    exact Nat.min_eq_left (by omega)
  have hacts : Query.ActsAs d (fun s => (s.staged d).canonical) q (q₂.moveTo q.seq) := by
    refine ⟨?_, hseq, fun s hs => ⟨rfl, rfl, ?_⟩⟩
    · exact hpath.trans List.map_map
    · exact (keyIn_canonical _).trans (replaces_staged hq hk hs).key
  refine ⟨q₂, hparse, fun t ht => ?_, hlength, hseq, hacts.get, hacts.has, hacts.set, hacts.delete⟩
  rw [hpath] at ht
  obtain ⟨u, hu, rfl⟩ := List.mem_map.mp ht
  obtain ⟨s, hs, rfl⟩ := List.mem_map.mp hu
  have hbracket := (replaces_staged hq hk hs).isBracket
  cases hb : s.body.staged d <;> simp_all [Segment.staged, Body.canonical, Body.isBracket]

/-- In `$a.[k].+` the bracket evaluates to the text `7`, so the query acts as `$a.\\7.+` does. -/
theorem staged_agrees_digits :
    ∃ q₂, Query.parse "$a.\\7.+" = .ok q₂ ∧
      Agree Error.unquoted
        ((Value.object [("k", .str "7")]).set
          ⟨[⟨{ make := true }, .field "a", false⟩,
            ⟨{}, .bracket ['k'] [⟨{}, .field "k", false⟩], false⟩, ⟨{ append := true }, .append, false⟩], 0, by decide⟩
          (.int 1))
        ((Value.object [("k", .str "7")]).set (q₂.moveTo 0) (.int 1)) := by
  have hread : Query.parse "$a.[k].+" =
      .ok ⟨[⟨{ make := true }, .field "a", false⟩,
        ⟨{}, .bracket ['k'] [⟨{}, .field "k", false⟩], false⟩, ⟨{ append := true }, .append, false⟩], 0, by decide⟩ := rfl
  have hkeys : Query.HasKeys
      ⟨[⟨{ make := true }, .field "a", false⟩,
        ⟨{}, .bracket ['k'] [⟨{}, .field "k", false⟩], false⟩, ⟨{ append := true }, .append, false⟩], 0, by decide⟩
      (.object [("k", .str "7")]) := by
    rintro (_ | _ | i) inner h
    · cases h
    · cases h
      exact ⟨.str "7", rfl, Or.inl ⟨"7", rfl, by decide⟩⟩
    · simp [Query.moveTo, Query.inner?, Query.segment] at h
  obtain ⟨q₂, hparse, -, -, -, -, -, hset, -⟩ := staged_agrees ⟨"$a.[k].+", _, hread, rfl⟩ hkeys
  exact ⟨q₂, hparse, hset (.int 1)⟩

end TreeQuery
