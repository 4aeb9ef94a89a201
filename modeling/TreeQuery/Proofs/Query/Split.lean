import TreeQuery.Proofs.Document.Move
import TreeQuery.Proofs.Grammar.Unambiguous
import TreeQuery.Proofs.Query.Consistent

/-! # What a move is split into

The source and the destination of a move are rendered and read again, so the bits of their nodes are found anew from
what is written in each of the two. The nodes are those of the move, but the source has lost `=` and `$`, and the
destination takes over both at its first node (`Query.SplitInto`). As `=` holds of a whole path and `$` of all behind
it, no node of the destination gains or loses either of them. -/

namespace TreeQuery

variable {σ : Type} {head tail : Path σ} {s t : Segment σ} {f : Commands → Commands}

/-! ### Nodes -/

/-- `m` is `n` with its commands edited, and with an index spelled by its number. What follows from the rest of the path
    may differ. -/
structure Node.CopyOf (f : Commands → Commands) (m n : Node σ) : Prop where
  kind : m.body.isArray = n.body.isArray
  value : m.body.value = n.body.value
  commands : m.commands = f n.commands
  /-- The same name, or the same text and the same path in a bracket. -/
  body : n.index? = none → m.body = n.body

theorem Node.copyOf_canonical {p p' : Path σ} {i j : Nat} (hcommands : t.commands = f s.commands)
    (hbody : t.body = s.body) : (p'.nodeAt j t.canonical).CopyOf f (p.nodeAt i s) where
  kind := (Body.canonical_isArray t.body).trans (congrArg Body.isArray hbody)
  value := (Body.canonical_value t.body).trans (congrArg Body.value hbody)
  commands := hcommands
  body h := (congrArg Body.canonical hbody).trans (Body.canonical_of_ne (Node.body_ne_index h))

/-- `m` is `n` in another path, with its commands edited. -/
structure Node.Keeps (f : Commands → Commands) (m n : Node σ) : Prop extends Node.CopyOf f m n where
  marker : m.marker = n.marker
  index : m.index? = n.index?
  /-- An index is spelled by its number alone, and any other text is what it was. -/
  text : m.body.text = n.index?.elim n.body.text fun i => String.ofList (Digits.ofNat i)

theorem Node.keeps_canonical {p p' : Path σ} {i j : Nat} (s : Segment σ) (f : Commands → Commands) :
    (p'.nodeAt j (s.edit f).canonical).Keeps f (p.nodeAt i s) where
  toCopyOf := copyOf_canonical rfl rfl
  marker := rfl
  index := by
    cases hb : s.body <;> simp [Path.nodeAt, Segment.canonical, Segment.edit, Node.index?, Body.canonical, hb]
  text := by
    cases hb : s.body <;>
      simp [Path.nodeAt, Segment.canonical, Segment.edit, Node.index?, Body.canonical, Body.text, hb]

theorem Segment.edit_id : (Segment.edit id : Segment σ → Segment σ) = id := rfl

/-- A segment edited in another path keeps its node there. -/
theorem Path.nodes_keeps {p p' : Path σ} {i j : Nat} {m n : Node σ} (h : p'[j]? = p[i]?.map (Segment.edit f))
    (hm : (Path.nodes (Path.canonical p'))[j]? = some m) (hn : (Path.nodes p)[i]? = some n) : m.Keeps f n := by
  rw [Path.nodes_getElem?, Option.map_eq_some_iff] at hm hn
  obtain ⟨s, hs, rfl⟩ := hn
  obtain ⟨t, ht, rfl⟩ := hm
  obtain rfl : (s.edit f).canonical = t := by simpa [Path.canonical, h, hs] using ht
  exact Node.keeps_canonical s f

/-! ### The source -/

theorem Segment.unmarked_of_not_marker (h : s.marker = false) : s.unmarked = s :=
  congrArg (Segment.mk s.commands s.body) h.symm

theorem Path.canonical_writes (p : Path σ) : Path.writes (Path.canonical p) = Path.writes p := by
  rw [Path.writes, Path.canonical, List.any_map]
  rfl

/-- Without `=` and `$` only `+` and `!` are left to write. -/
theorem Query.writes_sourcePath {p : Path PlainPath} :
    Path.writes (sourcePath p) = false ↔ Path.appends p = false ∧ Path.deletes p = false := by
  simp only [Path.writes, sourcePath, List.any_map, Path.appends, Path.deletes, List.any_eq_false, ← forall_and]
  refine forall₂_congr fun s _ => ?_
  simp [Segment.edit, Commands.isWrite, Commands.erase]

/-! ### The destination -/

/-- The destination overwrites if the whole path does. -/
theorem Query.overwrites_destinationPath (head tail : Path PlainPath) (s : Segment PlainPath) :
    Path.overwrites (destinationPath head (s :: tail)) = Path.overwrites (head ++ s :: tail) := by
  have hcarried : (s.commands.union (Path.carried head (s :: tail))).overwrite =
      (s.commands.overwrite || Path.overwrites (head ++ s :: tail)) := rfl
  rw [destinationPath_cons, Path.overwrites, List.any_cons, Segment.edit, hcarried]
  simp only [Path.overwrites, List.any_append, List.any_cons]
  cases s.commands.overwrite <;> cases head.any (·.commands.overwrite) <;> cases tail.any (·.commands.overwrite) <;> rfl

/-- Up to each of its nodes, the destination creates what the whole path does. -/
theorem Query.makes_destinationPath (head tail : Path PlainPath) (s : Segment PlainPath) (j : Nat) :
    Path.makes ((destinationPath head (s :: tail)).take (j + 1)) =
      Path.makes ((head ++ s :: tail).take (head.length + (j + 1))) := by
  rw [destinationPath_cons, List.take_length_add_append, List.take_succ_cons, List.take_succ_cons, Path.makes, Path.makes,
    List.any_append, List.any_cons, List.any_cons, ← Bool.or_assoc]
  exact congrArg (· || _) (Bool.or_comm _ _)

/-! ### Queries -/

namespace Query

/-- `s` and `t` are the source and the destination of a move whose source ends at the node `i`. -/
structure SplitInto (q : Query) (i : Nat) (s t : Query) : Prop where
  marker : ∀ (j : Nat) n, (Path.nodes q.path)[j]? = some n → (n.marker = true ↔ j = i)
  source_length : s.length = i + 1
  length : s.length + t.length = q.length
  root : s.seq = 0 ∧ t.seq = 0
  unmarked : Path.moves s.path = false ∧ Path.moves t.path = false
  source : ∀ (j : Nat) m n, (Path.nodes s.path)[j]? = some m → (Path.nodes q.path)[j]? = some n →
    m.CopyOf (fun c => (c.erase .overwrite).erase .make) n
  /-- The first node of the destination takes over `=`, and a `$` that is written in the source. -/
  first : ∀ m n, (Path.nodes t.path)[0]? = some m → (Path.nodes q.path)[i + 1]? = some n →
    m.CopyOf (·.union { overwrite := Path.overwrites q.path, make := Path.makes (q.path.take (i + 1)) }) n
  behind : ∀ (j : Nat) m n, (Path.nodes t.path)[j + 1]? = some m → (Path.nodes q.path)[i + 1 + (j + 1)]? = some n →
    m.CopyOf id n
  modes : ∀ (j : Nat) m n, (Path.nodes t.path)[j]? = some m → (Path.nodes q.path)[i + 1 + j]? = some n →
    m.mode.overwrite = n.mode.overwrite ∧ m.mode.make = n.mode.make
  readonly : s.checkReadonly = .ok () ↔ Path.appends (q.path.take (i + 1)) = false

variable {q source destination : Query} {before tail : Path PlainPath} {m first : Segment PlainPath}

theorem moves_of_splitMove (h : q.splitMove = .ok (source, destination)) : Path.moves q.path = true := by
  unfold splitMove at h
  split at h
  · cases h
  · exact moves_of_splitAtMarker (by assumption)

section
variable (hsplit : Path.SplitAt q.path before m first tail)
include hsplit

theorem path_of_splitAt : q.path = (before ++ [m]) ++ first :: tail := by simp [hsplit.path]

theorem take_of_splitAt : q.path.take (before.length + 1) = before ++ [m] := by
  rw [path_of_splitAt hsplit]
  exact List.take_left' (by simp)

theorem getElem?_of_splitAt (j : Nat) : q.path[before.length + 1 + j]? = (first :: tail)[j]? := by
  have hlength : (before ++ [m]).length = before.length + 1 := by simp
  rw [path_of_splitAt hsplit, ← hlength, List.getElem?_append_right (Nat.le_add_right _ _), Nat.add_sub_cancel_left]

/-- In the source of a move, `>` follows no node but the last one. -/
theorem concat_unmarked_of_splitAt :
    before ++ [m.unmarked] = (q.path.take (before.length + 1)).map Segment.unmarked := by
  have hbefore : before.map Segment.unmarked = before :=
    (List.map_congr_left fun u hu => Segment.unmarked_of_not_marker (hsplit.unmarked_before u hu)).trans (List.map_id' _)
  rw [take_of_splitAt hsplit, List.map_append, hbefore]
  rfl

variable (hq : q.Parsed) (h : q.splitMove = .ok (source, destination))
include hq h

/-- What a move is split into is read as the two paths, up to the spelling of indices. -/
theorem paths_of_splitMove :
    (source.path = Path.canonical (sourcePath (before ++ [m.unmarked])) ∧ source.seq = 0) ∧
      destination.path = Path.canonical (destinationPath (before ++ [m]) (first :: tail)) ∧ destination.seq = 0 := by
  have hw := parsed_iff.mp hq
  rw [splitMove_eq (splitAtMarker_eq hsplit)] at h
  obtain ⟨x, hx, h⟩ := Outcome.bind_ok_iff.mp h
  obtain ⟨y, hy, h⟩ := Outcome.bind_ok_iff.mp h
  obtain ⟨rfl, rfl⟩ := Prod.mk.inj (Except.ok.inj h)
  rw [Outcome.mapError_ok_iff] at hx hy
  obtain ⟨z, hz, hsource⟩ := parse_source hw hsplit
  obtain rfl := Except.ok.inj (hx.symm.trans hz)
  refine ⟨⟨hsource, (parse_ok_iff.mp hx).2⟩, path_of_parse_spec nofun (fun t ht => ?_) (fun t ht => ?_) hy⟩
  · exact Path.any_eq_false_iff.mp (destination_unmarked hsplit.unmarked_behind) t (List.mem_of_getLast? ht)
  · have hspellable : ∀ u ∈ first :: tail, u.Spellable Bracketed := fun u hu =>
      (hw.lawful (by rw [hsplit.path]; simp [List.mem_cons.mp hu])).spellable
    obtain ⟨hfirst, htail⟩ := List.forall_mem_cons.mp hspellable
    rcases List.mem_cons.mp ht with rfl | ht
    · exact ⟨hfirst.body, fun ha => (Path.carried_append first).trans (hfirst.append ha)⟩
    · exact htail t ht

theorem source_copyOf {j : Nat} {x n : Node PlainPath} (hx : (Path.nodes source.path)[j]? = some x)
    (hn : (Path.nodes q.path)[j]? = some n) : x.CopyOf (fun c => (c.erase .overwrite).erase .make) n := by
  rw [Path.nodes_getElem?] at hx hn
  obtain ⟨u, hu, rfl⟩ := Option.map_eq_some_iff.mp hx
  obtain ⟨w, hw, rfl⟩ := Option.map_eq_some_iff.mp hn
  rw [(paths_of_splitMove hsplit hq h).1.1, concat_unmarked_of_splitAt hsplit, Path.canonical, sourcePath, List.map_map,
    List.map_map, List.getElem?_map] at hu
  obtain ⟨w', hw', rfl⟩ := Option.map_eq_some_iff.mp hu
  have hlt : j < before.length + 1 := by
    have := (List.getElem?_eq_some_iff.mp hw').1
    simp only [List.length_take] at this
    omega
  rw [List.getElem?_take_of_lt hlt, hw] at hw'
  obtain rfl := Option.some.inj hw'
  exact Node.copyOf_canonical rfl rfl

/-- Of what writes, the source keeps `+` alone, for in a move there is no `!`. -/
theorem source_readonly : source.checkReadonly = .ok () ↔ Path.appends (q.path.take (before.length + 1)) = false := by
  have hdelete : Path.deletes (before ++ [m.unmarked]) = false := by
    rw [concat_unmarked_of_splitAt hsplit, Path.deletes, List.any_map, Path.any_eq_false_iff]
    intro u hu
    have hu : u.commands.delete = false := (parsed_iff.mp hq).not_delete (List.mem_of_mem_take hu)
      ⟨m, by simp [hsplit.path], Or.inr (Or.inr (Or.inr hsplit.marker))⟩
    exact hu
  have happend : Path.appends (before ++ [m.unmarked]) = Path.appends (q.path.take (before.length + 1)) := by
    rw [concat_unmarked_of_splitAt hsplit, Path.appends, List.any_map]
    rfl
  rw [checkReadonly_ok_iff, (paths_of_splitMove hsplit hq h).1.1, Path.canonical_moves, Path.canonical_writes,
    and_iff_left (source_unmarked hsplit), writes_sourcePath, and_iff_left hdelete, happend]

theorem destination_copyOf {j : Nat} {x n : Node PlainPath} (hx : (Path.nodes destination.path)[j]? = some x)
    (hn : (Path.nodes q.path)[before.length + 1 + j]? = some n) :
    x.CopyOf (if j = 0 then (·.union (Path.carried (before ++ [m]) (first :: tail))) else id) n ∧
      x.mode.overwrite = n.mode.overwrite ∧ x.mode.make = n.mode.make := by
  rw [Path.nodes_getElem?] at hx hn
  obtain ⟨u, hu, rfl⟩ := Option.map_eq_some_iff.mp hx
  obtain ⟨w, hw, rfl⟩ := Option.map_eq_some_iff.mp hn
  rw [getElem?_of_splitAt hsplit] at hw
  rw [(paths_of_splitMove hsplit hq h).2.1, Path.canonical, List.getElem?_map] at hu
  obtain ⟨t, ht, rfl⟩ := Option.map_eq_some_iff.mp hu
  constructor
  · cases j with
    | zero =>
      obtain rfl := Option.some.inj hw
      obtain rfl := Option.some.inj ht
      exact Node.copyOf_canonical rfl rfl
    | succ j =>
      obtain rfl := Option.some.inj (hw.symm.trans ht)
      exact Node.copyOf_canonical rfl rfl
  · -- The two bits follow from the path around a node, and how its indices are spelled is nothing to them.
    have hmode : (destination.path.nodeAt j t.canonical).mode =
        (destinationPath (before ++ [m]) (first :: tail)).mode j t := by
      rw [(paths_of_splitMove hsplit hq h).2.1]
      exact Path.canonical_mode _ j t
    have hmakes := makes_destinationPath (before ++ [m]) tail first j
    rw [List.length_append, List.length_singleton, ← path_of_splitAt hsplit, ← Nat.add_assoc] at hmakes
    rw [hmode]
    exact ⟨(overwrites_destinationPath _ _ _).trans (congrArg Path.overwrites (path_of_splitAt hsplit).symm), hmakes⟩

end

/-- Whenever a move is split, its nodes up to the `>` are those of the source and the others those of the destination. The
    source can be read unless a `+` is written in it, and in the destination the same nodes overwrite and create as in
    the move. -/
theorem splitInto_of_splitMove (hq : q.Parsed) (h : q.splitMove = .ok (source, destination)) :
    ∃ i, q.SplitInto i source destination := by
  have hw := parsed_iff.mp hq
  have hm := moves_of_splitMove h
  obtain ⟨before, m, first, tail, hsplit⟩ := hw.exists_splitAt hm
  obtain ⟨⟨hs, hsroot⟩, ht, htroot⟩ := paths_of_splitMove hsplit hq h
  obtain ⟨i, hlt, hmarker⟩ := hw.marker_unique hm
  -- The node that `>` follows is the one behind those before it.
  obtain rfl : before.length = i := (hmarker before.length m (by simp [hsplit.path])).mp hsplit.marker
  refine ⟨before.length, ?_⟩
  exact
    { marker := fun j n hn => by
        rw [Path.nodes_getElem?] at hn
        obtain ⟨u, hu, rfl⟩ := Option.map_eq_some_iff.mp hn
        exact hmarker j u hu
      source_length := by simp [length, hs, sourcePath]
      length := by
        simp only [length, hs, ht, hsplit.path, Path.canonical_length, sourcePath, destinationPath_cons, List.length_map,
          List.length_append, List.length_cons, List.length_nil]
        omega
      root := ⟨hsroot, htroot⟩
      unmarked := by
        rw [hs, ht, Path.canonical_moves, Path.canonical_moves]
        exact ⟨source_unmarked hsplit, destination_unmarked hsplit.unmarked_behind⟩
      source := fun j x n => source_copyOf hsplit hq h
      first := fun x n hx hn => by
        have hcopy := (destination_copyOf hsplit hq h hx hn).1
        rwa [if_pos rfl, Path.carried, ← path_of_splitAt hsplit, ← take_of_splitAt hsplit] at hcopy
      behind := fun j x n hx hn => (destination_copyOf hsplit hq h hx hn).1
      modes := fun j x n hx hn => (destination_copyOf hsplit hq h hx hn).2
      readonly := source_readonly hsplit hq h }

/-- `$a.b>x.01` is split into `a.b` and `$x.1`. -/
theorem splitInto_of_splitMove_make : ∃ i,
    SplitInto
      ⟨[⟨{ make := true }, .field "a", false⟩, ⟨{}, .field "b", true⟩, ⟨{}, .field "x", false⟩,
        ⟨{}, .index ['0', '1'], false⟩], 0, by decide⟩ i
      ⟨[⟨{}, .field "a", false⟩, ⟨{}, .field "b", false⟩], 0, by decide⟩
      ⟨[⟨{ make := true }, .field "x", false⟩, ⟨{}, .index ['1'], false⟩], 0, by decide⟩ := by
  have hread : parse "$a.b>x.01" =
      .ok ⟨[⟨{ make := true }, .field "a", false⟩, ⟨{}, .field "b", true⟩, ⟨{}, .field "x", false⟩,
        ⟨{}, .index ['0', '1'], false⟩], 0, by decide⟩ := rfl
  exact splitInto_of_splitMove ⟨"$a.b>x.01", _, hread, rfl⟩ rfl

end Query

end TreeQuery
