import TreeQuery.Proofs.Grammar.Canonical
import TreeQuery.Proofs.Scan.Reached

/-! # The flags of nodes

`Path.mode` says at once which bits hold of a node of a path. A scan comes to the same flags in two rounds
(`Scan.Scanner.flags_eq`): those of a closed token know of the token alone (`Segment.flags`), and the commands and the
`>` that the scan has seen until the text ends decide the bits of the whole path. -/

namespace TreeQuery
open Except Scan

variable {σ : Type} {sc : Scanner σ} {st st' last : State σ} {p : Path σ} {s : Segment σ} {global : Mode}
  {make : Bool} {length seq i : Nat} {fs : List Flags}

/-! ### Closed tokens -/

/-- The flags of a segment, as far as the segment alone decides them. -/
def Segment.flags (seq : Nat) (s : Segment σ) : Flags where
  isArray := s.body.isArray
  mode := { Mode.ofCommands s.commands s.body.isHere with marker := s.marker, dynamic := s.body.isBracket }
  commands := .ofCommands s.commands s.body.isHere
  value := s.body.value
  seq := seq

theorem closedFlags_eq (commands : Commands) (body : Body σ) (seq : Nat) :
    closedFlags commands body seq = Segment.flags seq ⟨commands, body, false⟩ := by
  have hinter : (Mode.ofCommands commands body.isHere).inter .writable = .ofCommands commands body.isHere := by
    simp only [Mode.inter, Mode.ofCommands, Mode.writable, Bool.and_true, Bool.and_false]
  rw [closedFlags, Flags.new, hinter]
  cases hb : body.isBracket <;>
    simp only [Segment.flags, Flags.insert, Mode.union, Mode.ofCommands, hb, Bool.or_false, Bool.or_true,
      Bool.false_eq_true, if_true, if_false]

theorem Segment.flags_insert_marker (seq : Nat) (s : Segment σ) :
    (s.flags seq).insert { marker := true } = Segment.flags seq { s with marker := true } := by
  simp only [Segment.flags, Flags.insert, Mode.union, Mode.ofCommands, Bool.or_false, Bool.or_true]

namespace Scan

/-- What a scan has noted of the closed tokens besides their segments is what these say. -/
structure State.Noted (st : State σ) : Prop where
  flags : st.flags = st.segments.mapIdx Segment.flags
  seen : st.seen = Path.written st.segments
  moves : decide (0 < st.moves) = Path.moves st.segments

namespace State.Noted

theorem start : ({} : State σ).Noted := ⟨rfl, rfl, rfl⟩

variable (h : st.Noted)
include h

theorem closed (body : Body σ) : (st.closed body).Noted where
  flags := by
    show st.flags ++ [_] = (st.segments ++ [_]).mapIdx Segment.flags
    rw [h.flags, List.mapIdx_concat, closedFlags_eq]
  seen := by
    show st.seen.union _ = Path.written (st.segments ++ [_])
    rw [h.seen, Path.written_append_singleton]
  moves := by
    show _ = Path.moves (st.segments ++ [_])
    rw [Path.moves, List.any_append]
    exact h.moves.trans (Bool.or_false _).symm

/-- The `>` behind a token is noted with the token before it. -/
theorem marked (body : Body σ) : (st.closed body).marked.Noted := by
  have hclosed := h.closed body
  have hsegments : (st.closed body).marked.segments = st.segments ++ [⟨st.token.commands, body, true⟩] :=
    modifyLast_append _ _ _
  refine ⟨?_, ?_, ?_⟩
  · show modifyLast _ (st.closed body).flags = _
    rw [hclosed.flags, hsegments]
    show modifyLast _ ((st.segments ++ [_]).mapIdx Segment.flags) = _
    rw [List.mapIdx_concat, List.mapIdx_concat, modifyLast_append, Segment.flags_insert_marker]
  · rw [hsegments, Path.written_append_singleton]
    exact hclosed.seen.trans Path.written_append_singleton
  · rw [hsegments, Path.moves, List.any_append]
    exact (Bool.or_true _).symm

theorem next (hn : sc.Next st st') : st'.Noted := by
  have hadvance : (Scanner.advance st).Noted := ⟨h.flags, h.seen, h.moves⟩
  cases hn with
  | on => exact ⟨h.flags, h.seen, h.moves⟩
  | @step body =>
    have hclosed := hadvance.closed body
    exact ⟨hclosed.flags, hclosed.seen, hclosed.moves⟩
  | @move body =>
    have hmarked := hadvance.marked body
    exact ⟨hmarked.flags, hmarked.seen, hmarked.moves⟩

theorem finish (hf : sc.finish st = ok last) : last.Noted := by
  unfold Scanner.finish at hf
  split at hf
  · split at hf
    · exact eq_of_conclude hf ▸ h
    · cases hf
    · cases hf
  · obtain ⟨closed, hclose, hconclude⟩ := Outcome.bind_ok_iff.mp hf
    obtain ⟨body, -, rfl⟩ := Scanner.close_ok hclose
    exact eq_of_conclude hconclude ▸ h.closed body

omit h in
theorem run (h : st.Noted) (hrun : sc.run st = ok last) : last.Noted := by
  fun_induction Scanner.run sc st with
  | case1 st => exact h.finish hrun
  | case2 => cases hrun
  | case3 st b _ next hs ih => exact ih (h.next (Scanner.next_of_step hs)) hrun

end State.Noted

end Scan

/-! ### Whole paths -/

/-- The bit of `$` is on from the first node that has one. -/
theorem getElem?_finalizeFrom : (Flags.finalizeFrom global length make seq fs)[i]? = fs[i]?.map fun f =>
    f.insert (global.union {
      make := make || (fs.take (i + 1)).any fun f => f.commands.make
      root := seq + i == 0
      leaf := seq + i + 1 == length
      single := length == 1 }) := by
  induction fs generalizing make seq i with
  | nil => rfl
  | cons f fs ih =>
    cases i with
    | zero => simp [Flags.finalizeFrom]
    | succ i => simp [Flags.finalizeFrom, ih, Bool.or_assoc, Nat.add_assoc, Nat.add_comm 1 i]

theorem makes_take_flags (p : Path σ) (i : Nat) :
    ((p.mapIdx Segment.flags).take i).any (fun f => f.commands.make) = Path.makes (p.take i) := by
  have hmap : (p.mapIdx Segment.flags).map (fun f => f.commands.make) = p.map fun s => s.commands.make :=
    List.ext_getElem? fun j => by
      rw [List.getElem?_map, List.getElem?_mapIdx, List.getElem?_map, Option.map_map]
      rfl
  calc ((p.mapIdx Segment.flags).take i).any (fun f => f.commands.make)
      = (((p.mapIdx Segment.flags).take i).map fun f => f.commands.make).any id := (List.any_map (p := id)).symm
    _ = ((p.map fun s => s.commands.make).take i).any id := by rw [List.map_take, hmap]
    _ = ((p.take i).map fun s => s.commands.make).any id := by rw [List.map_take]
    _ = Path.makes (p.take i) := List.any_map

theorem global_written {moves : Nat} (hmoves : decide (0 < moves) = Path.moves p) :
    Flags.global (Path.written p) moves = {
      overwrite := p.overwrites
      indeterministic := p.appends
      delete := p.deletes
      move := p.moves
      write := p.writes } := by
  have hwrites : (Path.written p).isWrite = p.writes := by
    refine Path.apply_written rfl (fun c d => ?_) p
    simp only [Commands.isWrite, Commands.union]
    ac_rfl
  rw [Flags.global, hmoves, hwrites, Path.apply_written (f := Commands.overwrite) rfl (fun _ _ => rfl),
    Path.apply_written (f := Commands.append) rfl (fun _ _ => rfl),
    Path.apply_written (f := Commands.delete) rfl (fun _ _ => rfl)]
  rfl

theorem or_any_of_getElem? {f : Segment σ → Bool} (hs : p[i]? = some s) : (f s || p.any f) = p.any f := by
  cases hf : f s with
  | false => rfl
  | true => exact (List.any_eq_true.mpr ⟨s, List.mem_of_getElem? hs, hf⟩).symm

/-- The flags that a scan ends with are those of the nodes of its path. -/
theorem Scan.State.Noted.finalize (h : st.Noted) :
    Flags.finalize st.seen st.moves st.flags = (Path.nodes st.segments).map Node.flags := by
  refine List.ext_getElem? fun i => ?_
  rw [Flags.finalize, getElem?_finalizeFrom, h.flags, List.getElem?_mapIdx, List.getElem?_map, Path.nodes_getElem?]
  cases hs : st.segments[i]? with
  | none => rfl
  | some s =>
    have htake : (st.segments.take (i + 1))[i]? = some s := by rw [List.getElem?_take, if_pos (Nat.lt_succ_self i), hs]
    have hoverwrite : (s.commands.overwrite || Path.overwrites st.segments) = Path.overwrites st.segments :=
      or_any_of_getElem? (f := fun s => s.commands.overwrite) hs
    have hdelete : (s.commands.delete || Path.deletes st.segments) = Path.deletes st.segments :=
      or_any_of_getElem? (f := fun s => s.commands.delete) hs
    have hmake : (s.commands.make || Path.makes (st.segments.take (i + 1))) = Path.makes (st.segments.take (i + 1)) :=
      or_any_of_getElem? (f := fun s => s.commands.make) htake
    rw [makes_take_flags, List.length_mapIdx, Nat.zero_add, h.seen, global_written h.moves]
    simp only [Option.map_some, Segment.flags, Flags.insert, Mode.union, Mode.ofCommands, Bool.false_or, Bool.or_false,
      hoverwrite, hdelete, hmake]
    rfl

/-- The flags that a scan of a text gives are those of the nodes of the path that it gives. -/
theorem Scan.Scanner.flags_eq (sc : Scanner σ) :
    sc.flags = sc.scan.map fun p => (Path.nodes p).map Node.flags := by
  unfold Scanner.flags Scanner.scan Scanner.readAll
  split
  · rfl
  · cases hrun : sc.run {} with
    | error stop => rfl
    | ok last => exact congrArg ok (State.Noted.start.run hrun).finalize

/-- What brackets hold is not in the flags. -/
theorem Path.flags_nodeAt_map {τ : Type} (f : σ → τ) :
    (Path.nodeAt (p.map (Segment.map f)) i (s.map f)).flags = (p.nodeAt i s).flags := by
  have hbody : (s.body.map f).isHere = s.body.isHere ∧ (s.body.map f).isBracket = s.body.isBracket ∧
      (s.body.map f).isArray = s.body.isArray ∧ (s.body.map f).value = s.body.value := by
    cases s.body <;> exact ⟨rfl, rfl, rfl, rfl⟩
  obtain ⟨hhere, hbracket, harray, hvalue⟩ := hbody
  have hmode : Path.mode (p.map (Segment.map f)) i (s.map f) = p.mode i s := by
    simp only [Path.mode, Path.overwrites, Path.appends, Path.makes, Path.deletes, Path.moves, Path.writes, Segment.map,
      ← List.map_take, List.any_map, List.length_map, hhere, hbracket]
    rfl
  rw [Node.flags, Node.flags, Path.nodeAt, Path.nodeAt, hmode]
  simp only [Segment.map, hhere, harray, hvalue]

theorem Path.flags_nodes_map {τ : Type} (f : σ → τ) (p : Path σ) :
    (Path.nodes (p.map (Segment.map f))).map Node.flags = (Path.nodes p).map Node.flags := by
  refine List.ext_getElem? fun i => ?_
  rw [List.getElem?_map, List.getElem?_map, Path.nodes_getElem?, Path.nodes_getElem?, List.getElem?_map]
  cases p[i]? with
  | none => rfl
  | some s => exact congrArg some (Path.flags_nodeAt_map f)

/-- The flags that a scan gives for a query that is read are those of its nodes. -/
theorem Scan.flagsAt_of_parseAt {offset depth : Nat} {text : String} {q : Query}
    (h : Query.parseAt offset depth text = ok q) :
    flagsAt offset depth text = ok ((Path.nodes q.path).map Node.flags) := by
  rw [parseAt_eq_ofReading] at h
  obtain ⟨path, hread, hpath⟩ := Outcome.map_ok_iff.mp (Query.ofReading_ok_iff.mp h).1
  have hlift : (Path.nodes (Inside.lift depth path)).map Node.flags = (Path.nodes path).map Node.flags := by
    cases depth with
    | zero => rfl
    | succ => exact Path.flags_nodes_map _ path
  rw [flagsAt, Scanner.flags_eq, scanAt_eq, hread, ← hpath, hlift]
  rfl

end TreeQuery
