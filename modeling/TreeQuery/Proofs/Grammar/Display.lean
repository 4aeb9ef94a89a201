import TreeQuery.Proofs.Grammar.Canonical

/-! # Texts that show a place

The text of a query in the middle of a path is the canonical text with an `@` before one node. Reading
it reads the segments before that node, each as it stands in the canonical path, and is refused at the `@`
(`readTokens_renderFront`). So what a query shows is read back at the root and nowhere else. -/

namespace TreeQuery

variable {σ : Type} {Inner : List Char → σ → Prop} {reader : BracketReader σ} {before p : Path σ}
  {pr : Progress}

/-! ### Text before a node -/

/-- The canonical text of segments with the separator behind each. -/
def Path.renderFront (p : Path σ) : List Char := p.flatMap fun s => s.render ++ [s.separator]

theorem Path.renderFront_cons (s : Segment σ) (p : Path σ) :
    Path.renderFront (s :: p) = s.render ++ s.separator :: Path.renderFront p := by
  simp [Path.renderFront]

/-- Segments joined up to one of them and from it on. -/
theorem Path.join_split (f : Nat → Segment σ → List Char) {i n : Nat} (hf : ∀ j s, j < i + n → f j s = s.render)
    (hn : n < p.length) :
    Path.join f i p = Path.renderFront (p.take n) ++ Path.join f (i + n) (p.drop n) := by
  induction n generalizing i p with
  | zero => simp [Path.renderFront]
  | succ n ih =>
    cases p with
    | nil => simp at hn
    | cons s rest =>
      cases rest with
      | nil => simp at hn
      | cons t rest =>
        have hrest := ih (p := t :: rest) (i := i + 1) (fun j s hj => hf j s (by omega)) (by simpa using hn)
        rw [Path.join_cons_cons, hrest, hf i s (by omega)]
        rw [List.take_succ_cons, List.drop_succ_cons, Path.renderFront_cons, Nat.add_right_comm, Nat.add_assoc]
        simp

/-- The canonical text does not depend on the number of the first segment. -/
theorem Path.join_eq_render {f : Nat → Segment σ → List Char} {i : Nat} (hf : ∀ k s, f (i + k) s = s.render)
    (p : Path σ) : Path.join f i p = Path.render p := by
  suffices h : ∀ j, Path.join f i p = Path.join (fun _ s => s.render) j p from h 0
  induction p generalizing i with
  | nil => exact fun _ => rfl
  | cons s rest ih =>
    intro j
    have hrest := ih (i := i + 1) (fun k s => by rw [Nat.add_assoc, Nat.add_comm 1 k]; exact hf (k + 1) s) (j + 1)
    cases rest with
    | nil => exact hf 0 s
    | cons t rest =>
      rw [Path.join_cons_cons, Path.join_cons_cons, hrest]
      exact congrArg (· ++ _) (hf 0 s)

theorem Path.render_split {n : Nat} (hn : n < p.length) :
    Path.render p = Path.renderFront (p.take n) ++ Path.render (p.drop n) := by
  rw [Path.render, Path.join_split _ (fun _ _ _ => rfl) hn, Path.join_eq_render fun _ _ => rfl]

theorem Path.render_append {behind : Path σ} (hp : behind ≠ []) (p : Path σ) :
    Path.render (p ++ behind) = Path.renderFront p ++ Path.render behind := by
  have hpos := List.length_pos_iff.mpr hp
  have hsplit := Path.render_split (p := p ++ behind) (n := p.length) (by simp only [List.length_append]; omega)
  rwa [List.take_left, List.drop_left] at hsplit

theorem Path.render_concat (p : Path σ) (s : Segment σ) :
    Path.render (p ++ [s]) = Path.renderFront p ++ s.render := Path.render_append (List.cons_ne_nil s []) p

/-- The text of a path behind another one, whose last segment is `m`. -/
theorem Path.spec_append {behind : Path σ} (hp : behind ≠ []) (p : Path σ) (m : Segment σ) :
    Path.spec (p ++ [m] ++ behind) =
      Path.spec (p ++ [m]) ++ String.ofList [m.separator] ++ Path.spec behind := by
  have hfront : Path.renderFront (p ++ [m]) = Path.render (p ++ [m]) ++ [m.separator] := by
    rw [Path.render_concat, Path.renderFront, List.flatMap_append, List.flatMap_singleton, ← List.append_assoc]
    rfl
  rw [Path.spec, Path.render_append hp, hfront, String.ofList_append, String.ofList_append]
  rfl

theorem Path.renderMarked_split {n : Nat} (hn : n < p.length) :
    Path.renderMarked n p = Path.renderFront (p.take n) ++ '@' :: Path.render (p.drop n) := by
  rw [Path.renderMarked, Path.join_split _ (fun j s hj => if_neg (by omega)) hn]
  refine congrArg (_ ++ ·) ?_
  cases hd : p.drop n with
  | nil =>
    have := congrArg List.length hd
    simp at this
    omega
  | cons s rest =>
    have hrest : Path.join (fun i s => if i = n then '@' :: s.render else s.render) (n + 1) rest =
        Path.render rest := Path.join_eq_render (fun k s => if_neg (by omega)) rest
    cases rest with
    | nil => simp [Path.join, Path.render]
    | cons t rest =>
      have hrender : Path.render (s :: t :: rest) = s.render ++ s.separator :: Path.render (t :: rest) := by
        rw [Path.render, Path.join_cons_cons, Path.join_eq_render fun _ _ => rfl]
      rw [Nat.zero_add, Path.join_cons_cons, hrest, hrender]
      simp

/-! ### Refusal -/

theorem byteLength_append (a b : List Char) : byteLength (a ++ b) = byteLength a + byteLength b := by
  induction a with
  | nil => rw [List.nil_append, byteLength, Nat.zero_add]
  | cons c a ih => rw [List.cons_append, byteLength, byteLength, ih, Nat.add_assoc]

theorem byteLength_separator (s : Segment σ) : byteLength [s.separator] = 1 := by
  unfold Segment.separator
  split <;> rfl

/-- Reading stops at the `@` behind the segments of a path, wherever it began. -/
theorem readTokens_renderFront (hr : Understands reader Inner) (hb : pr.Behind before)
    (hl : ∀ s ∈ p, s.Lawful Inner) (hc : Path.Continues Inner before (Path.canonical p)) (rest : List Char) :
    readTokens reader pr (Token.split false (Path.renderFront p ++ '@' :: rest)) =
      .error (.unexpectedToken '@' (pr.position + byteLength (Path.renderFront p))) := by
  induction p generalizing pr before with
  | nil => exact readTokens_refuse (Or.inl rfl) rest
  | cons s p ih =>
    have hs := hl s (by simp)
    obtain ⟨hls, hfollow, hrest⟩ := continues_cons.mp hc
    have hlen := hrest.front_lt
    have htext : Path.renderFront (s :: p) ++ '@' :: rest =
        s.render ++ s.canonical.separator :: (Path.renderFront p ++ '@' :: rest) := by
      rw [Path.renderFront_cons, List.append_assoc]
      rfl
    have hnext := hb.next (t := ⟨s.render, some s.canonical.closing⟩) Segment.closing_eq_move (by simp) hlen
    have hstop := ih hnext (fun t ht => hl t (by simp [ht])) hrest
    rw [htext, readTokens_cons hr hb (Segment.spelledBy_render hs.body) hls hfollow hlen, hstop]
    have hbytes : byteLength (Path.renderFront (s :: p)) =
        byteLength s.render + 1 + byteLength (Path.renderFront p) := by
      rw [Path.renderFront_cons, ← List.singleton_append, byteLength_append, byteLength_append,
        byteLength_separator, Nat.add_assoc]
    rw [hbytes]
    simp [Except.map, Progress.next, Nat.add_assoc]

theorem Path.Continues.take {n : Nat} (h : Path.Continues Inner before p) :
    Path.Continues Inner before (p.take n) where
  lawful s hs := h.lawful s (List.mem_of_mem_take hs)
  follows b hb s hs := h.follows b hb s (List.mem_of_mem_take hs)
  pairwise := h.pairwise.sublist (List.take_sublist n p)
  length_lt := by
    have := h.length_lt
    simp only [List.length_take]
    omega

namespace Query

theorem parse_renderMarked {q : Query} (h : Path.WellFormed Bracketed q.path) {seq : Nat}
    (hlt : seq < q.path.length) :
    parse (String.ofList (Path.renderMarked seq q.path)) =
      .error (.unexpectedToken '@' (byteLength (Path.renderFront (q.path.take seq)))) := by
  have hc : Path.Continues Bracketed [] (Path.canonical (q.path.take seq)) := by
    rw [Path.canonical, List.map_take]
    exact h.canonical.continues.take
  have hread := readTokens_renderFront understands_readInner (Progress.behind_start 0)
    (fun s hs => h.lawful (List.mem_of_mem_take hs)) hc (Path.render (q.path.drop seq))
  rw [← Path.renderMarked_split hlt, Nat.zero_add] at hread
  have houter : readOuter 0 (Path.renderMarked seq q.path) =
      .error (.unexpectedToken '@' (byteLength (Path.renderFront (q.path.take seq)))) := hread
  rw [parse, String.toList_ofList, readSpec_eq_readOuter (by rw [houter]; simp), houter]
  rfl

/-- The canonical text is read as the path again, up to the spelling of indices, and so is what the query
    shows at its root. What it shows at another node is that text with an `@` before the node, and
    is refused there. -/
theorem parse_spec_alike {text : String} {q : Query} (h : parse text = .ok q) :
    (∃ q₂, parse q.spec = .ok q₂ ∧ (q₂ == q) = true ∧ q₂.spec = q.spec ∧ q₂.length = q.length ∧
      ∀ (i : Nat) (m n : Node PlainPath),
        (Path.nodes q₂.path)[i]? = some m → (Path.nodes q.path)[i]? = some n → m.Alike n) ∧
    q.display = q.spec ∧
    ∀ seq, 0 < seq → seq < q.length → ∃ front back,
      q.spec = String.ofList (front ++ back) ∧ front = Path.renderFront (q.path.take seq) ∧
      (q.moveTo seq).display = String.ofList (front ++ '@' :: back) ∧
      parse (q.moveTo seq).display = .error (.unexpectedToken '@' (byteLength front)) := by
  obtain ⟨hread, h0⟩ := parse_ok_iff.mp h
  have hw := (readSpec_ok_iff.mp hread).1
  refine ⟨⟨q.canonical, parse_spec hw, ?_, q.canonical_spec, Path.canonical_length _, ?_⟩, if_pos h0,
    fun seq hpos hlt => ?_⟩
  · have hseq : q.canonical.seq = q.seq := h0.symm
    simp [BEq.beq, hseq, q.canonical_spec]
  · exact fun _ _ _ => Path.canonical_alike
  · have hlt : seq < q.path.length := hlt
    have hseq : (q.moveTo seq).seq = seq := Nat.min_eq_left (by omega)
    have hshow : (q.moveTo seq).display = String.ofList (Path.renderMarked seq q.path) := by
      rw [display, hseq, if_neg (by omega)]
      rfl
    refine ⟨_, Path.render (q.path.drop seq), ?_, rfl, ?_, ?_⟩
    · exact congrArg String.ofList (Path.render_split hlt)
    · rw [hshow, Path.renderMarked_split hlt]
    · rw [hshow, parse_renderMarked hw hlt]

theorem parse_spec_alike_index :
    parse "a.01" = .ok ⟨[⟨{}, .field "a", false⟩, ⟨{}, .index ['0', '1'], false⟩], 0, by decide⟩ ∧
      ∃ q₂, parse "a.1" = .ok q₂ ∧ q₂.length = 2 := by
  have hread : parse "a.01" =
      .ok ⟨[⟨{}, .field "a", false⟩, ⟨{}, .index ['0', '1'], false⟩], 0, by decide⟩ := rfl
  obtain ⟨q₂, hq, -, -, hlen, -⟩ := (parse_spec_alike hread).1
  exact ⟨hread, q₂, hq, hlen⟩

end Query

end TreeQuery
