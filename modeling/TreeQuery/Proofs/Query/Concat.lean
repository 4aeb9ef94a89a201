import TreeQuery.Proofs.Document.Equal
import TreeQuery.Proofs.Query.Split

/-! # Queries one behind the other

A query is extended by writing the text of another one behind its own. Where the two texts together can be read, they
are read as the one path behind the other (`Query.concat_eq`), so what is written in either part stays what it is.
They can be read exactly if that path obeys the rules (`Query.concat_ok_iff`), and paths are put together in one order
like in the other (`Query.concat_assoc`). -/

namespace TreeQuery.Query

variable {a b c r : Query} {name : String}

/-- The path of `a` with that of `b` behind it, at the root. -/
def followedBy (a b : Query) : Query :=
  ⟨a.path ++ b.path, 0, by rw [List.length_append]; exact Nat.add_pos_left (Nat.zero_lt_of_lt a.seq_lt) _⟩

/-- What is not in the first path is in the whole exactly if it is in the second one. -/
theorem any_followedBy {f : Segment PlainPath → Bool} (ha : a.path.any f = false) :
    (a.followedBy b).path.any f = b.path.any f := by
  rw [followedBy, List.any_append, ha, Bool.false_or]

theorem spec_followedBy (ha : a.Parsed) : (a.followedBy b).spec = a.spec ++ "." ++ b.spec := by
  obtain ⟨before, m, hpath⟩ := a.exists_path_concat
  have hmarker : m.marker = false := (parsed_iff.mp ha).last_unmarked m (by rw [hpath]; simp)
  have hpaths : (a.followedBy b).path = before ++ [m] ++ b.path := congrArg (· ++ b.path) hpath
  rw [spec, hpaths, Path.spec_append b.path_ne_nil, Segment.separator, hmarker, ← hpath]
  rfl

theorem followedBy_last_unmarked (hb : b.Parsed) : ∀ s ∈ (a.followedBy b).path.getLast?, s.marker = false := by
  intro s hs
  rw [followedBy, List.getLast?_append, List.getLast?_eq_some_getLast b.path_ne_nil, Option.some_or] at hs
  exact (parsed_iff.mp hb).last_unmarked s (List.getLast?_eq_some_getLast b.path_ne_nil ▸ hs)

/-- What two texts are read as together is the one path behind the other, up to the spelling of indices. -/
theorem concat_eq (ha : a.Parsed) (hb : b.Parsed) (h : a.concat b = .ok r) : r = (a.followedBy b).normal := by
  have hwa := parsed_iff.mp ha
  have hwb := parsed_iff.mp hb
  have hspellable : ∀ s ∈ (a.followedBy b).path, s.Spellable Bracketed :=
    List.forall_mem_append.mpr ⟨fun s hs => (hwa.lawful hs).spellable, fun s hs => (hwb.lawful hs).spellable⟩
  rw [concat, ← spec_followedBy ha] at h
  obtain ⟨hpath, hseq⟩ :=
    path_of_parse_spec (a.followedBy b).path_ne_nil (followedBy_last_unmarked hb) hspellable h
  obtain ⟨path, seq, hlt⟩ := r
  obtain rfl : path = _ := hpath
  obtain rfl : seq = 0 := hseq
  rfl

/-! ### What can be joined -/

theorem followedBy_normal_left (a b : Query) : (a.normal.followedBy b).normal = (a.followedBy b).normal := by
  simp only [normal, followedBy, Path.canonical_append, Path.canonical_canonical]

theorem followedBy_normal_right (a b : Query) : (a.followedBy b.normal).normal = (a.followedBy b).normal := by
  simp only [normal, followedBy, Path.canonical_append, Path.canonical_canonical]

theorem followedBy_assoc (a b c : Query) : (a.followedBy b).followedBy c = a.followedBy (b.followedBy c) := by
  simp only [followedBy, List.append_assoc]

/-- Two texts are read together exactly if the one path behind the other obeys the rules. -/
theorem concat_ok_iff (ha : a.Parsed) (hb : b.Parsed) :
    a.concat b = .ok r ↔ (a.followedBy b).normal.Parsed ∧ r = (a.followedBy b).normal := by
  constructor
  · intro h
    have hr := concat_eq ha hb h
    exact ⟨hr ▸ parsed_of_parse h, hr⟩
  · rintro ⟨hw, rfl⟩
    rw [concat, ← spec_followedBy ha, ← spec_normal, parse_spec (parsed_iff.mp hw)]
    exact congrArg Except.ok (normal_normal (a.followedBy b))

/-- The first two of three paths that can be read together can be read by themselves. -/
theorem followedBy_front (hb : b.Parsed) (h : ((a.followedBy b).followedBy c).normal.Parsed) :
    (a.followedBy b).normal.Parsed := by
  rw [parsed_iff] at h ⊢
  refine h.sublist ?_ (a.followedBy b).normal.path_ne_nil (Path.canonical_last_unmarked (followedBy_last_unmarked hb))
  exact (List.sublist_append_left _ _).map _

/-- And so can the last two. -/
theorem followedBy_behind (hc : c.Parsed) (h : (a.followedBy (b.followedBy c)).normal.Parsed) :
    (b.followedBy c).normal.Parsed := by
  rw [parsed_iff] at h ⊢
  refine h.sublist ?_ (b.followedBy c).normal.path_ne_nil (Path.canonical_last_unmarked (followedBy_last_unmarked hc))
  exact (List.sublist_append_right _ _).map _

theorem concat_left_iff (ha : a.Parsed) (hb : b.Parsed) (hc : c.Parsed) :
    (∃ ab, a.concat b = .ok ab ∧ ab.concat c = .ok r) ↔
      (a.followedBy (b.followedBy c)).normal.Parsed ∧ r = (a.followedBy (b.followedBy c)).normal := by
  constructor
  · rintro ⟨ab, hab, h⟩
    obtain ⟨hparsed, rfl⟩ := (concat_ok_iff ha hb).mp hab
    rwa [concat_ok_iff hparsed hc, followedBy_normal_left, followedBy_assoc] at h
  · intro h
    have hparsed := followedBy_front hb (followedBy_assoc a b c ▸ h.1)
    refine ⟨_, (concat_ok_iff ha hb).mpr ⟨hparsed, rfl⟩, ?_⟩
    rwa [concat_ok_iff hparsed hc, followedBy_normal_left, followedBy_assoc]

theorem concat_right_iff (ha : a.Parsed) (hb : b.Parsed) (hc : c.Parsed) :
    (∃ bc, b.concat c = .ok bc ∧ a.concat bc = .ok r) ↔
      (a.followedBy (b.followedBy c)).normal.Parsed ∧ r = (a.followedBy (b.followedBy c)).normal := by
  constructor
  · rintro ⟨bc, hbc, h⟩
    obtain ⟨hparsed, rfl⟩ := (concat_ok_iff hb hc).mp hbc
    rwa [concat_ok_iff ha hparsed, followedBy_normal_right] at h
  · intro h
    have hparsed := followedBy_behind hc h.1
    refine ⟨_, (concat_ok_iff hb hc).mpr ⟨hparsed, rfl⟩, ?_⟩
    rwa [concat_ok_iff ha hparsed, followedBy_normal_right]

/-! ### Nodes of a joined path -/

/-- `r` is `a` and behind it `b`, read anew. -/
structure Joined (a b r : Query) : Prop where
  root : r.seq = 0
  spec : r.spec = a.spec ++ "." ++ b.spec
  length : r.length = a.length + b.length
  front : ∀ (i : Nat) m n, (Path.nodes r.path)[i]? = some m → (Path.nodes a.path)[i]? = some n → m.Keeps id n
  behind : ∀ (i : Nat) m n, (Path.nodes r.path)[a.length + i]? = some m → (Path.nodes b.path)[i]? = some n →
    m.Keeps id n

theorem joined_of_concat (ha : a.Parsed) (hb : b.Parsed) (h : a.concat b = .ok r) : Joined a b r := by
  obtain ⟨-, rfl⟩ := (concat_ok_iff ha hb).mp h
  exact
    { root := rfl
      spec := (spec_normal _).trans (spec_followedBy ha)
      length := (Path.canonical_length _).trans List.length_append
      front := fun i m n hm hn => by
        refine Path.nodes_keeps ?_ hm hn
        have hlt : i < a.path.length := by
          have := (List.getElem?_eq_some_iff.mp hn).1
          simpa [Path.nodes] using this
        rw [followedBy, List.getElem?_append_left hlt, Segment.edit_id, Option.map_id, id]
      behind := fun i m n hm hn => by
        refine Path.nodes_keeps ?_ hm hn
        rw [followedBy, length, List.getElem?_append_right (Nat.le_add_right _ _), Nat.add_sub_cancel_left,
          Segment.edit_id, Option.map_id, id] }

/-! ### One field behind a path -/

/-- The query that is one field. -/
def ofName (name : String) : Query := ⟨[⟨{}, .field name, false⟩], 0, Nat.zero_lt_one⟩

theorem concatField_eq (hname : name ≠ "") (a : Query) : a.concatField name = a.concat (ofName name) := by
  rw [concatField, if_neg hname]
  rfl

theorem lawful_field {Inner : List Char → PlainPath → Prop} (hname : name ≠ "") :
    Segment.Lawful Inner ⟨{}, .field name, false⟩ :=
  ⟨hname, ⟨nofun, ⟨nofun, nofun⟩⟩, ⟨nofun, nofun, nofun⟩, nofun⟩

theorem ofName_parsed (hname : name ≠ "") : (ofName name).Parsed := by
  have hcontinues : Path.Continues Bracketed [] (ofName name).path :=
    ⟨List.forall_mem_singleton.mpr (lawful_field hname), by simp, List.pairwise_singleton _ _,
      by simp [ofName, maxLength]⟩
  exact parsed_iff.mpr (hcontinues.wellFormed (List.cons_ne_nil _ _) (by simp [ofName]))

/-- No rule but the one on the length of a path stands against a field behind it. -/
theorem followedBy_ofName_iff (ha : a.Parsed) (hname : name ≠ "") :
    (a.followedBy (ofName name)).normal.Parsed ↔ a.length < 254 := by
  have hpath : (a.followedBy (ofName name)).normal.path = Path.canonical a.path ++ (ofName name).path :=
    Path.canonical_append _ _
  have hw := (parsed_iff.mp ha).canonical
  have hlength : (Path.canonical a.path ++ (ofName name).path).length = a.length + 1 := by
    rw [List.length_append, Path.canonical_length]
    rfl
  rw [parsed_iff, hpath]
  constructor
  · intro h
    have hlt := h.length_lt
    rw [hlength] at hlt
    exact Nat.lt_of_succ_lt_succ hlt
  · intro h
    have hcontinues : Path.Continues Bracketed [] (Path.canonical a.path ++ (ofName name).path) :=
      ⟨List.forall_mem_append.mpr ⟨fun s hs => hw.lawful hs, List.forall_mem_singleton.mpr (lawful_field hname)⟩, nofun,
        List.pairwise_append.mpr ⟨hw.pairwise, List.pairwise_singleton _ _, fun s _ t ht =>
          List.mem_singleton.mp ht ▸ Segment.mayFollow_of_bare rfl rfl s⟩,
        by rw [hlength]; exact (Nat.zero_add _).symm ▸ Nat.succ_lt_succ h⟩
    exact hcontinues.wellFormed (by simp [ofName]) (by simp [ofName])

/-- A field can be put behind any path that is not as long as a path can be, if the field has a name. It is then the
    leaf. -/
theorem concatField_ok_iff (ha : a.Parsed) :
    a.concatField name = .ok r ↔ (name ≠ "" ∧ a.length < 254) ∧ r = (a.followedBy (ofName name)).normal := by
  by_cases hname : name = ""
  · rw [concatField, if_pos hname]
    exact iff_of_false nofun fun h => h.1.1 hname
  · rw [concatField_eq hname, concat_ok_iff ha (ofName_parsed hname), followedBy_ofName_iff ha hname,
      and_iff_right hname]

theorem segment_leaf_followedBy_ofName :
    (a.followedBy (ofName name)).normal.leaf.segment = ⟨{}, .field name, false⟩ := by
  refine segment_moveTo ?_
  have hpath : (a.followedBy (ofName name)).normal.path = Path.canonical a.path ++ (ofName name).path :=
    Path.canonical_append _ _
  have hone : (ofName name).path.length = 1 := rfl
  rw [hpath, List.length_append, hone, Nat.add_sub_cancel, List.getElem?_append_right (Nat.le_refl _), Nat.sub_self]
  rfl

/-- What two queries are joined to is the one behind the other, and of three queries it does not matter which two are
    joined first. A field is joined to any path that has room for it: its node is the leaf, with this name and without
    commands. -/
theorem concat_assoc (ha : a.Parsed) (hb : b.Parsed) (hc : c.Parsed) :
    (∀ ab, a.concat b = .ok ab → Joined a b ab) ∧
      (∀ r, (∃ ab, a.concat b = .ok ab ∧ ab.concat c = .ok r) ↔ ∃ bc, b.concat c = .ok bc ∧ a.concat bc = .ok r) ∧
      ∀ name : String, ((∃ r, a.concatField name = .ok r) ↔ name ≠ "" ∧ a.length < 254) ∧
        ∀ r, a.concatField name = .ok r → Joined a (ofName name) r ∧ r.leaf.segment = ⟨{}, .field name, false⟩ := by
  refine ⟨fun ab => joined_of_concat ha hb, fun r => ?_, fun name => ⟨⟨?_, fun h => ?_⟩, fun r h => ⟨?_, ?_⟩⟩⟩
  · rw [concat_left_iff ha hb hc, concat_right_iff ha hb hc]
  · rintro ⟨r, h⟩
    exact ((concatField_ok_iff ha).mp h).1
  · exact ⟨_, (concatField_ok_iff ha).mpr ⟨h, rfl⟩⟩
  · have hname := ((concatField_ok_iff ha).mp h).1.1
    exact joined_of_concat ha (ofName_parsed hname) (concatField_eq hname a ▸ h)
  · rw [((concatField_ok_iff ha).mp h).2, segment_leaf_followedBy_ofName]

/-- `$a` is joined to `01.[k]` as `$a.1` is to `[k]`. -/
theorem concat_assoc_index : ∃ bc,
    concat ⟨[⟨{}, .index ['0', '1'], false⟩], 0, by decide⟩
        ⟨[⟨{}, .bracket ['k'] [⟨{}, .field "k", false⟩], false⟩], 0, by decide⟩ = .ok bc ∧
      concat ⟨[⟨{ make := true }, .field "a", false⟩], 0, by decide⟩ bc =
        .ok ⟨[⟨{ make := true }, .field "a", false⟩, ⟨{}, .index ['1'], false⟩,
          ⟨{}, .bracket ['k'] [⟨{}, .field "k", false⟩], false⟩], 0, by decide⟩ := by
  have hfirst : parse "$a" = .ok ⟨[⟨{ make := true }, .field "a", false⟩], 0, by decide⟩ := rfl
  have hsecond : parse "01" = .ok ⟨[⟨{}, .index ['0', '1'], false⟩], 0, by decide⟩ := rfl
  have hthird : parse "[k]" = .ok ⟨[⟨{}, .bracket ['k'] [⟨{}, .field "k", false⟩], false⟩], 0, by decide⟩ := rfl
  obtain ⟨-, hgroup, -⟩ := concat_assoc (parsed_of_parse hfirst) (parsed_of_parse hsecond) (parsed_of_parse hthird)
  exact (hgroup _).mp ⟨⟨[⟨{ make := true }, .field "a", false⟩, ⟨{}, .index ['1'], false⟩], 0, by decide⟩, rfl, rfl⟩

end TreeQuery.Query
