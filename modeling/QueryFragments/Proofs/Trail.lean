import QueryFragments.Failure

/-!
# Reading a trail back

A trail shows names with arrows between them. Names may be any text, so an arrow in a trail
need not stand between two names; but where the names are plain, **splitting the trail at its
arrows gives the names back** (`split_trail`).

The separator is any text whose first character occurs in none of the pieces
(`split_intercalate`): then no separator can start inside a piece.
-/

namespace QueryFragments

open String.Slice String.Slice.Pattern.Model

section Split

variable {sep : String} {c : Char} {cs : List Char} [StrictPatternModel sep] {s : String.Slice}

/-- No separator starts inside a piece, so a piece is passed over as a whole. -/
theorem split_through_piece (hsep : sep.toList = c :: cs) {first stop : s.Pos} {t w u : String}
    (hw : c ∉ w.toList) (hfirst : first.Splits t (w ++ u)) (hstop : stop.Splits (t ++ w) u)
    (hle : first ≤ stop) :
    Pattern.Model.split sep first first (Std.le_refl first) =
      Pattern.Model.split sep first stop hle := by
  refine split_eq_of_not_matchesAt stop hle fun p hp hp' hmatch => hw ?_
  obtain ⟨t', u', hsplits⟩ := ForwardStringSearcher.matchesAt_iff_splits.1 hmatch
  -- `p` divides the piece into `x` and `y`, and `y` is not empty
  obtain ⟨x, rfl, -⟩ := (hfirst.le_iff_exists_eq_append hsplits).1 hp
  obtain ⟨y, hy, hxy, hyu⟩ := (hsplits.lt_iff_exists_eq_append hstop).1 hp'
  have hw' : w.toList = x.toList ++ y.toList := by
    have h := congrArg String.toList hxy
    simpa using h
  -- the separator starts where `y` does
  have hhead : c :: (cs ++ u'.toList) = y.toList ++ u.toList := by
    have h := congrArg String.toList hyu
    simpa [hsep] using h
  cases hyl : y.toList with
  | nil => exact absurd (String.toList_eq_nil_iff.1 hyl) hy
  | cons d ds =>
    rw [hyl, List.cons_append] at hhead
    rw [hw', hyl, (List.cons.inj hhead).1]
    exact List.mem_append_right _ List.mem_cons_self

/-- What stands between two positions is what one passes on the way. -/
theorem copy_subslice {first stop : s.Pos} {t w u : String} (hfirst : first.Splits t (w ++ u))
    (hstop : stop.Splits (t ++ w) u) (hle : first ≤ stop) :
    (s.subslice first stop hle).toSlice.copy = w := by
  obtain ⟨_, h⟩ := copy_slice_eq_iff_splits.2 ⟨t, u, hfirst, hstop⟩
  exact h

/-- A text that is put together from pieces is split into them, from any position on. -/
theorem split_pieces (hsep : sep.toList = c :: cs) (w : String) (ws : List String)
    (hws : ∀ v ∈ w :: ws, c ∉ v.toList) {first : s.Pos} {t : String}
    (hfirst : first.Splits t (sep.intercalate (w :: ws))) :
    (Pattern.Model.split sep first first (Std.le_refl first)).map
      (fun piece => piece.toSlice.copy) = w :: ws := by
  induction ws generalizing w first t with
  | nil =>
    -- the last piece goes to the end of the text
    rw [String.intercalate_singleton, ← String.append_empty (s := w)] at hfirst
    have hstop : s.endPos.Splits (t ++ w) "" := by
      have h := s.splits_endPos
      rwa [hfirst.eq_append, String.append_empty] at h
    have hle : first ≤ s.endPos := first.le_endPos
    rw [split_through_piece hsep (hws w List.mem_cons_self) hfirst hstop hle, split_endPos,
      List.map_cons, List.map_nil, copy_subslice hfirst hstop]
  | cons v vs ih =>
    rw [String.intercalate_cons_cons, String.append_assoc] at hfirst
    have heq : s.copy = t ++ w ++ (sep ++ sep.intercalate (v :: vs)) := by
      rw [hfirst.eq_append, String.append_assoc]
    -- the separator stands between `stop` and `next`
    obtain ⟨stop, hstop⟩ : ∃ stop : s.Pos, stop.Splits (t ++ w) (sep ++ sep.intercalate (v :: vs)) :=
      ⟨_, Pos.splits_ofEqAppend heq⟩
    obtain ⟨next, hnext⟩ : ∃ next : s.Pos, next.Splits (t ++ w ++ sep) (sep.intercalate (v :: vs)) :=
      ⟨_, Pos.splits_ofEqAppend (by rw [heq, ← String.append_assoc])⟩
    have hle : first ≤ stop := (hfirst.le_iff_exists_eq_append hstop).2 ⟨w, rfl, rfl⟩
    have hmatch : IsLongestMatchAt sep stop next :=
      ForwardStringSearcher.isLongestMatchAt_iff_splits.2 ⟨_, _, hstop, hnext⟩
    rw [split_through_piece hsep (hws w List.mem_cons_self) hfirst hstop hle,
      split_eq_of_isLongestMatchAt hmatch, List.map_cons, copy_subslice hfirst hstop,
      ih v (fun x hx => hws x (List.mem_cons_of_mem _ hx)) hnext]

end Split

/-- **Splitting undoes joining** where the separator cannot start inside a piece. -/
theorem split_intercalate {sep : String} {c : Char} {cs : List Char} (hsep : sep.toList = c :: cs)
    (w : String) (ws : List String) (hws : ∀ v ∈ w :: ws, c ∉ v.toList) :
    ((sep.intercalate (w :: ws)).split sep).toList.map copy = w :: ws := by
  have hne : sep ≠ "" := by
    rintro rfl
    cases hsep
  have := ForwardStringSearcher.strictPatternModel hne
  have := ForwardStringSearcher.lawfulToForwardSearcherModel hne
  rw [String.split_eq_split_toSlice, toList_split_eq_splitToSubslice,
    Pattern.toList_splitToSubslice_eq_modelSplit, List.map_map]
  refine split_pieces hsep w ws hws (t := "") ?_
  have h := (sep.intercalate (w :: ws)).toSlice.splits_startPos
  rwa [String.copy_toSlice] at h

/-- **A trail of plain names can be read back**: splitting it at the arrows gives the names. -/
theorem split_trail {path : List Name} {n : Name}
    (hnames : ∀ m ∈ path ++ [n], ∀ c ∈ m.toList, Name.isRest c = true) :
    ((trail path n).split " -> ").toList.map copy = path ++ [n] := by
  -- an arrow starts with a blank, which no name holds
  have hblank : ∀ m ∈ path ++ [n], ' ' ∉ m.toList := by
    intro m hm hc
    exact absurd (hnames m hm ' ' hc) (by decide)
  rw [trail]
  cases hp : path ++ [n] with
  | nil => simp at hp
  | cons w ws =>
    rw [hp] at hblank
    have harrow : " -> ".toList = ' ' :: ['-', '>', ' '] := by decide
    exact split_intercalate harrow w ws hblank

end QueryFragments
