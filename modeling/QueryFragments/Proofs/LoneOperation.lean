import Mathlib
import QueryFragments.Proofs.Bundles

/-!
# Documents of one operation

A document that is made for one operation defines no fragment, so the first spread that a
resolution meets is its end.

* `Selection.spreadAt?`: which name is spread at an **address**, the places to go to on the way
  down. Addresses in lexical order are spreads in document order.
* `Selection.isFirstSpread_head?`, `Selection.spreadsIn_eq_nil_iff`: the list of spreads starts
  with what is spread at the earliest address, and misses no spread at any depth.
* `Document.resolve_of_fragments_eq_nil`: without fragments a resolution ends at the first spread.
* `Document.bundle_ofOperation`: so a lone operation is its own bundle exactly if nothing is
  spread in it.
-/

namespace QueryFragments

/-! ## Addresses of spreads -/

namespace Selection

/-- The name that is spread at an address: at each place but the last, go down into the
selections of the field or of the fragment written in place. -/
def spreadAt? : List Selection → List Nat → Option Name
  | _, [] => none
  | selections, place :: below =>
    match selections[place]? with
    | none => none
    | some (.spread n) => if below = [] then some n else none
    | some s => spreadAt? s.selections below

/-- What is spread first: the name at the earliest address, or none if there is no spread at any
address. -/
def IsFirstSpread (selections : List Selection) : Option Name → Prop
  | none => ∀ address, spreadAt? selections address = none
  | some n => ∃ first, spreadAt? selections first = some n ∧
      ∀ other m, spreadAt? selections other = some m →
        other = first ∨ List.Lex (· < ·) first other

section Equations

variable (rest : List Selection) (below : List Nat)

@[simp] theorem spreadAt?_nil (address : List Nat) : spreadAt? [] address = none := by
  cases address <;> rfl

@[simp] theorem spreadAt?_spread (n : Name) :
    spreadAt? (.spread n :: rest) (0 :: below) = if below = [] then some n else none := rfl

@[simp] theorem spreadAt?_field (alias? : Option Name) (name : Name) (nested : List Selection) :
    spreadAt? (.field alias? name nested :: rest) (0 :: below) = spreadAt? nested below := rfl

@[simp] theorem spreadAt?_inlineFragment (typeCondition? : Option Name)
    (nested : List Selection) :
    spreadAt? (.inlineFragment typeCondition? nested :: rest) (0 :: below) =
      spreadAt? nested below := rfl

/-- What stands after the first selection has the same addresses without it, one place less. -/
@[simp] theorem spreadAt?_succ (s : Selection) (place : Nat) :
    spreadAt? (s :: rest) ((place + 1) :: below) = spreadAt? rest (place :: below) := rfl

end Equations

/-- A spread that comes first is the first one. -/
theorem isFirstSpread_spread (n : Name) (rest : List Selection) :
    IsFirstSpread (.spread n :: rest) (some n) := by
  refine ⟨[0], rfl, fun other m hm => ?_⟩
  rcases other with _ | ⟨_ | place, below⟩
  · cases hm
  · -- nothing stands below a spread
    cases below with
    | nil => exact .inl rfl
    | cons i below =>
      rw [spreadAt?_spread, if_neg (List.cons_ne_nil i below)] at hm
      cases hm
  · exact .inr (.rel (Nat.succ_pos place))

/-- What is spread first in nested selections comes before what is spread after them. -/
theorem IsFirstSpread.cons {s : Selection} {nested rest : List Selection} {x y : Option Name}
    (hs : ∀ below, spreadAt? (s :: rest) (0 :: below) = spreadAt? nested below)
    (hx : IsFirstSpread nested x) (hy : IsFirstSpread rest y) :
    IsFirstSpread (s :: rest) (x.or y) := by
  cases x with
  | some n =>
    obtain ⟨first, hfirst, hleast⟩ := hx
    refine ⟨0 :: first, (hs first).trans hfirst, fun other m hm => ?_⟩
    rcases other with _ | ⟨_ | place, below⟩
    · cases hm
    · rw [hs] at hm
      rcases hleast below m hm with rfl | hlex
      · exact .inl rfl
      · exact .inr (.cons hlex)
    · exact .inr (.rel (Nat.succ_pos place))
  | none =>
    cases y with
    | none =>
      intro address
      rcases address with _ | ⟨_ | place, below⟩
      · rfl
      · rw [hs, hx below]
      · rw [spreadAt?_succ, hy (place :: below)]
    | some n =>
      obtain ⟨first, hfirst, hleast⟩ := hy
      cases first with
      | nil => cases hfirst
      | cons i steps =>
        refine ⟨(i + 1) :: steps, hfirst, fun other m hm => ?_⟩
        rcases other with _ | ⟨_ | place, below⟩
        · cases hm
        · rw [hs, hx below] at hm
          cases hm
        · -- both stand after the first selection, so both places are one more
          rcases hleast (place :: below) m hm with heq | hlex
          · obtain ⟨rfl, rfl⟩ := List.cons.inj heq
            exact .inl rfl
          · refine .inr ?_
            cases hlex with
            | rel h => exact .rel (Nat.succ_lt_succ h)
            | cons h => exact .cons h

/-- **Document order**: the first name of the list of spreads is what is spread first, at
whatever depth; and the list is empty only if there is no spread at any depth. -/
theorem isFirstSpread_head? : (selections : List Selection) →
    IsFirstSpread selections (spreadsIn selections).head?
  | [] => fun address => spreadAt?_nil address
  | .spread n :: rest => by
    rw [spreadsIn_cons, spreads_spread]
    exact isFirstSpread_spread n rest
  | .field _ _ nested :: rest => by
    rw [spreadsIn_cons, spreads_field, List.head?_append]
    exact (isFirstSpread_head? nested).cons (fun below => spreadAt?_field rest below ..)
      (isFirstSpread_head? rest)
  | .inlineFragment _ nested :: rest => by
    rw [spreadsIn_cons, spreads_inlineFragment, List.head?_append]
    exact (isFirstSpread_head? nested).cons (fun below => spreadAt?_inlineFragment rest below ..)
      (isFirstSpread_head? rest)

/-- There is no spread at any address exactly if none is listed. -/
theorem spreadsIn_eq_nil_iff {selections : List Selection} :
    spreadsIn selections = [] ↔ ∀ address, spreadAt? selections address = none := by
  have hfirst := isFirstSpread_head? selections
  cases h : spreadsIn selections with
  | nil =>
    rw [h] at hfirst
    exact ⟨fun _ => hfirst, fun _ => rfl⟩
  | cons n rest =>
    rw [h] at hfirst
    obtain ⟨first, hn, -⟩ := hfirst
    refine ⟨nofun, fun hnone => ?_⟩
    rw [hnone first] at hn
    cases hn

end Selection

/-! ## Resolution without fragments -/

namespace Document

variable {d : Document}

/-- Without fragments a resolution ends at the first spread, and nothing is opened. -/
theorem resolve_of_fragments_eq_nil (h : d.fragments = []) (selections : List Selection) :
    d.resolve selections =
      match Selection.spreadsIn selections with
      | [] => pure ∅
      | n :: _ => .abort (.undefined n) (.undefinedFragment n) := by
  rw [resolve, (isWalk_collect d.table []).eq_foldlM]
  cases Selection.spreadsIn selections with
  | nil => rfl
  | cons n rest =>
    have hn : d.table.get? n = none := by
      rw [get?_table, lastFragment?_eq_none_iff, h]
      exact fun f hf => absurd hf List.not_mem_nil
    rw [List.foldlM_cons, visit_of_get?_eq_none List.not_mem_nil (NameSet.not_mem_empty n) hn]
    rfl

/-! ## Lone operations -/

theorem operations_ofOperation (o : Operation) : (ofOperation o).operations = [o] := by
  rw [operations_eq_filterMap]
  rfl

theorem operation_ofOperation (o : Operation) : (ofOperation o).operation none = .ok o := by
  rw [operation, loneOperation, ← operations_eq_filterMap, operations_ofOperation]

/-- A lone operation that spreads nothing is its own bundle. -/
theorem bundle_ofOperation_of_spreads_eq_nil {o : Operation} (h : o.spreads = []) :
    (ofOperation o).bundle none = ⟨[.bundled 0], .ok (ofOperation o)⟩ := by
  have hdeps : (ofOperation o).resolve o.selections = pure ∅ := by
    rw [resolve_of_fragments_eq_nil rfl, show Selection.spreadsIn o.selections = [] from h]
  rw [bundle_of_ok (operation_ofOperation o), bundleFor, Operation.dependencies_eq, hdeps]
  rfl

/-- Any other fails at its first spread, and reports nothing but that. -/
theorem bundle_ofOperation_of_spreads_eq_cons {o : Operation} {n : Name} {rest : List Name}
    (h : o.spreads = n :: rest) :
    (ofOperation o).bundle none = .abort (.undefined n) (.undefinedFragment n) := by
  have hdeps : (ofOperation o).resolve o.selections =
      .abort (.undefined n) (.undefinedFragment n) := by
    rw [resolve_of_fragments_eq_nil rfl, show Selection.spreadsIn o.selections = n :: rest from h]
  rw [bundle_of_ok (operation_ofOperation o), bundleFor, Operation.dependencies_eq, hdeps]
  rfl

/-- **Lone operations.** The document of an operation has that operation and no other. It is its
own bundle exactly if nothing is spread in the operation, at any depth. Otherwise there is no
bundle: the failure names what is spread first in document order, and the line that tells so is
the only one in the log. -/
theorem bundle_ofOperation (o : Operation) :
    (ofOperation o).operations = [o] ∧ (ofOperation o).operation none = .ok o ∧
    (((ofOperation o).bundle none).result = .ok (ofOperation o) ↔
      ∀ address, Selection.spreadAt? o.selections address = none) ∧
    ((∃ address n, Selection.spreadAt? o.selections address = some n) →
      ∃ n e, Selection.IsFirstSpread o.selections (some n) ∧
        ((ofOperation o).bundle none).result = .error e ∧
        e.diagnostic = ⟨"Unknown fragment \"" ++ n ++ "\"", none, .missingFragment⟩ ∧
        ((ofOperation o).bundle none).lines =
          [(.debug, "Fragment spread \"" ++ n ++ "\" has no definition")]) := by
  refine ⟨operations_ofOperation o, operation_ofOperation o, ?_, ?_⟩
  · rw [← Selection.spreadsIn_eq_nil_iff]
    cases h : Selection.spreadsIn o.selections with
    | nil =>
      rw [bundle_ofOperation_of_spreads_eq_nil h]
      exact ⟨fun _ => rfl, fun _ => rfl⟩
    | cons n rest =>
      rw [bundle_ofOperation_of_spreads_eq_cons h]
      exact ⟨nofun, nofun⟩
  · rintro ⟨address, m, hm⟩
    have hfirst := Selection.isFirstSpread_head? o.selections
    cases h : Selection.spreadsIn o.selections with
    | nil =>
      rw [Selection.spreadsIn_eq_nil_iff.1 h address] at hm
      cases hm
    | cons n rest =>
      rw [h] at hfirst
      rw [bundle_ofOperation_of_spreads_eq_cons h]
      exact ⟨n, .undefinedFragment n, hfirst, rfl, rfl, rfl⟩

/-- `Deep` is spread three levels down, `Top` at the top and after it. -/
def nestedSpreads : Operation := ⟨.subscription, some "Q", [
  .field none "a" [.field none "id" [], .inlineFragment (some "T") [.spread "Deep"]],
  .spread "Top"]⟩

theorem bundle_ofOperation_nestedSpreads :
    Selection.spreadAt? nestedSpreads.selections [1] = some "Top" ∧
      Selection.spreadAt? nestedSpreads.selections [0, 1, 0] = some "Deep" ∧
      ((ofOperation nestedSpreads).bundle none).result = .error (.undefinedFragment "Deep") ∧
      ∃ n e, Selection.IsFirstSpread nestedSpreads.selections (some n) ∧
        ((ofOperation nestedSpreads).bundle none).result = .error e ∧
        e.diagnostic = ⟨"Unknown fragment \"" ++ n ++ "\"", none, .missingFragment⟩ ∧
        ((ofOperation nestedSpreads).bundle none).lines =
          [(.debug, "Fragment spread \"" ++ n ++ "\" has no definition")] := by
  have htop : Selection.spreadAt? nestedSpreads.selections [1] = some "Top" := by decide
  exact ⟨htop, by decide, by cbv, (bundle_ofOperation nestedSpreads).2.2.2 ⟨[1], "Top", htop⟩⟩

end Document

end QueryFragments
