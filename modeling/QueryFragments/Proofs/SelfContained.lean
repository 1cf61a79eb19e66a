import Mathlib
import QueryFragments.Proofs.Bundles
import QueryFragments.Proofs.Locality

/-!
# A bundle can be resolved from itself

Whoever receives a bundle has nothing but the bundle. Resolution there follows the same
fragments as in the whole document, since the table of the bundle agrees with that of the
document on every name that is reached (`Document.resolve_bundleWith`).

* `Document.bundleFor_self_contained`: the operation and the fragments in a bundle need the same
  names as in the document, and a bundle is its own bundle,
* `Document.spreads_bundleFor`: what is spread in a bundle is defined in it, except where a
  definition is **shadowed** by a later one of the same name. A shadowed definition is sent along
  with the one that counts, and what it spreads need not be.
-/

namespace QueryFragments

/-! ## Shadowed definitions -/

/-- One of the later definitions is of a fragment with the same name. -/
def Definition.ShadowedBy (later : List Definition) : Definition → Prop
  | .operation _ => False
  | .fragment f => ∃ g, .fragment g ∈ later ∧ g.name = f.name

namespace Document

variable {d b : Document} {o : Operation} {names : NameSet} {n m : Name} {f : Fragment}

/-- A fragment that is not shadowed is the one that counts. -/
theorem lastFragment?_of_not_shadowedBy {earlier later : List Definition}
    (hd : d.definitions = earlier ++ .fragment f :: later)
    (hf : ¬ (Definition.fragment f).ShadowedBy later) : d.lastFragment? f.name = some f := by
  have hlater : (later.filterMap Definition.fragment?).filter (·.name = f.name) = [] := by
    refine List.filter_eq_nil_iff.2 fun g hg hname => hf ⟨g, ?_, of_decide_eq_true hname⟩
    obtain ⟨x, hx, hxg⟩ := List.mem_filterMap.1 hg
    exact Definition.fragment?_eq_some_iff.1 hxg ▸ hx
  rw [lastFragment?_eq_getLast?, fragments, hd, List.filterMap_append,
    List.filterMap_cons_some (Definition.fragment?_fragment f), List.filter_append,
    List.filter_cons, hlater, if_pos (decide_eq_true rfl), List.getLast?_concat]

/-! ## Resolution in a bundle -/

/-- A selection set that reaches kept names only is resolved in the bundle as in the document. -/
theorem resolve_bundleWith {selections : List Selection}
    (h : ∀ n, Reaches d.lastFragment? (Selection.spreadsIn selections) n → n ∈ names) :
    (d.bundleWith o names).resolve selections = d.resolve selections := by
  have hagree : AgreeBelow d.table.get? (d.bundleWith o names).table.get?
      (Selection.spreadsIn selections) := by
    intro n hn
    rw [get?_table] at hn
    rw [get?_table, get?_table, lastFragment?_bundleWith, if_pos (h n hn)]
  rw [resolve, resolve, collect_congr rfl hagree]

/-- The operation needs the same names in the bundle. -/
theorem dependencies_bundleWith (h : (o.dependencies d).result = .ok names) :
    o.dependencies (d.bundleWith o names) = o.dependencies d := by
  rw [Operation.dependencies_eq, Operation.dependencies_eq]
  apply resolve_bundleWith
  intro n hn
  exact (Operation.mem_dependencies_iff h).2 hn

/-- So does every fragment that counts, and its names are found. -/
theorem fragment_dependencies_bundleWith (h : (o.dependencies d).result = .ok names)
    (hn : n ∈ names) (hf : d.lastFragment? n = some f) :
    f.dependencies (d.bundleWith o names) = f.dependencies d ∧
      ∃ found, (f.dependencies d).result = .ok found := by
  rw [Fragment.dependencies_eq, Fragment.dependencies_eq]
  refine ⟨resolve_bundleWith fun m hm => ?_, exists_resolve_ok_iff.2 fun m hm => ?_⟩
  · refine (Operation.mem_dependencies_iff h).2 (hm.trans fun k hk => ?_)
    exact ((Operation.mem_dependencies_iff h).1 hn).through hf hk
  · exact (Operation.grounded_of_mem_dependencies h hn).spreads hf hm

/-- A bundle is its own bundle. -/
theorem bundleFor_bundleWith (h : (o.dependencies d).result = .ok names) :
    ((d.bundleWith o names).bundleFor o).result = .ok (d.bundleWith o names) := by
  rw [← dependencies_bundleWith h] at h
  rw [bundleFor_of_ok h, bundleWith_bundleWith]

theorem operation_bundleWith_none : (d.bundleWith o names).operation none = .ok o := by
  rw [operation, loneOperation, ← operations_eq_filterMap, operations_bundleWith]

theorem operation_bundleWith_some (hm : o.name? = some m) :
    (d.bundleWith o names).operation (some m) = .ok o := by
  simp [operation, operationNamed, bundleWith, Definition.operationNamed?, hm]

/-- **A bundle is self-contained.** Its table is that of the document, restricted to the names
that the operation needs. In the bundle the operation needs the same names, and so does every
fragment of the table. The operation is the lone one of the bundle, and to bundle it again, as
it is or selected by name or as the lone one, changes nothing. -/
theorem bundleFor_self_contained (h : (d.bundleFor o).result = .ok b) :
    ∃ names, (o.dependencies d).result = .ok names ∧
      (∀ n, b.table.get? n = if n ∈ names then d.table.get? n else none) ∧
      (o.dependencies b).result = .ok names ∧
      (∀ n ∈ names, ∃ f found, d.table.get? n = some f ∧
        (f.dependencies d).result = .ok found ∧ (f.dependencies b).result = .ok found) ∧
      b.operation none = .ok o ∧
      (b.bundleFor o).result = .ok b ∧ (b.bundle none).result = .ok b ∧
      ∀ m, o.name? = some m → (b.bundle (some m)).result = .ok b := by
  obtain ⟨names, hnames, rfl⟩ := bundleFor_ok_iff.1 h
  refine ⟨names, hnames, fun n => ?_, ?_, fun n hn => ?_, operation_bundleWith_none,
    bundleFor_bundleWith hnames, ?_, fun m hm => ?_⟩
  · rw [get?_table, get?_table, lastFragment?_bundleWith]
  · rw [dependencies_bundleWith hnames, hnames]
  · obtain ⟨f, hf⟩ := (Operation.grounded_of_mem_dependencies hnames hn).isSome
    obtain ⟨heq, found, hfound⟩ := fragment_dependencies_bundleWith hnames hn hf
    refine ⟨f, found, ?_, hfound, ?_⟩
    · rw [get?_table, hf]
    · rw [heq, hfound]
  · rw [bundle_of_ok operation_bundleWith_none]
    exact bundleFor_bundleWith hnames
  · rw [bundle_of_ok (operation_bundleWith_some hm)]
    exact bundleFor_bundleWith hnames

theorem bundleFor_self_contained_revised :
    ∃ names, (revised.bundleFor foreignOperation).result = .ok revisedBundle ∧
      names.toList = ["A", "B"] ∧
      (foreignOperation.dependencies revisedBundle).result = .ok names ∧
      revisedBundle.table.get? "A" = revised.table.get? "A" ∧
      revisedBundle.table.get? "Old" = none ∧
      revisedBundle.operation none = .ok foreignOperation ∧
      (revisedBundle.bundle (some "Q")).result = .ok revisedBundle := by
  have h : (revised.bundleFor foreignOperation).result = .ok revisedBundle := by cbv
  have hdeps : (foreignOperation.dependencies revised).result =
      .ok ((∅ : NameSet).insertAll ["A", "B"]) := by cbv
  obtain ⟨names, hnames, htable, hdeps', -, hlone, -, -, hnamed⟩ := bundleFor_self_contained h
  obtain rfl : (∅ : NameSet).insertAll ["A", "B"] = names :=
    Except.ok.inj (hdeps.symm.trans hnames)
  refine ⟨_, h, by cbv, hdeps', ?_, ?_, hlone, hnamed "Q" rfl⟩
  · rw [htable]
    exact if_pos (by simp)
  · rw [htable]
    exact if_neg (by simp)

/-! ## Spreads in a bundle -/

/-- **No spread dangles where it counts.** Whatever the operation spreads, or a fragment of the
bundle that no later one shadows, is defined in the bundle. The names defined in the bundle are
those that the operation reaches in the document, so a spread in a shadowed definition is defined
exactly if its name is one of these. The operation can be resolved in the bundle. -/
theorem spreads_bundleFor (h : (d.bundleFor o).result = .ok b) :
    (∀ earlier x later, b.definitions = earlier ++ x :: later → ¬ x.ShadowedBy later →
      ∀ n ∈ x.spreads, ∃ f ∈ b.fragments, f.name = n) ∧
    (∀ n, (∃ f ∈ b.fragments, f.name = n) ↔ Reaches d.lastFragment? o.spreads n) ∧
    ∃ names, (o.dependencies b).result = .ok names := by
  obtain ⟨names, hnames, rfl⟩ := bundleFor_ok_iff.1 h
  refine ⟨fun earlier x later hb hx n hn => ?_, fun n => exists_mem_fragments_bundleWith_iff hnames,
    names, ?_⟩
  · rw [exists_mem_fragments_bundleWith_iff hnames]
    cases x with
    | operation o' =>
      -- there is one operation in the bundle
      have ho' : o' ∈ (d.bundleWith o names).operations := by
        rw [operations, hb]
        exact List.mem_filterMap.2 ⟨.operation o', by simp, rfl⟩
      rw [operations_bundleWith, List.mem_singleton] at ho'
      exact .here (ho' ▸ hn)
    | fragment f =>
      have hlast := lastFragment?_of_not_shadowedBy hb hx
      rw [lastFragment?_bundleWith] at hlast
      split at hlast
      next hf => exact ((Operation.mem_dependencies_iff hnames).1 hf).through hlast hn
      next => cases hlast
  · rw [dependencies_bundleWith hnames, hnames]

theorem spreads_bundleFor_revised :
    (revised.bundleFor foreignOperation).result = .ok revisedBundle ∧
      ∃ f ∈ revisedBundle.fragments, f.name = "B" := by
  have h : (revised.bundleFor foreignOperation).result = .ok revisedBundle := by cbv
  refine ⟨h, ?_⟩
  -- the later definition of `A` is followed by that of `B` only
  refine (spreads_bundleFor h).1 [_, _] (.fragment ⟨"A", "T", [.field none "a" [.spread "B"]]⟩) [_]
    rfl ?_ "B" (by simp [Definition.spreads, Definition.selections])
  rintro ⟨g, hg, hname⟩
  obtain rfl : g = ⟨"B", "T", [.field none "id" []]⟩ := by simpa using hg
  exact absurd hname (by decide)

/-- **A shadowed definition may dangle**: the earlier `A` is sent along and spreads `Old`, which
the document defines and the bundle does not. -/
theorem spreads_bundleFor_shadowed :
    (revised.bundleFor foreignOperation).result = .ok revisedBundle ∧
      ¬ ∀ x ∈ revisedBundle.definitions, ∀ n ∈ x.spreads,
        ∃ f ∈ revisedBundle.fragments, f.name = n := by
  refine ⟨by cbv, fun hall => ?_⟩
  have hold := hall (.fragment ⟨"A", "T", [.spread "Old"]⟩) (by simp [revisedBundle]) "Old"
    (by simp [Definition.spreads, Definition.selections])
  exact absurd hold (by decide)

end Document

end QueryFragments
