import Mathlib
import QueryFragments.Proofs.LastDefinition
import QueryFragments.Proofs.Outcome
import QueryFragments.Proofs.Problems

/-!
# A resolution depends on reachable spreads only

Two runs are compared here, on two documents that may have little in common. All that a
resolution sees of a selection set are the names that it spreads, in document order; all that
it sees of a document are the names that the reachable fragments spread.

* `AgreeBelow look look' start`: two look-ups cannot be told apart from the names in `start`,
* `visit_congr`, `collect_congr`: then a spread, and a selection set, are dealt with alike,
* `Document.resolve?_local`: so two resolutions give the same result **and report the same
  events**, whatever else their documents hold.
-/

namespace QueryFragments

/-! ## Agreement -/

/-- Every name that is reached from `start` is defined by both look-ups or by neither, and
where it is defined it spreads the same names in the same order. -/
def AgreeBelow (look look' : Name → Option Fragment) (start : List Name) : Prop :=
  ∀ n, Reaches look start n → (look n).map Fragment.spreads = (look' n).map Fragment.spreads

namespace AgreeBelow

variable {look look' : Name → Option Fragment} {start : List Name} {n : Name} {f : Fragment}

theorem of_mem (h : AgreeBelow look look' start) (hn : n ∈ start) : AgreeBelow look look' [n] :=
  fun _ hm => h _ (Reaches.iff_exists_mem.2 ⟨n, hn, hm⟩)

/-- Inside a fragment there is agreement where there is at its name. -/
theorem of_open (h : AgreeBelow look look' [n]) (hf : look n = some f) :
    AgreeBelow look look' f.spreads :=
  fun _ hm => h _ ((Reaches.singleton_iff hf).2 (.inr hm))

theorem eq_none (h : AgreeBelow look look' [n]) (hf : look n = none) : look' n = none := by
  have hn := h n (.here List.mem_cons_self)
  rw [hf, Option.map_none] at hn
  exact Option.map_eq_none_iff.1 hn.symm

theorem exists_eq_some (h : AgreeBelow look look' [n]) (hf : look n = some f) :
    ∃ g, look' n = some g ∧ g.spreads = f.spreads := by
  have hn := h n (.here List.mem_cons_self)
  rw [hf, Option.map_some] at hn
  exact Option.map_eq_some_iff.1 hn.symm

end AgreeBelow

/-! ## Equal runs -/

/-- Steps that deal alike with every name of a list deal alike with the list. -/
theorem foldlM_congr {α : Type} {step step' : α → Name → Run α} {ns : List Name}
    (h : ∀ n ∈ ns, ∀ a, step a n = step' a n) (a : α) : ns.foldlM step a = ns.foldlM step' a := by
  induction ns generalizing a with
  | nil => rfl
  | cons n ns ih =>
    rw [List.foldlM_cons, List.foldlM_cons, h n List.mem_cons_self]
    congr 1
    funext b
    exact ih (fun m hm => h m (List.mem_cons_of_mem n hm)) b

section Congruence

variable {t t' : FragmentTable}

/-- Selection sets that spread the same names are walked alike if these names are dealt with
alike below the path. -/
theorem collect_congr_of_visit {path : List Name} {selections selections' : List Selection}
    (hspreads : Selection.spreadsIn selections = Selection.spreadsIn selections')
    (hvisit : ∀ n ∈ Selection.spreadsIn selections, ∀ p, visit t path p n = visit t' path p n)
    (p : Progress) : collect t path p selections = collect t' path p selections' := by
  rw [(isWalk_collect t path).eq_foldlM, (isWalk_collect t' path).eq_foldlM, ← hspreads]
  exact foldlM_congr hvisit p

/-- **Step**: tables that agree below a name deal alike with a spread of it, under whatever
path and after whatever was done before. -/
theorem visit_congr {n : Name} (h : AgreeBelow t.get? t'.get? [n]) (path : List Name)
    (p : Progress) : visit t path p n = visit t' path p n := by
  induction path using t.open_induction generalizing p n with
  | opened path ih =>
    by_cases hn : n ∈ path
    · rw [visit_of_mem_path hn, visit_of_mem_path hn]
    by_cases he : n ∈ p.expanded
    · rw [visit_of_mem_expanded hn he, visit_of_mem_expanded hn he]
    cases hf : t.get? n with
    | none => rw [visit_of_get?_eq_none hn he hf, visit_of_get?_eq_none hn he (h.eq_none hf)]
    | some f =>
      -- the two fragments may look different, but they spread the same names
      obtain ⟨g, hg, hspreads⟩ := h.exists_eq_some hf
      have hbelow := collect_congr_of_visit hspreads.symm
        (fun m hm q => ih n f hn hf ((h.of_open hf).of_mem hm) q) (p.record n)
      rw [visit_of_get?_eq_some hn he hf, visit_of_get?_eq_some hn he hg, hbelow]

/-- **Run**: selection sets that spread the same names, in tables that agree below these, are
walked alike. -/
theorem collect_congr {selections selections' : List Selection}
    (hspreads : Selection.spreadsIn selections = Selection.spreadsIn selections')
    (h : AgreeBelow t.get? t'.get? (Selection.spreadsIn selections)) (path : List Name)
    (p : Progress) : collect t path p selections = collect t' path p selections' :=
  collect_congr_of_visit hspreads (fun _ hn q => visit_congr (h.of_mem hn) path q) p

end Congruence

/-! ## Two documents -/

namespace Document

/-- **Locality**: if two selection sets spread the same names in the same order, and every name
that the first one reaches is undefined in both documents or has last definitions that spread
the same names in the same order, then the two resolutions have the same result, a set of names
or a failure, and report the same events in the same order. -/
theorem resolve?_local {d d' : Document} {selections selections' : List Selection}
    (hspreads : Selection.spreadsIn selections = Selection.spreadsIn selections')
    (hagree : ∀ n, Reaches d.lastFragment? (Selection.spreadsIn selections) n →
      (d.lastFragment? n).map Fragment.spreads = (d'.lastFragment? n).map Fragment.spreads) :
    d.resolve? (some selections) = d'.resolve? (some selections') := by
  rw [← get?_table, ← get?_table] at hagree
  have hwalk := collect_congr hspreads hagree [] .start
  rw [resolve?_some, resolve?_some, resolve, resolve, hwalk]

/-- Two fragments, one spread in each, and no definition for the last name. -/
def bare : Document := ⟨[
  .fragment ⟨"A", "T", [.spread "B"]⟩,
  .fragment ⟨"B", "T", [.spread "Missing"]⟩]⟩

/-- The last definitions of `A` and `B` spread what they spread in `bare`. All else is
different: types, fields and nesting, the order of the definitions, an operation, a fragment
that is not reached and spreads itself, and an earlier `A` that does. -/
def ornate : Document := ⟨[
  .fragment ⟨"B", "User", [.field (some "x") "y" [.inlineFragment (some "T") [.spread "Missing"]]]⟩,
  .fragment ⟨"A", "T", [.spread "A"]⟩,
  .operation ⟨.query, some "A", [.spread "Unused"]⟩,
  .fragment ⟨"Unused", "T", [.spread "Unused"]⟩,
  .fragment ⟨"A", "User", [.field none "id" [], .inlineFragment none [.spread "B"]]⟩]⟩

theorem resolve?_local_ornate :
    bare.resolve? (some [.spread "A"]) =
        ornate.resolve? (some [.field none "user" [.field none "id" [], .spread "A"]]) ∧
      (bare.resolve? (some [.spread "A"])).log =
        [.expanding "A", .expanding "B", .undefined "Missing"] ∧
      (bare.resolve? (some [.spread "A"])).result = .error (.undefinedFragment "Missing") := by
  refine ⟨resolve?_local (by simp) fun n hn => ?_, by cbv, by cbv⟩
  -- three names are reached
  have hmem : n = "A" ∨ n = "B" ∨ n = "Missing" := by
    refine hn.subset_of_closed (p := fun n => n = "A" ∨ n = "B" ∨ n = "Missing") (by simp) ?_
    rintro n f (rfl | rfl | rfl) hf m hm
    · obtain rfl : _ = f := Option.some.inj hf
      simp_all [Fragment.spreads]
    · obtain rfl : _ = f := Option.some.inj hf
      simp_all [Fragment.spreads]
    · cases hf
  rcases hmem with rfl | rfl | rfl <;> decide

end Document

end QueryFragments
