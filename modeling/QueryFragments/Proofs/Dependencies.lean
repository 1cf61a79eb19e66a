import Mathlib
import QueryFragments.Proofs.LastDefinition
import QueryFragments.Proofs.Outcome
import QueryFragments.Proofs.Problems

/-!
# What a resolution finds

A resolution that skips the fragments it has expanded before finds what it is meant to find.

* `Progress.Consistent` is the **invariant** of a run: expanded fragments are grounded, closed
  under spreads and apart from the path, and the names recorded are those expanded or open.
* `visit_outcome`: a spread ends with the first problem of a full expansion, or it ends well
  and the fragments that the name reaches are added to the expanded ones. Below a path this is
  an induction over paths; along a selection set it is `Outcome.foldlM`.
* `Document.mem_resolve?_iff`: the names found are the reachable ones.
* `Document.resolve?_ok_iff`: names are found exactly if every reachable name is defined and
  not recursive.
-/

namespace QueryFragments

/-! ## The invariant -/

namespace Progress

/-- What holds of the progress of a run whenever the fragments on the path are open. -/
structure Consistent (t : FragmentTable) (path : List Name) (p : Progress) : Prop where
  /-- an expanded fragment was expanded to the end -/
  grounded : ∀ n ∈ p.expanded, Grounded t.get? n
  /-- what an expanded fragment spreads is expanded -/
  closed : ∀ n f, n ∈ p.expanded → t.get? n = some f → ∀ m ∈ f.spreads, m ∈ p.expanded
  /-- an open fragment is not expanded yet -/
  apart : ∀ n ∈ path, n ∉ p.expanded
  /-- a name was met exactly if it is expanded or open -/
  recorded_iff : ∀ n, n ∈ p.recorded ↔ n ∈ p.expanded ∨ n ∈ path

/-- Dealing with the names `ns` led from `p` to `p'`: what they reach is now expanded. -/
structure Advanced (t : FragmentTable) (path : List Name) (p : Progress) (ns : List Name)
    (p' : Progress) : Prop where
  /-- the invariant still holds -/
  consistent : p'.Consistent t path
  /-- nothing is lost, and what was reached is added -/
  expanded_iff : ∀ m, m ∈ p'.expanded ↔ m ∈ p.expanded ∨ Reaches t.get? ns m

variable {t : FragmentTable} {path ns ms : List Name} {p p' p'' : Progress} {n m : Name}
  {f : Fragment}

theorem mem_record {k : Name} : k ∈ (p.record n).recorded ↔ k = n ∨ k ∈ p.recorded :=
  NameSet.mem_insert

theorem mem_finish {k : Name} : k ∈ (p.finish n).expanded ↔ k = n ∨ k ∈ p.expanded :=
  NameSet.mem_insert

theorem Consistent.start (t : FragmentTable) : Progress.start.Consistent t [] where
  grounded n hn := absurd hn (NameSet.not_mem_empty n)
  closed n f hn := absurd hn (NameSet.not_mem_empty n)
  apart n hn := absurd hn List.not_mem_nil
  recorded_iff n := by simp [Progress.start]

namespace Consistent

/-- Whatever an expanded fragment reaches is expanded. -/
theorem mem_of_reaches (hp : p.Consistent t path) (hn : n ∈ p.expanded)
    (hm : Reaches t.get? [n] m) : m ∈ p.expanded :=
  hm.subset_of_closed (fun _ hk => List.mem_singleton.1 hk ▸ hn) hp.closed

/-- **Skipping is safe**: below an expanded fragment there is no problem, under whatever path
it is met again. -/
theorem problems_eq_nil (hp : p.Consistent t path) (hn : n ∈ p.expanded) :
    t.problems path n = [] :=
  FragmentTable.problems_eq_nil_of_grounded (hp.grounded n hn) fun m hm hpath =>
    hp.apart m hpath (hp.mem_of_reaches hn hm)

/-- An expanded fragment that is met again is recorded already. -/
theorem record (hp : p.Consistent t path) (hn : n ∈ p.expanded) :
    (p.record n).Consistent t path where
  grounded := hp.grounded
  closed := hp.closed
  apart := hp.apart
  recorded_iff m := by
    rw [mem_record, hp.recorded_iff]
    refine ⟨?_, ?_⟩
    · rintro (rfl | hm)
      · exact .inl hn
      · exact hm
    · exact .inr

/-- **Opening** a fragment keeps the invariant, on the longer path. -/
theorem opened (hp : p.Consistent t path) (hn : n ∉ p.expanded) :
    (p.record n).Consistent t (path ++ [n]) where
  grounded := hp.grounded
  closed := hp.closed
  apart m hm := by
    rcases List.mem_append.1 hm with hm | hm
    · exact hp.apart m hm
    · obtain rfl := List.mem_singleton.1 hm
      exact hn
  recorded_iff m := by
    rw [mem_record, hp.recorded_iff, List.mem_append, List.mem_singleton]
    exact or_comm.trans or_assoc

/-- **Closing** a fragment keeps the invariant, on the shorter path again. -/
theorem finished (hp : p.Consistent t (path ++ [n])) (hn : n ∉ path) (hf : t.get? n = some f)
    (hs : ∀ m ∈ f.spreads, m ∈ p.expanded) : (p.finish n).Consistent t path where
  grounded m hm := by
    rcases mem_finish.1 hm with rfl | hm
    · exact .intro hf fun k hk => hp.grounded k (hs k hk)
    · exact hp.grounded m hm
  closed m g hm hg k hk := by
    refine mem_finish.2 (.inr ?_)
    rcases mem_finish.1 hm with rfl | hm
    · obtain rfl : f = g := Option.some.inj (hf.symm.trans hg)
      exact hs k hk
    · exact hp.closed m g hm hg k hk
  apart m hm hx := by
    rcases mem_finish.1 hx with rfl | hx
    · exact hn hm
    · exact hp.apart m (List.mem_append_left _ hm) hx
  recorded_iff m := by
    have h := hp.recorded_iff m
    rw [List.mem_append, List.mem_singleton] at h
    rw [mem_finish]
    exact h.trans (by tauto)

end Consistent

namespace Advanced

theorem refl (hp : p.Consistent t path) : Advanced t path p [] p where
  consistent := hp
  expanded_iff _ := ⟨.inl, fun h => h.resolve_right Reaches.not_nil⟩

theorem trans (h : Advanced t path p ns p') (h' : Advanced t path p' ms p'') :
    Advanced t path p (ns ++ ms) p'' where
  consistent := h'.consistent
  expanded_iff m := by
    rw [h'.expanded_iff, h.expanded_iff, Reaches.append_iff, or_assoc]

/-- Skipping an expanded fragment is an advance: nothing new is reached through it. -/
theorem skipped (hp : p.Consistent t path) (hn : n ∈ p.expanded) :
    Advanced t path p [n] (p.record n) where
  consistent := hp.record hn
  expanded_iff m := by
    refine ⟨.inl, ?_⟩
    rintro (hm | hm)
    · exact hm
    · exact hp.mem_of_reaches hn hm

/-- An advance over all that a fragment spreads, while it is open, is an advance over its
name. -/
theorem finished (h : Advanced t (path ++ [n]) (p.record n) f.spreads p') (hn : n ∉ path)
    (hf : t.get? n = some f) : Advanced t path p [n] (p'.finish n) where
  consistent := h.consistent.finished hn hf fun m hm => (h.expanded_iff m).2 (.inr (.here hm))
  expanded_iff m := by
    rw [mem_finish, h.expanded_iff, Reaches.singleton_iff hf]
    exact or_left_comm

end Advanced

end Progress

/-! ## One spread, and all of them -/

section Outcome

variable {t : FragmentTable} {path : List Name} {p : Progress}

/-- **Run lemma**: if single spreads below a path end as they should, so do many in a row. -/
theorem foldlM_visit_outcome
    (hvisit : ∀ p n, p.Consistent t path →
      Outcome (t.problems path n) (p.Advanced t path [n]) (visit t path p n).result)
    (hp : p.Consistent t path) (ns : List Name) :
    Outcome (ns.flatMap (t.problems path)) (p.Advanced t path ns)
      (ns.foldlM (visit t path) p).result := by
  refine Outcome.foldlM (P := fun done q => p.Advanced t path done q) ?_ ns [] p (.refl hp)
  intro done q n hq
  exact (hvisit q n hq.consistent).imp fun _ hr => hq.trans hr

/-- **Step lemma**: a spread ends with the first problem below it, or its name and all that it
reaches is expanded. -/
theorem visit_outcome (hp : p.Consistent t path) (n : Name) :
    Outcome (t.problems path n) (p.Advanced t path [n]) (visit t path p n).result := by
  induction path using t.open_induction generalizing p n with
  | opened path ih =>
    by_cases hn : n ∈ path
    · rw [visit_of_mem_path hn, FragmentTable.problems_of_mem_path hn]
      exact .abort _ _
    by_cases he : n ∈ p.expanded
    · rw [visit_of_mem_expanded hn he, hp.problems_eq_nil he]
      exact .pure (.skipped hp he)
    cases hf : t.get? n with
    | none =>
      rw [visit_of_get?_eq_none hn he hf, FragmentTable.problems_of_get?_eq_none hn hf]
      exact .abort _ _
    | some f =>
      rw [visit_of_get?_eq_some hn he hf, FragmentTable.problems_of_get?_eq_some hn hf,
        (isWalk_collect t (path ++ [n])).eq_foldlM]
      -- the selections of the fragment are walked on the longer path, with `n` recorded
      have hbelow := foldlM_visit_outcome (fun q m hq => ih n f hn hf hq m) (hp.opened he)
        f.spreads
      rw [Run.emit_bind, ← List.append_nil (f.spreads.flatMap _)]
      exact hbelow.bind fun q hq => .pure (hq.finished hn hf)

/-- **Runs of the whole document**: a resolution ends with the first problem, or with the
reachable names. -/
theorem Document.resolve_outcome (d : Document) (selections : List Selection) :
    Outcome (d.problems selections)
      (fun names => ∀ n, n ∈ names ↔ Reaches d.table.get? (Selection.spreadsIn selections) n)
      (d.resolve selections).result := by
  have hwalk := foldlM_visit_outcome (fun p n hp => visit_outcome hp n)
    (Progress.Consistent.start d.table) (Selection.spreadsIn selections)
  rw [← (isWalk_collect d.table []).eq_foldlM] at hwalk
  rw [Document.problems, ← List.append_nil (List.flatMap _ _), Document.resolve]
  refine hwalk.bind fun p hp => .pure fun n => ?_
  -- at the end nothing is open, so the recorded names are the expanded ones
  rw [hp.consistent.recorded_iff, hp.expanded_iff]
  simp [Progress.start]

end Outcome

/-! ## The names found -/

namespace Document

variable {d : Document} {selections : List Selection} {names : NameSet}

theorem mem_iff_of_resolve (h : (d.resolve selections).result = .ok names) (n : Name) :
    n ∈ names ↔ Reaches d.lastFragment? (Selection.spreadsIn selections) n := by
  have hout := d.resolve_outcome selections
  rw [h, get?_table] at hout
  exact hout.of_ok n

/-- **Exact result**: the names found are those that the selection set reaches through the
last definitions of the document. No reachable name is lost, and no other is added. -/
theorem mem_resolve?_iff (h : (d.resolve? (some selections)).result = .ok names) (n : Name) :
    n ∈ names ↔ Reaches d.lastFragment? (Selection.spreadsIn selections) n := by
  rw [resolve?_some] at h
  exact mem_iff_of_resolve h n

/-- A document that defines `A` twice. Both `B` and the later `A` spread `Shared`; only the
earlier `A`, which does not count, spreads `Lost`. -/
def shadowed : Document := ⟨[
  .fragment ⟨"A", "T", [.spread "Lost"]⟩,
  .fragment ⟨"B", "T", [.inlineFragment none [.spread "Shared"]]⟩,
  .fragment ⟨"A", "T", [.field none "a" [.spread "Shared"]]⟩,
  .fragment ⟨"Shared", "T", [.field none "id" []]⟩]⟩

theorem mem_resolve?_iff_shadowed :
    ∃ names, (shadowed.resolve? (some [.field none "a" [.spread "A"], .spread "B"])).result =
        .ok names ∧ names.toList = ["A", "B", "Shared"] ∧
      ∀ n, n ∈ names ↔ Reaches shadowed.lastFragment? ["A", "B"] n := by
  have h : (shadowed.resolve? (some [.field none "a" [.spread "A"], .spread "B"])).result =
      .ok ((∅ : NameSet).insertAll ["A", "B", "Shared"]) := by cbv
  exact ⟨_, h, by cbv, mem_resolve?_iff h⟩

/-- **Success condition**: names are found exactly if every reachable name is defined and none
of them is reached from its own last definition. -/
theorem resolve?_ok_iff :
    (∃ names, (d.resolve? (some selections)).result = .ok names) ↔
      (∀ n, Reaches d.lastFragment? (Selection.spreadsIn selections) n →
        ∃ f ∈ d.fragments, f.name = n) ∧
      ∀ n, Reaches d.lastFragment? (Selection.spreadsIn selections) n →
        ¬ Recursive d.lastFragment? n := by
  have hiff := (d.resolve_outcome selections).exists_ok_iff
  rw [← resolve?_some, problems, FragmentTable.flatMap_problems_eq_nil_iff, get?_table] at hiff
  refine hiff.trans ⟨fun h => ?_, fun h n hn => ?_⟩
  · exact ⟨fun n hn => exists_lastFragment?_iff.1 (h n hn).1, fun n hn => (h n hn).2⟩
  · exact ⟨exists_lastFragment?_iff.2 (h.1 n hn), h.2 n hn⟩

end Document

end QueryFragments
