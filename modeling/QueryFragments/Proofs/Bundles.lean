import Mathlib
import QueryFragments.Bundle
import QueryFragments.Proofs.Dependencies
import QueryFragments.Proofs.Reports

/-!
# What a bundle holds

A bundle is put together in two steps: the names that an operation needs are found, and the
definitions of fragments with these names are kept. The second step is `Document.bundleWith`,
for any set of names; it changes neither the definitions nor their order, and keeps all
definitions of a name.

* `Document.bundleFor_ok_iff`, `Document.bundleFor_error_iff`: a bundle is made exactly if the
  names are found,
* `Document.lastFragment?_bundleWith`: the last definitions of the names kept are those of the
  whole document,
* `NameSet.length_eq_size_iff`: how many definitions are kept,
* `Document.bundleFor_content`: all of this for the names that an operation reaches.
-/

namespace QueryFragments

/-! ## Dependencies of an operation -/

namespace Document

variable {d : Document} {selections : List Selection}

/-- Names are found exactly if everything that is spread is grounded. -/
theorem exists_resolve_ok_iff :
    (∃ names, (d.resolve selections).result = .ok names) ↔
      ∀ n ∈ Selection.spreadsIn selections, Grounded d.lastFragment? n := by
  rw [(d.resolve_outcome selections).exists_ok_iff, problems, List.flatMap_eq_nil_iff,
    ← get?_table]
  refine forall₂_congr fun n _ => ⟨fun h => ?_, fun h => ?_⟩
  · exact (FragmentTable.grounded_of_problems_eq_nil h).1
  · exact FragmentTable.problems_eq_nil_of_grounded h fun _ _ => List.not_mem_nil

end Document

namespace Operation

variable {d : Document} {o : Operation} {names : NameSet} {n : Name}

/-- The names found are the reachable ones. -/
theorem mem_dependencies_iff (h : (o.dependencies d).result = .ok names) :
    n ∈ names ↔ Reaches d.lastFragment? o.spreads n := by
  rw [dependencies_eq] at h
  exact Document.mem_iff_of_resolve h n

/-- The names found are grounded. -/
theorem grounded_of_mem_dependencies (h : (o.dependencies d).result = .ok names)
    (hn : n ∈ names) : Grounded d.lastFragment? n := by
  have hreach : Reaches d.lastFragment? o.spreads n := (mem_dependencies_iff h).1 hn
  rw [dependencies_eq] at h
  exact .of_reaches (Document.exists_resolve_ok_iff.1 ⟨names, h⟩) hreach

end Operation

/-! ## Keeping the fragments of given names -/

namespace Document

/-- The operation, and the definitions of all fragments with the given names. -/
def bundleWith (d : Document) (o : Operation) (names : NameSet) : Document :=
  ⟨.operation o :: d.definitions.filter (·.isFragmentIn names)⟩

/-- What is kept is fragments only, those of the document that have one of the names. -/
theorem filter_isFragmentIn (definitions : List Definition) (names : NameSet) :
    definitions.filter (·.isFragmentIn names) =
      ((definitions.filterMap Definition.fragment?).filter (·.name ∈ names)).map .fragment := by
  induction definitions with
  | nil => rfl
  | cons x rest ih =>
    cases x with
    | operation o => simpa [List.filterMap_cons] using ih
    | fragment f => by_cases hf : f.name ∈ names <;> simp [hf, ih]

theorem operations_bundleWith (d : Document) (o : Operation) (names : NameSet) :
    (d.bundleWith o names).operations = [o] := by
  simp [operations_eq_filterMap, bundleWith, filter_isFragmentIn, List.filterMap_map]

theorem fragments_bundleWith (d : Document) (o : Operation) (names : NameSet) :
    (d.bundleWith o names).fragments = d.fragments.filter (·.name ∈ names) := by
  simp [fragments, bundleWith, filter_isFragmentIn, List.filterMap_cons, List.filterMap_map,
    Function.comp_def]

/-- After the operation come the fragments, and nothing else. -/
theorem tail_bundleWith (d : Document) (o : Operation) (names : NameSet) :
    (d.bundleWith o names).definitions.tail = (d.bundleWith o names).fragments.map .fragment := by
  rw [fragments_bundleWith]
  exact filter_isFragmentIn d.definitions names

/-- All fragments of a name are kept, or none. -/
theorem filter_name_bundleWith (d : Document) (o : Operation) (names : NameSet) (n : Name) :
    (d.bundleWith o names).fragments.filter (·.name = n) =
      if n ∈ names then d.fragments.filter (·.name = n) else [] := by
  rw [fragments_bundleWith, List.filter_filter]
  split
  next hn =>
    refine List.filter_congr fun f _ => ?_
    by_cases hf : f.name = n <;> simp [hf, hn]
  next hn =>
    refine List.filter_eq_nil_iff.2 fun f _ => ?_
    by_cases hf : f.name = n <;> simp [hf, hn]

/-- **The last definition still wins**: for the names kept it is the last one of the whole
document, and other names have none. -/
theorem lastFragment?_bundleWith (d : Document) (o : Operation) (names : NameSet) (n : Name) :
    (d.bundleWith o names).lastFragment? n = if n ∈ names then d.lastFragment? n else none := by
  rw [lastFragment?_eq_getLast?, lastFragment?_eq_getLast?, filter_name_bundleWith]
  split <;> rfl

/-- Keeping the same names again changes nothing. -/
theorem bundleWith_bundleWith (d : Document) (o : Operation) (names : NameSet) :
    (d.bundleWith o names).bundleWith o names = d.bundleWith o names := by
  simp [bundleWith]

end Document

/-! ## How many are kept -/

namespace NameSet

variable {s : NameSet} {l : List Name}

/-- A list that shows every member of a set is at least as long as the set is large. -/
theorem size_le_length (h : ∀ n ∈ s, n ∈ l) : s.size ≤ l.length := by
  rw [← length_toList]
  exact (s.nodup_toList.subperm fun n hn => h n (mem_toList.1 hn)).length_le

/-- A list that shows exactly the members of a set is as long as the set is large exactly if it
shows each of them once. -/
theorem length_eq_size_iff (h : ∀ n, n ∈ l ↔ n ∈ s) : l.length = s.size ↔ l.Nodup := by
  rw [← length_toList]
  have hmem : ∀ n, n ∈ s.toList ↔ n ∈ l := fun n => mem_toList.trans (h n).symm
  refine ⟨fun hlen => ?_, fun hnodup => ?_⟩
  · have hsub : s.toList.Subperm l := s.nodup_toList.subperm fun n hn => (hmem n).1 hn
    exact (hsub.perm_of_length_le hlen.le).nodup s.nodup_toList
  · exact ((List.perm_ext_iff_of_nodup hnodup s.nodup_toList).2 fun n => (hmem n).symm).length_eq

end NameSet

namespace Document

variable {d b : Document} {o : Operation} {names : NameSet} {n : Name}

/-- No name is kept twice exactly if no name of the set is defined twice. -/
theorem nodup_names_bundleWith_iff :
    ((d.bundleWith o names).fragments.map Fragment.name).Nodup ↔
      ∀ n ∈ names, d.fragments.countP (·.name = n) ≤ 1 := by
  rw [List.nodup_iff_count_le_one]
  refine forall_congr' fun n => ?_
  -- a name is counted as often as it is defined, if it is kept
  have hcount : ((d.bundleWith o names).fragments.map Fragment.name).count n =
      ((d.bundleWith o names).fragments.filter (·.name = n)).length := by
    rw [List.count_eq_countP, List.countP_map, List.countP_eq_length_filter]
    rfl
  rw [hcount, filter_name_bundleWith, List.countP_eq_length_filter]
  by_cases hn : n ∈ names <;> simp [hn]

/-! ## Bundles -/

/-- If the names are not found there is no bundle, and nothing more is reported. -/
theorem bundleFor_of_error {e : Failure} (h : (o.dependencies d).result = .error e) :
    d.bundleFor o = ⟨(o.dependencies d).log, .error e⟩ := by
  rw [bundleFor]
  generalize o.dependencies d = m at h ⊢
  obtain ⟨log, r⟩ := m
  obtain rfl : r = .error e := h
  rfl

/-- If they are found, the bundle is made with them and its size is reported. -/
theorem bundleFor_of_ok (h : (o.dependencies d).result = .ok names) :
    d.bundleFor o = ⟨(o.dependencies d).log ++
        [.bundled (d.bundleWith o names).definitions.tail.length],
      .ok (d.bundleWith o names)⟩ := by
  rw [bundleFor]
  generalize o.dependencies d = m at h ⊢
  obtain ⟨log, r⟩ := m
  obtain rfl : r = .ok names := h
  rfl

/-- A failure to bundle is a failure to find the names. -/
theorem bundleFor_error_iff {e : Failure} :
    (d.bundleFor o).result = .error e ↔ (o.dependencies d).result = .error e := by
  cases h : (o.dependencies d).result with
  | error e' => simp [bundleFor_of_error h]
  | ok names => simp [bundleFor_of_ok h]

/-- A bundle is made with the names found. -/
theorem bundleFor_ok_iff :
    (d.bundleFor o).result = .ok b ↔
      ∃ names, (o.dependencies d).result = .ok names ∧ b = d.bundleWith o names := by
  cases h : (o.dependencies d).result with
  | error e => simp [bundleFor_of_error h]
  | ok names => simp [bundleFor_of_ok h, eq_comm]

/-- To bundle the operation of a name, or the lone one, is to bundle the operation that is
selected. -/
theorem bundle_of_ok {name? : Option Name} (h : d.operation name? = .ok o) :
    d.bundle name? = d.bundleFor o := by
  rw [bundle, h]
  rfl

theorem bundle_of_error {name? : Option Name} {e : Failure} (h : d.operation name? = .error e) :
    d.bundle name? = .ofResult (.error e) := by
  rw [bundle, h]
  rfl

/-- A bundle defines exactly the names that its operation reaches in the whole document. -/
theorem exists_mem_fragments_bundleWith_iff (h : (o.dependencies d).result = .ok names) :
    (∃ f ∈ (d.bundleWith o names).fragments, f.name = n) ↔
      Reaches d.lastFragment? o.spreads n := by
  rw [← exists_lastFragment?_iff, lastFragment?_bundleWith, ← Operation.mem_dependencies_iff h]
  by_cases hn : n ∈ names
  · simp [hn, (Operation.grounded_of_mem_dependencies h hn).isSome]
  · simp [hn]

end Document

/-! ## Content -/

/-- The definition is of a fragment that the operation reaches in the document. -/
def Definition.IsNeeded (d : Document) (o : Operation) : Definition → Prop
  | .operation _ => False
  | .fragment f => Reaches d.lastFragment? o.spreads f.name

/-- The definitions kept are the needed ones. -/
theorem Definition.isFragmentIn_iff_isNeeded {d : Document} {o : Operation} {names : NameSet}
    {x : Definition} (h : (o.dependencies d).result = .ok names) :
    x.isFragmentIn names = true ↔ x.IsNeeded d o := by
  cases x with
  | operation o' => simp [IsNeeded]
  | fragment f =>
    rw [isFragmentIn_fragment, decide_eq_true_iff]
    exact Operation.mem_dependencies_iff h

namespace Document

variable {d b : Document} {o : Operation} {names : NameSet}

open Classical in
/-- The document `b` is what has to be sent for the operation `o`, which need not be one of the
operations of `d`. -/
structure IsBundle (d : Document) (o : Operation) (b : Document) : Prop where
  /-- the operation comes first; then come the needed definitions, as they are, in document
  order, and all of them where a name is defined more than once -/
  definitions_eq : b.definitions = .operation o :: d.definitions.filter fun x => x.IsNeeded d o
  /-- every name that the operation reaches is defined -/
  complete : ∀ n, Reaches d.lastFragment? o.spreads n → ∃ f ∈ b.fragments, f.name = n
  /-- there is no other operation -/
  lone : b.operations = [o]

open Classical in
theorem isBundle_bundleWith (h : (o.dependencies d).result = .ok names) :
    d.IsBundle o (d.bundleWith o names) where
  definitions_eq := by
    refine congrArg (List.cons (Definition.operation o)) (List.filter_congr fun x _ => ?_)
    rw [Bool.eq_iff_iff, decide_eq_true_iff]
    exact Definition.isFragmentIn_iff_isNeeded h
  complete n hn := (exists_mem_fragments_bundleWith_iff h).2 hn
  lone := operations_bundleWith d o names

/-- **Content of a bundle.**

* There is no bundle exactly if the names that the operation needs are not found. The failure is
  the same, and no line of the log reads as if there were a bundle.
* Otherwise the bundle holds what has to be sent. The last line of the log tells the number of
  fragment definitions in it; that is at least the number of names, and equal to it exactly if no
  needed name is defined twice.
* The operation may be selected first, and a failure to do so is the failure of the whole. -/
theorem bundleFor_content (d : Document) (o : Operation) :
    (∀ e, (d.bundleFor o).result = .error e ↔ (o.dependencies d).result = .error e) ∧
    (∀ e, (d.bundleFor o).result = .error e → ∀ line ∈ (d.bundleFor o).lines, ∀ count,
      line.2 ≠ "Bundled operation with " ++ Nat.repr count ++ " fragment definition(s)") ∧
    (∀ names, (o.dependencies d).result = .ok names →
      ∃ b, (d.bundleFor o).result = .ok b ∧ d.IsBundle o b ∧
        (d.bundleFor o).log =
          (o.dependencies d).log ++ [.bundled b.definitions.tail.length] ∧
        (d.bundleFor o).lines = (o.dependencies d).lines ++
          [(.trace, "Bundled operation with " ++ Nat.repr b.definitions.tail.length ++
            " fragment definition(s)")] ∧
        names.size ≤ b.definitions.tail.length ∧
        (b.definitions.tail.length = names.size ↔
          ∀ n, Reaches d.lastFragment? o.spreads n → d.fragments.countP (·.name = n) ≤ 1)) ∧
    ∀ name?, (∀ e, d.operation name? = .error e → d.bundle name? = .ofResult (.error e)) ∧
      ∀ o', d.operation name? = .ok o' → d.bundle name? = d.bundleFor o' := by
  refine ⟨fun e => bundleFor_error_iff, fun e he line hline count => ?_, fun names h => ?_,
    fun name? => ⟨fun e he => bundle_of_error he, fun o' ho' => bundle_of_ok ho'⟩⟩
  · rw [bundleFor_of_error (bundleFor_error_iff.1 he), Run.lines,
      Operation.dependencies_eq] at hline
    obtain ⟨event, hevent, rfl⟩ := List.mem_map.1 hline
    exact Event.text_ne_bundled (d.ne_bundled_of_mem_log_resolve o.selections event hevent) count
  · -- the names kept are those found, once or more often
    have hmem : ∀ n, n ∈ (d.bundleWith o names).fragments.map Fragment.name ↔ n ∈ names := by
      intro n
      rw [List.mem_map, exists_mem_fragments_bundleWith_iff h, Operation.mem_dependencies_iff h]
    have hlength : (d.bundleWith o names).definitions.tail.length =
        ((d.bundleWith o names).fragments.map Fragment.name).length := by
      rw [tail_bundleWith, List.length_map, List.length_map]
    refine ⟨d.bundleWith o names, ?_, isBundle_bundleWith h, ?_, ?_, ?_, ?_⟩
    · rw [bundleFor_of_ok h]
    · rw [bundleFor_of_ok h]
    · rw [bundleFor_of_ok h, Run.lines, List.map_append]
      rfl
    · rw [hlength]
      exact NameSet.size_le_length fun n hn => (hmem n).2 hn
    · rw [hlength, NameSet.length_eq_size_iff hmem, nodup_names_bundleWith_iff]
      exact forall_congr' fun n => by rw [Operation.mem_dependencies_iff h]

/-- `A` is defined twice. The earlier definition, which does not count, spreads `Old`, and the
later one spreads `B`. -/
def revised : Document := ⟨[
  .fragment ⟨"A", "T", [.spread "Old"]⟩,
  .operation ⟨.query, some "Other", [.spread "Old"]⟩,
  .fragment ⟨"Old", "T", [.field none "id" []]⟩,
  .fragment ⟨"A", "T", [.field none "a" [.spread "B"]]⟩,
  .fragment ⟨"B", "T", [.field none "id" []]⟩]⟩

/-- An operation that is not in `revised` and spreads `A`. -/
def foreignOperation : Operation := ⟨.mutation, some "Q", [.inlineFragment none [.spread "A"]]⟩

/-- What is sent for it: both definitions of `A`, and `B`. -/
def revisedBundle : Document := ⟨[
  .operation foreignOperation,
  .fragment ⟨"A", "T", [.spread "Old"]⟩,
  .fragment ⟨"A", "T", [.field none "a" [.spread "B"]]⟩,
  .fragment ⟨"B", "T", [.field none "id" []]⟩]⟩

theorem bundleFor_content_revised :
    ∃ names, (foreignOperation.dependencies revised).result = .ok names ∧
      (revised.bundleFor foreignOperation).result = .ok revisedBundle ∧
      revised.IsBundle foreignOperation revisedBundle ∧
      (revised.bundleFor foreignOperation).lines =
        (foreignOperation.dependencies revised).lines ++
          [(.trace, "Bundled operation with 3 fragment definition(s)")] ∧
      names.size = 2 ∧ revisedBundle.definitions.tail.length = 3 ∧
      ¬ ∀ n, Reaches revised.lastFragment? foreignOperation.spreads n →
        revised.fragments.countP (·.name = n) ≤ 1 := by
  have h : (foreignOperation.dependencies revised).result =
      .ok ((∅ : NameSet).insertAll ["A", "B"]) := by cbv
  have hb : (revised.bundleFor foreignOperation).result = .ok revisedBundle := by cbv
  have hsize : ((∅ : NameSet).insertAll ["A", "B"]).size = 2 := by cbv
  obtain ⟨-, -, hmade, -⟩ := bundleFor_content revised foreignOperation
  obtain ⟨b, hb', hbundle, -, hlines, -, hcount⟩ := hmade _ h
  obtain rfl : revisedBundle = b := Except.ok.inj (hb.symm.trans hb')
  refine ⟨_, h, hb, hbundle, hlines, hsize, rfl, ?_⟩
  rw [← hcount, hsize]
  decide

end Document

end QueryFragments
