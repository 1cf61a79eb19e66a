import Mathlib.Data.List.Dedup
import QueryFragments.Table

/-!
# The table holds the last definitions

A table is built by entering the fragments of a document one after the other, each in place
of what stood under its name. What a look-up finds in the end is said here without the
entering: `Document.lastFragment?` is the last fragment of a name, and a look-up in the table
finds just that (`Document.get?_table`).
-/

namespace QueryFragments

/-- The names of the fragments, each once. -/
def Document.fragmentNames (d : Document) : List Name := (d.fragments.map Fragment.name).dedup

/-- The last fragment of a name in document order. -/
def Document.lastFragment? (d : Document) (n : Name) : Option Fragment :=
  d.fragments.findRev? (·.name = n)

/-- **Look-up after entering**: the last fragment entered under a name is found, and what was
found before if there is none. -/
theorem FragmentTable.get?_enter (t : FragmentTable) (fs : List Fragment) (n : Name) :
    (t.enter fs).get? n = (fs.findRev? (·.name = n)).or (t.get? n) := by
  induction fs generalizing t with
  | nil => rfl
  | cons f fs ih =>
    rw [enter_cons, ih, NameMap.get?_insert, List.findRev?]
    cases fs.findRev? (·.name = n) with
    | some g => rfl
    | none =>
      by_cases hn : f.name = n
      · simp [hn]
      · simp [hn, Ne.symm hn]

namespace Document

variable {d : Document} {n : Name} {f : Fragment}

/-- **The last definition wins.** -/
theorem get?_table (d : Document) : d.table.get? = d.lastFragment? := by
  funext n
  rw [table, FragmentTable.get?_enter, NameMap.get?_empty, Option.or_none, lastFragment?]

/-- The last fragment of a name is the last of the fragments of that name. -/
theorem lastFragment?_eq_getLast? (d : Document) (n : Name) :
    d.lastFragment? n = (d.fragments.filter (·.name = n)).getLast? := by
  rw [lastFragment?, List.findRev?_eq_find?_reverse, List.getLast?_filter]

/-- What is found under a name has that name and stands in the document. -/
theorem lastFragment?_mem (hf : d.lastFragment? n = some f) : f ∈ d.fragments ∧ f.name = n := by
  rw [lastFragment?, List.findRev?_eq_find?_reverse] at hf
  exact ⟨List.mem_reverse.1 (List.mem_of_find?_eq_some hf), by simpa using List.find?_some hf⟩

/-- Nothing is found exactly under the names that no fragment has. -/
theorem lastFragment?_eq_none_iff :
    d.lastFragment? n = none ↔ ∀ f ∈ d.fragments, f.name ≠ n := by
  simp [lastFragment?]

/-- Something is found exactly under the names of fragments. -/
theorem exists_lastFragment?_iff :
    (∃ f, d.lastFragment? n = some f) ↔ ∃ f ∈ d.fragments, f.name = n := by
  refine ⟨?_, ?_⟩
  · rintro ⟨f, hf⟩
    exact ⟨f, lastFragment?_mem hf⟩
  · rintro ⟨f, hf, hn⟩
    cases hl : d.lastFragment? n with
    | none => exact absurd hn (lastFragment?_eq_none_iff.1 hl f hf)
    | some g => exact ⟨g, rfl⟩

end Document

end QueryFragments
