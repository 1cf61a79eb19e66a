import QueryFragments.Document
import QueryFragments.NameMap

/-!
# The fragment table of a document

Spreads name fragments, and a table tells which fragment a name stands for. Where a
document defines a name more than once **the last definition wins**.

Expanding fragments one inside the other cannot go on for ever, since no fragment is
opened within itself. `FragmentTable.unopened` counts the fragments that a path leaves
to be opened; `FragmentTable.unopened_push_lt` says that opening one makes them fewer.
-/

namespace QueryFragments

/-- Which fragment a name stands for. -/
abbrev FragmentTable : Type := NameMap Fragment

namespace FragmentTable

/-- Enter fragments under their names, a later one in place of an earlier one. -/
def enter (t : FragmentTable) (fs : List Fragment) : FragmentTable :=
  fs.foldl (fun t f => t.insert f.name f) t

@[simp] theorem enter_nil (t : FragmentTable) : t.enter [] = t := rfl

@[simp] theorem enter_cons (t : FragmentTable) (f : Fragment) (fs : List Fragment) :
    t.enter (f :: fs) = enter (t.insert f.name f) fs := rfl

theorem enter_append (t : FragmentTable) (fs gs : List Fragment) :
    t.enter (fs ++ gs) = (t.enter fs).enter gs :=
  List.foldl_append ..

/-- The number of fragments that are not on a path. -/
def unopened (t : FragmentTable) (path : List Name) : Nat :=
  t.keys.countP (· ∉ path)

/-- A count falls when a condition is sharpened and some counted item is lost. -/
theorem countP_lt_countP {α : Type} {p q : α → Bool} {l : List α} (hpq : ∀ a, p a → q a)
    {a : α} (ha : a ∈ l) (hqa : q a) (hpa : ¬ p a) : l.countP p < l.countP q := by
  induction l with
  | nil => cases ha
  | cons b l ih =>
    have hle : l.countP p ≤ l.countP q := List.countP_mono_left fun c _ => hpq c
    rcases List.mem_cons.1 ha with rfl | ha
    · -- the head is the item that is lost
      simp only [List.countP_cons, hqa, hpa]
      simp only [if_true, Bool.false_eq_true, if_false]
      omega
    · have hlt := ih ha
      have hb := hpq b
      simp only [List.countP_cons]
      by_cases hpb : p b
      · simp only [hpb, hb hpb, if_true]
        omega
      · simp only [hpb, Bool.false_eq_true, if_false]
        omega

/-- Opening a fragment that is in the table and not on the path leaves fewer to open. -/
theorem unopened_push_lt {t : FragmentTable} {path : List Name} {n : Name} {f : Fragment}
    (hf : t.get? n = some f) (hn : n ∉ path) :
    t.unopened (path ++ [n]) < t.unopened path := by
  refine countP_lt_countP (a := n) ?_ (NameMap.mem_keys_iff.2 ⟨f, hf⟩) ?_ ?_
  · intro m hm
    simp only [List.mem_append, decide_eq_true_eq] at hm ⊢
    exact fun h => hm (.inl h)
  · simpa using hn
  · simp

end FragmentTable

/-- The table of the fragments of a document. -/
def Document.table (d : Document) : FragmentTable := FragmentTable.enter ∅ d.fragments

end QueryFragments
