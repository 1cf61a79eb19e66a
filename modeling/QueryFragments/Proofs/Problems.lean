import Mathlib.Data.List.Nodup
import QueryFragments.Table
import QueryFragments.Proofs.Grounded

/-!
# All problems of an expansion

What can go wrong below a spread, said without a run that stops: `FragmentTable.problems`
expands every fragment again wherever it is spread and lists **every problem** it meets, in
depth-first document order. A run is then described by the head of that list.

* `FragmentTable.open_induction`: induction over paths, from the longer to the shorter,
* `FragmentTable.problems_eq_nil_of_grounded`, `FragmentTable.grounded_of_problems_eq_nil`:
  there is no problem exactly below grounded names that do not lead back to the path,
* `FragmentTable.evidence_of_mem_problems`: every problem that is listed is a true one
  (`Evidence`),
* `FragmentTable.flatMap_problems_eq_nil_iff`: the two together, for a run that starts with
  nothing open.
-/

namespace QueryFragments

namespace FragmentTable

/-- Every problem that a spread of `n` leads to below the fragments on the path, in
depth-first document order. -/
def problems (t : FragmentTable) (path : List Name) (n : Name) : List Failure :=
  if _hn : n ∈ path then
    [.spreadCycle path n]
  else
    match _hf : t.get? n with
    | none => [.undefinedFragment n]
    | some f => f.spreads.flatMap fun m => problems t (path ++ [n]) m
termination_by t.unopened path
decreasing_by exact unopened_push_lt _hf _hn

/-- **Induction over paths**: what holds of a path once it holds of every path that is one
fragment longer, opened off the path, holds of all paths. -/
theorem open_induction (t : FragmentTable) {motive : List Name → Prop}
    (opened : ∀ path, (∀ n f, n ∉ path → t.get? n = some f → motive (path ++ [n])) → motive path)
    (path : List Name) : motive path := by
  induction hk : t.unopened path using Nat.strongRecOn generalizing path with
  | ind k ih =>
    subst hk
    exact opened path fun n f hn hf => ih _ (unopened_push_lt hf hn) _ rfl

variable {t : FragmentTable} {path : List Name} {n : Name} {f : Fragment} {e : Failure}

/-! ## Equations -/

theorem problems_of_mem_path (hn : n ∈ path) : t.problems path n = [.spreadCycle path n] := by
  rw [problems, dif_pos hn]

theorem problems_of_get?_eq_none (hn : n ∉ path) (hf : t.get? n = none) :
    t.problems path n = [.undefinedFragment n] := by
  rw [problems, dif_neg hn]
  split
  · rfl
  · simp_all

theorem problems_of_get?_eq_some (hn : n ∉ path) (hf : t.get? n = some f) :
    t.problems path n = f.spreads.flatMap (t.problems (path ++ [n])) := by
  rw [problems, dif_neg hn]
  split
  · simp_all
  · simp_all

/-! ## No problem -/

/-- Below a grounded name that does not lead back to the path all goes well. -/
theorem problems_eq_nil_of_grounded (hg : Grounded t.get? n)
    (hp : ∀ m, Reaches t.get? [n] m → m ∉ path) : t.problems path n = [] := by
  induction hg generalizing path with
  | @intro n f hf hs ih =>
    rw [problems_of_get?_eq_some (hp n (.here List.mem_cons_self)) hf, List.flatMap_eq_nil_iff]
    intro m hm
    refine ih m hm fun k hk => ?_
    have hnk : Reaches t.get? f.spreads k := Reaches.iff_exists_mem.2 ⟨m, hm, hk⟩
    -- `k` is off the path by assumption, and it is not `n` since nothing grounded is recursive
    rw [List.mem_append, List.mem_singleton, not_or]
    refine ⟨hp k ((Reaches.singleton_iff hf).2 (.inr hnk)), ?_⟩
    rintro rfl
    exact (Grounded.intro hf hs).not_recursive ⟨f, hf, hnk⟩

/-- Where all goes well the name is grounded and does not lead back to the path. -/
theorem grounded_of_problems_eq_nil (h : t.problems path n = []) :
    Grounded t.get? n ∧ ∀ m, Reaches t.get? [n] m → m ∉ path := by
  induction path using t.open_induction generalizing n with
  | opened path ih =>
    by_cases hn : n ∈ path
    · rw [problems_of_mem_path hn] at h
      cases h
    cases hf : t.get? n with
    | none =>
      rw [problems_of_get?_eq_none hn hf] at h
      cases h
    | some f =>
      rw [problems_of_get?_eq_some hn hf, List.flatMap_eq_nil_iff] at h
      refine ⟨.intro hf fun m hm => (ih n f hn hf (h m hm)).1, fun m hm => ?_⟩
      rcases (Reaches.singleton_iff hf).1 hm with rfl | hm
      · exact hn
      · obtain ⟨k, hk, hm⟩ := Reaches.iff_exists_mem.1 hm
        exact fun hmp => (ih n f hn hf (h k hk)).2 m hm (List.mem_append_left _ hmp)

end FragmentTable

/-! ## Evidence -/

/-- What a failure has to show for itself, where the fragments on the path are open and the
names in `start` are spread. -/
inductive Evidence (look : Name → Option Fragment) (path start : List Name) : Failure → Prop where
  /-- a name that is reached and not defined -/
  | undefined {n : Name} (hr : Reaches look start n) (hn : look n = none) :
      Evidence look path start (.undefinedFragment n)
  /-- a chain of spreads from the start that goes on the path without repetition and comes
  back to it -/
  | cycle {tail : List Name} {n k : Name} (hk : k ∈ start) (hhead : (tail ++ [n]).head? = some k)
      (hchain : List.IsChain (Spreads look) (tail ++ [n])) (hnodup : (path ++ tail).Nodup)
      (hn : n ∈ path ++ tail) : Evidence look path start (.spreadCycle (path ++ tail) n)

namespace Evidence

variable {look : Name → Option Fragment} {path start : List Name} {n m : Name}
  {f : Fragment} {e : Failure}

/-- Evidence from one of the names spread is evidence from all of them. -/
theorem of_mem (hm : m ∈ start) (h : Evidence look path [m] e) : Evidence look path start e := by
  cases h with
  | undefined hr hn => exact .undefined (Reaches.iff_exists_mem.2 ⟨m, hm, hr⟩) hn
  | cycle hk hhead hchain hnodup hn =>
    obtain rfl := List.mem_singleton.1 hk
    exact .cycle hm hhead hchain hnodup hn

/-- Evidence that is found inside an open fragment is evidence where it is spread. -/
theorem of_open (hf : look n = some f) (h : Evidence look (path ++ [n]) f.spreads e) :
    Evidence look path [n] e := by
  cases h with
  | undefined hr hm => exact .undefined ((Reaches.singleton_iff hf).2 (.inr hr)) hm
  | @cycle tail m k hk hhead hchain hnodup hm =>
    rw [List.append_assoc] at hnodup hm ⊢
    refine .cycle List.mem_cons_self rfl ?_ hnodup hm
    refine List.isChain_cons.2 ⟨fun x hx => ?_, hchain⟩
    obtain rfl : x = k := Option.some.inj (hx.symm.trans hhead)
    exact ⟨f, hf, hk⟩

/-- With nothing open, evidence is about a name that is reached and undefined or recursive. -/
theorem exists_reaches (h : Evidence look [] start e) :
    ∃ n, Reaches look start n ∧ (look n = none ∨ Recursive look n) := by
  cases h with
  | @undefined n hr hn => exact ⟨n, hr, .inl hn⟩
  | @cycle tail n k hk hhead hchain _ hn =>
    rw [List.nil_append] at hn
    obtain ⟨before, after, rfl⟩ := List.append_of_mem hn
    refine ⟨n, ?_, .inr ?_⟩
    · cases before with
      | nil =>
        obtain rfl : n = k := by simpa using hhead
        exact .here hk
      | cons b before =>
        obtain rfl : b = k := by simpa using hhead
        obtain ⟨g, hg, hr⟩ := Reaches.of_isChain (m := n) hchain (by simp)
        exact hr.of_spreads hk hg
    · -- the part of the chain from the first `n` to the last
      have hback : List.IsChain (Spreads look) (n :: (after ++ [n])) := by
        rw [List.append_assoc] at hchain
        exact hchain.right_of_append
      exact Reaches.of_isChain hback (by simp)

end Evidence

namespace FragmentTable

variable {t : FragmentTable} {path : List Name} {n : Name} {e : Failure}

/-- **Every problem is a true one.** -/
theorem evidence_of_mem_problems (hp : path.Nodup) (he : e ∈ t.problems path n) :
    Evidence t.get? path [n] e := by
  induction path using t.open_induction generalizing n with
  | opened path ih =>
    by_cases hn : n ∈ path
    · rw [problems_of_mem_path hn] at he
      obtain rfl := List.mem_singleton.1 he
      have h : Evidence t.get? path [n] (.spreadCycle (path ++ []) n) :=
        .cycle List.mem_cons_self rfl (List.isChain_singleton n) (by rwa [List.append_nil])
          (by rwa [List.append_nil])
      rwa [List.append_nil] at h
    cases hf : t.get? n with
    | none =>
      rw [problems_of_get?_eq_none hn hf] at he
      obtain rfl := List.mem_singleton.1 he
      exact .undefined (.here List.mem_cons_self) hf
    | some f =>
      rw [problems_of_get?_eq_some hn hf] at he
      obtain ⟨m, hm, he⟩ := List.mem_flatMap.1 he
      have hnodup : (path ++ [n]).Nodup := List.concat_eq_append ▸ hp.concat hn
      exact .of_open hf (.of_mem hm (ih n f hn hf hnodup he))

/-- With nothing open, every problem from the start is a true one. -/
theorem evidence_of_mem_flatMap {start : List Name} (he : e ∈ start.flatMap (t.problems [])) :
    Evidence t.get? [] start e := by
  obtain ⟨m, hm, he⟩ := List.mem_flatMap.1 he
  exact .of_mem hm (evidence_of_mem_problems List.nodup_nil he)

/-- **No problem from the start** means that everything reached is defined and not
recursive. -/
theorem flatMap_problems_eq_nil_iff {start : List Name} :
    start.flatMap (t.problems []) = [] ↔
      ∀ n, Reaches t.get? start n → (∃ f, t.get? n = some f) ∧ ¬ Recursive t.get? n := by
  refine ⟨?_, ?_⟩
  · intro h n hn
    have hg : Grounded t.get? n := .of_reaches (fun m hm =>
      (grounded_of_problems_eq_nil (List.flatMap_eq_nil_iff.1 h m hm)).1) hn
    exact ⟨hg.isSome, hg.not_recursive⟩
  · intro h
    refine List.eq_nil_iff_forall_not_mem.2 fun e he => ?_
    obtain ⟨n, hn, hbad⟩ := (evidence_of_mem_flatMap he).exists_reaches
    obtain ⟨⟨f, hf⟩, hrec⟩ := h n hn
    rcases hbad with hnone | hbad
    · rw [hf] at hnone
      cases hnone
    · exact hrec hbad

end FragmentTable

/-- Every problem that a selection set leads to in a document, in depth-first document
order. -/
def Document.problems (d : Document) (selections : List Selection) : List Failure :=
  (Selection.spreadsIn selections).flatMap (d.table.problems [])

end QueryFragments
