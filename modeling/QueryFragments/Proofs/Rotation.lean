import Mathlib
import QueryFragments.Proofs.Composition
import QueryFragments.Proofs.Failures

/-!
# A fragment and a spread of it

To resolve what a fragment needs is almost to resolve a spread of it. The difference is that the
fragment itself is not open while its selections are walked. A run that comes back to it does
not stop there: it opens the fragment as if for the first time and goes on inside.

* `Failure.fromInside`: how a failure below a spread of a fragment looks from inside. A cycle
  that leads back to the fragment is met **rotated**, from its second name on.
* `BelowFragment`: where a walk inside the fragment stands, and that all it has passed is in
  order.
* `BelowFragment.head?_problems_reopened`: opened a second time, the fragment is walked up to
  the very spread by which it was left, and that one closes the cycle.
* `BelowFragment.head?_problems`: so the first problem from inside is the first problem below
  the spread, as it looks from inside.
* `Document.resolve?_spread_versus_definition`: names, failures and paths of the two
  resolutions.
-/

namespace QueryFragments

/-! ## From outside to inside -/

/-- How a failure below a spread of the fragment `n` looks to a run that starts inside it. A path
loses its first name, which is `n`. If it leads back to `n`, it goes on through `n` and ends
where it began. -/
def Failure.fromInside (n : Name) : Failure → Failure
  | .spreadCycle path m =>
    if m = n then .spreadCycle (path.tail ++ [n]) (path.tail.headD n)
    else .spreadCycle path.tail m
  | e => e

namespace Failure

variable {n m : Name} {path : List Name} {e : Failure}

theorem fromInside_of_ne (h : m ≠ n) :
    fromInside n (.spreadCycle (n :: path) m) = .spreadCycle path m := by
  rw [fromInside, if_neg h, List.tail_cons]

theorem fromInside_self :
    fromInside n (.spreadCycle (n :: path) n) = .spreadCycle (path ++ [n]) (path.headD n) := by
  rw [fromInside, if_pos rfl, List.tail_cons]

/-- Undefined names look the same from everywhere, and nothing else looks like one. -/
theorem fromInside_eq_undefined_iff :
    fromInside n e = .undefinedFragment m ↔ e = .undefinedFragment m := by
  cases e with
  | spreadCycle path k =>
    rw [fromInside]
    split <;> exact ⟨nofun, nofun⟩
  | _ => exact Iff.rfl

/-- Cycles look like cycles, and nothing else does. -/
theorem fromInside_eq_cycle_iff :
    (∃ path m, fromInside n e = .spreadCycle path m) ↔ ∃ path m, e = .spreadCycle path m := by
  cases e with
  | spreadCycle path k =>
    refine ⟨fun _ => ⟨path, k, rfl⟩, fun _ => ?_⟩
    rw [fromInside]
    split <;> exact ⟨_, _, rfl⟩
  | _ => exact Iff.rfl

end Failure

/-! ## The first problem along a list -/

/-- To compare the first problems along a list, it is enough to compare them at places before
which there are none. -/
theorem head?_flatMap_eq_map {α β : Type} {ps qs : α → List β} {look : β → β} {l : List α}
    (h : ∀ before a after, l = before ++ a :: after → (∀ b ∈ before, ps b = []) →
      (qs a).head? = (ps a).head?.map look) :
    (l.flatMap qs).head? = (l.flatMap ps).head?.map look := by
  induction l with
  | nil => rfl
  | cons a l ih =>
    have ha := h [] a l rfl fun b hb => absurd hb List.not_mem_nil
    rw [List.flatMap_cons, List.flatMap_cons, List.head?_append, List.head?_append, ha]
    cases hps : ps a with
    | cons e es => rfl
    | nil =>
      refine ih fun before b after hl hbefore => ?_
      refine h (a :: before) b after (by rw [hl, List.cons_append]) fun c hc => ?_
      rcases List.mem_cons.1 hc with rfl | hc
      · exact hps
      · exact hbefore c hc

/-- The first name of a path and one more is the first name of the path, if there is one. -/
theorem headD_append_singleton (path : List Name) (m k : Name) :
    (path ++ [m]).headD k = path.headD m := by
  cases path <;> rfl

/-- Every name on a chain leads to its end. -/
theorem Reaches.end_of_isChain {look : Name → Option Fragment} {path : List Name} {n k : Name}
    (h : List.IsChain (Spreads look) (path ++ [n])) (hk : k ∈ path ++ [n]) :
    Reaches look [k] n := by
  induction path with
  | nil => exact .here (List.mem_singleton.2 (List.mem_singleton.1 hk).symm)
  | cons m path ih =>
    rcases List.mem_cons.1 hk with rfl | hk
    · obtain ⟨f, hf, hr⟩ := Reaches.of_isChain (m := n) h (by simp)
      exact hr.of_spreads List.mem_cons_self hf
    · exact ih h.tail hk

/-! ## Inside a fragment -/

/-- A walk inside the fragment `f` of the name `n` has opened the fragments on the path, one
inside the other, and meets the name `m`. It has not come back to `n`, and while `n` is open
there is no problem below the names that `f` spreads before the one by which it was left. -/
structure BelowFragment (t : FragmentTable) (n : Name) (f : Fragment) (path : List Name)
    (m : Name) : Prop where
  /-- the fragment is the one that `n` stands for -/
  defined : t.get? n = some f
  /-- the walk has not come back -/
  off : n ∉ path
  /-- each fragment on the path spreads the next one, and the last one spreads `m` -/
  chain : List.IsChain (Spreads t.get?) (path ++ [m])
  /-- all is well before the spread by which the walk has left the fragment -/
  clear : ∃ before after, f.spreads = before ++ path.headD m :: after ∧
    ∀ k ∈ before, t.problems [n] k = []

namespace BelowFragment

variable {t : FragmentTable} {n m k : Name} {f g : Fragment} {path : List Name}

/-- The walk goes on into the next fragment. -/
theorem opened (h : BelowFragment t n f path m) (hm : m ≠ n) (hg : t.get? m = some g)
    (hk : k ∈ g.spreads) : BelowFragment t n f (path ++ [m]) k where
  defined := h.defined
  off hn := by
    rcases List.mem_append.1 hn with hn | hn
    · exact h.off hn
    · exact hm (List.mem_singleton.1 hn).symm
  chain := by
    rw [List.append_assoc]
    exact List.isChain_append_cons_cons.2 ⟨h.chain, ⟨g, hg, hk⟩, List.isChain_singleton k⟩
  clear := by
    rw [headD_append_singleton]
    exact h.clear

/-- **The second opening**: when the walk comes back to `n`, it walks the fragment again up to
the spread by which it has left it. What stands before that spread leads to no name that is open
now, since each of them leads back to `n`. -/
theorem head?_problems_reopened (h : BelowFragment t n f path n) :
    (t.problems path n).head? = some (.spreadCycle (path ++ [n]) (path.headD n)) := by
  obtain ⟨before, after, hspreads, hclear⟩ := h.clear
  have hbefore : before.flatMap (t.problems (path ++ [n])) = [] := by
    rw [List.flatMap_eq_nil_iff]
    intro k hk
    obtain ⟨hg, hoff⟩ := FragmentTable.grounded_of_problems_eq_nil (hclear k hk)
    refine FragmentTable.problems_eq_nil_of_grounded hg fun x hx hopen => ?_
    -- `x` is reached from `k` and open, so `k` reaches `n`
    have hn : Reaches t.get? [k] n :=
      (Reaches.end_of_isChain h.chain hopen).trans fun y hy => List.mem_singleton.1 hy ▸ hx
    exact hoff n hn List.mem_cons_self
  have hfirst : path.headD n ∈ path ++ [n] := by cases path <;> simp
  rw [FragmentTable.problems_of_get?_eq_some h.off h.defined, hspreads, List.flatMap_append,
    hbefore, List.nil_append, List.flatMap_cons, FragmentTable.problems_of_mem_path hfirst]
  rfl

/-- **Step lemma**: inside the fragment, the first problem below a name is the one that is met
while `n` is open, as it looks from inside. -/
theorem head?_problems (h : BelowFragment t n f path m) :
    (t.problems path m).head? = (t.problems (n :: path) m).head?.map (Failure.fromInside n) := by
  induction path using t.open_induction generalizing m with
  | opened path ih =>
    by_cases hmn : m = n
    · subst hmn
      rw [h.head?_problems_reopened, FragmentTable.problems_of_mem_path List.mem_cons_self,
        List.head?_cons, Option.map_some, Failure.fromInside_self]
    by_cases hm : m ∈ path
    · rw [FragmentTable.problems_of_mem_path hm,
        FragmentTable.problems_of_mem_path (List.mem_cons_of_mem n hm), List.head?_cons,
        List.head?_cons, Option.map_some, Failure.fromInside_of_ne hmn]
    have hm' : m ∉ n :: path := fun h => (List.mem_cons.1 h).elim hmn hm
    cases hg : t.get? m with
    | none =>
      rw [FragmentTable.problems_of_get?_eq_none hm hg,
        FragmentTable.problems_of_get?_eq_none hm' hg]
      rfl
    | some g =>
      rw [FragmentTable.problems_of_get?_eq_some hm hg,
        FragmentTable.problems_of_get?_eq_some hm' hg]
      refine head?_flatMap_eq_map fun before k after hspreads _ => ?_
      exact ih m g hm hg (h.opened hmn hg (by simp [hspreads]))

end BelowFragment

/-- **Run lemma**: the first problem of all that a fragment spreads is the first problem below a
spread of it, as it looks from inside. -/
theorem FragmentTable.head?_problems_fromInside {t : FragmentTable} {n : Name} {f : Fragment}
    (hf : t.get? n = some f) :
    (f.spreads.flatMap (t.problems [])).head? =
      (t.problems [] n).head?.map (Failure.fromInside n) := by
  rw [problems_of_get?_eq_some List.not_mem_nil hf]
  refine head?_flatMap_eq_map fun before m after hspreads hclear => ?_
  have hbelow : BelowFragment t n f [] m :=
    ⟨hf, List.not_mem_nil, List.isChain_singleton m, before, after, hspreads, hclear⟩
  exact hbelow.head?_problems

/-! ## The two resolutions -/

namespace Document

variable {d : Document} {n m : Name} {f : Fragment} {e : Failure} {names : NameSet}

theorem problems_spread (d : Document) (n : Name) :
    d.problems [.spread n] = d.table.problems [] n := by
  simp [problems]

/-- From inside, a resolution fails exactly if a spread does, with the failure of the spread as
it looks from inside. -/
theorem dependencies_error_iff (hf : d.table.get? n = some f) :
    (f.dependencies d).result = .error e ↔
      ∃ e', (d.resolve [.spread n]).result = .error e' ∧ e'.fromInside n = e := by
  rw [Fragment.dependencies_eq, (d.resolve_outcome f.selections).error_iff, problems,
    ← Fragment.spreads, FragmentTable.head?_problems_fromInside hf, Option.map_eq_some_iff,
    ← problems_spread]
  simp only [(d.resolve_outcome [.spread n]).error_iff]

/-- A fragment is resolved exactly if a spread of it leads to no problem. -/
theorem exists_dependencies_ok_iff (hf : d.table.get? n = some f) :
    (∃ names, (f.dependencies d).result = .ok names) ↔ d.table.problems [] n = [] := by
  rw [Fragment.dependencies_eq, (d.resolve_outcome f.selections).exists_ok_iff, problems,
    ← Fragment.spreads, ← List.head?_eq_none_iff, FragmentTable.head?_problems_fromInside hf,
    Option.map_eq_none_iff, List.head?_eq_none_iff]

/-- A spread needs what its fragment needs and the fragment itself, which does not need
itself. -/
theorem resolve_spread_of_dependencies (hf : d.table.get? n = some f)
    (h : (f.dependencies d).result = .ok names) :
    n ∉ names ∧ (d.resolve [.spread n]).result = .ok (names.insert n) := by
  have hnames : ∀ m, m ∈ names ↔ Reaches d.table.get? f.spreads m := by
    rw [Fragment.dependencies_eq] at h
    rw [get?_table]
    exact mem_iff_of_resolve h
  have hnil : d.table.problems [] n = [] := (exists_dependencies_ok_iff hf).1 ⟨names, h⟩
  refine ⟨fun hn => ?_, ?_⟩
  · obtain ⟨hground, -⟩ := FragmentTable.grounded_of_problems_eq_nil hnil
    exact hground.not_recursive ⟨f, hf, (hnames n).1 hn⟩
  · refine resolve_eq_of_outcome ?_
    rw [problems_spread, hnil]
    refine .finished rfl fun m => ?_
    rw [NameSet.mem_insert, hnames, ← Reaches.singleton_iff hf]
    simp

/-- The path of a cycle below a spread starts with the name spread. -/
theorem eq_cons_of_resolve_spread {path : List Name}
    (h : (d.resolve [.spread n]).result = .error (.spreadCycle path m)) :
    ∃ rest, path = n :: rest := by
  obtain ⟨first, hfirst, hhead⟩ := (loops_of_evidence (evidence_of_resolve_error h)).starts
  obtain rfl : first = n := by simpa using hfirst
  cases path with
  | nil => cases hhead
  | cons k rest =>
    obtain rfl : k = first := Option.some.inj hhead
    exact ⟨rest, rfl⟩

/-- **A fragment and a spread of it.** Resolving a spread of `n` and resolving the fragment that
`n` stands for succeed alike; then `n` is not among the names that the fragment needs, and the
spread needs these and `n`. They fail alike for want of the same fragment, or both in a cycle. A
cycle below the spread has a path that starts with `n`. Where it is closed by another name, the
path from inside is its rest; where it is closed by `n`, the path from inside is its rest and
then `n`, closed by the first name of these. -/
theorem resolve?_spread_versus_definition (hf : d.table.get? n = some f) :
    ((∃ names, (d.resolve? (some [.spread n])).result = .ok names) ↔
      ∃ names, (f.dependencies d).result = .ok names) ∧
    (∀ names, (f.dependencies d).result = .ok names →
      n ∉ names ∧ (d.resolve? (some [.spread n])).result = .ok (names.insert n)) ∧
    (∀ m, (d.resolve? (some [.spread n])).result = .error (.undefinedFragment m) ↔
      (f.dependencies d).result = .error (.undefinedFragment m)) ∧
    ((∃ path m, (d.resolve? (some [.spread n])).result = .error (.spreadCycle path m)) ↔
      ∃ path m, (f.dependencies d).result = .error (.spreadCycle path m)) ∧
    ∀ path m, (d.resolve? (some [.spread n])).result = .error (.spreadCycle path m) →
      ∃ rest, path = n :: rest ∧
        (m ≠ n → (f.dependencies d).result = .error (.spreadCycle rest m)) ∧
        (m = n → (f.dependencies d).result =
          .error (.spreadCycle (rest ++ [n]) ((rest ++ [n]).headD n))) := by
  rw [resolve?_some]
  refine ⟨?_, fun names h => resolve_spread_of_dependencies hf h, fun m => ?_, ?_,
    fun path m h => ?_⟩
  · rw [exists_dependencies_ok_iff hf, (d.resolve_outcome [.spread n]).exists_ok_iff,
      problems_spread]
  · simp only [dependencies_error_iff hf, Failure.fromInside_eq_undefined_iff, exists_eq_right]
  · -- what looks like a cycle from inside is one, and the other way round
    simp only [dependencies_error_iff hf]
    refine ⟨?_, ?_⟩
    · rintro ⟨path, m, h⟩
      obtain ⟨path', m', h'⟩ := Failure.fromInside_eq_cycle_iff (n := n).2 ⟨path, m, rfl⟩
      exact ⟨path', m', _, h, h'⟩
    · rintro ⟨path, m, e, h, he⟩
      obtain ⟨path', m', rfl⟩ := Failure.fromInside_eq_cycle_iff.1 ⟨path, m, he⟩
      exact ⟨path', m', h⟩
  · obtain ⟨rest, rfl⟩ := eq_cons_of_resolve_spread h
    refine ⟨rest, rfl, fun hm => ?_, ?_⟩
    · exact (dependencies_error_iff hf).2 ⟨_, h, Failure.fromInside_of_ne hm⟩
    · rintro rfl
      rw [headD_append_singleton]
      exact (dependencies_error_iff hf).2 ⟨_, h, Failure.fromInside_self⟩

/-- Before it comes back to itself by way of `B`, the fragment `A` spreads `C`, which `B` spreads
too. -/
def returning : Document := ⟨[
  .fragment ⟨"A", "T", [.field none "a" [.spread "C"], .spread "B"]⟩,
  .fragment ⟨"B", "T", [.spread "C", .inlineFragment none [.spread "A"]]⟩,
  .fragment ⟨"C", "T", [.field none "id" []]⟩]⟩

theorem resolve?_spread_versus_definition_returning :
    ∃ f, returning.table.get? "A" = some f ∧
      (returning.resolve? (some [.spread "A"])).result = .error (.spreadCycle ["A", "B"] "A") ∧
      (f.dependencies returning).result = .error (.spreadCycle ["B", "A"] "B") := by
  have hf : returning.table.get? "A" =
      some ⟨"A", "T", [.field none "a" [.spread "C"], .spread "B"]⟩ := by cbv
  have h : (returning.resolve? (some [.spread "A"])).result =
      .error (.spreadCycle ["A", "B"] "A") := by cbv
  refine ⟨_, hf, h, ?_⟩
  -- from inside, the cycle is met at `B`
  obtain ⟨-, -, -, -, hpath⟩ := resolve?_spread_versus_definition hf
  obtain ⟨rest, hrest, -, hback⟩ := hpath _ _ h
  obtain rfl := (List.cons.inj hrest).2
  exact hback rfl

end Document

end QueryFragments
