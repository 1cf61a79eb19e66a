import Mathlib
import QueryFragments.Proofs.LastDefinition

/-!
# Which definitions the table shows

A look-up takes the last fragment of a name, so most of a document has no say in it. Said of the
definitions themselves and their places:

* `Document.IsLast`: the definition at a place is the last of its name. It is what a look-up finds,
  and `Document.fragmentPlace?` tells where it stands (`Document.find_last`).
* `Document.lastFragment?_append`: **a later part of a document overrides an earlier one**.
* `Inessential`: a change that leaves every look-up alone. An operation or a shadowed definition is
  left out, or the definitions are put in another order, those of one name staying in theirs.
* `Document.table_shows_last_definitions`: all of it, for any number of such changes.
-/

namespace QueryFragments

namespace Document

variable {d d' : Document} {n : Name} {f : Fragment} {i : Nat} {xs ys : List Definition}

/-! ## Parts of a document -/

theorem mem_fragments_iff : f ∈ d.fragments ↔ .fragment f ∈ d.definitions := by
  rw [fragments, List.mem_filterMap]
  refine ⟨?_, fun hf => ⟨_, hf, rfl⟩⟩
  rintro ⟨x, hx, hxf⟩
  exact Definition.fragment?_eq_some_iff.1 hxf ▸ hx

theorem fragments_append (xs ys : List Definition) :
    (⟨xs ++ ys⟩ : Document).fragments =
      (⟨xs⟩ : Document).fragments ++ (⟨ys⟩ : Document).fragments :=
  List.filterMap_append

/-- **Overriding**: what a later part of a document defines is found there, and all else in the
earlier part. -/
theorem lastFragment?_append (xs ys : List Definition) (n : Name) :
    (⟨xs ++ ys⟩ : Document).lastFragment? n =
      ((⟨ys⟩ : Document).lastFragment? n).or ((⟨xs⟩ : Document).lastFragment? n) := by
  simp only [lastFragment?, List.findRev?_eq_find?_reverse, fragments_append, List.reverse_append,
    List.find?_append]

theorem lastFragment?_singleton_self (f : Fragment) :
    (⟨[.fragment f]⟩ : Document).lastFragment? f.name = some f := by
  simp [lastFragment?, fragments]

/-- A single definition is found under no other name than that of its fragment. -/
theorem lastFragment?_singleton_of_ne {x : Definition} (hx : ∀ g, x = .fragment g → g.name ≠ n) :
    (⟨[x]⟩ : Document).lastFragment? n = none := by
  refine lastFragment?_eq_none_iff.2 fun f hf => hx f ?_
  exact (List.mem_singleton.1 (mem_fragments_iff.1 hf)).symm

/-! ## Places -/

/-- At the place `i` stands the fragment `f` of the name `n`, and no later fragment has it. -/
structure IsLast (d : Document) (n : Name) (i : Nat) (f : Fragment) : Prop where
  /-- the fragment is defined at the place -/
  here : d.definitions[i]? = some (.fragment f)
  /-- it has the name -/
  name_eq : f.name = n
  /-- a fragment that is defined later has another one -/
  later_ne : ∀ j g, i < j → d.definitions[j]? = some (.fragment g) → g.name ≠ n

namespace IsLast

/-- Of each name there is one last definition at most. -/
theorem unique {j : Nat} {g : Fragment} (h : d.IsLast n i f) (h' : d.IsLast n j g) :
    i = j ∧ f = g := by
  have hij : i = j := by
    rcases Nat.lt_trichotomy i j with hlt | heq | hgt
    · exact absurd h'.name_eq (h.later_ne j g hlt h'.here)
    · exact heq
    · exact absurd h.name_eq (h'.later_ne i f hgt h.here)
  subst hij
  have hfg := h.here.symm.trans h'.here
  exact ⟨rfl, by simpa using hfg⟩

/-- A fragment at the end of a document is the last of its name. -/
theorem at_end (xs : List Definition) (f : Fragment) :
    (⟨xs ++ [.fragment f]⟩ : Document).IsLast f.name xs.length f where
  here := List.getElem?_concat_length
  name_eq := rfl
  later_ne j g hj hg := by
    obtain ⟨hlt, -⟩ := List.getElem?_eq_some_iff.1 hg
    rw [List.length_append, List.length_singleton] at hlt
    omega

end IsLast

/-- Something else at the end of a document changes nothing. -/
theorem isLast_concat {x : Definition} (hx : ∀ g, x = .fragment g → g.name ≠ n) :
    (⟨xs ++ [x]⟩ : Document).IsLast n i f ↔ (⟨xs⟩ : Document).IsLast n i f := by
  -- a fragment of the name stands before the end, if it stands anywhere
  have hplace : ∀ (j : Nat) (g : Fragment), g.name = n →
      ((xs ++ [x])[j]? = some (.fragment g) ↔ xs[j]? = some (.fragment g)) := by
    intro j g hg
    by_cases hlt : j < xs.length
    · rw [List.getElem?_append_left hlt]
    · have hle : xs.length ≤ j := Nat.le_of_not_lt hlt
      rw [List.getElem?_append_right hle, List.getElem?_eq_none hle]
      refine ⟨?_, nofun⟩
      intro hx'
      exact absurd hg (hx g (List.mem_singleton.1 (List.mem_of_getElem? hx')).symm)
  refine ⟨?_, ?_⟩
  · rintro ⟨hhere, hname, hlater⟩
    refine ⟨(hplace i f hname).1 hhere, hname, fun j g hj hg hgn => ?_⟩
    exact hlater j g hj ((hplace j g hgn).2 hg) hgn
  · rintro ⟨hhere, hname, hlater⟩
    refine ⟨(hplace i f hname).2 hhere, hname, fun j g hj hg hgn => ?_⟩
    exact hlater j g hj ((hplace j g hgn).1 hg) hgn

/-- The place of a name is looked for from the end. -/
theorem fragmentPlace?_concat (xs : List Definition) (x : Definition) (n : Name) :
    (⟨xs ++ [x]⟩ : Document).fragmentPlace? n =
      if x.fragment?.any (·.name = n) then some xs.length
      else (⟨xs⟩ : Document).fragmentPlace? n := by
  simp only [fragmentPlace?, List.zipIdx_append, List.reverse_append, List.zipIdx_cons,
    List.zipIdx_nil, List.reverse_singleton, List.singleton_append, List.find?_cons]
  split <;> simp_all

/-- **A look-up finds the last definition**, and the place is where it stands. By induction from
the end, since what stands there counts. -/
theorem find_last (d : Document) (n : Name) :
    ∃ last : Option (Nat × Fragment), (∀ i f, d.IsLast n i f ↔ last = some (i, f)) ∧
      d.lastFragment? n = last.map Prod.snd ∧ d.fragmentPlace? n = last.map Prod.fst := by
  obtain ⟨ds⟩ := d
  induction ds using List.reverseRecOn with
  | nil =>
    refine ⟨none, fun i f => ⟨?_, nofun⟩, rfl, rfl⟩
    intro h
    cases h.here
  | append_singleton xs x ih =>
    rw [lastFragment?_append, fragmentPlace?_concat]
    by_cases hx : ∃ g, x = .fragment g ∧ g.name = n
    · obtain ⟨g, rfl, rfl⟩ := hx
      rw [lastFragment?_singleton_self]
      refine ⟨some (xs.length, g), fun i f => ⟨?_, ?_⟩, rfl, by simp⟩
      · intro h
        obtain ⟨rfl, rfl⟩ := (IsLast.at_end xs g).unique h
        rfl
      · rintro ⟨⟩
        exact .at_end xs g
    · have hne : ∀ g, x = .fragment g → g.name ≠ n := fun g hg hn => hx ⟨g, hg, hn⟩
      have hany : ¬ x.fragment?.any (·.name = n) := by
        cases x with
        | operation o => simp
        | fragment g => simpa using hne g rfl
      obtain ⟨last, hlast, hfind, hplace⟩ := ih
      rw [lastFragment?_singleton_of_ne hne, Option.none_or, if_neg hany]
      exact ⟨last, fun i f => (isLast_concat hne).trans (hlast i f), hfind, hplace⟩

theorem lastFragment?_eq_some_iff : d.lastFragment? n = some f ↔ ∃ i, d.IsLast n i f := by
  obtain ⟨last, hlast, hfind, -⟩ := d.find_last n
  simp [hfind, hlast]

theorem fragmentPlace?_eq_some_iff : d.fragmentPlace? n = some i ↔ ∃ f, d.IsLast n i f := by
  obtain ⟨last, hlast, -, hplace⟩ := d.find_last n
  simp [hplace, hlast]

/-! ## The table as a whole -/

/-- A table is determined by the last fragments. -/
theorem table_eq_of_lastFragment?_eq (h : ∀ n, d.lastFragment? n = d'.lastFragment? n) :
    d.table = d'.table := by
  refine NameMap.ext_get? fun n => ?_
  rw [get?_table, get?_table, h n]

/-- The keys are the names of fragments, so there is one entry for each of them. -/
theorem size_table (d : Document) : d.table.size = d.fragmentNames.length := by
  rw [← NameMap.length_keys]
  refine ((List.perm_ext_iff_of_nodup d.table.nodup_keys (List.nodup_dedup _)).2 ?_).length_eq
  intro n
  rw [NameMap.mem_keys_iff, get?_table, exists_lastFragment?_iff, List.mem_dedup, List.mem_map]

end Document

/-! ## Changes of no account -/

/-- A change to a document that leaves every look-up alone. -/
inductive Inessential : Document → Document → Prop where
  /-- an operation is left out -/
  | operation {xs ys : List Definition} {o : Operation} :
      Inessential ⟨xs ++ .operation o :: ys⟩ ⟨xs ++ ys⟩
  /-- a fragment is left out that a later one of the same name shadows -/
  | shadowed {xs ys : List Definition} {f g : Fragment} (hg : .fragment g ∈ ys)
      (hname : g.name = f.name) : Inessential ⟨xs ++ .fragment f :: ys⟩ ⟨xs ++ ys⟩
  /-- the definitions are put in another order, the place `i` now being taken by what stood at
  `σ i`; fragments of one name stay in their order -/
  | rearranged {xs : List Definition} (σ : Equiv.Perm (Fin xs.length))
      (hσ : ∀ i j f g, i < j → xs.get (σ i) = .fragment f → xs.get (σ j) = .fragment g →
        f.name = g.name → σ i < σ j) :
      Inessential ⟨xs⟩ ⟨List.ofFn fun i => xs.get (σ i)⟩

namespace Inessential

open Document

variable {d d' : Document} {n : Name} {f : Fragment} {i : Nat} {xs ys : List Definition}

/-- What is last of its name is so wherever it is put, if those of one name stay in order. -/
theorem isLast_rearranged {σ : Equiv.Perm (Fin xs.length)}
    (hσ : ∀ i j f g, i < j → xs.get (σ i) = .fragment f → xs.get (σ j) = .fragment g →
      f.name = g.name → σ i < σ j) (h : (⟨xs⟩ : Document).IsLast n i f) :
    ∃ j, (⟨List.ofFn fun i => xs.get (σ i)⟩ : Document).IsLast n j f := by
  obtain ⟨hhere, hname, hlater⟩ := h
  obtain ⟨hi, hget⟩ := List.getElem?_eq_some_iff.1 hhere
  have hback : σ (σ.symm ⟨i, hi⟩) = ⟨i, hi⟩ := σ.apply_symm_apply _
  refine ⟨σ.symm ⟨i, hi⟩, ?_, hname, ?_⟩
  · rw [List.getElem?_ofFn, dif_pos (Fin.is_lt _), Fin.eta, hback]
    exact congrArg some hget
  · intro j g hj hg hgn
    obtain ⟨hlt, hgj⟩ := List.getElem?_eq_some_iff.1 hg
    rw [List.length_ofFn] at hlt
    rw [List.getElem_ofFn] at hgj
    -- what follows in the new order followed before, since the names are equal
    have horder : σ (σ.symm ⟨i, hi⟩) < σ ⟨j, hlt⟩ := by
      refine hσ _ _ f g hj ?_ hgj (hname.trans hgn.symm)
      rw [hback]
      exact hget
    rw [hback] at horder
    refine hlater (σ ⟨j, hlt⟩) g horder ?_ hgn
    rw [List.getElem?_eq_getElem (Fin.is_lt _)]
    exact congrArg some hgj

/-- **Step lemma**: a change of no account leaves every look-up alone. -/
theorem lastFragment?_eq (h : Inessential d d') (n : Name) :
    d'.lastFragment? n = d.lastFragment? n := by
  cases h with
  | @operation xs ys o =>
    rw [List.append_cons, lastFragment?_append, lastFragment?_append, lastFragment?_append,
      lastFragment?_singleton_of_ne fun _ hg => Definition.noConfusion hg, Option.none_or]
  | @shadowed xs ys f g hg hname =>
    rw [List.append_cons, lastFragment?_append, lastFragment?_append, lastFragment?_append]
    by_cases hn : f.name = n
    · -- the name is found in the later part already
      have hfound : ∃ f, (⟨ys⟩ : Document).lastFragment? n = some f :=
        exists_lastFragment?_iff.2 ⟨g, mem_fragments_iff.2 hg, hname.trans hn⟩
      obtain ⟨f, hf⟩ := hfound
      rw [hf, Option.some_or, Option.some_or]
    · have hne : ∀ k, Definition.fragment f = .fragment k → k.name ≠ n := by
        rintro k hk rfl
        exact hn (by rw [Definition.fragment.inj hk])
      rw [lastFragment?_singleton_of_ne hne, Option.none_or]
  | @rearranged xs σ hσ =>
    cases hf : (⟨xs⟩ : Document).lastFragment? n with
    | some f =>
      obtain ⟨i, hi⟩ := lastFragment?_eq_some_iff.1 hf
      exact lastFragment?_eq_some_iff.2 (isLast_rearranged hσ hi)
    | none =>
      refine lastFragment?_eq_none_iff.2 fun g hg => ?_
      obtain ⟨i, hi⟩ := List.mem_ofFn.1 (mem_fragments_iff.1 hg)
      have hmem : g ∈ (⟨xs⟩ : Document).fragments := mem_fragments_iff.2 (hi ▸ List.get_mem xs _)
      exact lastFragment?_eq_none_iff.1 hf g hmem

/-- **Run lemma**: any number of such changes leaves the table as it was. -/
theorem table_eq (h : Relation.ReflTransGen Inessential d d') : d'.table = d.table := by
  induction h with
  | refl => rfl
  | tail _ hstep ih => exact (table_eq_of_lastFragment?_eq hstep.lastFragment?_eq).trans ih

end Inessential

namespace Document

/-- **The table shows the last definitions.**

* Under a name stands the fragment that is defined last among those of that name, and nothing if
  there is none; `fragmentPlace?` tells its place. There is one entry for each name of a fragment.
* Of two parts of a document the later overrides the earlier.
* The table stays the same if operations are left out, or fragments that a later one of their name
  shadows, or if definitions change places in a way that keeps those of one name in order. -/
theorem table_shows_last_definitions (d : Document) :
    (∀ n f, d.table.get? n = some f ↔ ∃ i, d.IsLast n i f) ∧
    (∀ n, d.table.get? n = none ↔ ∀ f, .fragment f ∈ d.definitions → f.name ≠ n) ∧
    (∀ n i, d.fragmentPlace? n = some i ↔ ∃ f, d.IsLast n i f) ∧
    d.table.size = d.fragmentNames.length ∧
    (∀ xs ys, d.definitions = xs ++ ys → ∀ n, d.table.get? n =
      ((⟨ys⟩ : Document).table.get? n).or ((⟨xs⟩ : Document).table.get? n)) ∧
    ∀ d', Relation.ReflTransGen Inessential d d' → d'.table = d.table := by
  refine ⟨?_, ?_, ?_, d.size_table, ?_, fun d' h => Inessential.table_eq h⟩
  · intro n f
    rw [get?_table]
    exact lastFragment?_eq_some_iff
  · intro n
    rw [get?_table, lastFragment?_eq_none_iff]
    simp only [mem_fragments_iff]
  · intro n i
    exact fragmentPlace?_eq_some_iff
  · intro xs ys h n
    obtain ⟨ds⟩ := d
    obtain rfl : ds = xs ++ ys := h
    rw [get?_table, get?_table, get?_table, lastFragment?_append]

/-- A fragment that was revised, with an operation of the same name after it. -/
def patched : Document := ⟨[
  .fragment ⟨"A", "T", [.field none "old" []]⟩,
  .fragment ⟨"A", "T", [.field none "new" []]⟩,
  .operation ⟨.query, some "A", [.spread "A"]⟩,
  .fragment ⟨"B", "T", [.spread "A"]⟩]⟩

/-- The same without what does not count, in another order. -/
def tidied : Document := ⟨[
  .fragment ⟨"B", "T", [.spread "A"]⟩,
  .fragment ⟨"A", "T", [.field none "new" []]⟩]⟩

theorem table_shows_last_definitions_patched :
    patched.IsLast "A" 1 ⟨"A", "T", [.field none "new" []]⟩ ∧
    patched.table.get? "A" = some ⟨"A", "T", [.field none "new" []]⟩ ∧
    patched.fragmentPlace? "A" = some 1 ∧ patched.table.get? "Q" = none ∧
    patched.table.size = 2 ∧
    Relation.ReflTransGen Inessential patched tidied ∧ tidied.table = patched.table := by
  obtain ⟨hget, hnone, hplace, hsize, -, hsame⟩ := table_shows_last_definitions patched
  have hlast : patched.IsLast "A" 1 ⟨"A", "T", [.field none "new" []]⟩ := by
    refine ⟨rfl, rfl, fun j g hj hg => ?_⟩
    match j with
    | 2 => cases hg
    | 3 =>
      cases hg
      decide
  have habsent : ∀ f, .fragment f ∈ patched.definitions → f.name ≠ "Q" := by
    simp [patched]
  have hshadowed : Inessential patched ⟨patched.definitions.tail⟩ :=
    @Inessential.shadowed [] _ _ ⟨"A", "T", [.field none "new" []]⟩ (by simp) rfl
  have hoperation : Inessential ⟨patched.definitions.tail⟩ ⟨tidied.definitions.reverse⟩ :=
    @Inessential.operation [.fragment ⟨"A", "T", [.field none "new" []]⟩] _ _
  have hrearranged : Inessential ⟨tidied.definitions.reverse⟩ tidied := by
    refine @Inessential.rearranged tidied.definitions.reverse (Fin.revPerm (n := 2)) ?_
    intro i j f g hij hf hg hname
    fin_cases i <;> fin_cases j
    · exact absurd hij (by decide)
    · cases hf
      cases hg
      exact absurd hname (by decide)
    · exact absurd hij (by decide)
    · exact absurd hij (by decide)
  have hchanges : Relation.ReflTransGen Inessential patched tidied :=
    ((Relation.ReflTransGen.single hshadowed).tail hoperation).tail hrearranged
  exact ⟨hlast, (hget _ _).2 ⟨1, hlast⟩, (hplace _ _).2 ⟨_, hlast⟩, (hnone _).2 habsent,
    hsize.trans (by decide), hchanges, hsame tidied hchanges⟩

end Document

end QueryFragments
