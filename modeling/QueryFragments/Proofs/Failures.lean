import Mathlib
import QueryFragments.Proofs.Dependencies
import QueryFragments.Proofs.Trail

/-!
# Failures carry true evidence

A resolution that fails names the fragment at fault and, for a cycle, shows the path that led
to it. What it says is true of the document, however many fragments were opened and closed
before.

* `Document.Loops`: what a path has to be to show a cycle,
* `Document.resolve?_error_evidence`: a failure is about an undefined name that is reached, or
  shows a path that loops; there is no third kind, and where names are plain the path can be
  read off the context.
-/

namespace QueryFragments

/-- A name on a chain, other than its end, is defined. -/
theorem Spreads.exists_of_isChain {look : Name → Option Fragment} {path : List Name} {n m : Name}
    (h : List.IsChain (Spreads look) (path ++ [n])) (hm : m ∈ path) : ∃ f, look m = some f := by
  obtain ⟨before, after, rfl⟩ := List.append_of_mem hm
  rw [List.append_assoc] at h
  obtain ⟨f, hf, -⟩ := Reaches.of_isChain (m := n) h.right_of_append (by simp)
  exact ⟨f, hf⟩

namespace Document

/-- The fragments on the path are opened one inside the other, from the selection set on, and
the last of them spreads the name `n`, which is on the path already. -/
structure Loops (d : Document) (selections : List Selection) (path : List Name) (n : Name) :
    Prop where
  /-- no name stands on the path twice -/
  nodup : path.Nodup
  /-- every name on the path is defined -/
  defined : ∀ m ∈ path, ∃ f ∈ d.fragments, f.name = m
  /-- the selection set spreads the first name -/
  starts : ∃ first ∈ Selection.spreadsIn selections, path.head? = some first
  /-- the last definition of each name spreads the next one, and that of the last one `n` -/
  chain : List.IsChain (Spreads d.lastFragment?) (path ++ [n])
  /-- the name spread last is on the path -/
  returns : n ∈ path

variable {d : Document} {selections : List Selection} {e : Failure}

/-- A failure of a resolution has evidence. -/
theorem evidence_of_resolve_error (h : (d.resolve selections).result = .error e) :
    Evidence d.lastFragment? [] (Selection.spreadsIn selections) e := by
  have hhead := (d.resolve_outcome selections).error_iff.1 h
  rw [← get?_table]
  exact FragmentTable.evidence_of_mem_flatMap (List.mem_of_mem_head? hhead)

/-- Evidence of a cycle, with nothing open at the start, is a path that loops. -/
theorem loops_of_evidence {path : List Name} {n : Name}
    (h : Evidence d.lastFragment? [] (Selection.spreadsIn selections) (.spreadCycle path n)) :
    d.Loops selections path n := by
  cases h with
  | @cycle tail _ first hfirst hhead hchain hnodup hn =>
    refine ⟨hnodup, fun m hm => ?_, ⟨first, hfirst, ?_⟩, hchain, hn⟩
    · exact exists_lastFragment?_iff.1 (Spreads.exists_of_isChain hchain hm)
    · -- the path is not empty, since the name spread last is on it
      cases tail with
      | nil => exact absurd hn List.not_mem_nil
      | cons m tail => exact hhead

/-- **Failures are true and complete.** A failure is worded in one of two ways. Either it names
a fragment that is reached and has no definition, and there is no context; or it names a
fragment that is spread within itself, and the context shows the path that loops, with arrows
between the names. If the fragments of the document have plain names, splitting the context at
the arrows gives back the path and the name. -/
theorem resolve?_error_evidence (h : (d.resolve? (some selections)).result = .error e) :
    (∃ n, e.diagnostic = ⟨"Unknown fragment \"" ++ n ++ "\"", none, .missingFragment⟩ ∧
      Reaches d.lastFragment? (Selection.spreadsIn selections) n ∧
      ∀ f ∈ d.fragments, f.name ≠ n) ∨
    ∃ path n context, e.diagnostic =
        ⟨"Cannot spread fragment \"" ++ n ++ "\" within itself", some context, .fragmentCycle⟩ ∧
      context = " -> ".intercalate (path ++ [n]) ∧ d.Loops selections path n ∧
      ((∀ f ∈ d.fragments, ∀ c ∈ f.name.toList, Name.isRest c = true) →
        (context.split " -> ").toList.map String.Slice.copy = path ++ [n]) := by
  rw [resolve?_some] at h
  have hev := evidence_of_resolve_error h
  cases e with
  | noOperation => cases hev
  | ambiguousOperation => cases hev
  | unknownOperation => cases hev
  | undefinedFragment n =>
    obtain ⟨hr, hn⟩ := hev
    exact .inl ⟨n, rfl, hr, lastFragment?_eq_none_iff.1 hn⟩
  | spreadCycle path n =>
    have hloops : d.Loops selections path n := loops_of_evidence hev
    refine .inr ⟨path, n, trail path n, rfl, rfl, hloops, fun hplain => split_trail ?_⟩
    -- every name shown is the name of a fragment
    intro m hm
    have hm' : m ∈ path := by
      rcases List.mem_append.1 hm with hm | hm
      · exact hm
      · exact List.mem_singleton.1 hm ▸ hloops.returns
    obtain ⟨f, hf, rfl⟩ := hloops.defined m hm'
    exact hplain f hf

/-- Two fragments that spread each other, one inside a field, one inside a fragment written in
place. -/
def looping : Document := ⟨[
  .fragment ⟨"A", "T", [.field none "a" [.spread "B"]]⟩,
  .fragment ⟨"B", "T", [.inlineFragment none [.spread "A"]]⟩]⟩

theorem resolve?_error_evidence_looping :
    ∃ e, (looping.resolve? (some [.field none "x" [.spread "A"]])).result = .error e ∧
      ∃ path n context, e.diagnostic =
          ⟨"Cannot spread fragment \"" ++ n ++ "\" within itself", some context,
            .fragmentCycle⟩ ∧
        context = " -> ".intercalate (path ++ [n]) ∧
        looping.Loops [.field none "x" [.spread "A"]] path n ∧
        (context.split " -> ").toList.map String.Slice.copy = path ++ [n] := by
  have h : (looping.resolve? (some [.field none "x" [.spread "A"]])).result =
      .error (.spreadCycle ["A", "B"] "A") := by cbv
  have hplain : ∀ f ∈ looping.fragments, ∀ c ∈ f.name.toList, Name.isRest c = true := by
    simp [looping, fragments, Name.isRest, Name.isStart]
  refine ⟨_, h, ?_⟩
  rcases resolve?_error_evidence h with ⟨n, hd, -⟩ | ⟨path, n, context, hd, hc, hloops, hsplit⟩
  · cases congrArg Diagnostic.category hd
  · exact ⟨path, n, context, hd, hc, hloops, hsplit hplain⟩

end Document

end QueryFragments
