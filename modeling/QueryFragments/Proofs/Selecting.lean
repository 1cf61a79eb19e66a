import QueryFragments.Document

/-!
# Selecting an operation

An operation is selected by name, or as the lone one of its document. Both ways of selecting go
through the definitions themselves, and neither looks at the list of operations. They agree with
that list all the same:

* `Document.map_operation_operations`: the list is **the definitions without the fragments**,
* `Document.operation_none_eq`: the lone operation is the only one of the list,
* `Document.operation_some_eq`: the operation of a name is the **first** of the list that has it,
* `Document.operation_some_insert`: definitions of anything else may be put anywhere in a document
  and do not change which operation has a name,
* `Document.operation_agrees_with_operations`: all of it, with the wording of the failures.

The operations are also listed with their places among the definitions. That listing shows the
same list (`Document.map_fst_placedOperations`), and **each operation at its place**
(`Document.mem_placedOperations_iff`).
-/

namespace QueryFragments

namespace Document

variable {d : Document} {m : Name}

/-! ## The list of operations -/

/-- **The operations are the definitions without the fragments**, in document order: none is
lost, and none is listed twice. -/
theorem map_operation_operations (d : Document) :
    d.operations.map .operation = d.definitions.filter fun x => !x.isFragment := by
  rw [operations_eq_filterMap]
  induction d.definitions with
  | nil => rfl
  | cons x rest ih =>
    cases x with
    | operation o =>
      rw [List.filterMap_cons_some (Definition.operation?_operation o), List.map_cons, ih]
      rfl
    | fragment f =>
      rw [List.filterMap_cons_none (Definition.operation?_fragment f), ih]
      rfl

/-- The operations that are listed with places are those of the list, in its order. -/
theorem map_fst_placedOperations (d : Document) :
    d.placedOperations.map Prod.fst = d.operations :=
  calc d.placedOperations.map Prod.fst
    _ = d.definitions.zipIdx.filterMap (Definition.operation? ∘ Prod.fst) := by
      simp [placedOperations, List.map_filterMap, Function.comp_def]
    _ = (d.definitions.zipIdx.map Prod.fst).filterMap Definition.operation? := by
      rw [List.filterMap_map]
    _ = d.operations := by rw [List.zipIdx_map_fst, operations_eq_filterMap]

/-- An operation is listed at a place exactly if it is defined there. -/
theorem mem_placedOperations_iff {o : Operation} {place : Nat} :
    (o, place) ∈ d.placedOperations ↔ d.definitions[place]? = some (.operation o) := by
  rw [placedOperations, List.mem_filterMap]
  refine ⟨?_, ?_⟩
  · rintro ⟨⟨x, i⟩, hx, hxo⟩
    obtain ⟨o', ho', heq⟩ := Option.map_eq_some_iff.1 hxo
    obtain ⟨rfl, rfl⟩ := Prod.mk.inj heq
    rw [List.mk_mem_zipIdx_iff_getElem?.1 hx, Definition.operation?_eq_some_iff.1 ho']
  · intro h
    exact ⟨(.operation o, place), List.mk_mem_zipIdx_iff_getElem?.2 h, rfl⟩

/-- What is put between two parts of a document is listed between their operations. -/
theorem operations_append (xs ys : List Definition) :
    (⟨xs ++ ys⟩ : Document).operations =
      (⟨xs⟩ : Document).operations ++ (⟨ys⟩ : Document).operations := by
  rw [operations, operations, operations, List.filter_append, List.filterMap_append]

/-! ## The lone operation -/

/-- The lone operation is the only one of the list. -/
theorem operation_none_eq (d : Document) :
    d.operation none =
      match d.operations with
      | [] => .error .noOperation
      | [o] => .ok o
      | _ :: _ :: _ => .error .ambiguousOperation := by
  rw [operations_eq_filterMap]
  rfl

theorem operation_none_ok_iff {o : Operation} : d.operation none = .ok o ↔ d.operations = [o] := by
  rw [operation_none_eq]
  rcases d.operations with _ | ⟨first, _ | ⟨second, rest⟩⟩ <;> simp

/-- The wording of the failure for an empty list. -/
theorem noOperation_iff :
    (d.operation none).mapError Failure.diagnostic =
        .error ⟨"Document does not contain any operations", none, .lookup⟩ ↔
      d.operations = [] := by
  rw [operation_none_eq]
  rcases d.operations with _ | ⟨first, _ | ⟨second, rest⟩⟩
  · exact ⟨fun _ => rfl, fun _ => rfl⟩
  · exact ⟨nofun, nofun⟩
  · refine ⟨fun h => ?_, nofun⟩
    have hmessage := congrArg Diagnostic.message (Except.error.inj h)
    exact absurd hmessage (by decide)

/-- The wording of the failure for a list of two or more. -/
theorem ambiguousOperation_iff :
    (d.operation none).mapError Failure.diagnostic =
        .error ⟨"Document contains more than one operation, missing operation name", none,
          .lookup⟩ ↔
      2 ≤ d.operations.length := by
  rw [operation_none_eq]
  rcases d.operations with _ | ⟨first, _ | ⟨second, rest⟩⟩
  · refine ⟨fun h => ?_, nofun⟩
    have hmessage := congrArg Diagnostic.message (Except.error.inj h)
    exact absurd hmessage (by decide)
  · refine ⟨nofun, fun h => ?_⟩
    exact absurd h (by simp)
  · exact ⟨fun _ => by simp, fun _ => rfl⟩

/-! ## The operation of a name -/

/-- To look through the definitions for an operation of a name is to look through the list. -/
theorem findSome?_operationNamed? (d : Document) (m : Name) :
    d.definitions.findSome? (·.operationNamed? m) = d.operations.find? (·.name? = some m) := by
  rw [operations_eq_filterMap]
  induction d.definitions with
  | nil => rfl
  | cons x rest ih =>
    cases x with
    | fragment f =>
      rw [List.filterMap_cons_none (Definition.operation?_fragment f), ← ih]
      rfl
    | operation o =>
      rw [List.filterMap_cons_some (Definition.operation?_operation o), List.findSome?_cons, ih]
      by_cases ho : o.name? = some m
      · rw [List.find?_cons_of_pos (by simp [ho]), Definition.operationNamed?, if_pos ho]
      · rw [List.find?_cons_of_neg (by simp [ho]), Definition.operationNamed?, if_neg ho]

/-- The operation of a name is the first of the list that has it. -/
theorem operation_some_eq (d : Document) (m : Name) :
    d.operation (some m) =
      match d.operations.find? (·.name? = some m) with
      | some o => .ok o
      | none => .error (.unknownOperation m) := by
  rw [← findSome?_operationNamed?]
  rfl

/-- The wording of the failure if no operation of the list has the name. -/
theorem unknownOperation_iff :
    (d.operation (some m)).mapError Failure.diagnostic =
        .error ⟨"Operation with name " ++ m ++ " does not exist", none, .lookup⟩ ↔
      ∀ o ∈ d.operations, o.name? ≠ some m := by
  rw [operation_some_eq]
  cases h : d.operations.find? (·.name? = some m) with
  | none =>
    refine ⟨fun _ o ho hname => ?_, fun _ => rfl⟩
    exact List.find?_eq_none.1 h o ho (decide_eq_true hname)
  | some o =>
    have hname : o.name? = some m := by simpa using List.find?_some h
    refine ⟨nofun, fun hall => ?_⟩
    exact absurd hname (hall o (List.mem_of_find?_eq_some h))

/-- **Insertion**: whatever is no operation of the name may be put in anywhere. -/
theorem operation_some_insert {before inserted after : List Definition}
    (h : ∀ o, .operation o ∈ inserted → o.name? ≠ some m) :
    (⟨before ++ inserted ++ after⟩ : Document).operation (some m) =
      (⟨before ++ after⟩ : Document).operation (some m) := by
  have hnone : (⟨inserted⟩ : Document).operations.find? (·.name? = some m) = none := by
    rw [List.find?_eq_none]
    intro o ho hname
    rw [operations_eq_filterMap] at ho
    obtain ⟨x, hx, hxo⟩ := List.mem_filterMap.1 ho
    obtain rfl : x = .operation o := Definition.operation?_eq_some_iff.1 hxo
    exact h o hx (of_decide_eq_true hname)
  rw [operation_some_eq, operation_some_eq, operations_append, operations_append,
    operations_append, List.find?_append, List.find?_append, List.find?_append, hnone,
    Option.or_none]

/-! ## Agreement -/

/-- **Selection agrees with the list of operations.**

* The list is the document without its fragments.
* The lone operation is selected exactly if the list has one member. There are two failures, one
  for an empty list and one for a list of two or more.
* The operation selected by name is the first of the list that has a name and has this one. The
  failure, if there is none, tells the name.
* To put in fragments, operations without a name or operations of other names, at any place,
  never changes what a name selects. -/
theorem operation_agrees_with_operations (d : Document) :
    d.operations.map .operation = d.definitions.filter (fun x => !x.isFragment) ∧
    (∀ o, d.operation none = .ok o ↔ d.operations = [o]) ∧
    ((d.operation none).mapError Failure.diagnostic =
        .error ⟨"Document does not contain any operations", none, .lookup⟩ ↔
      d.operations = []) ∧
    ((d.operation none).mapError Failure.diagnostic =
        .error ⟨"Document contains more than one operation, missing operation name", none,
          .lookup⟩ ↔
      2 ≤ d.operations.length) ∧
    ∀ m, (∀ o, d.operation (some m) = .ok o ↔
        d.operations.find? (·.name? = some m) = some o) ∧
      ((d.operation (some m)).mapError Failure.diagnostic =
          .error ⟨"Operation with name " ++ m ++ " does not exist", none, .lookup⟩ ↔
        ∀ o ∈ d.operations, o.name? ≠ some m) ∧
      ∀ before inserted after, d.definitions = before ++ after →
        (∀ o, .operation o ∈ inserted → o.name? ≠ some m) →
        (⟨before ++ inserted ++ after⟩ : Document).operation (some m) = d.operation (some m) := by
  refine ⟨d.map_operation_operations, fun o => operation_none_ok_iff, noOperation_iff,
    ambiguousOperation_iff, fun m => ⟨fun o => ?_, unknownOperation_iff, ?_⟩⟩
  · rw [operation_some_eq]
    cases d.operations.find? (·.name? = some m) <;> simp
  · intro before inserted after hd hinserted
    obtain ⟨definitions⟩ := d
    obtain rfl : definitions = before ++ after := hd
    exact operation_some_insert hinserted

/-- Two operations are called `Q`, and so is a fragment; one operation has the empty name and
one has none. -/
def homonymous : Document := ⟨[
  .fragment ⟨"Q", "T", []⟩,
  .operation ⟨.query, none, []⟩,
  .operation ⟨.mutation, some "Q", []⟩,
  .operation ⟨.query, some "", []⟩,
  .operation ⟨.query, some "Q", []⟩]⟩

theorem operation_agrees_with_operations_homonymous :
    homonymous.operations.length = 4 ∧
      homonymous.operation (some "Q") = .ok ⟨.mutation, some "Q", []⟩ ∧
      homonymous.operation (some "") = .ok ⟨.query, some "", []⟩ ∧
      (⟨[.fragment ⟨"Q", "T", []⟩, .operation ⟨.query, some "P", []⟩, .fragment ⟨"P", "T", []⟩] ++
          homonymous.definitions.tail⟩ : Document).operation (some "Q") =
        .ok ⟨.mutation, some "Q", []⟩ := by
  obtain ⟨-, -, -, -, hnamed⟩ := operation_agrees_with_operations homonymous
  obtain ⟨hfirst, -, hinsert⟩ := hnamed "Q"
  have hQ : homonymous.operation (some "Q") = .ok ⟨.mutation, some "Q", []⟩ :=
    (hfirst _).2 (by decide)
  refine ⟨by decide, hQ, ((hnamed "").1 _).2 (by decide), ?_⟩
  rw [← hQ]
  refine hinsert [_] [.operation ⟨.query, some "P", []⟩, .fragment ⟨"P", "T", []⟩] _ rfl ?_
  intro o ho
  obtain rfl : o = ⟨.query, some "P", []⟩ := by simpa using ho
  decide

end Document

end QueryFragments
