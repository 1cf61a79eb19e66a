import Mathlib.Data.List.Forall2
import QueryFragments.Source.Reduce

/-!
# What reduction keeps

Reducing a written document drops places, arguments, directives and variables, and nothing
else.

* **Nothing is out of reach**: every document, of any shape, is the reduction of a written one,
  which `Source.Document.ofDocument` gives (`Document.reduce_ofDocument`).
* **Nothing else is lost**: two written documents have the same reduction exactly if they
  *agree* (`Document.reduce_eq_iff`). Agreement compares two trees node by node and looks at all
  that is written except the parts to be dropped; a bare selection set is read in full first.

The two documents need not note their places in the same way.
-/

namespace QueryFragments.Source

variable {Place Place' : Type}

/-! ## Agreement -/

/-- The selections are of one kind, with the same name, alias and type condition, and what
stands below them agrees one by one. Places, arguments and directives may differ. -/
inductive Selection.Agrees : Selection Place → Selection Place' → Prop where
  /-- fields with one alias, or both without, and one name -/
  | field {place : Place} {place' : Place'} {alias? : Option Name} {name : Name}
      {arguments arguments' : List Argument} {directives : List (Directive Place)}
      {directives' : List (Directive Place')} {below : List (Selection Place)}
      {below' : List (Selection Place')} (hbelow : List.Forall₂ Agrees below below') :
      Agrees (.field place alias? name arguments directives below)
        (.field place' alias? name arguments' directives' below')
  /-- spreads of one name -/
  | spread {place : Place} {place' : Place'} {name : Name} {directives : List (Directive Place)}
      {directives' : List (Directive Place')} :
      Agrees (.spread place name directives) (.spread place' name directives')
  /-- fragments written in place for one type, or both for all -/
  | inlineFragment {place : Place} {place' : Place'} {typeCondition? : Option Name}
      {directives : List (Directive Place)} {directives' : List (Directive Place')}
      {below : List (Selection Place)} {below' : List (Selection Place')}
      (hbelow : List.Forall₂ Agrees below below') :
      Agrees (.inlineFragment place typeCondition? directives below)
        (.inlineFragment place' typeCondition? directives' below')

/-- A definition with the shorthand written out: a bare selection set is a query without a
name. -/
def Definition.inFull : Definition Place → Definition Place
  | .shorthand place selections => .query ⟨place, none, [], [], selections⟩
  | d => d

/-- The operations have one name, or both none, and what they request agrees one by one. Places,
variables and directives may differ. -/
@[mk_iff]
structure Operation.Agrees (o : Operation Place) (o' : Operation Place') : Prop where
  /-- one name, or none -/
  name?_eq : o.name? = o'.name?
  /-- the same is requested -/
  selections : List.Forall₂ Selection.Agrees o.selections o'.selections

/-- The fragments have one name and apply to one type, and what they select agrees one by one.
Places and directives may differ. -/
@[mk_iff]
structure Fragment.Agrees (f : Fragment Place) (f' : Fragment Place') : Prop where
  /-- one name -/
  name_eq : f.name = f'.name
  /-- one type -/
  typeCondition_eq : f.typeCondition = f'.typeCondition
  /-- the same is selected -/
  selections : List.Forall₂ Selection.Agrees f.selections f'.selections

/-- The definitions are written in one way and agree. A bare selection set agrees with nothing:
it has to be read in full first. -/
@[mk_iff]
inductive Definition.Agrees : Definition Place → Definition Place' → Prop where
  /-- two queries -/
  | query {o : Operation Place} {o' : Operation Place'} (h : o.Agrees o') :
      Agrees (.query o) (.query o')
  /-- two mutations -/
  | mutation {o : Operation Place} {o' : Operation Place'} (h : o.Agrees o') :
      Agrees (.mutation o) (.mutation o')
  /-- two subscriptions -/
  | subscription {o : Operation Place} {o' : Operation Place'} (h : o.Agrees o') :
      Agrees (.subscription o) (.subscription o')
  /-- two fragments -/
  | fragment {f : Fragment Place} {f' : Fragment Place'} (h : f.Agrees f') :
      Agrees (.fragment f) (.fragment f')

/-- The definitions, read in full, agree one by one. -/
def Document.Agrees (d : Document Place) (d' : Document Place') : Prop :=
  List.Forall₂ (fun a b => a.inFull.Agrees b.inFull) d.definitions d'.definitions

/-! ## The same reduction -/

mutual

/-- Selections are reduced alike exactly if they agree. -/
theorem Selection.reduce_eq_iff :
    (s : Selection Place) → (t : Selection Place') → (s.reduce = t.reduce ↔ s.Agrees t)
  | .field _ _ _ _ _ below, .field _ _ _ _ _ below' => by
    rw [Selection.reduce, Selection.reduce, QueryFragments.Selection.field.injEq,
      Selection.reduceList_eq_iff below below']
    refine ⟨?_, ?_⟩
    · rintro ⟨rfl, rfl, hbelow⟩
      exact .field hbelow
    · intro h
      cases h with
      | field hbelow => exact ⟨rfl, rfl, hbelow⟩
  | .spread .., .spread .. => by
    rw [Selection.reduce, Selection.reduce, QueryFragments.Selection.spread.injEq]
    refine ⟨?_, ?_⟩
    · rintro rfl
      exact .spread
    · intro h
      cases h with
      | spread => rfl
  | .inlineFragment _ _ _ below, .inlineFragment _ _ _ below' => by
    rw [Selection.reduce, Selection.reduce, QueryFragments.Selection.inlineFragment.injEq,
      Selection.reduceList_eq_iff below below']
    refine ⟨?_, ?_⟩
    · rintro ⟨rfl, hbelow⟩
      exact .inlineFragment hbelow
    · intro h
      cases h with
      | inlineFragment hbelow => exact ⟨rfl, hbelow⟩
  -- selections of different kinds are reduced to such
  | .field .., .spread .. => by simp only [Selection.reduce]; exact ⟨nofun, nofun⟩
  | .field .., .inlineFragment .. => by simp only [Selection.reduce]; exact ⟨nofun, nofun⟩
  | .spread .., .field .. => by simp only [Selection.reduce]; exact ⟨nofun, nofun⟩
  | .spread .., .inlineFragment .. => by simp only [Selection.reduce]; exact ⟨nofun, nofun⟩
  | .inlineFragment .., .field .. => by simp only [Selection.reduce]; exact ⟨nofun, nofun⟩
  | .inlineFragment .., .spread .. => by simp only [Selection.reduce]; exact ⟨nofun, nofun⟩

/-- Selection sets are reduced alike exactly if they agree one by one. -/
theorem Selection.reduceList_eq_iff :
    (ss : List (Selection Place)) → (ts : List (Selection Place')) →
      (Selection.reduceList ss = Selection.reduceList ts ↔ List.Forall₂ Selection.Agrees ss ts)
  | [], [] => by simp [Selection.reduceList]
  | [], _ :: _ => by simp [Selection.reduceList]
  | _ :: _, [] => by simp [Selection.reduceList]
  | s :: ss, t :: ts => by
    rw [Selection.reduceList, Selection.reduceList, List.cons.injEq, List.forall₂_cons,
      Selection.reduce_eq_iff s t, Selection.reduceList_eq_iff ss ts]

end

/-- Reading a definition in full does not change its reduction. -/
@[simp] theorem Definition.reduce_inFull (d : Definition Place) : d.inFull.reduce = d.reduce := by
  cases d <;> rfl

/-- Operations in full are reduced alike exactly if they are of one kind and agree. -/
theorem Operation.reduce_eq_iff {kind kind' : OperationKind} {o : Operation Place}
    {o' : Operation Place'} :
    o.reduce kind = o'.reduce kind' ↔ kind = kind' ∧ o.Agrees o' := by
  rw [reduce, reduce, QueryFragments.Operation.mk.injEq, Selection.reduceList_eq_iff, agrees_iff]

/-- Fragments are reduced alike exactly if they agree. -/
theorem Fragment.reduce_eq_iff {f : Fragment Place} {f' : Fragment Place'} :
    f.reduce = f'.reduce ↔ f.Agrees f' := by
  rw [reduce, reduce, QueryFragments.Fragment.mk.injEq, Selection.reduceList_eq_iff, agrees_iff]

/-- Definitions are reduced alike exactly if they agree once they are read in full. -/
theorem Definition.reduce_eq_iff (d : Definition Place) (d' : Definition Place') :
    d.reduce = d'.reduce ↔ d.inFull.Agrees d'.inFull := by
  rw [← reduce_inFull d, ← reduce_inFull d']
  -- in full, definitions of different sorts are neither reduced alike nor do they agree
  cases d <;> cases d' <;>
    simp [inFull, reduce, agrees_iff, Operation.reduce_eq_iff, Fragment.reduce_eq_iff]

/-- Documents are reduced alike exactly if they agree. -/
theorem Document.reduce_eq_iff (d : Document Place) (d' : Document Place') :
    d.reduce = d'.reduce ↔ d.Agrees d' := by
  rw [reduce, reduce, QueryFragments.Document.mk.injEq, ← List.forall₂_eq_eq_eq,
    List.forall₂_map_left_iff, List.forall₂_map_right_iff, Agrees]
  simp only [Definition.reduce_eq_iff]

/-! ## Every document -/

mutual

/-- Writing a selection out and reducing it gives it back. -/
theorem Selection.reduce_ofSelection (place : Place) :
    (s : QueryFragments.Selection) → (Selection.ofSelection place s).reduce = s
  | .field alias? name below => by
    rw [Selection.ofSelection, Selection.reduce, Selection.reduceList_ofSelections place below]
  | .spread name => by rw [Selection.ofSelection, Selection.reduce]
  | .inlineFragment typeCondition? below => by
    rw [Selection.ofSelection, Selection.reduce, Selection.reduceList_ofSelections place below]

theorem Selection.reduceList_ofSelections (place : Place) :
    (ss : List QueryFragments.Selection) →
      Selection.reduceList (Selection.ofSelections place ss) = ss
  | [] => by rw [Selection.ofSelections, Selection.reduceList]
  | s :: ss => by
    rw [Selection.ofSelections, Selection.reduceList, Selection.reduce_ofSelection place s,
      Selection.reduceList_ofSelections place ss]

end

theorem Operation.reduce_ofOperation (place : Place) (o : QueryFragments.Operation) :
    (ofOperation place o).reduce o.kind = o := by
  rw [ofOperation, reduce, Selection.reduceList_ofSelections]

theorem Fragment.reduce_ofFragment (place : Place) (f : QueryFragments.Fragment) :
    (ofFragment place f).reduce = f := by
  rw [ofFragment, reduce, Selection.reduceList_ofSelections]

/-- Writing a definition out and reducing it gives it back: the keyword tells the kind. -/
theorem Definition.reduce_ofDefinition (place : Place) (d : QueryFragments.Definition) :
    (ofDefinition place d).reduce = d := by
  cases d with
  | fragment f => exact congrArg _ (Fragment.reduce_ofFragment place f)
  | operation o =>
    have ho := Operation.reduce_ofOperation place o
    obtain ⟨kind, name?, selections⟩ := o
    cases kind <;> exact congrArg _ ho

/-- Writing a document out and reducing it gives it back. -/
theorem Document.reduce_ofDocument (place : Place) (d : QueryFragments.Document) :
    (ofDocument place d).reduce = d := by
  have hid : Definition.reduce ∘ Definition.ofDefinition place = id :=
    funext (Definition.reduce_ofDefinition place)
  rw [ofDocument, reduce, List.map_map, hid, List.map_id]

/-- A definition that is written out has no shorthand in it. -/
theorem Definition.inFull_ofDefinition (place : Place) (d : QueryFragments.Definition) :
    (ofDefinition place d).inFull = ofDefinition place d := by
  cases d with
  | fragment f => rfl
  | operation o =>
    obtain ⟨kind, name?, selections⟩ := o
    cases kind <;> rfl

/-- **Reduction loses only what it may.** Every document is the reduction of the one that
`ofDocument` writes, in which no definition is a shorthand, so that each operation stands there
with the keyword of its kind and its optional name. And written documents have the same
reduction exactly if they agree on all but places, arguments, directives and variables, once
bare selection sets are read in full. -/
theorem Document.reduce_faithful :
    (∀ (place : Place) (d : QueryFragments.Document), (ofDocument place d).reduce = d ∧
      (ofDocument place d).definitions.map Definition.inFull = (ofDocument place d).definitions) ∧
    ∀ (d : Document Place) (d' : Document Place'), d.reduce = d'.reduce ↔ d.Agrees d' := by
  refine ⟨fun place d => ⟨reduce_ofDocument place d, ?_⟩, reduce_eq_iff⟩
  have hfull : Definition.inFull ∘ Definition.ofDefinition place = Definition.ofDefinition place :=
    funext (Definition.inFull_ofDefinition place)
  rw [ofDocument, List.map_map, hfull]

end QueryFragments.Source
