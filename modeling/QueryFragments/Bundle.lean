import QueryFragments.Resolution

/-!
# Bundles

The document that is sent for one operation: the operation, and after it every definition
of a fragment that it needs, in document order. A name that is defined more than once is
sent with all its definitions.
-/

namespace QueryFragments

/-- Whether a definition defines a fragment with one of the names. -/
def Definition.isFragmentIn (names : NameSet) : Definition → Bool
  | .operation _ => false
  | .fragment f => names.contains f.name

@[simp] theorem Definition.isFragmentIn_operation (names : NameSet) (o : Operation) :
    (operation o).isFragmentIn names = false := rfl

@[simp] theorem Definition.isFragmentIn_fragment (names : NameSet) (f : Fragment) :
    (fragment f).isFragmentIn names = decide (f.name ∈ names) := by
  simp [isFragmentIn, ← NameSet.contains_iff_mem]

namespace Document

/-- The document to send for an operation, which may be one of this document's or not. -/
def bundleFor (d : Document) (o : Operation) : Run Document := do
  let names ← o.dependencies d
  let kept := d.definitions.filter (·.isFragmentIn names)
  .emit (.bundled kept.length)
  pure ⟨.operation o :: kept⟩

/-- The document to send for the operation of the given name, or for the lone operation
if none is given. -/
def bundle (d : Document) (name? : Option Name) : Run Document := do
  let o ← .ofResult (d.operation name?)
  d.bundleFor o

end Document

end QueryFragments
