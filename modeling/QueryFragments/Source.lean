import QueryFragments.Source.Grammar
import QueryFragments.Source.Reduce

/-!
# Documents from source text

Reading a source text and reducing it gives a document, or nothing if the text breaks the
grammar.
-/

namespace QueryFragments

/-- The document that a source text describes. -/
def Document.ofSource? (text : String) : Option Document :=
  (Source.Document.parse? text).map Source.Document.reduce

end QueryFragments
