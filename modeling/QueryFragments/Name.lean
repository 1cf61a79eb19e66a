/-!
# Names and their order

Operations, fragments, fields and types are called by names. A name is any text,
the empty one included.

* `Name.bytes`: the UTF-8 bytes of a name; they determine it (`Name.bytes_inj`).
* `Name.Before`: the **byte order**. It is strict and total, so a list that ascends
  in it is the only such list of its members.
* `Name.isStart`, `Name.isRest`: the characters of **plain** names, the only ones that can be
  written in a source text.
-/

namespace QueryFragments

/-- What an operation, a fragment, a field or a type is called. -/
abbrev Name : Type := String

namespace Name

/-- The UTF-8 bytes of a name, first to last. -/
def bytes (n : Name) : List UInt8 := n.toByteArray.data.toList

/-- A name is determined by its bytes. -/
theorem bytes_inj {a b : Name} : a.bytes = b.bytes ↔ a = b := by
  constructor
  · intro h
    exact String.toByteArray_inj.1 (ByteArray.ext (Array.toList_inj.1 h))
  · rintro rfl
    rfl

/-- The byte order: `a` stands before `b` in every listing of names. -/
def Before (a b : Name) : Prop := a.bytes < b.bytes

instance (a b : Name) : Decidable (a.Before b) :=
  inferInstanceAs (Decidable (a.bytes < b.bytes))

/-- No name stands before itself. -/
theorem Before.irrefl (a : Name) : ¬ a.Before a := List.lt_irrefl a.bytes

theorem Before.trans {a b c : Name} (hab : a.Before b) (hbc : b.Before c) : a.Before c :=
  List.lt_trans hab hbc

theorem Before.asymm {a b : Name} (hab : a.Before b) : ¬ b.Before a :=
  fun hba => Before.irrefl a (hab.trans hba)

theorem Before.ne {a b : Name} (hab : a.Before b) : a ≠ b := by
  rintro rfl
  exact Before.irrefl a hab

/-- **Totality**: two names neither of which stands before the other are one name. -/
theorem eq_of_not_before {a b : Name} (hab : ¬ a.Before b) (hba : ¬ b.Before a) : a = b :=
  bytes_inj.1 (List.le_antisymm (List.not_lt.1 hba) (List.not_lt.1 hab))

/-- Of two different names, the one that does not stand before the other stands after it. -/
theorem before_of_ne {a b : Name} (hne : a ≠ b) (hab : ¬ a.Before b) : b.Before a :=
  Classical.byContradiction fun hba => hne (eq_of_not_before hab hba)

/-! ## Plain names -/

/-- Whether a character can start a plain name: an ASCII letter or the underscore. -/
def isStart (c : Char) : Bool := c = '_' || c.isAlpha

/-- Whether a character can go on a plain name: one that can start it, or an ASCII digit. -/
def isRest (c : Char) : Bool := isStart c || c.isDigit

end Name

end QueryFragments
