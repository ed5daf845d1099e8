/-!
# Names and their order

A variable's name is any Unicode text, the empty one included, and two names are
the same only if they are the same text: nothing is normalised. Wherever an order
of names shows, it is the order of their UTF-8 bytes, which no locale changes.
-/

namespace WhileLang

abbrev Name := String

namespace Name

/-- The bytes of a name in UTF-8, the key it is sorted by. -/
def bytes (x : Name) : List UInt8 :=
  x.toByteArray.data.toList

/-- A name precedes another when its bytes come first in lexicographic order. -/
def Precedes (x y : Name) : Prop :=
  x.bytes < y.bytes

instance (x y : Name) : Decidable (Precedes x y) :=
  inferInstanceAs (Decidable (x.bytes < y.bytes))

theorem bytes_inj {x y : Name} : x.bytes = y.bytes ↔ x = y := by
  constructor
  · intro h
    exact String.toByteArray_inj.mp (ByteArray.ext (Array.ext' h))
  · exact congrArg bytes

theorem Precedes.trans {x y z : Name} (h : Precedes x y) (h' : Precedes y z) :
    Precedes x z :=
  List.lt_trans h h'

theorem Precedes.irrefl (x : Name) : ¬ Precedes x x :=
  List.lt_irrefl _

theorem Precedes.asymm {x y : Name} (h : Precedes x y) : ¬ Precedes y x :=
  List.lt_asymm h

theorem Precedes.ne {x y : Name} (h : Precedes x y) : x ≠ y := by
  rintro rfl
  exact Precedes.irrefl x h

/-- Of two different names one precedes the other. -/
theorem precedes_of_not_precedes {x y : Name} (h : ¬ Precedes x y) (hne : x ≠ y) :
    Precedes y x := by
  apply Decidable.byContradiction
  intro h'
  exact hne (bytes_inj.mp (Std.Trichotomous.trichotomous (r := (· < ·)) _ _ h h'))

end Name

end WhileLang
