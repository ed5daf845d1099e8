/-!
# The numbers a program computes with

A program is indifferent to the width of its numbers until a sum or a product
leaves it. So the width is a parameter of the whole language: a number type is
anything that stands for some of the integers and can say which, and every rule
of evaluation is written once over it.

Two number types matter. `Int64` is what programs run on; `Int` stands for every
integer and is what the same program means when nothing overflows. Since both
read the same rules, comparing them is comparing two instances.
-/

namespace WhileLang

/-- A type of numbers: each stands for one integer, and `ofInt?` finds the number
that stands for a given integer, if there is one. -/
class Arithmetic (ν : Type) where
  /-- The integer a number stands for. -/
  toInt : ν → Int
  /-- The number that stands for an integer, where the type has one. -/
  ofInt? : Int → Option ν
  /-- The two directions agree. -/
  ofInt?_eq_some_iff : ∀ {i : Int} {a : ν}, ofInt? i = some a ↔ toInt a = i

namespace Arithmetic

variable {ν : Type} [Arithmetic ν]

@[simp]
theorem ofInt?_toInt (a : ν) : ofInt? (toInt a) = some a :=
  ofInt?_eq_some_iff.mpr rfl

/-- No integer has two numbers. -/
theorem toInt_inj {a b : ν} : toInt a = toInt b ↔ a = b := by
  constructor
  · intro h
    have := ofInt?_toInt a
    rw [h, ofInt?_toInt b] at this
    exact (Option.some.inj this).symm
  · exact congrArg toInt

theorem ofInt?_eq_none_iff {i : Int} :
    (ofInt? i : Option ν) = none ↔ ∀ a : ν, toInt a ≠ i := by
  constructor
  · intro h a ha
    rw [← ofInt?_eq_some_iff, h] at ha
    exact absurd ha (by simp)
  · intro h
    cases hi : (ofInt? i : Option ν) with
    | none => rfl
    | some a => exact absurd (ofInt?_eq_some_iff.mp hi) (h a)

end Arithmetic

/-- The integers themselves: no operation can fail. -/
instance : Arithmetic Int where
  toInt i := i
  ofInt? i := some i
  ofInt?_eq_some_iff := by simp [eq_comm]

/-- The 64-bit words in two's complement stand for the integers from `-2^63` to
`2^63 - 1`. -/
instance : Arithmetic Int64 where
  toInt := Int64.toInt
  ofInt? i :=
    if Int64.minValue.toInt ≤ i ∧ i ≤ Int64.maxValue.toInt then some (Int64.ofInt i) else none
  ofInt?_eq_some_iff := by
    intro i a
    constructor
    · intro h
      split at h
      · next hi =>
        cases h
        have hlow := hi.1
        have hhigh := hi.2
        rw [Int64.toInt_minValue] at hlow
        rw [Int64.toInt_maxValue] at hhigh
        exact Int64.toInt_ofInt_of_le hlow (Int.lt_of_le_sub_one hhigh)
      · exact absurd h (by simp)
    · rintro rfl
      rw [if_pos ⟨a.minValue_le_toInt, a.toInt_le⟩, Int64.ofInt_toInt]

end WhileLang
