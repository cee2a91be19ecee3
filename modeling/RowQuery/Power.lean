/-!
Powers of numbers. They are those that natural numbers and integers have of themselves, also where numbers
are known as a monoid, which has powers too.
-/

namespace RowQuery

@[default_instance 20000]
instance (priority := 2000) power {α : Type} [NatPow α] : Pow α Nat := instPowNat

end RowQuery
