import RowQuery.Decimal.Conversion
import RowQuery.Value

/-!
Numbers of any type, brought to one of three forms so that they can be compared and converted: an exact
integer, a binary fraction, or a decimal. Characters and members of enumerations count as the integers
they stand for.
-/

namespace RowQuery

/-- A number in one of three forms. -/
inductive Number where
  | int (n : Int)
  | float (x : Double)
  | decimal (d : Decimal)

namespace Number

/-- The number that a value stands for. -/
def ofValue? : Value → Option Number
  | .int _ n => some (.int n.val)
  | .char c => some (.int c.toNat)
  | .enum _ n => some (.int n.val)
  | .single x => some (.float x.convert)
  | .double x => some (.float x)
  | .decimal d => some (.decimal d)
  | _ => none

/-- The nearest binary fraction. -/
def toDouble : Number → Double
  | int n => Binary.ofInt n
  | float x => x
  | decimal d => d.toDouble

/-- The order of an integer and a decimal. -/
def compareInt (n : Int) (d : Decimal) : Ordering :=
  Ord.compare (n * 10 ^ d.scale) d.signedMantissa

/-- The order of two numbers. Where one is a binary fraction both are taken as such, in the total order
of their bit patterns. -/
def compare : Number → Number → Ordering
  | int a, int b => Ord.compare a b
  | decimal a, decimal b => a.compare b
  | int a, decimal b => compareInt a b
  | decimal a, int b => (compareInt b a).swap
  | a, b => Ord.compare a.toDouble.rank b.toDouble.rank

end Number

end RowQuery
