import Std.Data.ExtTreeMap
import MiniC.Scalar

/-!
# Addresses

Cells are found by their address. Addresses are whole numbers as long as blocks have whole sizes,
but any plain value can be one: numbers that are equal are one address, whatever their form, and a
text is an address of its own.
-/

namespace MiniC

structure Address where
  /-- Zero for whole numbers, one for other doubles, two for texts, three for nothing. -/
  rank : Nat
  number : Int
  text : String
  deriving DecidableEq

namespace Address

def whole (n : Int) : Address := ⟨0, n, ""⟩

def ofScalar : Scalar → Address
  | .nothing => ⟨3, 0, ""⟩
  | .bool b => whole (if b then 1 else 0)
  | .int n => whole n
  | .real x =>
    match Decimal.shape x with
    | .finite p => if p.isWhole then whole p.truncate else ⟨1, x.toBits.toNat, ""⟩
    | _ => ⟨1, x.toBits.toNat, ""⟩
  | .text s => ⟨2, 0, s⟩

def compare : Address → Address → Ordering :=
  compareLex (compareOn rank) (compareLex (compareOn number) (compareOn text))

instance : Std.TransCmp Address.compare :=
  inferInstanceAs
    (Std.TransCmp (compareLex (compareOn rank) (compareLex (compareOn number) (compareOn text))))

instance : Std.LawfulEqCmp Address.compare where
  compare_self := Std.ReflCmp.compare_self
  eq_of_compare {a b} h := by
    simp [Address.compare, compareLex_eq_eq, compareOn] at h
    cases a
    cases b
    simp_all

end Address

abbrev AddressMap (α : Type) := Std.ExtTreeMap Address α Address.compare

end MiniC
