/-!
# Totals

The sum of a list of numbers, in which the counters of this library are expressed. It is the sum of
the core library, under the instances that are found there.
-/

namespace TreePattern

/-- The numbers of a list added up. -/
def total (l : List Nat) : Nat := @List.sum Nat instAddNat Zero.ofOfNat0 l

end TreePattern
