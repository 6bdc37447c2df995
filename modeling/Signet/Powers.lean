/-!
Powers of natural numbers and of integers. A file that opens this scope reads `b ^ n` as the power
of the core library, whatever other powers it knows.
-/
namespace Signet.Powers

@[default_instance 10001]
scoped instance (priority := high) intPow : Pow Int Nat := @instPowNat Int Int.instNatPow

-- tried before the integers, so that a base of no known type is a natural number
@[default_instance 10002]
scoped instance (priority := high) natPow : Pow Nat Nat := @instPowNat Nat instNatPowNat

end Signet.Powers
