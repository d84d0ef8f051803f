-- SUMMARY: The power and the zero of natural numbers, the same in every module.

/-!
# Naturals

Keys, levels and counts are natural numbers of the core library. Its power and its zero are preferred here to those that come
with algebra, so that `8 ^ n` and the sum of a list are the same terms in modules that import algebra and in those that do not.
-/

attribute [instance (20000), default_instance 20000] instPowNat

namespace CurvePartition

instance (priority := 20000) instZeroNat : Zero Nat := Zero.ofOfNat0

end CurvePartition
