/-!
# Powers

Powers of naturals and integers are the built-in ones. They stay so where an algebraic structure
provides powers of its own, so that a numeral such as `2 ^ 52` means one thing everywhere.
-/

namespace Telemetry

/-- Powers of naturals. -/
@[default_instance 20000] instance (priority := 20000) natPower : Pow Nat Nat := instPowNat

/-- Powers of integers. -/
@[default_instance 15000] instance (priority := 20000) intPower : Pow Int Nat := instPowNat

end Telemetry
