import TreeCode.Number

/-!
# Budgets of a run

A run may be limited in instructions and in time, and always in how deeply the host's functions may
call back. Time is nominal: every instruction takes the same span, so that a run and its outcome
depend on nothing but the program.
-/

namespace TreeCode

/-- **The budgets of a run.** -/
structure Limits where
  /-- The most instructions that may be executed. -/
  steps : Option Nat := none
  /-- The most nanoseconds that may pass. -/
  nanoseconds : Option Nat := none
  /-- The most dispatch loops that may run inside one another. -/
  depth : Nat := 128

namespace Limits

/-- The nominal time of one instruction, in nanoseconds. -/
def nanosecondsPerStep : Nat := 250

def nanosecondsPerSecond : Nat := 1000000000

/-- Seconds as whole nanoseconds; anything that is not finite and positive is no time at all. -/
def nanosecondsOf (seconds : Number) : Nat :=
  if seconds.isFinite && !seconds.isNegative then
    Number.roundDiv (seconds.magnitude * nanosecondsPerSecond) Number.unitsPerOne
  else 0

/-- Nanoseconds as seconds: the whole seconds, and the fraction added to them. -/
def secondsOf (nanoseconds : Nat) : Number :=
  (Number.ofNat (nanoseconds / nanosecondsPerSecond)).add
    ((Number.ofNat (nanoseconds % nanosecondsPerSecond)).divide
      (Number.ofNat nanosecondsPerSecond))

end Limits

end TreeCode
