/-!
# Machine settings
-/

namespace LispMachine

/-- Settings of one machine. A machine with no arena limit grows without bound. -/
structure Config where
  arenaSize : Nat := 1024
  maxArenas : Option Nat := none
  maxFrames : Nat := 10000
  collects : Bool := true
  gcThreshold : Nat := 0
  trace : Bool := false
deriving DecidableEq, Inhabited

end LispMachine
