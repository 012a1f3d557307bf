/-! Limits that a parser keeps to. -/

namespace CodePattern

/-- The largest file that is read, and the time for one parse, where zero stands for no
limit. -/
structure ParserConfig where
  maxTargetBytes : Nat
  parseTimeoutMicros : Nat
  deriving DecidableEq, Repr

def ParserConfig.default : ParserConfig := ⟨8 * 1024 * 1024, 0⟩

end CodePattern
