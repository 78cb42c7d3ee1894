import Zap.Zapcore.Core

/-!
# The level of a core

`LevelOf` of `zapcore/level.go`, with the methods `Level` that cores override it by. A core
without such a method, `nopCore` or `lazyWithCore`, and an enabler, which is a level or a
function, go through the loop.
-/

set_option autoImplicit false

namespace Zap.Zapcore

namespace Level

/-- The levels from `_minLevel` to `_maxLevel`, in the order of the loop. -/
def supported : List Level := [debug, info, warn, error, dpanic, panic, fatal]

/-- The loop of `LevelOf`. -/
def firstEnabled (enabled : Level → Bool) : Level := (supported.find? enabled).getD invalid

end Level

/-- `LevelOf` of an enabler. -/
def LevelEnabler.levelOf (level : LevelEnabler) : Level := Level.firstEnabled level.enabled

namespace Core

variable {E F : Type} {b : Bool}

mutual
/-- `LevelOf` of a core. -/
def levelOf : Core E F b → Level
  | .nop => Level.firstEnabled (nop : Core E F b).enabled
  | .io core => core.level.levelOf
  | .multi cores => minLevelOf cores Level.max
  | .hooked core _ => core.levelOf
  | .levelFilter _ level => level.levelOf
  | .sampler core _ => core.levelOf
  -- A lazy core has no method `Level`; its `Enabled` is that of the core it wraps.
  | .lazyWith _ _ original _ => Level.firstEnabled original.enabled
/-- The loop of `multiCore.Level`. -/
def minLevelOf : List (Core E F b) → Level → Level
  | [], minLvl => minLvl
  | core :: cores, minLvl =>
    minLevelOf cores (if core.levelOf < minLvl then core.levelOf else minLvl)
end

end Core

end Zap.Zapcore
