import MeshSharding.Size

namespace MeshSharding

structure SpreadOptions where
  -- How many links may be evaluated.
  maxIterations     : Nat := 10000
  -- Only open dimensions of shardings are refined; no value gets its first sharding.
  openOnly          : Bool := false
  -- Shardings with more urgent dimensions win over those with more shards.
  respectPriorities : Bool := true
  deriving DecidableEq, Inhabited

structure PipelineOptions where
  spread         : SpreadOptions := {}
  simplify       : Bool := true
  verifyEachPass : Bool := true
  deriving DecidableEq, Inhabited

-- A value that options can be read from.
inductive Setting
  | flag (value : Bool)
  | count (value : Nat)
  -- Settings by name.
  | group (members : List (String × Setting))
  -- Settings in the order of the options.
  | sequence (members : List Setting)
  -- A value that stands for no option.
  | other
  deriving Inhabited

namespace Setting

def flag? : Setting → Option Bool
  | flag value => some value
  | _          => none

-- A number of 64 bits.
def count? : Setting → Option Nat
  | count value => if value ≤ Size.greatest then some value else none
  | _           => none

-- The settings of the named options, each of which may be missing.
def members? (setting : Setting) (names : List String) : Option (List (Option Setting)) :=
  match setting with
  | group members =>
    some (names.map fun name => (members.find? (·.1 = name)).map (·.2))
  | sequence members =>
    if members.length ≤ names.length then
      some (members.map some ++ List.replicate (names.length - members.length) none)
    else none
  | _ => none

end Setting

-- The option that a setting gives, or the default if it is missing.
def readOr {α : Type} (read : Setting → Option α) (default : α) : Option Setting → Option α
  | some setting => read setting
  | none         => some default

-- A setting that is missing leaves the option as it is by default; one of the wrong kind is refused;
-- unknown settings are ignored.
def SpreadOptions.ofSetting? (setting : Setting) : Option SpreadOptions := do
  let defaults : SpreadOptions := {}
  match ← setting.members? ["max_iterations", "propagate_through_open_dimensions_only",
      "respect_priorities"] with
  | [iterations, openOnly, priorities] =>
    return {
      maxIterations     := ← readOr Setting.count? defaults.maxIterations iterations
      openOnly          := ← readOr Setting.flag? defaults.openOnly openOnly
      respectPriorities := ← readOr Setting.flag? defaults.respectPriorities priorities }
  | _ => none

def PipelineOptions.ofSetting? (setting : Setting) : Option PipelineOptions := do
  let defaults : PipelineOptions := {}
  match ← setting.members? ["propagation", "canonicalize", "verify_after_each_pass"] with
  | [spread, simplify, verify] =>
    return {
      spread         := ← readOr SpreadOptions.ofSetting? defaults.spread spread
      simplify       := ← readOr Setting.flag? defaults.simplify simplify
      verifyEachPass := ← readOr Setting.flag? defaults.verifyEachPass verify }
  | _ => none

end MeshSharding
