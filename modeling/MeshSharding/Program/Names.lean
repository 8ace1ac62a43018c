import MeshSharding.Program.Nesting

namespace MeshSharding

inductive ValueName
  | argument (number : Nat)
  -- The only result of the operation with the number.
  | result (number : Nat)
  -- One of several results of the operation with the number.
  | part (number index : Nat)
  deriving DecidableEq

namespace ValueName

def text : ValueName → String
  | argument n => s!"%arg{n}"
  | result n   => s!"%{n}"
  | part n i   => s!"%{n}#{i}"

instance : ToString ValueName := ⟨text⟩

-- The text with which the results of an operation are defined, where this is the name of the first
-- of them.
def definitionText (count : Nat) : ValueName → String
  | part n _ => s!"%{n}:{count}"
  | name     => name.text

end ValueName

-- The numbers of the next argument and of the next operation with results. What is nested in a block
-- counts on from the end of the block; the regions of a block all count from there.
structure Counters where
  arguments : Nat := 0
  results   : Nat := 0

abbrev ValueNames := List (ValueId × ValueName)

namespace Program

-- The names of the results of an operation with the number.
def resultNames (number : Nat) : List ValueId → ValueNames
  | []  => []
  | [v] => [(v, .result number)]
  | vs  => vs.mapIdx fun index v => (v, .part number index)

-- The names of the results of operations, and the number that follows.
def opNames (p : Program) (number : Nat) : List OpId → ValueNames × Nat
  | [] => ([], number)
  | o :: rest =>
    let results := (p.op o).results
    let (names, next) := opNames p (if results.isEmpty then number else number + 1) rest
    (resultNames number results ++ names, next)

-- The names of the values that a block defines, and the counters at its end.
def ownNames (p : Program) (counters : Counters) (b : BlockId) : ValueNames × Counters :=
  let arguments :=
    (p.block b).arguments.mapIdx fun i v => (v, ValueName.argument (counters.arguments + i))
  let (results, next) := p.opNames counters.results (p.block b).operations
  (arguments ++ results, ⟨counters.arguments + arguments.length, next⟩)

-- The names of the values of a block and of what is nested in it through `depth` blocks.
def blockNames (p : Program) : (depth : Nat) → Counters → BlockId → ValueNames
  | 0,         _,        _ => []
  | depth + 1, counters, b =>
    let (own, next) := p.ownNames counters b
    let regions := (p.block b).operations.flatMap fun o => (p.op o).regions
    own ++ regions.flatMap (blockNames p depth next)

-- The names of all values.
def names (p : Program) : ValueNames :=
  p.blockNames p.blocks.length {} entry

end Program

-- The name of a value.
def ValueNames.name? (names : ValueNames) (v : ValueId) : Option ValueName :=
  (names.find? (·.1 = v)).map (·.2)

def ValueNames.nameText (names : ValueNames) (v : ValueId) : String :=
  match names.name? v with
  | some name => name.text
  | none      => "%<unknown>"

end MeshSharding
