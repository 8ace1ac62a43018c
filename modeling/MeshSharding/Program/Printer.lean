import MeshSharding.Program.Names
import MeshSharding.Program.Values

namespace MeshSharding.Program

open Text AxisRef

-- The spaces before a line.
def margin (indent : Nat) : String :=
  String.ofList (List.replicate indent ' ')

def nameList (names : ValueNames) (values : List ValueId) : String :=
  commaSeparated (values.map names.nameText)

def typeList (p : Program) (values : List ValueId) : String :=
  commaSeparated (values.map fun v => (p.typeOf v).text)

-- The types of results: one type stands alone, any other number of types in parentheses.
def resultTypes (p : Program) (values : List ValueId) : String :=
  match values with
  | [v] => (p.typeOf v).text
  | _   => s!"({p.typeList values})"

def functionType (p : Program) (operands results : List ValueId) : String :=
  s!"({p.typeList operands}) -> {p.resultTypes results}"

def argumentList (p : Program) (names : ValueNames) (arguments : List ValueId) : String :=
  commaSeparated (arguments.map fun v => s!"{names.nameText v}: {p.typeOf v}")

-- The attribute with the shardings that are kept with results, if there are any. A result without
-- one is shown as open on the mesh of the first one that has one.
def shardingAttribute (p : Program) (results : List ValueId) : String :=
  match results.filterMap p.storedSharding with
  | []         => ""
  | first :: _ =>
    let shardings := results.map fun v =>
      (p.storedSharding v).getD (.fullyOpen first.mesh (p.typeOf v).rank)
    " \x7bsdy.sharding = " ++ Sharding.listAttributeText shardings ++ "\x7d"

def collectiveText (collective : Collective) (input type : String) : String :=
  let details := match collective.action with
    | .allGather axes | .allSlice axes | .reduceScatter axes => listsText axes ++ " "
    | .allToAll moves    => inBrackets (moves.map toString) ++ " "
    | .collectivePermute => ""
    | .allReduce axes    => listText axes ++ " "
  s!"{collective.mnemonic} {details}{input} out_sharding={collective.out} : {type}"

-- A terminator is named for the operation around its block.
def terminatorText (p : Program) (names : ValueNames) (op : Operation) : String :=
  let values := nameList names op.operands
  let types := p.typeList op.operands
  let short := if op.operands.isEmpty then "" else s!" {values} : {types}"
  match p.parentKind? op.block with
  | none               => "return" ++ short
  | some (.generic op) => s!"\"{op.dialect}.return\"({values}) : ({types}) -> ()"
  | some _             => "sdy.return" ++ short

-- The body of a computation, where `body` gives the text of the operations in a block.
def bodyText (p : Program) (names : ValueNames) (body : BlockId → String) (indent : Nat)
    (b : BlockId) : String :=
  let arguments := p.argumentList names (p.block b).arguments
  s!" ({arguments}) \x7b\n{body b}{margin indent}\x7d"

-- The regions of an operation of another dialect.
def regionsText (p : Program) (names : ValueNames) (body : BlockId → String) (indent : Nat)
    (regions : List BlockId) : String :=
  let region b :=
    let arguments := (p.block b).arguments
    let head :=
      if arguments.isEmpty then "" else s!"{margin indent}^bb0({p.argumentList names arguments}):\n"
    s!"\x7b\n{head}{body b}{margin indent}\x7d"
  if regions.isEmpty then "" else s!" ({commaSeparated (regions.map region)})"

-- The text of an operation without its results, where `body` gives the text of the operations in a
-- region.
def opText (p : Program) (names : ValueNames) (body : BlockId → String) (indent : Nat)
    (o : OpId) : String :=
  let op := p.op o
  let input := names.nameText (p.input o)
  let type := p.typeOf (p.input o)
  let operands := nameList names op.operands
  let function := p.functionType op.operands op.results
  let attributes := p.shardingAttribute op.results
  match op.kind with
  | .constraint sharding | .reshard sharding => s!"{op.mnemonic} {input} {sharding} : {type}"
  | .group id         => s!"{op.mnemonic} {input} group_id={id} : {type}"
  | .collective c     => collectiveText c input type.text
  | .edge none        => s!"{op.mnemonic} {input} : {type}"
  | .edge (some sharding) => s!"{op.mnemonic} {input} sharding={sharding} : {type}"
  | .barrier allowed  => s!"{op.mnemonic} {input} allowed_direction={allowed}{attributes} : {type}"
  | .constant literal => s!"{op.mnemonic}{attributes} {literal} : {p.typeOf (p.output o)}"
  | .terminator       => p.terminatorText names op
  | .manual computation =>
    let inShardings := Sharding.listText computation.inShardings
    let outShardings := Sharding.listText computation.outShardings
    let axes := listText (computation.manualAxes.map whole)
    let region := p.bodyText names body indent ((op.regions[0]?).getD default)
    s!"{op.mnemonic}({operands}) in_shardings={inShardings} out_shardings={outShardings} " ++
      s!"manual_axes={axes}{region} : {function}"
  | .named computation =>
    let shardings label := fun
      | some list => s!" {label}={Sharding.listText list}"
      | none      => ""
    let region := p.bodyText names body indent ((op.regions[0]?).getD default)
    s!"{op.mnemonic}<{quoted computation.name}>({operands})" ++
      shardings "in_shardings" computation.inShardings ++
      shardings "out_shardings" computation.outShardings ++ s!"{region} : {function}"
  | .generic data =>
    let regions := p.regionsText names body indent op.regions
    s!"\"{data.name}\"({operands}){regions}{attributes} : {function}"

-- The line of an operation, or the lines if it has regions.
def opLine (p : Program) (names : ValueNames) (body : BlockId → String) (indent : Nat)
    (o : OpId) : String :=
  let results := (p.op o).results
  let definition := match results.head?.bind names.name? with
    | some name => name.definitionText results.length ++ " = "
    | none      => ""
  margin indent ++ definition ++ p.opText names body indent o ++ "\n"

-- The lines of the operations of a block. Nesting is followed through `depth` blocks.
def blockText (p : Program) (names : ValueNames) : (depth indent : Nat) → BlockId → String
  | 0,         _,      _ => ""
  | depth + 1, indent, b =>
    String.join <| (p.block b).operations.map <|
      p.opLine names (blockText p names depth (indent + 2)) indent

-- An argument of the program with the sharding that is kept with it.
def entryArgumentText (p : Program) (names : ValueNames) (v : ValueId) : String :=
  let kept := match p.storedSharding v with
    | some sharding => " \x7bsdy.sharding = " ++ sharding.attributeText ++ "\x7d"
    | none          => ""
  s!"{names.nameText v}: {p.typeOf v}{kept}"

def text (p : Program) : String :=
  let names := p.names.reverse
  let meshes := p.meshes.meshes.map fun (name, mesh) => s!"  sdy.mesh @{name} = {mesh}\n"
  let arguments := (p.block entry).arguments.map (p.entryArgumentText names)
  let returned := match (p.returned? entry).getD [] with
    | []     => ""
    | values => s!" -> {p.resultTypes values}"
  "module \x7b\n" ++ String.join meshes ++
    s!"  func.func @{p.name}({commaSeparated arguments}){returned} \x7b\n" ++
    p.blockText names p.blocks.length 4 entry ++ "  \x7d\n\x7d\n"

end MeshSharding.Program
