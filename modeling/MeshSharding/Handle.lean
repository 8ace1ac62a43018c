namespace MeshSharding

-- A program keeps its values, operations and blocks under numbers.
structure ValueId where
  index : Nat
  deriving DecidableEq, Inhabited

structure OpId where
  index : Nat
  deriving DecidableEq, Inhabited

structure BlockId where
  index : Nat
  deriving DecidableEq, Inhabited

def ValueId.text (value : ValueId) : String :=
  s!"value #{value.index}"

instance : ToString ValueId := ⟨ValueId.text⟩

def OpId.text (op : OpId) : String :=
  s!"operation #{op.index}"

instance : ToString OpId := ⟨OpId.text⟩

end MeshSharding
