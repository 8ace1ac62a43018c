namespace MeshSharding

inductive ElementType
  | i1 | i8 | i16 | i32 | i64
  | ui8 | ui16 | ui32 | ui64
  | bf16 | f16 | f32 | f64
  deriving DecidableEq, Inhabited

structure TensorType where
  shape   : List Nat
  element : ElementType
  deriving DecidableEq, Inhabited

namespace ElementType

def text : ElementType → String
  | i1   => "i1"
  | i8   => "i8"
  | i16  => "i16"
  | i32  => "i32"
  | i64  => "i64"
  | ui8  => "ui8"
  | ui16 => "ui16"
  | ui32 => "ui32"
  | ui64 => "ui64"
  | bf16 => "bf16"
  | f16  => "f16"
  | f32  => "f32"
  | f64  => "f64"

instance : ToString ElementType := ⟨text⟩

def all : List ElementType :=
  [i1, i8, i16, i32, i64, ui8, ui16, ui32, ui64, bf16, f16, f32, f64]

theorem mem_all (element : ElementType) : element ∈ all := by
  cases element <;> decide

def ofText? (text : String) : Option ElementType :=
  all.find? (·.text = text)

theorem ofText?_text (element : ElementType) : ofText? element.text = some element := by
  cases element <;> decide

end ElementType

namespace TensorType

def rank (type : TensorType) : Nat :=
  type.shape.length

def withShape (type : TensorType) (shape : List Nat) : TensorType :=
  { type with shape }

def text (type : TensorType) : String :=
  let dims := String.join (type.shape.map fun size => s!"{size}x")
  s!"tensor<{dims}{type.element}>"

instance : ToString TensorType := ⟨text⟩

end TensorType

end MeshSharding
