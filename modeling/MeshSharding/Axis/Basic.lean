import MeshSharding.Size
import MeshSharding.Text.Quoted

namespace MeshSharding

open Text

-- An axis of size `n` can be read as a row of factors. The sub-axis of pre-size `k` and size `m` is
-- the factor of size `m` with `k` devices before it: on an axis of size 4, `(1)2` is the major half
-- and `(2)2` the minor one.
structure SubAxis where
  preSize : Nat
  size    : Nat
  deriving DecidableEq, Inhabited

structure AxisRef where
  name : String
  part : Option SubAxis := none
  deriving DecidableEq, Inhabited

namespace SubAxis

-- The pre-size of the factor that follows, held at the greatest size.
def nextPreSize (sub : SubAxis) : Nat :=
  Size.satMul sub.preSize sub.size

def overlaps (sub other : SubAxis) : Bool :=
  sub.preSize < other.nextPreSize && other.preSize < sub.nextPreSize

def contains (sub other : SubAxis) : Bool :=
  sub.preSize ≤ other.preSize && other.nextPreSize ≤ sub.nextPreSize

def text (sub : SubAxis) : String :=
  s!"({sub.preSize}){sub.size}"

instance : ToString SubAxis := ⟨text⟩

end SubAxis

namespace AxisRef

def whole (name : String) : AxisRef :=
  ⟨name, none⟩

def sub (name : String) (preSize size : Nat) : AxisRef :=
  ⟨name, some ⟨preSize, size⟩⟩

def isSub (axis : AxisRef) : Bool :=
  axis.part.isSome

def preSize (axis : AxisRef) : Nat :=
  match axis.part with
  | some sub => sub.preSize
  | none     => 1

-- Two references overlap if they share a factor. A whole axis shares one with each part.
def overlaps (axis other : AxisRef) : Bool :=
  axis.name = other.name &&
    match axis.part, other.part with
    | some sub, some sub' => sub.overlaps sub'
    | _,        _         => true

-- All factors of the other reference belong to this one.
def contains (axis other : AxisRef) : Bool :=
  axis.name = other.name &&
    match axis.part, other.part with
    | none,     _         => true
    | some _,   none      => false
    | some sub, some sub' => sub.contains sub'

-- The other reference is the sub-axis that follows directly, so the two are one larger factor.
def canMerge (axis other : AxisRef) : Bool :=
  axis.name = other.name &&
    match axis.part, other.part with
    | some sub, some sub' => Size.mul? sub.preSize sub.size = some sub'.preSize
    | _,        _         => false

def text (axis : AxisRef) : String :=
  match axis.part with
  | some sub => s!"{quoted axis.name}:{sub}"
  | none     => quoted axis.name

instance : ToString AxisRef := ⟨text⟩

theorem overlaps_comm (axis other : AxisRef) : axis.overlaps other = other.overlaps axis := by
  obtain ⟨name, part⟩ := axis
  obtain ⟨name', part'⟩ := other
  cases part <;> cases part' <;>
    simp [overlaps, SubAxis.overlaps, Bool.and_comm, eq_comm (a := name)]

-- Whether one of the axes overlaps the given one.
def anyOverlaps (axes : List AxisRef) (axis : AxisRef) : Bool :=
  axes.any (·.overlaps axis)

-- The text of a list of axes, from major to minor.
def listText (axes : List AxisRef) : String :=
  inBraces (axes.map toString)

-- The text of one list of axes for each dimension.
def listsText (lists : List (List AxisRef)) : String :=
  inBrackets (lists.map listText)

end AxisRef

end MeshSharding
