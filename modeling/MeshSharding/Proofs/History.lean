import MeshSharding.Proofs.Edit.Construct

namespace MeshSharding

-- A call that may change a program. One that builds leaves the program as it was if it is refused, and a pass
-- leaves it as it was when the pass stopped; the history goes on from there.
inductive Call
  | construct (call : Construction)
  | region (types : List TensorType)
  | transform (name : String) (transform : TargetTransform)
  | replaceUses (source target : ValueId)
  | setOperand (o : OpId) (index : Nat) (v : ValueId)
  | erase (o : OpId)
  | run (pass : Pass)

namespace Program

-- The program after a call, whether it succeeds or not.
def after (p : Program) : Call → Program
  | .construct call             => (p.construct call).program
  | .region types               => (p.addRegion types).1
  | .transform name transform   => p.registerTransform name transform
  | .replaceUses source target  => p.replaceUses source target
  | .setOperand o index v       => p.setOperand o index v
  | .erase o                    => p.erase o
  | .run pass                   => (pass.run p).program

-- The call takes handles of the program only.
def Fits (p : Program) : Call → Prop
  | .construct (.operation b position _) =>
    b.index < p.blocks.length ∧ position ≤ (p.block b).operations.length
  | .replaceUses source target =>
    source.index < p.values.length ∧ target.index < p.values.length
  | .setOperand o index v =>
    index < (p.op o).operands.length ∧ v.index < p.values.length
  | .erase o => o.index < p.operations.length
  | _        => True

-- The programs that a history goes through, from the one that it starts with to the last one.
def states (p : Program) : List Call → List Program
  | []            => [p]
  | call :: calls => p :: (p.after call).states calls

-- Every call of a history meets a condition where it is made.
def Along (condition : Program → Call → Prop) (p : Program) : List Call → Prop
  | []            => True
  | call :: calls => condition p call ∧ (p.after call).Along condition calls

variable {p q : Program} {call : Call} {calls : List Call}

theorem Reachable.construct (hp : p.Reachable) {call : Construction} (h : p.Fits (.construct call)) :
    (p.construct call).program.Reachable := by
  cases call with
  | mesh name mesh =>
    rw [Program.construct]
    cases hm : p.declareMesh name mesh with
    | error e => exact hp
    | ok q    => exact hp.declareMesh hm
  | argument type sharding =>
    rw [Program.construct]
    cases ha : p.addArgument type sharding with
    | error e => exact hp
    | ok pair => exact hp.addArgument ha
  | sharding v sharding =>
    rw [Program.construct]
    cases hs : p.setSharding v sharding with
    | error e => exact hp
    | ok q    => exact hp.setSharding hs
  | operation b position new =>
    rw [Program.construct, hp.wellFormed.insertInPlace_eq]
    cases hi : p.insert b position new with
    | error e => exact hp
    | ok pair => exact hp.insert h.left h.right hi

theorem Reachable.after (hp : p.Reachable) (h : p.Fits call) : (p.after call).Reachable := by
  cases call with
  | construct call            => exact hp.construct h
  | region types              => exact hp.addRegion types
  | transform name transform  => exact hp.registerTransform name transform
  | replaceUses source target => exact hp.replaceUses h.left h.right
  | setOperand o index v      => exact hp.setOperand h.left h.right
  | erase o                   => exact hp.erase h
  | run pass                  => exact hp.run pass

theorem mem_states_self : p ∈ p.states calls := by
  cases calls <;> simp [states]

-- What every call keeps holds in all states.
theorem states_keep {P : Program → Prop} {condition : Program → Call → Prop}
    (h : ∀ p call, P p → condition p call → P (p.after call)) (hp : P p) (hf : p.Along condition calls) :
    ∀ q ∈ p.states calls, P q := by
  induction calls generalizing p with
  | nil => simpa [states] using hp
  | cons call calls ih =>
    exact List.forall_mem_cons.mpr ⟨hp, ih (h p call hp hf.left) hf.right⟩

theorem Along.and {condition condition' : Program → Call → Prop} (h : p.Along condition calls)
    (h' : p.Along condition' calls) : p.Along (fun p call => condition p call ∧ condition' p call) calls := by
  induction calls generalizing p with
  | nil            => trivial
  | cons call _ ih => exact ⟨⟨h.left, h'.left⟩, ih h.right h'.right⟩

theorem Reachable.states (hp : p.Reachable) (hf : p.Along Fits calls) : ∀ q ∈ p.states calls, q.Reachable :=
  states_keep (fun _ _ hp h => hp.after h) hp hf

end Program

end MeshSharding
