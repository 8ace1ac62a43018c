import MeshSharding.Program.Basic

namespace MeshSharding

-- What a step makes of a program. One that fails on the way leaves the program as it was at that
-- point.
structure Outcome (α : Type) where
  program : Program
  result  : Except Diagnostic α

namespace Outcome

-- The step goes on from the program, if there was no failure.
def andThen {α β : Type} (outcome : Outcome α) (next : Program → α → Outcome β) :
    Outcome β :=
  match outcome.result with
  | .ok a    => next outcome.program a
  | .error e => ⟨outcome.program, .error e⟩

-- Applies a step for each item in turn. Each step says whether it changed anything.
def forEach {α : Type} (step : Program → α → Outcome Bool) (p : Program) (changed : Bool) :
    List α → Outcome Bool
  | []        => ⟨p, .ok changed⟩
  | a :: rest =>
    (step p a).andThen fun p stepChanged => forEach step p (changed || stepChanged) rest

end Outcome

end MeshSharding
