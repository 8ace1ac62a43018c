import MeshSharding.Pipeline.Prepare
import MeshSharding.Pipeline.Simplify
import MeshSharding.Pipeline.Spread
import MeshSharding.Program.Verify

namespace MeshSharding

inductive Pass
  | prepare
  | spread (options : SpreadOptions)
  | finish
  | simplify
  deriving DecidableEq, Inhabited

-- Passes that are run in turn, up to the first failure. The program can be checked after each.
structure Pipeline where
  passes : List Pass
  verify : Bool := true
  deriving DecidableEq, Inhabited

namespace Pass

def name : Pass → String
  | prepare  => "sdy-import"
  | spread _ => "sdy-propagate"
  | finish   => "sdy-export"
  | simplify => "sdy-canonicalize"

-- Runs the pass. The result says whether the program changed.
def run (pass : Pass) (p : Program) : Outcome Bool :=
  match pass with
  | prepare        => p.prepare
  | spread options => p.spread options
  | finish         => ⟨p.finish.1, .ok p.finish.2⟩
  | simplify       => ⟨p.simplify.1, .ok p.simplify.2⟩

end Pass

namespace Pipeline

-- The pipeline that spreads shardings over a program.
def ofOptions (options : PipelineOptions) : Pipeline :=
  { passes := [.prepare, .spread options.spread, .finish] ++
      (if options.simplify then [.simplify] else [])
    verify := options.verifyEachPass }

def text (pipeline : Pipeline) : String :=
  s!"builtin.module({Text.commaSeparated (pipeline.passes.map Pass.name)})"

-- Runs a pass and checks the program after it if that is wanted.
def runPass (verify : Bool) (p : Program) (pass : Pass) : Outcome Bool :=
  (pass.run p).andThen fun p changed =>
    ⟨p, do
      if verify then p.verify
      return changed⟩

-- Runs the passes. The result says whether any of them changed the program.
def run (pipeline : Pipeline) (p : Program) : Outcome Bool :=
  Outcome.forEach (runPass pipeline.verify) p false pipeline.passes

end Pipeline

-- Spreads shardings over a program with all passes.
def Program.spreadShardings (p : Program) (options : PipelineOptions) : Outcome Bool :=
  (Pipeline.ofOptions options).run p

end MeshSharding
