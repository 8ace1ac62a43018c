import MeshSharding.Pipeline.Pass
import MeshSharding.Program.Construct
import MeshSharding.Program.Printer
import MeshSharding.Proofs.Bare
import MeshSharding.Proofs.Place
import MeshSharding.Proofs.Refinement
import MeshSharding.Proofs.Spread.Adoption
import MeshSharding.Proofs.Spread.Monotone
import MeshSharding.Proofs.Edit.Redirect
import MeshSharding.Proofs.Edit.Erase
import MeshSharding.Proofs.Edit.Insert
import MeshSharding.Proofs.Reachable
import MeshSharding.Proofs.Spread.Convergence
import MeshSharding.Proofs.Spread.Fixpoint
import MeshSharding.Proofs.Spread.Isolation
import MeshSharding.Proofs.Verify.Operand
import MeshSharding.Proofs.Spread.Pinned
import MeshSharding.Proofs.Flow.Nesting
import MeshSharding.Proofs.Flow.Scope
import MeshSharding.Proofs.Flow.Root
import MeshSharding.Proofs.Flow.Keeps
import MeshSharding.Proofs.Flow.Edits
import MeshSharding.Proofs.Flow.Steps
import MeshSharding.Proofs.Flow.Attach
import MeshSharding.Proofs.Flow.Passes
import MeshSharding.Proofs.Verify.Simplify
import MeshSharding.Proofs.Verify.Finish
import MeshSharding.Proofs.Edit.Construct
import MeshSharding.Proofs.History
import MeshSharding.Proofs.Nesting.Reshape
import MeshSharding.Proofs.Nesting.Climb
import MeshSharding.Proofs.Nesting.Forest
import MeshSharding.Proofs.Nesting.Uses
import MeshSharding.Proofs.Verify.Standing
import MeshSharding.Proofs.Verify.Move
import MeshSharding.Proofs.Verify.Interpose
import MeshSharding.Proofs.Verify.Prepare
import MeshSharding.Proofs.Verify.Ends
import MeshSharding.Proofs.Verify.Causes
import MeshSharding.Proofs.Verify.Dominance
import MeshSharding.Proofs.Sharding.Axes
import MeshSharding.Proofs.Sharding.Fit
import MeshSharding.Proofs.Verify.Fits
import MeshSharding.Proofs.Growth
import MeshSharding.Proofs.Verify.Builders
import MeshSharding.Proofs.Collective.Inverse
import MeshSharding.Proofs.Collective.Infer
import MeshSharding.Proofs.Sharding.Even
import MeshSharding.Proofs.Sharding.Exact
import MeshSharding.Proofs.Coherent
import MeshSharding.Proofs.Verify.Account
import MeshSharding.Proofs.Simplify.Rounds
import MeshSharding.Proofs.Gap.Text
import MeshSharding.Proofs.Seeding.Pipeline
import MeshSharding.Proofs.Finish.Guidance
import MeshSharding.Proofs.Finish.Constraint
import MeshSharding.Proofs.Spread.Agreement
import MeshSharding.Proofs.Nesting.Body
import MeshSharding.Proofs.Spread.Manual
import MeshSharding.Proofs.Simplify.Normal
import MeshSharding.Proofs.Collective.Scatter
import MeshSharding.Proofs.Collective.Exchange
import MeshSharding.Proofs.Prepare.Owners
import MeshSharding.Program.Registry
import MeshSharding.Proofs.Grouping.Filling
import MeshSharding.Proofs.Grouping.Components
import MeshSharding.Proofs.Sharding.RoundTrip
import MeshSharding.Proofs.Sharding.CanonicalSet
import MeshSharding.Proofs.Edit.Passes
import MeshSharding.Proofs.Entries
import MeshSharding.Proofs.Assign
import MeshSharding.Proofs.Spread.Acceptance
import MeshSharding.Proofs.Finish.Sharding
import MeshSharding.Proofs.Flow.Positions
import MeshSharding.Proofs.Changed
import MeshSharding.Proofs.Text.Reading
import MeshSharding.Proofs.Sharding.Text
import MeshSharding.Proofs.Nesting.Names
import MeshSharding.Proofs.Mesh.Build
import MeshSharding.Proofs.Mesh.Table
