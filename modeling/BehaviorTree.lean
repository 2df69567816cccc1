import BehaviorTree.Status
import BehaviorTree.Vector
import BehaviorTree.Value
import BehaviorTree.Blackboard.Basic
import BehaviorTree.Blackboard.Access
import BehaviorTree.Clock
import BehaviorTree.Decimal.Binary
import BehaviorTree.Decimal.Shortest
import BehaviorTree.Decimal.Text
import BehaviorTree.Decimal.Fixed
import BehaviorTree.Runner.Schedule
import BehaviorTree.Guard.Threat
import BehaviorTree.Guard.Basic
import BehaviorTree.Simulation.Config
import BehaviorTree.Node.Identifier
import BehaviorTree.Node.Basic
import BehaviorTree.Behavior
import BehaviorTree.Node.Evaluate
import BehaviorTree.Node.Stop
import BehaviorTree.Node.Run
import BehaviorTree.Node.Walk
import BehaviorTree.Node.Edit
import BehaviorTree.Pool
import BehaviorTree.Tree.Basic
import BehaviorTree.Tree.Instance
import BehaviorTree.Runner.Basic
import BehaviorTree.Leaf.World
import BehaviorTree.Leaf.Predicate
import BehaviorTree.Leaf.Command
import BehaviorTree.Leaf.Script
import BehaviorTree.Guard.Patrol
import BehaviorTree.Guard.Engage
import BehaviorTree.Leaf.Owner
import BehaviorTree.Leaf.Wait
import BehaviorTree.Leaf.Basic
import BehaviorTree.Decimal.Numeral
import BehaviorTree.Text.Digits
import BehaviorTree.Document.Character
import BehaviorTree.Document.Cursor
import BehaviorTree.Document.Token.Basic
import BehaviorTree.Document.Scalar.Fold
import BehaviorTree.Document.Scalar.Plain
import BehaviorTree.Document.Scalar.Quoted
import BehaviorTree.Document.Scalar.Block
import BehaviorTree.Document.Token.Property
import BehaviorTree.Document.Token.Directive
import BehaviorTree.Document.Token.Lexer
import BehaviorTree.Document.Basic
import BehaviorTree.Document.Frame
import BehaviorTree.Document.Reading
import BehaviorTree.Simulation.ConfigText
import BehaviorTree.Guard.Prototype
import BehaviorTree.Simulation.Run
import BehaviorTree.Simulation.Report
import BehaviorTree.Simulation.Arguments
import BehaviorTree.Simulation.CommandLine
import BehaviorTree.Main
import BehaviorTree.Text.Printable
import BehaviorTree.Describe
import BehaviorTree.Proofs.Node.Everywhere
import BehaviorTree.Proofs.Lifecycle.Steady
import BehaviorTree.Proofs.Lifecycle.Run
import BehaviorTree.Proofs.Node.Step
import BehaviorTree.Proofs.Node.Unused
import BehaviorTree.Proofs.Tree.Calls
import BehaviorTree.Proofs.Lifecycle.Lawful
import BehaviorTree.Proofs.Node.Recast
import BehaviorTree.Proofs.Node.Projection
import BehaviorTree.Proofs.Tree.Projection
import BehaviorTree.Proofs.Lifecycle.Protocol
import BehaviorTree.Proofs.Node.Evolution
import BehaviorTree.Proofs.Scope.Identity
import BehaviorTree.Proofs.Node.Preserved
import BehaviorTree.Proofs.Scope.Link
import BehaviorTree.Proofs.Twin.Basic
import BehaviorTree.Proofs.Twin.Paired
import BehaviorTree.Proofs.Twin.Stop
import BehaviorTree.Proofs.Twin.Run
import BehaviorTree.Proofs.Pool.Stack
import BehaviorTree.Proofs.Pool.Supply
import BehaviorTree.Proofs.Tree.Copy
import BehaviorTree.Proofs.Twin.Quiet
import BehaviorTree.Proofs.Host.Desk
import BehaviorTree.Proofs.Host.Play
import BehaviorTree.Proofs.Host.Trace
import BehaviorTree.Proofs.Host.Session
import BehaviorTree.Proofs.Host.Pooling
import BehaviorTree.Proofs.Leaf.Waiting
import BehaviorTree.Proofs.Host.Ended
import BehaviorTree.Proofs.Node.Leaves
import BehaviorTree.Proofs.Pool.Balance
import BehaviorTree.Proofs.Pool.Stock
import BehaviorTree.Proofs.Tree.Prototype
import BehaviorTree.Proofs.Tree.Binding
import BehaviorTree.Proofs.Host.Rollback
import BehaviorTree.Proofs.Lifecycle.Registry
import BehaviorTree.Proofs.Runner.Orders
import BehaviorTree.Proofs.Runner.Acts
import BehaviorTree.Proofs.Runner.Ledger
import BehaviorTree.Proofs.Runner.Activations
import BehaviorTree.Proofs.Host.Renaming
import BehaviorTree.Proofs.Runner.Places
import BehaviorTree.Proofs.Runner.Bystanders
import BehaviorTree.Proofs.Runner.Apart
import BehaviorTree.Proofs.Node.Scoped
import BehaviorTree.Proofs.Node.Selector
import BehaviorTree.Proofs.Node.Sequencer
import BehaviorTree.Proofs.Node.Confined
import BehaviorTree.Proofs.Guard.Beat
import BehaviorTree.Proofs.Guard.Think
import BehaviorTree.Proofs.Guard.Instance
import BehaviorTree.Proofs.Scope.Reading
import BehaviorTree.Proofs.Simulation.Steps
import BehaviorTree.Proofs.Simulation.Duty
import BehaviorTree.Proofs.Simulation.Spawning
import BehaviorTree.Proofs.Simulation.Shots
import BehaviorTree.Proofs.Simulation.Books
import BehaviorTree.Proofs.Simulation.Conduct
import BehaviorTree.Proofs.Lifecycle.Order
import BehaviorTree.Proofs.Node.Site
import BehaviorTree.Proofs.Tree.Assembled
import BehaviorTree.Proofs.Scope.Ledger
import BehaviorTree.Proofs.Scope.Log
import BehaviorTree.Proofs.Scope.Record
import BehaviorTree.Proofs.Scope.Continuity
import BehaviorTree.Proofs.Tree.Scopes
import BehaviorTree.Proofs.Node.Halt
import BehaviorTree.Proofs.Node.Inverted
import BehaviorTree.Proofs.Tree.Dual
import BehaviorTree.Proofs.Pool.Tally
import BehaviorTree.Proofs.Pool.Refinement
import BehaviorTree.Proofs.Host.Sparing
import BehaviorTree.Proofs.Runner.Steps
import BehaviorTree.Proofs.Runner.Pace
import BehaviorTree.Proofs.Scope.Mooring
import BehaviorTree.Proofs.Scope.Probing
import BehaviorTree.Proofs.Host.Probing
import BehaviorTree.Proofs.Runner.Search
import BehaviorTree.Proofs.Runner.Roster
import BehaviorTree.Proofs.Node.Moved
import BehaviorTree.Proofs.Node.Deeds
import BehaviorTree.Proofs.Tree.Sequencer
import BehaviorTree.Proofs.Tree.Selector
import BehaviorTree.Proofs.Node.Conditions
import BehaviorTree.Proofs.Node.Changes
import BehaviorTree.Proofs.Tree.Reactive
import BehaviorTree.Proofs.Node.Turns
import BehaviorTree.Proofs.Tree.Parallel
import BehaviorTree.Proofs.Tree.Loop
import BehaviorTree.Proofs.Tree.Closing
import BehaviorTree.Proofs.Tree.Traversal
import BehaviorTree.Proofs.Host.Instance
import BehaviorTree.Proofs.Pool.Spare
import BehaviorTree.Proofs.Node.Chain
import BehaviorTree.Proofs.Tree.Suspended
import BehaviorTree.Proofs.Node.Edits
import BehaviorTree.Proofs.Scope.Clearing
import BehaviorTree.Proofs.Runner.Stagger
import BehaviorTree.Proofs.Scope.History
import BehaviorTree.Proofs.Runner.Refusal
import BehaviorTree.Proofs.Pool.Exchange
import BehaviorTree.Proofs.Tree.Anew
import BehaviorTree.Proofs.Runner.Respawn
import BehaviorTree.Proofs.Scope.Typed
import BehaviorTree.Proofs.Node.Paths
import BehaviorTree.Proofs.Tree.Lookup
import BehaviorTree.Proofs.Guard.Round
import BehaviorTree.Proofs.Guard.Draw
import BehaviorTree.Proofs.Node.InRange
import BehaviorTree.Proofs.Node.Checked
