import BehaviorTree.Proofs.Node.Evolution
import BehaviorTree.Tree.Basic

/-!
# Calls of a host

A host ticks a tree, with or without publishing a clock, and stops it. Each call brings its own
surroundings, so that anything may happen to blackboards and world between two calls.
-/

namespace BehaviorTree

variable {ο σ ω : Type}

/-- What a host asks of a tree. -/
inductive Request where
  | tick
  | tickWith (clock : Clock)
  | stop

/-- A request with the surroundings in which it is made. -/
structure Call (ω : Type) where
  request : Request
  env : Env ω

/-- The result of a request: the status that a tick answered, the tree and its surroundings. -/
structure Served (ο σ ω : Type) where
  reply : Option Status
  tree : Tree ο σ
  env : Env ω

/-- The result of several calls: their replies in order, and the tree. -/
structure Course (ο σ : Type) where
  replies : List (Option Status)
  tree : Tree ο σ

namespace Tree

/-- Carries out a request. -/
def serve (B : Behavior ο σ ω) (t : Tree ο σ) (request : Request) (env : Env ω) : Served ο σ ω :=
  match request with
  | .tick => let r := t.tick B env; ⟨some r.status, r.tree, r.env⟩
  | .tickWith clock => let r := t.tickWith B clock env; ⟨some r.status, r.tree, r.env⟩
  | .stop => let r := t.stop B env; ⟨none, r.1, r.2⟩

/-- Carries out calls in order. -/
def serveAll (B : Behavior ο σ ω) : List (Call ω) → Tree ο σ → Course ο σ
  | [], t => ⟨[], t⟩
  | call :: rest, t =>
    let r := t.serve B call.request call.env
    let c := serveAll B rest r.tree
    { c with replies := r.reply :: c.replies }

/-- What a host sees of calls in order: of each the reply, and the surroundings as it leaves them.
-/
def observeAll (B : Behavior ο σ ω) : List (Call ω) → Tree ο σ → List (Option Status × Env ω)
  | [], _ => []
  | call :: rest, t =>
    let r := t.serve B call.request call.env
    (r.reply, r.env) :: observeAll B rest r.tree

/-- A request runs the root or aborts it; a run answers its status. -/
theorem serve_cases (B : Behavior ο σ ω) (t : Tree ο σ) (request : Request) (env : Env ω) :
    (∃ board,
      let s := t.root.run B { env with board }
      t.serve B request env =
        ⟨some s.status, { t with root := s.node, lastStatus := some s.status }, s.env⟩) ∨
    (let r := t.root.abort B env
     t.serve B request env = ⟨none, { t with root := r.1 }, r.2⟩) := by
  cases request with
  | tick => exact .inl ⟨env.board, rfl⟩
  | tickWith clock => exact .inl ⟨clock.publish env.board, rfl⟩
  | stop => exact .inr rfl

/-- Whatever is requested, it is small steps of the engine on the blackboard, whose local entries
may have got the clock. -/
theorem evolves_serve (B : Behavior ο σ ω) (t : Tree ο σ) (request : Request) (env : Env ω) :
    let r := t.serve B request env
    ∃ board, board.id = env.board.id ∧ t.root.Evolves B { env with board } r.tree.root r.env := by
  cases request with
  | tick => exact ⟨env.board, rfl, Node.evolves_run _ _⟩
  | tickWith clock => exact ⟨clock.publish env.board, rfl, Node.evolves_run _ _⟩
  | stop => exact ⟨env.board, rfl, Node.evolves_abort _ _⟩

end Tree

end BehaviorTree
