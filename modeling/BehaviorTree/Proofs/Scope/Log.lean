import BehaviorTree.Proofs.Scope.Ledger
import BehaviorTree.Proofs.Tree.Projection

/-!
# Logging what happens to scopes

The hooks of leaves at their sites, with a log beside the world: each start, run and stop is noted
in it, and so is each activation of a scope decorator that begins, each call of the host and each
return to it. `serveAllLogged_map` says that logging changes nothing else.
-/

namespace BehaviorTree

variable {ο σ ω : Type}

/-- Appends a notice to the log. -/
def Env.note (env : Env (ω × List Notice)) (notice : Notice) : Env (ω × List Notice) :=
  { env with world := (env.world.1, env.world.2 ++ [notice]) }

/-- An effect on a leaf at its site, with the call of the hook logged. -/
def Effect.logged (e : Effect σ ω) (site : Site) (hook : Hook) (b : Blackboard)
    (log : List Notice) : Effect (Site × σ) (ω × List Notice) :=
  ⟨(site, e.state), e.entries, (e.world, log ++ [.hook site hook b.contents e.entries])⟩

/-- The hooks of leaves at their sites, with each start, run and stop logged beside the world. -/
def Behavior.logged (B : Behavior ο σ ω) : Behavior ο (Site × σ) (ω × List Notice) where
  awake owner s w :=
    let r := B.awake owner s.2 w.1
    (r.1.map fun state ↦ (s.1, state), (r.2, w.2))
  start s b w := (B.start s.2 b w.1).logged s.1 .start b w.2
  run s b w :=
    let r := B.run s.2 b w.1
    (r.1, r.2.logged s.1 .run b w.2)
  stop s b w := (B.stop s.2 b w.1).logged s.1 .stop b w.2
  evaluate s b w :=
    let r := B.evaluate s.2 b w.1
    (r.1, (r.2, w.2))

/-- Logging changes nothing else. -/
theorem Behavior.projects_logged (B : Behavior ο σ ω) :
    B.logged.Projects B Prod.snd Prod.fst where
  awake owner s w := by
    simp only [logged]
    obtain ⟨r, w'⟩ := B.awake owner s.2 w.1
    cases r <;> rfl
  start _ _ _ := rfl
  run _ _ _ := rfl
  stop _ _ _ := rfl
  evaluate _ _ _ := rfl

namespace Node

/-- Whether a run of the node begins an activation of a scope decorator. -/
def opensScope : Node σ → Bool
  | decorator _ life .scoped _ _ => !life.started
  | _ => false

/-- Notes the activation of a scope decorator that a run of the node begins. -/
def noteOpening (n : Node σ) (env : Env (ω × List Notice)) : Env (ω × List Notice) :=
  if n.opensScope then env.note (.opened n.id) else env

/-- A run of a node nested at most `fuel` deep, with a log. -/
def runLoggedWithin (B : Behavior ο σ ω) :
    (fuel : Nat) → Node (Site × σ) → Env (ω × List Notice) → Step (Site × σ) (ω × List Notice)
  | 0, n, env => ⟨.running, n, env⟩
  | fuel + 1, n, env => n.advance B.logged (runLoggedWithin B fuel) (n.noteOpening env)

/-- Advances a node by one tick, with a log. -/
def runLogged (B : Behavior ο σ ω) (n : Node (Site × σ)) (env : Env (ω × List Notice)) :
    Step (Site × σ) (ω × List Notice) := runLoggedWithin B n.size n env

private theorem runLoggedWithin_congr {B : Behavior ο σ ω} {n : Node (Site × σ)} {a b : Nat}
    (ha : n.size ≤ a) (hb : n.size ≤ b) (env : Env (ω × List Notice)) :
    runLoggedWithin B a n env = runLoggedWithin B b n env := by
  induction a generalizing n b env with
  | zero => have := n.size_pos; omega
  | succ a ih =>
    cases b with
    | zero => have := n.size_pos; omega
    | succ b => exact advance_congr (fun c hc env ↦ ih (by omega) (by omega) env) _

/-- One logged run of a node, in terms of those of its children. -/
theorem runLogged_eq (B : Behavior ο σ ω) (n : Node (Site × σ)) (env : Env (ω × List Notice)) :
    n.runLogged B env = n.advance B.logged (runLogged B) (n.noteOpening env) :=
  (runLoggedWithin_congr (Nat.le_refl _) (Nat.le_succ _) env).trans
    (advance_congr
      (fun _ hc env ↦ runLoggedWithin_congr (Nat.le_of_lt hc) (Nat.le_refl _) env) _)

/-- Nothing begins in a node that is started. -/
theorem noteOpening_of_started {n : Node σ} (h : n.started = true) (env : Env (ω × List Notice)) :
    n.noteOpening env = env := by
  apply if_neg
  cases n with
  | leaf => exact Bool.false_ne_true
  | composite => exact Bool.false_ne_true
  | decorator tag life kind =>
    have hl : life.started = true := h
    cases kind <;> simp [opensScope, hl]

/-- Other decorators have no scope. -/
theorem noteOpening_of_ne {tag : Tag} {life : Life} {kind : DecoratorKind} {memory : Memory}
    {child : Option (Node σ)} (h : kind ≠ .scoped) (env : Env (ω × List Notice)) :
    (decorator tag life kind memory child).noteOpening env = env := by
  apply if_neg
  cases kind <;> simp [opensScope] at h ⊢

private theorem noteOpening_map (n : Node σ) (env : Env (ω × List Notice)) :
    (n.noteOpening env).map Prod.fst = env.map Prod.fst := by
  unfold noteOpening
  split <;> rfl

/-- A logged run is a run. -/
theorem runLogged_map (B : Behavior ο σ ω) (n : Node (Site × σ)) (env : Env (ω × List Notice)) :
    (n.map Prod.snd).run B (env.map Prod.fst) = (n.runLogged B env).map Prod.snd Prod.fst := by
  induction n using size_induction generalizing env with
  | step n ih =>
    rw [run_eq, runLogged_eq, ← noteOpening_map n env]
    exact advance_map B.projects_logged n _ ih

end Node

/-! ### Calls of a host -/

/-- The blackboard as a request finds it; a clock is published on it first. -/
def Request.board (request : Request) (b : Blackboard) : Blackboard :=
  match request with
  | .tick => b
  | .tickWith clock => clock.publish b
  | .stop => b

/-- The surroundings in which a call is carried out, with a log. -/
def Call.logged (call : Call ω) (log : List Notice) : Env (ω × List Notice) :=
  let board := call.request.board call.env.board
  ⟨⟨(call.env.world, log ++ [.called board.contents]), call.env.fresh⟩, board⟩

namespace Tree

/-- Carries out a request on the blackboard as the request finds it, with a log. -/
def respondLogged (B : Behavior ο σ ω) (t : Tree ο (Site × σ)) (request : Request)
    (env : Env (ω × List Notice)) : Served ο (Site × σ) (ω × List Notice) :=
  match request with
  | .tick | .tickWith _ =>
    let s := t.root.runLogged B env
    ⟨some s.status, { t with root := s.node, lastStatus := some s.status }, s.env⟩
  | .stop => let r := t.root.abort B.logged env; ⟨none, { t with root := r.1 }, r.2⟩

/-- Carries out a call, with a log. -/
def serveLogged (B : Behavior ο σ ω) (t : Tree ο (Site × σ)) (log : List Notice) (call : Call ω) :
    Served ο (Site × σ) (ω × List Notice) :=
  let r := t.respondLogged B call.request (call.logged log)
  { r with env := r.env.note (.returned r.env.board.contents) }

/-- Carries out calls in order, with a log. -/
def serveAllLogged (B : Behavior ο σ ω) :
    List (Call ω) → Tree ο (Site × σ) → List Notice → Course ο (Site × σ) × List Notice
  | [], t, log => (⟨[], t⟩, log)
  | call :: rest, t, log =>
    let r := t.serveLogged B log call
    let c := serveAllLogged B rest r.tree r.env.world.2
    ({ c.1 with replies := r.reply :: c.1.replies }, c.2)

/-- Serving with a log is serving. -/
theorem serveLogged_map (B : Behavior ο σ ω) (t : Tree ο (Site × σ)) (log : List Notice)
    (call : Call ω) :
    (t.serveLogged B log call).map Prod.snd Prod.fst =
      (t.map Prod.snd).serve B call.request call.env := by
  obtain ⟨request, env⟩ := call
  have hrun := Node.runLogged_map B t.root (Call.logged ⟨request, env⟩ log)
  have habort := Node.abort_map B.projects_logged t.root (Call.logged ⟨request, env⟩ log)
  let answer (s : Step σ ω) : Served ο σ ω :=
    ⟨some s.status, { t.map Prod.snd with root := s.node, lastStatus := some s.status }, s.env⟩
  cases request with
  | tick => exact (congrArg answer hrun).symm
  | tickWith clock => exact (congrArg answer hrun).symm
  | stop =>
    exact (congrArg (fun r ↦ (⟨none, { t.map Prod.snd with root := r.1 }, r.2⟩ : Served ο σ ω))
      habort).symm

/-- A course with a log is a course. -/
theorem serveAllLogged_map (B : Behavior ο σ ω) (calls : List (Call ω)) (t : Tree ο (Site × σ))
    (log : List Notice) :
    (t.serveAllLogged B calls log).1.map Prod.snd = (t.map Prod.snd).serveAll B calls := by
  induction calls generalizing t log with
  | nil => rfl
  | cons call rest ih =>
    have hserve := t.serveLogged_map B log call
    rw [serveAll, ← hserve]
    simp only [Served.map, ← ih _ (t.serveLogged B log call).env.world.2]
    rfl

end Tree

end BehaviorTree
