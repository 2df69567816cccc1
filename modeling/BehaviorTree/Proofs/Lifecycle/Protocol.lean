import BehaviorTree.Proofs.Lifecycle.Lawful
import BehaviorTree.Proofs.Tree.Projection

/-!
# The hook protocol

Every leaf keeps a record of the lifecycle hooks that were called on it. The record is a sequence
of closed activations, each a start, runs of which all but the last suspend, and a stop; behind
them an open activation follows exactly while the leaf is started. `protocol_serveAll` is the law
over whole courses of calls.
-/

namespace BehaviorTree

variable {ο σ ω : Type}

/-- A call of a lifecycle hook; a run with its answer. -/
inductive HookCall where
  | start
  | run (answer : Status)
  | stop
  deriving DecidableEq, Repr

/-- The hooks of leaves that keep a record of the calls beside their state. -/
def Behavior.recorded (B : Behavior ο σ ω) : Behavior ο (σ × List HookCall) ω where
  awake owner s w :=
    let r := B.awake owner s.1 w
    (r.1.map fun state ↦ (state, s.2), r.2)
  start s b w :=
    let e := B.start s.1 b w
    ⟨(e.state, s.2 ++ [.start]), e.entries, e.world⟩
  run s b w :=
    let r := B.run s.1 b w
    (r.1, ⟨(r.2.state, s.2 ++ [.run r.1]), r.2.entries, r.2.world⟩)
  stop s b w :=
    let e := B.stop s.1 b w
    ⟨(e.state, s.2 ++ [.stop]), e.entries, e.world⟩
  evaluate s b w := B.evaluate s.1 b w

/-- Keeping a record changes nothing else. -/
theorem Behavior.projects_recorded (B : Behavior ο σ ω) :
    B.recorded.Projects B Prod.fst (fun w ↦ w) where
  awake owner s w := by
    simp only [recorded]
    obtain ⟨r, w'⟩ := B.awake owner s.1 w
    cases r <;> rfl
  start _ _ _ := rfl
  run _ _ _ := rfl
  stop _ _ _ := rfl
  evaluate _ _ _ := rfl

/-- The calls of one activation that was closed, by a terminal answer or by an abort. -/
inductive Activation : List HookCall → Prop where
  | ended (n : Nat) {answer : Status} (h : answer ≠ .running) :
      Activation (.start :: List.replicate n (.run .running) ++ [.run answer] ++ [.stop])
  | aborted (n : Nat) : Activation (.start :: List.replicate (n + 1) (.run .running) ++ [.stop])

/-- A record in which every activation is closed. -/
def Balanced (history : List HookCall) : Prop :=
  ∃ activations : List (List HookCall),
    (∀ a ∈ activations, Activation a) ∧ history = activations.flatten

/-- The calls of the current activation in a phase. -/
def Phase.Begun : Phase → List HookCall → Prop
  | .idle, current => current = []
  | .opened, current => current = [.start]
  | .suspended, current => ∃ n, current = .start :: List.replicate (n + 1) (.run .running)
  | .ended, current =>
    ∃ n answer, answer ≠ .running ∧
      current = .start :: List.replicate n (.run .running) ++ [.run answer]

/-- A record of closed activations, followed by what was called of the current one. -/
def Phase.Protocol (p : Phase) (history : List HookCall) : Prop :=
  ∃ closed current, Balanced closed ∧ p.Begun current ∧ history = closed ++ current

/-- A history without calls is balanced. -/
theorem balanced_nil : Balanced [] := ⟨[], by simp, rfl⟩

/-- One more closed activation keeps a record balanced. -/
theorem Balanced.append {closed current : List HookCall} (h : Balanced closed)
    (ha : Activation current) : Balanced (closed ++ current) := by
  obtain ⟨activations, hall, rfl⟩ := h
  refine ⟨activations ++ [current], ?_, by simp⟩
  intro a hm
  rcases List.mem_append.mp hm with hm | hm
  · exact hall a hm
  · rw [List.mem_singleton.mp hm]
    exact ha

/-- A closed activation has one start and one stop. -/
theorem Activation.count {a : List HookCall} (h : Activation a) :
    a.count .start = 1 ∧ a.count .stop = 1 := by
  cases h with
  | ended => simp [List.count_replicate]
  | aborted => simp [List.count_replicate]

/-- A balanced record has one stop for each start. -/
theorem Balanced.count_eq {history : List HookCall} (h : Balanced history) :
    history.count .stop = history.count .start := by
  obtain ⟨activations, hall, rfl⟩ := h
  rw [List.count_flatten, List.count_flatten]
  congr 1
  refine List.map_congr_left fun a ha ↦ ?_
  rw [(hall a ha).count.1, (hall a ha).count.2]

/-- Between activations a record is balanced. -/
theorem Phase.protocol_idle {history : List HookCall} :
    Phase.Protocol .idle history ↔ Balanced history := by
  constructor
  · rintro ⟨closed, current, hc, rfl, rfl⟩
    simpa using hc
  · intro h
    exact ⟨history, [], h, rfl, by simp⟩

/-- A stop closes the activation that was begun. -/
theorem Phase.Begun.closed {current : List HookCall}
    (h : Phase.Begun .suspended current ∨ Phase.Begun .ended current) :
    Activation (current ++ [.stop]) := by
  rcases h with ⟨n, rfl⟩ | ⟨n, answer, ha, rfl⟩
  · exact .aborted n
  · exact .ended n ha

/-- A run continues the activation that was begun. -/
theorem Phase.Begun.continued {current : List HookCall} (answer : Status)
    (h : Phase.Begun .opened current ∨ Phase.Begun .suspended current) :
    (Phase.after answer).Begun (current ++ [.run answer]) := by
  obtain ⟨n, rfl⟩ : ∃ n, current = .start :: List.replicate n (.run .running) := by
    rcases h with rfl | ⟨n, rfl⟩
    · exact ⟨0, rfl⟩
    · exact ⟨n + 1, rfl⟩
  cases answer with
  | running => exact ⟨n, by rw [List.replicate_succ', List.cons_append]⟩
  | success => exact ⟨n, .success, by simp, rfl⟩
  | failure => exact ⟨n, .failure, by simp, rfl⟩

/-- A record in one of two phases has one of their current activations at its end. -/
theorem Phase.Protocol.or {p q : Phase} {history : List HookCall}
    (h : p.Protocol history ∨ q.Protocol history) :
    ∃ closed current, Balanced closed ∧ (p.Begun current ∨ q.Begun current) ∧
      history = closed ++ current := by
  rcases h with ⟨closed, current, hc, hb, h⟩ | ⟨closed, current, hc, hb, h⟩
  · exact ⟨closed, current, hc, .inl hb, h⟩
  · exact ⟨closed, current, hc, .inr hb, h⟩

/-- The records follow the phases of the leaves. -/
theorem Behavior.respects_protocol (B : Behavior ο σ ω) :
    B.recorded.Respects fun p s ↦ p.Protocol s.2 where
  start := by
    rintro s b w ⟨closed, current, hc, rfl, h⟩
    exact ⟨closed, [.start], hc, rfl, by simp [recorded, h]⟩
  run := by
    intro s b w h
    obtain ⟨closed, current, hc, hb, h⟩ := Phase.Protocol.or h
    exact ⟨closed, _, hc, Phase.Begun.continued _ hb, by simp [recorded, h]⟩
  stop := by
    intro s b w h
    obtain ⟨closed, current, hc, hb, h⟩ := Phase.Protocol.or h
    rw [Phase.protocol_idle]
    simpa [recorded, h] using hc.append (Phase.Begun.closed hb)

/-- The calls on a leaf in one run of it: a leaf that was not started is started first, and one
that ended is stopped. -/
def HookCall.ofRun (started : Bool) (answer : Status) : List HookCall :=
  (if started then [] else [.start]) ++ [.run answer] ++
    if answer = .running then [] else [.stop]

/-- The calls on a leaf when it is aborted: one that is started is stopped. -/
def HookCall.ofAbort (started : Bool) : List HookCall := if started then [.stop] else []

namespace Node

/-- The record of a leaf. -/
def history? (n : Node (σ × List HookCall)) : Option (List HookCall) := n.leaf?.map Prod.snd

/-- Another life leaves the history. -/
@[simp] theorem history?_withLife (n : Node (σ × List HookCall)) (life : Life) :
    (n.withLife life).history? = n.history? := by
  cases n <;> rfl

private theorem begin_recorded (B : Behavior ο σ ω) (tag : Tag) (life : Life) (state : σ)
    (history : List HookCall) (env : Env ω) :
    ∃ state' env', (leaf tag life (state, history)).begin B.recorded env =
      (leaf tag { life with started := true }
        (state', history ++ if life.started then [] else [.start]), env') := by
  obtain ⟨last, started⟩ := life
  cases started with
  | true => exact ⟨state, env, by rw [if_pos rfl, List.append_nil]; rfl⟩
  | false => exact ⟨_, _, rfl⟩

/-- A run adds to the history of a leaf a start, if it was not started, the run, and a stop, if it
ended. -/
theorem history?_run (B : Behavior ο σ ω) (tag : Tag) (life : Life) (state : σ)
    (history : List HookCall) (env : Env ω) :
    let s := (leaf tag life (state, history)).run B.recorded env
    s.node.history? = some (history ++ HookCall.ofRun life.started s.status) := by
  obtain ⟨state', env', hbegin⟩ := begin_recorded B tag life state history env
  rw [run_eq, advance, hbegin]
  simp only [status_settle, HookCall.ofRun]
  by_cases ha : (B.run state' env'.board env'.world).1 = .running
  · rw [settle_of_running ha, history?_withLife]
    simp [work, history?, leaf?, Behavior.recorded, ha]
  · rw [settle_of_ne_running ha, history?_withLife]
    simp [work, stop, history?, leaf?, Behavior.recorded, ha]

private theorem history?_abort (B : Behavior ο σ ω) (tag : Tag) (life : Life) (state : σ)
    (history : List HookCall) (env : Env ω) :
    ((leaf tag life (state, history)).abort B.recorded env).1.history? =
      some (history ++ HookCall.ofAbort life.started) := by
  obtain ⟨last, started⟩ := life
  cases started with
  | true => rfl
  | false => simp [abort, abandon, started, Node.life, history?, leaf?, withLife, HookCall.ofAbort]

/-- Empty records are those of leaves of which no activation is open. -/
theorem protocol_of_empty (n : Node σ) :
    (n.map fun s ↦ (s, ([] : List HookCall))).Everywhere fun m ↦
      ∀ s ∈ m.leaf?, Phase.Protocol .idle s.2 := by
  intro m hm
  rw [map, preorder_recast] at hm
  obtain ⟨c, hc, rfl⟩ := List.mem_map.mp hm
  cases c with
  | leaf =>
    rintro s hs
    cases hs
    exact Phase.protocol_idle.mpr balanced_nil
  | composite => simp [leaf?]
  | decorator => simp [leaf?]

/-- The record of a leaf says whether an activation of it is open. -/
theorem protocol_of_allSteady {n : Node (σ × List HookCall)}
    (h : n.AllSteady fun p s ↦ p.Protocol s.2) {tag : Tag} {life : Life} {state : σ}
    {history : List HookCall} (hm : leaf tag life (state, history) ∈ n.preorder) :
    (if life.started then Phase.suspended else Phase.idle).Protocol history := by
  have hl := h _ hm
  cases hs : life.started with
  | true => exact (hl.active hs).1
  | false => exact hl.resting hs

end Node

namespace Tree

/-- The tree with an empty record in each leaf. -/
def recorded (t : Tree ο σ) : Tree ο (σ × List HookCall) := t.map fun s ↦ (s, [])

private theorem map_fst_recorded (t : Tree ο σ) : t.recorded.map Prod.fst = t := by
  simp only [recorded, map, Node.map_map, Node.map_self]

/-- After any calls on a tree that was built of unused nodes, each leaf has received its hooks in
the order of the protocol, with an open activation exactly if it is started; its next stop belongs
to a run that ends it or to an abort; and if the root is not started, each leaf has received one
stop for each start. Keeping the records changes nothing else. -/
theorem protocol_serveAll (B : Behavior ο σ ω) (t : Tree ο σ) (h : t.root.AllUnused)
    (calls : List (Call ω)) :
    let r := t.recorded.serveAll B.recorded calls
    r.map Prod.fst = t.serveAll B calls ∧
      (∀ tag life state history, .leaf tag life (state, history) ∈ r.tree.root.preorder →
        (if life.started then Phase.suspended else Phase.idle).Protocol history ∧
        ∀ env : Env ω,
          let n := Node.leaf tag life (state, history)
          let s := n.run B.recorded env
          s.node.history? = some (history ++ HookCall.ofRun life.started s.status) ∧
            (n.abort B.recorded env).1.history? =
              some (history ++ HookCall.ofAbort life.started)) ∧
      (r.tree.root.started = false →
        ∀ tag life state history, .leaf tag life (state, history) ∈ r.tree.root.preorder →
          Balanced history ∧ history.count .stop = history.count .start) := by
  intro r
  have hsteady : r.tree.root.AllSteady fun p s ↦ p.Protocol s.2 :=
    (serveAll_steady_of_allUnused B.respects_protocol calls (Node.allUnused_map h)
      (Node.protocol_of_empty t.root)).1
  refine ⟨?_, ?_, ?_⟩
  · have hm := serveAll_map B.projects_recorded calls t.recorded
    rw [map_fst_recorded] at hm
    rw [← hm]
    congr 1
    exact List.map_id calls
  · intro tag life state history hm
    exact ⟨Node.protocol_of_allSteady hsteady hm,
      fun env ↦ ⟨Node.history?_run B .., Node.history?_abort B ..⟩⟩
  · intro hroot tag life state history hm
    have hs := Node.not_started_of_resting hsteady hroot _ hm
    have hp := Node.protocol_of_allSteady hsteady hm
    rw [if_neg (by simpa [Node.started, Node.life] using hs), Phase.protocol_idle] at hp
    exact ⟨hp, hp.count_eq⟩

/-- The guard's tree, ticked on one blackboard and stopped on another. -/
theorem protocol_guard_course :
    let t : Tree Owner Leaf := ⟨Guard.root 1 0.5, [], none, false, none⟩
    let calls : List (Call World) :=
      [⟨.tickWith ⟨0, 0.1⟩, ⟨⟨.initial, ⟨2⟩⟩, (Scope.empty ⟨0⟩).alone⟩⟩,
        ⟨.stop, ⟨⟨.initial, ⟨9⟩⟩, (Scope.empty ⟨1⟩).alone⟩⟩]
    let r := t.recorded.serveAll Leaf.behavior.recorded calls
    t.root.AllUnused ∧ r.map Prod.fst = t.serveAll Leaf.behavior calls ∧
      r.tree.root.started = false ∧
      ∀ tag life state history, .leaf tag life (state, history) ∈ r.tree.root.preorder →
        Balanced history ∧ history.count .stop = history.count .start := by
  intro t calls r
  have hp := protocol_serveAll Leaf.behavior t (Guard.allUnused_root 1 0.5) calls
  have hs : r.tree.root.started = false := Node.started_abort ..
  exact ⟨Guard.allUnused_root 1 0.5, hp.1, hs, hp.2.2 hs⟩

end Tree

end BehaviorTree
