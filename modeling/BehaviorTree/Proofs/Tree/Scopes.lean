import BehaviorTree.Leaf.Basic
import BehaviorTree.Proofs.Scope.Continuity

/-!
# Scopes over a course of calls

A host ticks and stops a tree with one blackboard, and may change what is in it between two calls.
`scopes_faithful` says that the log of the whole course is faithful: each hook sees the scopes
around its leaf as the hooks before it left them.
-/

namespace BehaviorTree

variable {ο σ ω : Type}

/-- A clock is published on the same blackboard. -/
theorem Call.id_logged (call : Call ω) (log : List Notice) :
    (call.logged log).board.id = call.env.board.id := by
  obtain ⟨request, env⟩ := call
  cases request <;> rfl

/-- Two counters, the second in a scope inside the scope of the first. -/
def Leaf.counters : Node Leaf :=
  let counter (id : Nat) : Node Leaf :=
    .newLeaf (.plain (.ofNat id) "counter")
      (.commanded [.increment "count" 1] none .running .failure)
  let inner : Node Leaf := .newDecorator (.plain (.ofNat 4) "inner") .scoped (some (counter 5))
  .newDecorator (.plain (.ofNat 1) "outer") .scoped
    (some (.newComposite (.plain (.ofNat 2) "both") (.parallel .never) [counter 3, inner]))

private theorem Leaf.allUnused_counters : counters.AllUnused := by
  apply Node.allUnused_newDecorator
  intro c hc
  obtain rfl := Option.some.inj hc
  apply Node.allUnused_newComposite
  intro c hc
  rcases List.mem_cons.mp hc with rfl | hc
  · exact Node.allUnused_newLeaf _ _
  · rw [List.mem_singleton.mp hc]
    apply Node.allUnused_newDecorator
    intro c hc
    obtain rfl := Option.some.inj hc
    exact Node.allUnused_newLeaf _ _

namespace Tree

variable {B : Behavior ο σ ω} {t : Tree ο (Site × σ)} {log : List Notice} {root : ScopeId}

/-- Whether a log is faithful, and the tree is tracked by its ledger on the blackboard of the host.
-/
structure Audited (t : Tree ο (Site × σ)) (log : List Notice) (root : ScopeId) : Prop where
  faithful : Faithful log
  tracked : t.root.Tracked (.of log) [] root
  nodup : t.root.ids.Nodup

/-- A call fills the root with what the host put there. -/
theorem Audited.call (h : t.Audited log root) {call : Call ω} (hc : call.env.board.id = root) :
    Node.Current [] [t.root] (call.logged log) := by
  have hledger : (call.logged log).ledger =
      (Ledger.of log).after (.called (call.logged log).board.contents) := Ledger.of_append _ _
  refine ⟨h.faithful.append trivial, ?_, fun c hcm ↦ ?_⟩
  · rw [hledger]
    rfl
  · rw [List.mem_singleton.mp hcm, call.id_logged, hc, hledger]
    exact h.tracked.congr fun k _ ↦ rfl

/-- What a request does to the root is on record. -/
theorem records_respondLogged (t : Tree ο (Site × σ)) (request : Request)
    (env : Env (ω × List Notice)) :
    let r := t.respondLogged B request env
    Node.Records [] [t.root] env [r.tree.root] r.env := by
  cases request with
  | tick => exact Node.records_runLogged t.root [] env
  | tickWith clock => exact Node.records_runLogged t.root [] env
  | stop => exact Node.records_abort t.root [] env

/-- A call leaves the log faithful, and returns the blackboard as the ledger has it. -/
theorem Audited.serve (h : t.Audited log root) {call : Call ω} (hc : call.env.board.id = root) :
    let r := t.serveLogged B log call
    r.tree.Audited r.env.world.2 root := by
  intro r
  have hrecords := t.records_respondLogged (B := B) call.request (call.logged log)
  have hids := hrecords.ids
  obtain ⟨hcurrent, htouches⟩ := hrecords.kept (by simpa using h.nodup) (h.call hc)
  have hnode := hcurrent.nodes _ (List.mem_singleton_self _)
  have hledger : Ledger.of r.env.world.2 =
      (t.respondLogged B call.request (call.logged log)).env.ledger := Ledger.of_append _ _
  refine ⟨hcurrent.faithful.append hcurrent.board, ?_, ?_⟩
  · rw [htouches.id, call.id_logged, hc] at hnode
    rw [hledger]
    exact hnode
  · simp only [List.flatMap_singleton] at hids
    have hn := h.nodup
    rwa [← hids] at hn

private theorem Audited.serveAll (h : t.Audited log root) {calls : List (Call ω)}
    (hc : ∀ call ∈ calls, call.env.board.id = root) :
    let r := t.serveAllLogged B calls log
    r.1.tree.Audited r.2 root := by
  induction calls generalizing t log with
  | nil => exact h
  | cons call rest ih =>
    exact ih (h.serve (hc call (by simp))) fun other ho ↦ hc other (by simp [ho])

/-- On a tree of unused nodes, let a host issue ticks and stops with one blackboard, whatever it
puts there in between. Each hook of a leaf sees, in the innermost scope around the leaf, what the
hooks before it left there since the current activation of that scope began; behind it the enclosing
scopes in their order, each with what was left directly below it; and last the blackboard of the
host, as the host and the leaves below no scope left it. The blackboard returns to the host in this
state, and a scope whose activation goes on is stored in it. Keeping the log changes nothing else.
-/
theorem scopes_faithful (B : Behavior ο σ ω) {t : Tree ο σ} (hu : t.root.AllUnused)
    (hn : t.root.ids.Nodup) {root : ScopeId} {calls : List (Call ω)}
    (hc : ∀ call ∈ calls, call.env.board.id = root) :
    let r := t.sited.serveAllLogged B calls []
    r.1.map Prod.snd = t.serveAll B calls ∧ Faithful r.2 ∧
      ∀ tag life memory child,
        .decorator tag life .scoped memory (some child) ∈ r.1.tree.root.preorder →
        life.started = true → memory.storedEntries = (Ledger.of r.2).scope tag.id := by
  intro r
  have hsited : t.sited.root.ids = t.root.ids := by
    rw [← congrArg (fun t ↦ t.root.ids) t.map_snd_sited]
    exact (Node.ids_recast _).symm
  have hstart : t.sited.Audited [] root :=
    ⟨faithful_nil, Node.tracked_sited hu, by rwa [hsited]⟩
  have hend : r.1.tree.Audited r.2 root := hstart.serveAll hc
  refine ⟨?_, hend.faithful, fun tag life memory child hm hs ↦ hend.tracked.stored hm hs⟩
  rw [serveAllLogged_map, map_snd_sited]

/-- The counters are ticked twice, the second time on a blackboard with a count of its own, and then
stopped. -/
theorem scopes_faithful_counters :
    let t : Tree Owner Leaf := ⟨Leaf.counters, Leaf.counters.ids, none, false, none⟩
    let board := (Scope.empty ⟨0⟩).alone
    let calls : List (Call World) :=
      [⟨.tickWith ⟨0, 0.5⟩, ⟨⟨.initial, ⟨2⟩⟩, board⟩⟩,
        ⟨.tick, ⟨⟨.initial, ⟨4⟩⟩, board.set "count" (.int 40)⟩⟩, ⟨.stop, ⟨⟨.initial, ⟨9⟩⟩, board⟩⟩]
    t.root.AllUnused ∧ t.root.ids.Nodup ∧ (∀ call ∈ calls, call.env.board.id = ⟨0⟩) ∧
      let r := t.sited.serveAllLogged Leaf.behavior calls []
      r.1.map Prod.snd = t.serveAll Leaf.behavior calls ∧ Faithful r.2 ∧
        ∀ tag life memory child,
          .decorator tag life .scoped memory (some child) ∈ r.1.tree.root.preorder →
          life.started = true → memory.storedEntries = (Ledger.of r.2).scope tag.id := by
  intro t board calls
  have hn : t.root.ids.Nodup := by decide
  have hc : ∀ call ∈ calls, call.env.board.id = ⟨0⟩ := by simp [calls, board]; decide
  exact ⟨Leaf.allUnused_counters, hn, hc,
    scopes_faithful Leaf.behavior Leaf.allUnused_counters hn hc⟩

end Tree

end BehaviorTree
