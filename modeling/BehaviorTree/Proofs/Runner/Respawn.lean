import BehaviorTree.Proofs.Pool.Exchange
import BehaviorTree.Proofs.Pool.Refinement
import BehaviorTree.Proofs.Runner.Refusal
import BehaviorTree.Proofs.Tree.Anew

/-!
# Agents that are spawned again

An agent that is spawned under a taken id is made before the agent that had the id is retired. To
despawn the old one first and then spawn the new one does the same in the opposite order, and it
comes to the same in one case only: no hook tells the order, since nothing is stopped or nothing is
bound, and no stack of the pool does, since it is neither empty nor full (`Fit.respawn_iff`).
-/

namespace BehaviorTree

variable {ο σ ν ω : Type}

/-! ### What is compared -/

/-- What is told of a pool without looking at its nodes. -/
def Pool.tally (p : Pool σ) : Tally := ⟨p.freeCount, p.stats⟩

private theorem Pool.shows_tally {p : Pool σ} (hb : p.Bounded) (hk : p.Keyed) :
    p.Shows p.maxFree p.tally := ⟨rfl, fun _ ↦ rfl, rfl, hb, hk⟩

private theorem Pool.Shows.tally_eq {maxFree : Nat} {p : Pool σ} {t : Tally}
    (h : Shows maxFree p t) : p.tally = t := by
  ext id
  · exact h.free id
  · exact h.stats

/-- The agent without the identities of scopes. -/
def Agent.plain (a : Agent ο σ) : Agent ο σ :=
  { a with
    tree := { a.tree with root := a.tree.root.plain }
    scope := ⟨⟨0⟩, a.scope.entries⟩ }

/-- The calls of hooks so far: which leaf, and which hook. -/
def Host.hooks (host : Host σ (ω × List (HookEvent ν))) : List (ν × Hook) :=
  host.world.2.map fun e ↦ (e.leaf, e.hook)

/-- The calls of one hook of several leaves. -/
def Hook.each (hook : Hook) (names : List ν) : List (ν × Hook) := names.map fun name ↦ (name, hook)

namespace Squad

/-- Whether two squads have the same agents, but for identities of scopes, pools with the same free
counts and statistics, and the same calls of hooks behind them. -/
structure Matches (s s' : Squad ο σ (ω × List (HookEvent ν))) : Prop where
  schedule : s.runner.schedule = s'.runner.schedule
  agents : s.runner.agents.map Agent.plain = s'.runner.agents.map Agent.plain
  tally : s.host.pool.tally = s'.host.pool.tally
  hooks : s.host.hooks = s'.host.hooks

/-! ### Agents and pools that orders make -/

/-- Whether each free node is in the stack of its identifier, no stack exceeds the bound, and the
trees of the agents are steady and have different identifiers. -/
structure Fit (s : Squad ο σ ω) : Prop where
  keyed : s.host.pool.Keyed
  bounded : s.host.pool.Bounded
  trees : ∀ a ∈ s.runner.agents, a.tree.root.AllSteady (fun _ _ ↦ True) ∧ a.tree.root.ids.Nodup

variable {B : Behavior ο σ ω} {who : UInt64 → Prop} {s s' : Squad ο σ ω}

private theorem fit_act (h : s.Fit) (ha : s.Act B (fun _ t ↦ t.root.ids.Nodup) who s') :
    s'.Fit := by
  refine ⟨?_, ?_, ha.forall_agents h.trees ?_ (fun _ htree _ ↦ htree) ?_⟩
  · exact ha.pool_holds h.keyed (fun t owner ↦ t.keyed_instantiate B owner h.keyed) h.keyed.release
  · refine ha.pool_holds h.bounded (fun t owner ↦ ?_) fun n ↦ ?_
    · obtain ⟨asked, htraded⟩ := t.traded_instantiate B owner h.keyed
      exact htraded.bounded h.bounded
    · exact (s.host.pool.refilled_release n).bounded h.bounded
  · rintro a ⟨hsteady, hnodup⟩ request lastThink outside
    have hids := (a.tree.serve_kept (B := B) request { outside with board := a.board }).1
    exact ⟨(Tree.serve_steady B.respects_true hsteady request _).1, hids ▸ hnodup⟩
  · intro id t tree owner host hw ht hi
    have hunused := Tree.allUnused_of_made (congrArg Prod.fst hi)
    exact ⟨Node.allSteady_of_allUnused hunused fun _ _ _ _ ↦ trivial,
      (Tree.ids_instantiate hi) ▸ ht⟩

private theorem fit_acts (h : s.Fit) (ha : s.Acts B (fun _ t ↦ t.root.ids.Nodup) who s') :
    s'.Fit := by
  induction ha with
  | refl => exact h
  | tail _ hact ih => exact fit_act ih hact

/-- Whether a squad can come to a state. Between orders others may use its host in any way, and no
template has an identifier twice. -/
inductive Reachable (B : Behavior ο σ ω) : Squad ο σ ω → Prop where
  | start (schedule : Schedule) {session : Session σ ω} (h : session.Reachable B) :
      Reachable B (start schedule session.host)
  | obey {s : Squad ο σ ω} (h : Reachable B s) {order : Order ο σ}
      (ho : order.Within (fun _ t ↦ t.root.ids.Nodup) fun _ ↦ True) : Reachable B (s.obey B order)
  | meanwhile {s : Squad ο σ ω} (h : Reachable B s) {session : Session σ ω}
      (hs : session.Reachable B) : Reachable B { s with host := session.host }

private theorem Reachable.fit (h : s.Reachable B) : s.Fit ∧ Runner.Ascending s.runner.agents := by
  induction h with
  | start schedule h =>
    exact ⟨⟨h.tidy.keyed, h.bounded, fun a ha ↦ by cases ha⟩, List.Pairwise.nil⟩
  | obey h ho ih => exact ⟨fit_acts ih.1 (acts_obey ho fun _ _ ↦ trivial), ascending_obey ih.2 _⟩
  | meanwhile h hs ih => exact ⟨⟨hs.tidy.keyed, hs.bounded, ih.1.trees⟩, ih.2⟩

end Squad

/-! ### An agent in its place -/

/-- The agent of an id stands between those of lesser and those of greater ids. -/
theorem Runner.place_of_find? {agents : List (Agent ο σ)} {id : UInt64} {a : Agent ο σ}
    (h : Ascending agents) (hf : agents.find? (·.id == id) = some a) :
    ∃ before after, agents = before ++ a :: after ∧ a.id = id ∧ (∀ b ∈ before, b.id < id) ∧
      ∀ b ∈ after, id < b.id := by
  obtain ⟨before, after, rfl, rfl, -⟩ := split_of_find? h hf
  rw [Ascending, List.map_append, List.map_cons, List.pairwise_append, List.pairwise_cons] at h
  obtain ⟨-, ⟨hafter, -⟩, hbefore⟩ := h
  refine ⟨before, after, rfl, rfl, fun b hb ↦ ?_, fun b hb ↦ ?_⟩
  · exact hbefore b.id (List.mem_map_of_mem hb) a.id List.mem_cons_self
  · exact hafter b.id (List.mem_map_of_mem hb)

/-- An agent as it is when it has just been spawned by a runner of some schedule. -/
def Agent.newcomer (schedule : Schedule) (id : UInt64) (tree : Tree ο σ) (scope : ScopeId) :
    Agent ο σ := ⟨id, schedule.forAgent id, tree, .empty scope, none⟩

namespace Squad

variable {B : Behavior ο σ ω} {s : Squad ο σ ω} {before after : List (Agent ο σ)} {a : Agent ο σ}
  {id : UInt64} {t x : Tree ο σ} {owner : ο}

/-- The new agent comes into its place, and an agent that had it is retired. -/
theorem obey_spawn_of_placed {old : Option (Agent ο σ)} {agents : List (Agent ο σ)}
    (hx : (t.instantiate B owner s.host).1 = .ok x) :
    let host := (t.instantiate B owner s.host).2
    Runner.insertAgent (.newcomer s.runner.schedule id x host.fresh) s.runner.agents =
        (old, agents) →
      s.obey B (.spawn id t owner) = s.withAgents agents
        (Runner.retireAll B old.toList { host with fresh := host.fresh.next }) := by
  intro host hplaced
  exact (obey_spawn_of_ok hx id).trans
    (congrArg (fun placed : Option (Agent ο σ) × List (Agent ο σ) ↦
      s.withAgents placed.2 (Runner.retireAll B placed.1.toList _)) hplaced)

/-- Under a taken id, the agent that had it is retired once the new one is made. -/
theorem obey_spawn_of_taken (hs : s.runner.agents = before ++ a :: after) (hid : a.id = id)
    (hb : ∀ b ∈ before, b.id < id) (hx : (t.instantiate B owner s.host).1 = .ok x) :
    let host := (t.instantiate B owner s.host).2
    s.obey B (.spawn id t owner) =
      s.withAgents (before ++ .newcomer s.runner.schedule id x host.fresh :: after)
        (a.retire B { host with fresh := host.fresh.next }) := by
  intro host
  have hplaced : Runner.insertAgent (.newcomer s.runner.schedule id x host.fresh) s.runner.agents =
      (some a, before ++ .newcomer s.runner.schedule id x host.fresh :: after) := by
    rw [hs, Runner.insertAgent_append hb, Runner.insertAgent, hid, Agent.newcomer,
      if_neg (UInt64.lt_irrefl id), if_pos rfl]
  exact obey_spawn_of_placed hx hplaced

/-- Under a free id nobody is retired. -/
theorem obey_spawn_of_free (hs : s.runner.agents = before ++ after)
    (hb : ∀ b ∈ before, b.id < id) (ha : ∀ b ∈ after, id < b.id)
    (hx : (t.instantiate B owner s.host).1 = .ok x) :
    let host := (t.instantiate B owner s.host).2
    s.obey B (.spawn id t owner) =
      s.withAgents (before ++ .newcomer s.runner.schedule id x host.fresh :: after)
        { host with fresh := host.fresh.next } := by
  intro host
  have hplaced : Runner.insertAgent (.newcomer s.runner.schedule id x host.fresh) s.runner.agents =
      (none, before ++ .newcomer s.runner.schedule id x host.fresh :: after) := by
    rw [hs, Runner.insertAgent_append hb]
    cases after with
    | nil => rfl
    | cons b rest =>
      have hlt : id < b.id := ha b List.mem_cons_self
      rw [Runner.insertAgent, Agent.newcomer, if_pos hlt]
  exact obey_spawn_of_placed hx hplaced

private theorem obey_despawn_of_taken (hs : s.runner.agents = before ++ a :: after)
    (hid : a.id = id) (hb : ∀ b ∈ before, b.id < id) :
    s.obey B (.despawn id) = s.withAgents (before ++ after) (a.retire B s.host) := by
  have hne : ∀ b ∈ before, b.id ≠ id := fun b hlt ↦ UInt64.ne_of_lt (hb b hlt)
  have hrest : Runner.eraseAgent id (a :: after) = (some a, after) := by
    rw [Runner.eraseAgent, if_pos hid]
  simp only [obey, Runner.despawn, hs, Runner.eraseAgent_append hne, hrest]
  rfl

end Squad

/-! ### Hooks and tallies -/

namespace Agent

/-- To retire an agent is to stop its started leaves. -/
theorem hooks_retire (B : Behavior ο σ ω) {a : Agent ο (ν × σ)}
    (h : a.tree.root.AllSteady fun _ _ ↦ True) (host : Host (ν × σ) (ω × List (HookEvent ν))) :
    (a.retire B.traced host).hooks = host.hooks ++ Hook.stop.each a.tree.root.openNames := by
  obtain ⟨events, htrace, hevents⟩ :=
    Node.stopped_abort (B := B) h { host.toOutside with board := a.board }
  have hworld : (a.retire B.traced host).world.2 = host.world.2 ++ events := htrace
  rw [Host.hooks, hworld, List.map_append, hevents]
  rfl

/-- Nothing but the hooks changes the world. -/
theorem world_retire {B : Behavior ο σ ω} {a : Agent ο σ}
    (h : a.tree.root.AllSteady fun _ _ ↦ True) (ho : a.tree.root.openStates = [])
    (host : Host σ ω) : (a.retire B host).world = host.world :=
  Node.world_abort_of_no_open h ho { host.toOutside with board := a.board }

/-- The nodes of a retired agent go back to the pool. -/
theorem shows_retire (B : Behavior ο σ ω) (a : Agent ο σ) {host : Host σ ω} {maxFree : Nat}
    {t : Tally} (h : host.pool.Shows maxFree t) :
    (a.retire B host).pool.Shows maxFree (t.release maxFree a.tree.root.ids) := by
  rw [← (a.tree.serve_kept (B := B) .stop { host.toOutside with board := a.board }).1]
  exact h.release _

end Agent

namespace Tree

private theorem hooks_of_made {B : Behavior ο σ ω} {t x : Tree ο (ν × σ)} {owner : ο}
    {host : Host (ν × σ) (ω × List (HookEvent ν))}
    (h : (t.instantiate B.traced owner host).1 = .ok x) :
    (t.instantiate B.traced owner host).2.hooks = host.hooks ++ Hook.awake.each t.root.names := by
  obtain ⟨asked, -, htrace, hall⟩ := t.onlyAwakes_instantiate B owner host
  rw [hall x h] at htrace
  rw [Host.hooks, htrace, List.map_append, Node.awakings, Hook.each, Node.names, Node.states,
    List.map_map, List.map_map]
  rfl

private theorem shows_of_made {B : Behavior ο σ ω} {t x : Tree ο σ} {owner : ο} {host : Host σ ω}
    (h : (t.instantiate B owner host).1 = .ok x) {maxFree : Nat} {tally : Tally}
    (hp : host.pool.Shows maxFree tally) :
    (t.instantiate B owner host).2.pool.Shows maxFree (t.root.ids.foldl Tally.acquire tally) :=
  hp.used (.instantiate (B := B) (Prod.ext h rfl))

end Tree

/-- Calls of two hooks come to the same in either order only if there are none of one of them. -/
theorem Hook.each_append_comm {hook hook' : Hook} (hne : hook ≠ hook') {names names' : List ν} :
    hook.each names ++ hook'.each names' = hook'.each names' ++ hook.each names ↔
      names' = [] ∨ names = [] := by
  constructor
  · intro h
    cases names with
    | nil => exact .inr rfl
    | cons name rest =>
      cases names' with
      | nil => exact .inl rfl
      | cons name' rest' => exact absurd (congrArg Prod.snd (List.cons.inj h).1) hne
  · rintro (rfl | rfl)
    · exact List.append_nil _
    · exact (List.append_nil _).symm

/-! ### Both orders -/

namespace Squad

variable {B : Behavior ο σ ω} {s : Squad ο (ν × σ) (ω × List (HookEvent ν))}
  {a : Agent ο (ν × σ)} {id : UInt64} {t x y : Tree ο (ν × σ)} {owner : ο}

/-- If nothing is stopped or nothing is bound, the same instance is made once the agent is gone. -/
theorem Fit.made_after_retire (h : s.Fit) (ha : a ∈ s.runner.agents)
    (hx : (t.instantiate B.traced owner s.host).1 = .ok x)
    (hquiet : a.tree.root.openNames = [] ∨ t.root.names = []) :
    ∃ y, (t.instantiate B.traced owner (a.retire B.traced s.host)).1 = .ok y ∧
      y.root.plain = x.root.plain := by
  have hshows := a.shows_retire B.traced (Pool.shows_tally h.bounded h.keyed)
  obtain ⟨y, hy, hframe⟩ : ∃ y,
      (t.instantiate B.traced owner (a.retire B.traced s.host)).1 = .ok y ∧
        y.root.frame (fun s ↦ s) = x.root.frame fun s ↦ s := by
    by_cases ho : a.tree.root.openStates = []
    · have hworld := Agent.world_retire (B := B.traced) (h.trees a ha).1 ho s.host
      have hagree := (Tree.instantiate_agree B.traced.projects_self h.keyed hshows.keyed hworld
        t owner).1
      rw [t.map_self] at hagree
      rcases map_eq_map_cases hagree with ⟨e, he, -⟩ | ⟨x', y, hx', hy, hframe⟩
      · rw [hx] at he
        cases he
      · rw [hx] at hx'
        cases hx'
        exact ⟨y, hy, hframe.symm⟩
    · have hstates : Nonempty (ν × σ) := ⟨a.tree.root.openStates.head ho⟩
      have hnames : t.root.names = [] :=
        hquiet.resolve_left fun hnone ↦ ho (by simpa [Node.openNames] using hnone)
      exact Tree.instantiate_of_no_states hshows.keyed (by simpa [Node.names] using hnames) hx
  exact ⟨y, hy, Node.plain_eq_of_frame hframe (Tree.allUnused_of_made hy)
    (Tree.allUnused_of_made hx)⟩

/-- New agents differ only in identities of scopes if their instances do. -/
theorem plain_newcomer {host host' : Host (ν × σ) (ω × List (HookEvent ν))}
    (hx : (t.instantiate B.traced owner host).1 = .ok x)
    (hy : (t.instantiate B.traced owner host').1 = .ok y) (hp : y.root.plain = x.root.plain)
    (schedule : Schedule) (id : UInt64) (scope scope' : ScopeId) :
    (Agent.newcomer schedule id x scope).plain = (Agent.newcomer schedule id y scope').plain := by
  rw [(Tree.eq_of_made hx).2, (Tree.eq_of_made hy).2]
  simp only [Agent.newcomer, Agent.plain, Scope.empty, hp]

variable {before after : List (Agent ο (ν × σ))}

/-- At once: the leaves of the new agent are bound before those of the old one are stopped, and
nodes are taken before others are given back. -/
theorem Fit.told_of_spawn (h : s.Fit) (hs : s.runner.agents = before ++ a :: after)
    (hid : a.id = id) (hb : ∀ b ∈ before, b.id < id)
    (hx : (t.instantiate B.traced owner s.host).1 = .ok x) :
    let once := s.obey B.traced (.spawn id t owner)
    once.host.hooks = s.host.hooks ++
        (Hook.awake.each t.root.names ++ Hook.stop.each a.tree.root.openNames) ∧
      once.host.pool.tally = (t.root.ids.foldl Tally.acquire s.host.pool.tally).release
        s.host.pool.maxFree a.tree.root.ids := by
  intro once
  have ha : a ∈ s.runner.agents := by simp [hs]
  have honce : once = _ := obey_spawn_of_taken hs hid hb hx
  have hmade := Tree.shows_of_made hx (Pool.shows_tally h.bounded h.keyed)
  rw [honce]
  constructor
  · rw [← List.append_assoc, ← Tree.hooks_of_made hx]
    exact Agent.hooks_retire B (h.trees a ha).1 _
  · exact Pool.Shows.tally_eq (a.shows_retire B.traced hmade)

/-- In two steps: the other way round. -/
theorem Fit.told_of_despawn_spawn (h : s.Fit) (hs : s.runner.agents = before ++ a :: after)
    (hb : ∀ b ∈ before, b.id < id) (hafter : ∀ b ∈ after, id < b.id)
    (hy : (t.instantiate B.traced owner (a.retire B.traced s.host)).1 = .ok y) :
    let apart := s.withAgents (before ++ after) (a.retire B.traced s.host)
    let twice := apart.obey B.traced (.spawn id t owner)
    twice.host.hooks = s.host.hooks ++
        (Hook.stop.each a.tree.root.openNames ++ Hook.awake.each t.root.names) ∧
      twice.host.pool.tally = t.root.ids.foldl Tally.acquire
        (s.host.pool.tally.release s.host.pool.maxFree a.tree.root.ids) := by
  intro apart twice
  have ha : a ∈ s.runner.agents := by simp [hs]
  have htwice : twice = _ := obey_spawn_of_free (s := apart) rfl hb hafter hy
  have hgone := a.shows_retire B.traced (Pool.shows_tally h.bounded h.keyed)
  rw [htwice]
  constructor
  · rw [← List.append_assoc, ← Agent.hooks_retire B (h.trees a ha).1]
    exact Tree.hooks_of_made hy
  · exact Pool.Shows.tally_eq (Tree.shows_of_made hy hgone)

/-- To spawn an agent under a taken id matches despawning the old one first exactly if no hook tells
the order, and no stack does. -/
theorem Fit.respawn_iff (h : s.Fit) (hasc : Runner.Ascending s.runner.agents)
    (hf : s.runner.find? id = some a) (hn : t.root.ids.Nodup)
    (hx : (t.instantiate B.traced owner s.host).1 = .ok x) :
    let once := s.obey B.traced (.spawn id t owner)
    let twice := s.obeyAll B.traced [.despawn id, .spawn id t owner]
    once.host.hooks = s.host.hooks ++
        (Hook.awake.each t.root.names ++ Hook.stop.each a.tree.root.openNames) ∧
      (once.Matches twice ↔
        (∀ i ∈ a.tree.root.ids, i ∈ t.root.ids →
          s.host.pool.tally.Indifferent s.host.pool.maxFree i) ∧
        (a.tree.root.openNames = [] ∨ t.root.names = [])) := by
  intro once twice
  obtain ⟨before, after, hs, hid, hb, hafter⟩ := Runner.place_of_find? hasc hf
  have ha : a ∈ s.runner.agents := by simp [hs]
  obtain ⟨hcalls, htally⟩ := h.told_of_spawn hs hid hb hx
  have honce : once = _ := obey_spawn_of_taken hs hid hb hx
  let apart := s.withAgents (before ++ after) (a.retire B.traced s.host)
  have hdespawn : s.obey B.traced (.despawn id) = apart := obey_despawn_of_taken hs hid hb
  have htwice : twice = apart.obey B.traced (.spawn id t owner) :=
    congrArg (obey B.traced · (.spawn id t owner)) hdespawn
  refine ⟨hcalls, ?_⟩
  rw [htwice]
  cases hy : (t.instantiate B.traced owner apart.host).1 with
  | error e =>
    -- what the old agent did when it was stopped may keep the new one from being bound
    refine iff_of_false (fun hm ↦ ?_) fun hquiet ↦ ?_
    · have hlength := congrArg List.length hm.agents
      rw [honce, obey_spawn_of_error hy] at hlength
      simp [apart, withAgents] at hlength
    · obtain ⟨y, hy', -⟩ := h.made_after_retire ha hx hquiet.2
      cases hy.symm.trans hy'
  | ok y =>
    obtain ⟨hcalls', htally'⟩ := h.told_of_despawn_spawn hs hb hafter hy
    have hbounded : ∀ i, s.host.pool.tally.free i ≤ s.host.pool.maxFree := h.bounded
    have hne : Hook.awake ≠ Hook.stop := by decide
    rw [← Tally.exchange_iff hbounded hn (h.trees a ha).2, ← Hook.each_append_comm hne]
    constructor
    · intro hm
      constructor
      · rw [← htally, ← htally', hm.tally]
      · rw [← List.append_right_inj, ← hcalls, ← hcalls', hm.hooks]
    · rintro ⟨hpool, horder⟩
      obtain ⟨y', hy', hplain⟩ :=
        h.made_after_retire ha hx ((Hook.each_append_comm hne).mp horder)
      obtain rfl := Except.ok.inj (hy.symm.trans hy')
      have hspawn := obey_spawn_of_free (s := apart) rfl hb hafter hy
      refine ⟨?_, ?_, ?_, ?_⟩
      · rw [honce, hspawn]
        rfl
      · rw [honce, hspawn]
        simp only [withAgents, List.map_append, List.map_cons]
        exact congrArg (before.map Agent.plain ++ · :: after.map Agent.plain)
          (plain_newcomer hx hy hplain _ id _ _)
      · rw [htally, htally', hpool]
      · rw [hcalls, hcalls', horder]

/-- An agent is spawned under the id of another one. Its leaves are bound before those of the other
one are stopped, while despawning the other one first does that in the opposite order. Both come to
the same agents, but for identities of scopes, to the same free counts and statistics of the pool
and to the same calls of hooks exactly if nothing is bound or nothing is stopped, and for each
identifier that both trees have the pool keeps no nodes, or has some and room for more. An empty
stack would have been filled by the other agent's node, and a full one could not have kept it. -/
theorem respawn_as_despawn_and_spawn {B : Behavior ο σ ω}
    {s : Squad ο (ν × σ) (ω × List (HookEvent ν))} (hs : s.Reachable B.traced) {id : UInt64}
    {a : Agent ο (ν × σ)} (hf : s.runner.find? id = some a) {t x : Tree ο (ν × σ)}
    (ht : t.root.ids.Nodup) {owner : ο} (hx : (t.instantiate B.traced owner s.host).1 = .ok x) :
    let pool := s.host.pool
    let once := s.obey B.traced (.spawn id t owner)
    let twice := s.obeyAll B.traced [.despawn id, .spawn id t owner]
    once.host.hooks = s.host.hooks ++
        (Hook.awake.each t.root.names ++ Hook.stop.each a.tree.root.openNames) ∧
      (once.Matches twice ↔
        (∀ i ∈ a.tree.root.ids, i ∈ t.root.ids →
          pool.maxFree = 0 ∨ 0 < pool.freeCount i ∧ pool.freeCount i < pool.maxFree) ∧
        (a.tree.root.openNames = [] ∨ t.root.names = [])) :=
  hs.fit.1.respawn_iff hs.fit.2 hf ht hx

/-- An agent that has not been asked anything is spawned again from a pool that is well stocked. -/
theorem respawn_as_despawn_and_spawn_pause :
    let B : Behavior Owner (String × Wait) (World × List (HookEvent String)) :=
      Wait.behavior.traced
    let stocked : Session (String × Wait) (World × List (HookEvent String)) :=
      (Session.start ⟨(.initial, []), ⟨0⟩⟩ 64).trade ((Pool.empty 64).prewarm Wait.pause.root 2) []
    let s := (start .always stocked.host).obey B (.spawn 1 Wait.pause ⟨1, .unit⟩)
    let again : Order Owner (String × Wait) := .spawn 1 Wait.pause ⟨2, .unit⟩
    s.Reachable B ∧ Wait.pause.root.ids.Nodup ∧ (∃ a, s.runner.find? 1 = some a) ∧
      (∃ x, (Wait.pause.instantiate B ⟨2, .unit⟩ s.host).1 = .ok x) ∧
      (s.obey B again).Matches (s.obeyAll B [.despawn 1, again]) := by
  intro B stocked s again
  have hids : Wait.pause.root.ids.Nodup := by decide
  have hstocked : stocked.Reachable B := .step (.start _ 64) (.prewarm Wait.pause.root 2)
  have hs : s.Reachable B := .obey (.start .always hstocked) ⟨trivial, hids⟩
  have hfound : (s.runner.find? 1).map (·.tree.root.openNames) = some [] := by decide +kernel
  obtain ⟨a, hf, hopen⟩ := Option.map_eq_some_iff.mp hfound
  obtain ⟨root, q, hmade, -⟩ := Tree.instantiate_of_bound (B := B) (t := Wait.pause) rfl
    hs.fit.1.keyed (show Node.bindEach B ⟨2, .unit⟩ _ _ = ⟨_, none, _⟩ from rfl)
  have hx := congrArg Prod.fst hmade
  have hroom : ∀ i ∈ Wait.pause.root.ids,
      0 < s.host.pool.freeCount i ∧ s.host.pool.freeCount i < s.host.pool.maxFree := by
    decide +kernel
  have hiff := (respawn_as_despawn_and_spawn hs hf hids hx).2
  exact ⟨hs, hids, ⟨a, hf⟩, ⟨_, hx⟩, hiff.mpr ⟨fun i _ hi ↦ .inr (hroom i hi), .inl hopen⟩⟩

/-- A watch is spawned again while it runs. It is bound a second time before it is stopped, and the
pool, which is empty, has no node for it yet. -/
theorem respawn_unlike_despawn_and_spawn :
    let B : Behavior Owner (String × Leaf) (World × List (HookEvent String)) :=
      Leaf.behavior.traced
    let root := Node.newLeaf (.plain (.ofNat 0) "watch")
      ("watch", Leaf.action fun b w ↦ (.running, b.entries, w))
    let watch : Tree Owner (String × Leaf) := ⟨root, root.ids, none, false, none⟩
    let session : Session (String × Leaf) (World × List (HookEvent String)) :=
      .start ⟨(.initial, []), ⟨0⟩⟩ 64
    let spawned := (start .always session.host).obey B (.spawn 1 watch ⟨1, .unit⟩)
    let s := spawned.obey B (.tick ⟨1, 0.5⟩)
    let once := s.obey B (.spawn 1 watch ⟨1, .unit⟩)
    let twice := s.obeyAll B [.despawn 1, .spawn 1 watch ⟨1, .unit⟩]
    s.Reachable B ∧ watch.root.ids.Nodup ∧ (∃ a, s.runner.find? 1 = some a) ∧
      (∃ x, (watch.instantiate B ⟨1, .unit⟩ s.host).1 = .ok x) ∧
      once.host.hooks = s.host.hooks ++ [("watch", .awake), ("watch", .stop)] ∧
      twice.host.hooks = s.host.hooks ++ [("watch", .stop), ("watch", .awake)] ∧
      once.host.pool.stats = ⟨0, 2, 1, 0⟩ ∧ twice.host.pool.stats = ⟨1, 1, 1, 0⟩ ∧
      ¬ once.Matches twice := by
  intro B root watch session spawned s once twice
  have hids : watch.root.ids.Nodup := by decide
  have hsession : session.Reachable B := .start _ 64
  have hspawned : spawned.Reachable B := .obey (.start .always hsession) ⟨trivial, hids⟩
  have hs : s.Reachable B := .obey hspawned trivial
  have hf : ∃ a, s.runner.find? 1 = some a := Option.isSome_iff_exists.mp (by decide +kernel)
  have hx : ∃ x, (watch.instantiate B ⟨1, .unit⟩ s.host).1 = .ok x := ⟨_, rfl⟩
  have hcalls : once.host.hooks = s.host.hooks ++ [("watch", .awake), ("watch", .stop)] := by
    decide +kernel
  have hcalls' : twice.host.hooks = s.host.hooks ++ [("watch", .stop), ("watch", .awake)] := by
    decide +kernel
  have honce : once.host.pool.stats = ⟨0, 2, 1, 0⟩ := by decide
  have htwice : twice.host.pool.stats = ⟨1, 1, 1, 0⟩ := by decide
  refine ⟨hs, hids, hf, hx, hcalls, hcalls', honce, htwice, fun hm ↦ ?_⟩
  have hstats : once.host.pool.stats = twice.host.pool.stats := congrArg Tally.stats hm.tally
  exact absurd (honce.symm.trans (hstats.trans htwice)) (by decide)

end Squad

end BehaviorTree
