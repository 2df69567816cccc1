import BehaviorTree.Proofs.Guard.Beat
import BehaviorTree.Proofs.Node.Moved
import BehaviorTree.Tree.Instance

/-!
# A guard's round

A patrolling leaf goes round its guard's route. The waypoint it walks to depends on the route and on
how often it has arrived, and on nothing else (`patrol_goes_round`): neither the steps of the clock
nor the aborts in between matter, as the leaf keeps its place when it is given up and when it is
started again.
-/

namespace BehaviorTree

variable {ο σ ω : Type}

/-- Whether the clock's step can be read: there is none on the blackboard, or it is a number. -/
def Clock.IsReadable (b : Blackboard) : Prop :=
  ∀ v, b.value? deltaKey = some v → ∃ seconds, v = .float seconds

private theorem Clock.IsReadable.getFloat {b : Blackboard} (h : IsReadable b) :
    ∃ seconds, b.getFloat deltaKey 0 = .ok seconds := by
  rw [Blackboard.getFloat, Blackboard.readD, Blackboard.read]
  cases hv : b.value? deltaKey with
  | none => exact ⟨0, rfl⟩
  | some v =>
    obtain ⟨seconds, rfl⟩ := h v hv
    exact ⟨seconds, rfl⟩

namespace Node

/-- Whether a node can become another by runs and aborts of its own, so many of which are runs that
succeed. -/
inductive Succeeded (B : Behavior ο σ ω) (n : Node σ) : Nat → Node σ → Prop where
  | refl : Succeeded B n 0 n
  | run {count : Nat} {m : Node σ} (h : Succeeded B n count m) (env : Env ω) :
      Succeeded B n (count + if (m.run B env).status = .success then 1 else 0) (m.run B env).node
  | abort {count : Nat} {m : Node σ} (h : Succeeded B n count m) (env : Env ω) :
      Succeeded B n count (m.abort B env).1

/-- However a node became another, some number of its runs succeeded. -/
theorem Moved.succeeded {B : Behavior ο σ ω} {n m : Node σ} (h : n.Moved B m) :
    ∃ count, n.Succeeded B count m := by
  induction h with
  | refl => exact ⟨0, .refl⟩
  | run _ env ih =>
    obtain ⟨count, hm⟩ := ih
    exact ⟨_, hm.run env⟩
  | abort _ env ih =>
    obtain ⟨count, hm⟩ := ih
    exact ⟨count, hm.abort env⟩

end Node

/-! ### The hooks of the leaf -/

/-- One tick of a patrol that has a waypoint to walk to: it arrives there and turns to the next one,
or it keeps walking; it fails only where the clock cannot be read. -/
theorem Leaf.run_patrol {p : Patrol} (h : p.leg < p.route.length) (b : Blackboard) (w : World) :
    ∃ status q entries w', Leaf.behavior.run (.patrol p) b w = (status, ⟨.patrol q, entries, w'⟩) ∧
      q.route = p.route ∧ (Clock.IsReadable b → status ≠ .failure) ∧
      (status = .success ∧ p.route[p.leg]? = some q.position ∧
          q.leg = (p.leg + 1) % p.route.length ∨
        status ≠ .success ∧ q.leg = p.leg) := by
  cases hs : b.getFloat Clock.deltaKey 0 with
  | error e =>
    simp only [behavior, run, Patrol.run_of_error h hs, attempt]
    refine ⟨.failure, p, _, _, rfl, rfl, fun hb ↦ ?_, .inr ⟨by decide, rfl⟩⟩
    obtain ⟨seconds, hseconds⟩ := hb.getFloat
    rw [hs] at hseconds
    cases hseconds
  | ok seconds =>
    obtain ⟨status, q, heading, hrun, hroute, hq⟩ := Patrol.arrives_or_walks h hs
    simp only [behavior, run, hrun, attempt]
    refine ⟨status, q, _, _, rfl, hroute, fun _ ↦ ?_, hq.imp_right fun hwalks ↦ ?_⟩
    · rcases hq with ⟨rfl, -⟩ | ⟨rfl, -⟩ <;> decide
    · exact ⟨by rw [hwalks.1]; decide, hwalks.2⟩

namespace Node

/-- A new activation leaves the patrol as it is. -/
theorem begin_patrol (tag : Tag) (life : Life) (p : Patrol) (env : Env World) :
    (leaf tag life (.patrol p)).begin Leaf.behavior env =
      (leaf tag { life with started := true } (.patrol p), env) := by
  obtain ⟨state, started⟩ := life
  cases started <;> rfl

/-- So does an abort. -/
theorem abort_patrol (tag : Tag) (life : Life) (p : Patrol) (env : Env World) :
    ∃ life' env', (leaf tag life (.patrol p)).abort Leaf.behavior env =
      (leaf tag life' (.patrol p), env') := by
  unfold abort abandon
  split <;> exact ⟨_, _, rfl⟩

/-- What the hook makes of the patrol is what a run makes of it. -/
theorem run_patrol (tag : Tag) (life : Life) {p q : Patrol} {status : Status} {entries : Entries}
    {w : World} {env : Env World}
    (h : Leaf.behavior.run (.patrol p) env.board env.world = (status, ⟨.patrol q, entries, w⟩)) :
    ∃ life' env', (leaf tag life (.patrol p)).run Leaf.behavior env =
      ⟨status, leaf tag life' (.patrol q), env'⟩ := by
  rw [run_eq, advance, begin_patrol]
  simp only [work, h, settle]
  split <;> exact ⟨_, _, rfl⟩

/-- Whether a node is a patrol on a route that has arrived so many times. -/
def Patrols (route : List Vec3) (count : Nat) (n : Node Leaf) : Prop :=
  ∃ tag life p, n = leaf tag life (.patrol p) ∧ p.route = route ∧
    p.leg = (1 + count) % route.length

variable {route : List Vec3} {count : Nat} {n m : Node Leaf}

/-- One run of a patrol counts an arrival exactly when it succeeds, at the waypoint of that
number. -/
theorem Patrols.run (hroute : route ≠ []) (h : m.Patrols route count) (env : Env World) :
    let r := m.run Leaf.behavior env
    r.node.Patrols route (count + if r.status = .success then 1 else 0) ∧
      (Clock.IsReadable env.board → r.status ≠ .failure) ∧
      (r.status = .success → ∃ tag life q, r.node = leaf tag life (.patrol q) ∧
        route[(count + 1) % route.length]? = some q.position) := by
  obtain ⟨tag, life, p, rfl, rfl, hleg⟩ := h
  have hlt : p.leg < p.route.length := by
    rw [hleg]
    exact Nat.mod_lt _ (List.length_pos_iff.mpr hroute)
  obtain ⟨status, q, entries, w, hhook, hqroute, hfailure, hq⟩ :=
    Leaf.run_patrol hlt env.board env.world
  obtain ⟨life', env', hrun⟩ := run_patrol tag life hhook
  rw [hrun]
  refine ⟨⟨tag, life', q, rfl, hqroute, ?_⟩, hfailure, ?_⟩
  · rcases hq with ⟨rfl, -, hqleg⟩ | ⟨hne, hqleg⟩
    · rw [hqleg, hleg, Nat.mod_add_mod, if_pos rfl, Nat.add_assoc]
    · rw [hqleg, hleg, if_neg hne, Nat.add_zero]
  · rintro rfl
    rcases hq with ⟨-, hposition, -⟩ | ⟨hne, -⟩
    · rw [hleg, Nat.add_comm] at hposition
      exact ⟨tag, life', q, rfl, hposition⟩
    · exact absurd rfl hne

private theorem Patrols.abort (h : m.Patrols route count) (env : Env World) :
    (m.abort Leaf.behavior env).1.Patrols route count := by
  obtain ⟨tag, life, p, rfl, hp⟩ := h
  obtain ⟨life', env', habort⟩ := abort_patrol tag life p env
  rw [habort]
  exact ⟨tag, life', p, rfl, hp⟩

/-- Whatever happens to a patrol, it has arrived as often as it succeeded. -/
theorem Succeeded.patrols (hroute : route ≠ []) (hn : n.Patrols route 0)
    (h : n.Succeeded Leaf.behavior count m) : m.Patrols route count := by
  induction h with
  | refl => exact hn
  | run _ env ih => exact (ih.run hroute env).1
  | abort _ env ih => exact ih.abort env

/-- Whether a patrol that has arrived so many times is on its round, and stays on it. -/
structure OnRound (route : List Vec3) (count : Nat) (m : Node Leaf) : Prop where
  /-- It walks to the waypoint that comes next. -/
  leg : ∃ p, m.leaf? = some (.patrol p) ∧ p.route = route ∧ p.leg = (1 + count) % route.length
  /-- It does not fail. -/
  status : ∀ env, Clock.IsReadable env.board → (m.run Leaf.behavior env).status ≠ .failure
  /-- When it succeeds, it stands on that waypoint. -/
  arrival : ∀ env, (m.run Leaf.behavior env).status = .success →
    ∃ p, (m.run Leaf.behavior env).node.leaf? = some (.patrol p) ∧
      route[(count + 1) % route.length]? = some p.position
  /-- An abort changes nothing of the patrol. -/
  aborted : ∀ env, (m.abort Leaf.behavior env).1.leaf? = m.leaf?
  /-- Nor does a new activation. -/
  begun : ∀ env, (m.begin Leaf.behavior env).1.leaf? = m.leaf?

private theorem Patrols.onRound (hroute : route ≠ []) (h : m.Patrols route count) :
    m.OnRound route count := by
  obtain ⟨tag, life, p, rfl, hp⟩ := h
  have hrun (env : Env World) := Patrols.run hroute ⟨tag, life, p, rfl, hp⟩ env
  refine ⟨⟨p, rfl, hp⟩, fun env ↦ (hrun env).2.1, fun env hs ↦ ?_, fun env ↦ ?_, fun env ↦ ?_⟩
  · obtain ⟨tag', life', q, hnode, hposition⟩ := (hrun env).2.2 hs
    rw [hnode]
    exact ⟨q, rfl, hposition⟩
  · obtain ⟨life', env', habort⟩ := abort_patrol tag life p env
    rw [habort]
    rfl
  · rw [begin_patrol]
    rfl

/-- A patrol that is bound to a guard begins its round. -/
theorem awake_patrol {g : Guard} {owner : Owner} (howner : owner.guard? = some g)
    (hroute : g.route ≠ []) (tag : Tag) (life : Life) (p : Patrol) (w : World) :
    ∃ q, (leaf tag life (.patrol p)).awake Leaf.behavior owner w =
        (.ok (leaf tag life (.patrol q)), w) ∧
      (leaf tag life (.patrol q)).Patrols g.route 0 := by
  obtain ⟨first, rest, hcons⟩ := List.exists_cons_of_ne_nil hroute
  refine ⟨⟨g.route, g.speed, 1 % g.route.length, first, p.walked⟩, ?_, ⟨_, _, _, rfl, rfl, rfl⟩⟩
  simp only [awake, Leaf.behavior, Leaf.awake, howner, Patrol.awake, hcons]
  rfl

end Node

/-- A patrolling leaf can be bound to any guard with a route. However it is run and aborted from
then on, after its runs have succeeded `count` times it walks to the waypoint of number `count + 1`
of the route taken round and round, and stands on it when a run succeeds the next time; it never
fails where the clock can be read, and keeps its place when it is aborted or started anew. Wherever
the leaf stands in a tree, nothing else happens to it. -/
theorem patrol_goes_round {g : Guard} {owner : Owner} (howner : owner.guard? = some g)
    (hroute : g.route ≠ []) (tag : Tag) (life : Life) (p : Patrol) (w : World) :
    ∃ q, (Node.leaf tag life (.patrol p)).awake Leaf.behavior owner w =
        (.ok (.leaf tag life (.patrol q)), w) ∧
      (∀ count m, (Node.leaf tag life (.patrol q)).Succeeded Leaf.behavior count m →
        m.OnRound g.route count) ∧
      ∀ (t : Tree Owner Leaf) path, t.root.at? path = some (.leaf tag life (.patrol q)) →
        ∀ calls, ∃ count m, (t.serveAll Leaf.behavior calls).tree.root.at? path = some m ∧
          (Node.leaf tag life (.patrol q)).Succeeded Leaf.behavior count m := by
  obtain ⟨q, hawake, hq⟩ := Node.awake_patrol howner hroute tag life p w
  refine ⟨q, hawake, fun count m hm ↦ (hm.patrols hroute hq).onRound hroute, ?_⟩
  intro t path hpath calls
  obtain ⟨m, hm, hmoved⟩ := Tree.moved_serveAll Leaf.behavior hpath calls
  obtain ⟨count, hcount⟩ := hmoved.succeeded
  exact ⟨count, m, hm, hcount⟩

/-- A guard that walks without a clock and is called away. -/
theorem patrol_goes_round_called_away :
    let g : Guard := .ofId 0
    let owner : Owner := ⟨0, .guard g⟩
    let env : Env World := ⟨⟨.initial, ⟨1⟩⟩, (Scope.empty ⟨0⟩).alone⟩
    let walk (p : Patrol) : Node Leaf := .newLeaf (.plain (.ofNat 2) "walk") (.patrol p)
    owner.guard? = some g ∧ g.route ≠ [] ∧ Clock.IsReadable env.board ∧
      ∃ q count, (walk .unbound).awake Leaf.behavior owner .initial = (.ok (walk q), .initial) ∧
        let m := (((walk q).run Leaf.behavior env).node.abort Leaf.behavior env).1
        (walk q).Succeeded Leaf.behavior count m ∧ m.OnRound g.route count ∧
          (m.run Leaf.behavior env).status ≠ .failure := by
  intro g owner env walk
  have howner : owner.guard? = some g := rfl
  have hroute : g.route ≠ [] := by simp [g, Guard.ofId]
  have hclock : Clock.IsReadable env.board := fun v hv ↦ by
    have hnone : env.board.value? Clock.deltaKey = none := rfl
    rw [hnone] at hv
    cases hv
  obtain ⟨q, hawake, hround, -⟩ :=
    patrol_goes_round howner hroute (.plain (.ofNat 2) "walk") .fresh .unbound .initial
  have hm := (Node.Succeeded.refl (B := Leaf.behavior) (n := walk q)).run env |>.abort env
  exact ⟨howner, hroute, hclock, q, _, hawake, hm, hround _ _ hm, (hround _ _ hm).status env hclock⟩

end BehaviorTree
