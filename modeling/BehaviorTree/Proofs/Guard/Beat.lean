import BehaviorTree.Leaf.Basic
import BehaviorTree.Proofs.Node.Confined
import BehaviorTree.Proofs.Node.Scoped
import BehaviorTree.Proofs.Node.Sequencer
import BehaviorTree.Proofs.Scope.Link
import BehaviorTree.Proofs.Scope.Reading

/-!
# A guard's beat

A guard on patrol walks and lingers in a scope of its own. The leaves of the patrol always have a
waypoint to walk to and leave nothing but a heading in the scope, so where the clock is shown
the patrol never fails (`OnBeat.status_run`), whatever it was doing before.
-/

namespace BehaviorTree

namespace Guard

/-- Whether entries are what a patrol leaves in its scope: a heading and nothing else. -/
def HeadingOnly (e : Entries) : Prop := ∀ key ∈ e, key = Patrol.headingKey

/-- A scope without entries has nothing but a heading. -/
theorem headingOnly_empty : HeadingOnly ∅ := fun _ h ↦ absurd h Std.ExtTreeMap.not_mem_empty

private theorem HeadingOnly.setVector {b : Blackboard} (h : HeadingOnly b.entries) (v : Vec3) :
    HeadingOnly (b.setVector Patrol.headingKey v).entries := by
  intro key hkey
  rcases Std.ExtTreeMap.mem_insert.mp hkey with heq | hkey
  · exact (Std.LawfulEqCmp.compare_eq_iff_eq.mp heq).symm
  · exact h key hkey

/-- Whether a blackboard is one on which a patrol works: it finds no more than its heading in its
scope, and the clock's step around it. -/
structure Walkable (seconds : Float32) (b : Blackboard) : Prop where
  heading : HeadingOnly b.entries
  step : nearest? Clock.deltaKey b.enclosing = some (.float seconds)

private theorem Walkable.getFloat {seconds : Float32} {b : Blackboard} (h : Walkable seconds b) :
    b.getFloat Clock.deltaKey 0 = .ok seconds := by
  have hlocal : b.localValue? Clock.deltaKey = none := by
    refine Std.ExtTreeMap.getElem?_eq_none fun hkey ↦ ?_
    have hne : Clock.deltaKey ≠ Patrol.headingKey := by decide
    exact hne (h.heading _ hkey)
  rw [Blackboard.getFloat, Blackboard.readD, Blackboard.read, Blackboard.value?_eq_or, hlocal,
    h.step]
  rfl

end Guard

/-! ### The leaves -/

/-- A patrol with a waypoint to walk to arrives there and turns to the next one, or is still on its
way. -/
theorem Patrol.arrives_or_walks {p : Patrol} (h : p.leg < p.route.length) {b : Blackboard}
    {seconds : Float32} (hb : b.getFloat Clock.deltaKey 0 = .ok seconds) :
    ∃ status p' heading, p.run b = .ok (status, p', b.setVector headingKey heading) ∧
      p'.route = p.route ∧
      (status = .success ∧ p.route[p.leg]? = some p'.position ∧
          p'.leg = (p.leg + 1) % p.route.length ∨
        status = .running ∧ p'.leg = p.leg) := by
  simp only [run, List.getElem?_eq_getElem h, hb, Except.map]
  split
  · exact ⟨_, _, _, rfl, rfl, .inl ⟨rfl, rfl, rfl⟩⟩
  · exact ⟨_, _, _, rfl, rfl, .inr ⟨rfl, rfl⟩⟩

/-- It does not fail, and has a waypoint to walk to afterwards. -/
theorem Patrol.run_of_lt {p : Patrol} (h : p.leg < p.route.length) {b : Blackboard}
    {seconds : Float32} (hb : b.getFloat Clock.deltaKey 0 = .ok seconds) :
    ∃ status p' heading, p.run b = .ok (status, p', b.setVector headingKey heading) ∧
      status ≠ .failure ∧ p'.leg < p'.route.length := by
  obtain ⟨status, p', heading, hrun, hroute, ⟨rfl, -, hleg⟩ | ⟨rfl, hleg⟩⟩ :=
    Patrol.arrives_or_walks h hb
  · exact ⟨_, p', heading, hrun, by decide, by rw [hleg, hroute]; exact Nat.mod_lt _ (by omega)⟩
  · exact ⟨_, p', heading, hrun, by decide, by rwa [hleg, hroute]⟩

/-- Where the clock cannot be read, neither can the walk go on. -/
theorem Patrol.run_of_error {p : Patrol} (h : p.leg < p.route.length) {b : Blackboard}
    {e : AccessError} (hb : b.getFloat Clock.deltaKey 0 = .error e) : p.run b = .error e := by
  simp only [run, List.getElem?_eq_getElem h, hb]
  rfl

namespace Leaf

open Guard

/-- Whether a leaf is part of a patrol: it walks to a waypoint of its route, or it waits. -/
def Paces : Leaf → Prop
  | patrol p => p.leg < p.route.length
  | wait _ => True
  | _ => False

/-- The hooks keep the leaves of a patrol what they are, and leave no more than the heading. -/
theorem preserves_paces : behavior.Preserves Paces HeadingOnly where
  start x b w hx hb := by
    cases x with
    | patrol p => exact ⟨hx, hb⟩
    | wait t => exact ⟨trivial, hb⟩
    | _ => cases hx
  run x b w hx hb := by
    cases x with
    | patrol p =>
      have hp : p.leg < p.route.length := hx
      cases hd : b.getFloat Clock.deltaKey 0 with
      | error e =>
        simp only [behavior, run, Patrol.run_of_error hp hd, attempt]
        exact ⟨hp, hb⟩
      | ok seconds =>
        obtain ⟨status, p', heading, hrun, -, hleg⟩ := Patrol.run_of_lt hp hd
        simp only [behavior, run, hrun, attempt]
        exact ⟨hleg, hb.setVector heading⟩
    | wait t =>
      simp only [behavior, run, attempt]
      cases t.run b with
      | error e => exact ⟨trivial, hb⟩
      | ok r => exact ⟨trivial, hb⟩
    | _ => cases hx
  stop x b w hx hb := by
    cases x with
    | patrol p => exact ⟨hx, hb⟩
    | wait t => exact ⟨trivial, hb⟩
    | _ => cases hx

/-- A leaf of a patrol does not fail where the clock is shown. -/
theorem run_ne_failure {x : Leaf} (hx : x.Paces) {seconds : Float32} {b : Blackboard}
    (hb : Walkable seconds b) (w : World) : (behavior.run x b w).1 ≠ .failure := by
  cases x with
  | patrol p =>
    obtain ⟨status, p', heading, hrun, hstatus, -⟩ := Patrol.run_of_lt hx hb.getFloat
    simp only [behavior, run, hrun, attempt]
    exact hstatus
  | wait t =>
    simp only [behavior, run, Wait.run, hb.getFloat, attempt, Except.map]
    split <;> decide
  | _ => cases hx

private theorem evaluate_of_paces {x : Leaf} (hx : x.Paces) (b : Blackboard) (w : World) :
    behavior.evaluate x b w = (.success, w) := by
  cases x with
  | patrol p => rfl
  | wait t => rfl
  | _ => cases hx

end Leaf

namespace Guard

open Node

variable {n n' c : Node Leaf} {env env' : Env World} {seconds : Float32}

/-- Where a patrol works, it leaves such a blackboard. -/
theorem Walkable.evolves (h : Walkable seconds env.board)
    (hn : n.Everywhere (Confined Leaf.Paces HeadingOnly))
    (he : n.Evolves Leaf.behavior env n' env') : Walkable seconds env'.board where
  heading := (he.confined Leaf.preserves_paces headingOnly_empty hn h.heading).2
  step := by
    rw [he.board.2]
    exact h.step

/-- Whether a node is a leaf of a patrol. -/
def IsPace (n : Node Leaf) : Prop := ∃ tag life x, n = leaf tag life x ∧ x.Paces

private theorem IsPace.confined (h : IsPace n) :
    n.Everywhere (Confined Leaf.Paces HeadingOnly) := by
  obtain ⟨tag, life, x, rfl, hx⟩ := h
  exact everywhere_iff.mpr ⟨hx, fun c hc ↦ by cases hc⟩

/-- A leaf of a patrol does not fail. -/
theorem IsPace.run (h : IsPace n) (hb : Walkable seconds env.board) :
    (n.run Leaf.behavior env).status ≠ .failure ∧
      Walkable seconds (n.run Leaf.behavior env).env.board := by
  refine ⟨?_, hb.evolves h.confined (evolves_run n env)⟩
  have hbegin := evolves_begin (B := Leaf.behavior) n env
  obtain ⟨hconfined, hheading⟩ := hbegin.confined Leaf.preserves_paces headingOnly_empty h.confined
    hb.heading
  have hboard := hb.evolves h.confined hbegin
  have hleaf : ∃ tag life x, (n.begin Leaf.behavior env).1 = leaf tag life x := by
    obtain ⟨tag, life, x, rfl, -⟩ := h
    unfold Node.begin
    split <;> exact ⟨_, _, _, rfl⟩
  obtain ⟨tag, life, x, hx⟩ := hleaf
  rw [hx] at hconfined
  rw [run_eq, advance, status_settle, hx]
  exact Leaf.run_ne_failure hconfined.here hboard _

/-! ### The patrol -/

/-- Whether a node is a round of a patrol: its leaves one after the other. -/
inductive Round : Node Leaf → Prop where
  | mk {tag : Tag} {life : Life} {resume : Nat} {children : List (Node Leaf)}
      (paces : ∀ c ∈ children, IsPace c) : Round (composite tag life .sequencer resume children)

private theorem Round.confined (h : Round n) : n.Everywhere (Confined Leaf.Paces HeadingOnly) := by
  cases h with
  | mk paces => exact everywhere_iff.mpr ⟨trivial, fun c hc ↦ (paces c hc).confined⟩

/-- Whatever the engine does to a round, it stays one. -/
theorem Round.evolves (h : Round n) (hb : HeadingOnly env.board.entries)
    (he : n.Evolves Leaf.behavior env n' env') : Round n' ∧ HeadingOnly env'.board.entries := by
  obtain ⟨hconfined, hheading⟩ := he.confined Leaf.preserves_paces headingOnly_empty h.confined hb
  refine ⟨?_, hheading⟩
  have hframe := he.frame Leaf.behavior.keeps_unit
  cases h with
  | @mk tag life resume children paces =>
    rw [Node.frame, Node.frame, recast_composite] at hframe
    obtain ⟨life', resume', children', rfl, hchildren⟩ := recast_eq_composite hframe
    refine .mk fun c' hc' ↦ ?_
    have hmem := List.mem_map_of_mem (f := Node.frame fun _ ↦ ()) hc'
    rw [show children'.map (Node.frame fun _ ↦ ()) = _ from hchildren] at hmem
    obtain ⟨c, hc, heq⟩ := List.mem_map.mp hmem
    obtain ⟨tag', life', x, rfl, -⟩ := paces c hc
    obtain ⟨life'', x', rfl, -⟩ := recast_eq_leaf heq.symm
    exact ⟨_, _, _, rfl, (hconfined.below (c := leaf _ _ x') hc').here⟩

/-- A round does not fail where the clock is shown. -/
theorem Round.status_run (h : Round n) (hb : Walkable seconds env.board) :
    (n.run Leaf.behavior env).status ≠ .failure := by
  cases h with
  | mk paces =>
    refine status_sequencer_ne_failure (P := Walkable seconds) (fun c hc env he ↦ ?_)
      (fun c hc b w ↦ ?_) _ _ _ hb
    · exact (paces c hc).run he
    · obtain ⟨tag, life, x, rfl, hx⟩ := paces c hc
      rw [evaluate, Leaf.evaluate_of_paces hx]
      exact Status.noConfusion

/-- Whether a node is a patrol: a round in a scope with a heading at most. -/
inductive OnBeat : Node Leaf → Prop where
  | mk {tag : Tag} {life : Life} {memory : Memory} {child : Node Leaf}
      (scope : memory.Confined HeadingOnly) (round : Round child) :
      OnBeat (decorator tag life .scoped memory (some child))

namespace OnBeat

/-- A patrol is a scope decorator. -/
theorem isScoped (h : OnBeat n) : n.IsScoped := by
  cases h
  rfl

private theorem withLife (h : OnBeat n) (life : Life) : OnBeat (n.withLife life) := by
  cases h with
  | mk scope round => exact .mk scope round

private theorem stop (h : OnBeat n) (env : Env World) : OnBeat (n.stop Leaf.behavior env).1 := by
  cases h with
  | @mk tag life memory child scope round =>
    have hchild := evolves_abort_if (child.started = true)
      (evolves_abort (B := Leaf.behavior) child (env.enter memory))
    obtain ⟨hround, -⟩ := round.evolves (scope.enter headingOnly_empty env) hchild
    exact .mk (memory.confined_keep _ headingOnly_empty) hround

/-- A patrol that is aborted stays a patrol. -/
theorem abort (h : OnBeat n) (env : Env World) : OnBeat (n.abort Leaf.behavior env).1 := by
  cases hs : n.started with
  | false =>
    rw [abort_of_not_started hs]
    exact h.withLife _
  | true =>
    rw [abort_of_started hs]
    exact (h.stop env).withLife _

private theorem begin (h : OnBeat n) (env : Env World) : OnBeat (n.begin Leaf.behavior env).1 := by
  cases h with
  | mk scope round =>
    unfold Node.begin
    split
    · exact .mk scope round
    · exact .mk scope round

private theorem work (h : OnBeat n) (env : Env World) :
    OnBeat (n.work Leaf.behavior (Node.run Leaf.behavior) env).node := by
  cases h with
  | @mk tag life memory child scope round =>
    obtain ⟨hround, hheading⟩ := round.evolves (scope.enter headingOnly_empty env)
      (evolves_run child (env.enter memory))
    exact .mk (memory.confined_keep _ hheading) hround

/-- A patrol stays a patrol. -/
theorem run (h : OnBeat n) (env : Env World) : OnBeat (n.run Leaf.behavior env).node := by
  have hwork := (h.begin env).work (n.begin Leaf.behavior env).2
  rw [run_eq, advance]
  generalize (n.begin Leaf.behavior env).1.work Leaf.behavior (Node.run Leaf.behavior)
    (n.begin Leaf.behavior env).2 = s at hwork ⊢
  by_cases hs : s.status = .running
  · rw [settle_of_running hs]
    exact hwork.withLife _
  · rw [settle_of_ne_running hs]
    exact (hwork.stop s.env).withLife _

/-- A patrol does not fail where the clock is shown. -/
theorem status_run (h : OnBeat n) (hd : Clock.IsShown env.board) :
    (n.run Leaf.behavior env).status ≠ .failure := by
  obtain ⟨seconds, hd⟩ := hd
  have hbegin := h.begin env
  have henv := (h.isScoped.begin (B := Leaf.behavior) env).2
  rw [run_eq, advance, status_settle, henv]
  generalize (n.begin Leaf.behavior env).1 = m at hbegin ⊢
  cases hbegin with
  | @mk tag life memory child scope round =>
    have hwalkable : Walkable seconds (env.enter memory).board := by
      refine ⟨scope.enter headingOnly_empty env, ?_⟩
      rw [Env.enclosing_enter]
      exact hd
    exact round.status_run hwalkable

end OnBeat

end Guard

end BehaviorTree
