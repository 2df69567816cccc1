import BehaviorTree.Proofs.Host.Sparing
import BehaviorTree.Proofs.Runner.Apart
import BehaviorTree.Proofs.Runner.Steps
import BehaviorTree.Proofs.Scope.Reading

/-!
# The pace of agents

An agent that thinks on some ticks only is told the time since it last thought. All its leaves see
that clock, as long as none of them changes the clock's keys: it is published on the agent's own
blackboard, and no scope in the tree holds another one. From a spawn on, orders keep up what this
depends on (`Minds.obeyAll`), so that nothing of the ticks is lost over a whole course of them
(`agents_keep_pace`).
-/

namespace BehaviorTree

variable {ο σ ν ω : Type}

namespace Clock

/-- The keys under which the clock is published. -/
def keys : List String := [tickKey, deltaKey]

/-- Both signals are visible where the clock was published. -/
theorem value?_publish (c : Clock) (b : Blackboard) :
    (c.publish b).value? tickKey = some (.int c.tick.toInt64) ∧
      (c.publish b).value? deltaKey = some (.float c.seconds) := by
  constructor
  · rw [publish, Blackboard.value?_set, if_neg (by decide), Blackboard.value?_set, if_pos rfl]
  · rw [publish, Blackboard.value?_set, if_pos rfl]

end Clock

namespace Order

/-- Whether an order neither spawns nor dismisses an agent. -/
def Keeps (id : UInt64) : Order ο σ → Prop
  | .spawn k _ _ => k ≠ id
  | .despawn k => k ≠ id
  | _ => True

/-- The tick that an order passes. -/
def tick? : Order ο σ → Option UInt64
  | .tick clock => some clock.tick
  | _ => none

/-- The ticks that orders pass, in order. -/
def ticks (orders : List (Order ο σ)) : List UInt64 := orders.filterMap tick?

private theorem ticks_cons (order : Order ο σ) (rest : List (Order ο σ)) :
    ticks (order :: rest) = order.tick?.toList ++ ticks rest := by
  cases order <;> rfl

private theorem ticks_append_tick (before after : List (Order ο σ)) (clock : Clock) :
    ticks (before ++ .tick clock :: after) = ticks before ++ clock.tick :: ticks after :=
  List.filterMap_append

/-- The last due tick of several orders is one of the later orders, if there is any. -/
theorem getLast?_ticks_cons (due : UInt64 → Bool) (order : Order ο σ) (rest : List (Order ο σ))
    (last : Option UInt64) :
    ((ticks (order :: rest)).filter due).getLast?.or last =
      ((ticks rest).filter due).getLast?.or ((order.tick?.filter due).or last) := by
  have hone (tick : Option UInt64) : (tick.toList.filter due).getLast? = tick.filter due := by
    cases tick with
    | none => rfl
    | some tick => cases h : due tick <;> simp [Option.filter_some, h]
  rw [ticks_cons, List.filter_append, List.getLast?_append, Option.or_assoc, hone]

end Order

/-- Whether a call of a hook saw a clock. -/
def HookEvent.Sees (tick : UInt64) (seconds : Float32) (e : HookEvent ν) : Prop :=
  e.value? Clock.tickKey = some (.int tick.toInt64) ∧
    e.value? Clock.deltaKey = some (.float seconds)

/-! ### Calls of the leaves of agents -/

namespace Agent

variable {B : Behavior ο σ ω} {a : Agent ο ((UInt64 × ν) × σ)}

/-- Whether the leaves of the agent's tree carry its id, and are quiet and spare some keys. -/
def Spares (quiet : σ → Prop) (keys : List String) (a : Agent ο ((UInt64 × ν) × σ)) : Prop :=
  a.tree.root.Everywhere (Node.Spares (Named (·.1 = a.id) quiet) keys)

/-- An agent that is served notes calls of its own leaves. -/
theorem noted_serve {quiet : σ → Prop} {keys : List String} (hB : B.Spares quiet keys)
    (h : a.Spares quiet keys) (request : Request) (lastThink : Option UInt64)
    (outside : Outside (ω × List (HookEvent (UInt64 × ν)))) :
    let r := a.serve B.traced request lastThink outside
    let board := match request with
      | .tickWith clock => clock.publish a.board
      | _ => a.board
    r.1.Spares quiet keys ∧ ∃ events, r.2.world.2 = outside.world.2 ++ events ∧
      ∀ e ∈ events, e.leaf.1 = a.id ∧ ∀ key ∈ keys, e.value? key = board.value? key := by
  obtain ⟨hspares, hspared⟩ := Tree.spared_serve hB h request { outside with board := a.board }
  exact ⟨hspares, hspared.noted⟩

private theorem noted_attend {quiet : σ → Prop} {keys : List String} (hB : B.Spares quiet keys)
    (h : a.Spares quiet keys)
    (ask : Agent ο ((UInt64 × ν) × σ) → Option (Request × Option UInt64))
    (outside : Outside (ω × List (HookEvent (UInt64 × ν)))) :
    let r := a.attend B.traced ask outside
    r.1.Spares quiet keys ∧ ∃ events, r.2.world.2 = outside.world.2 ++ events ∧
      ∀ e ∈ events, e.leaf.1 = a.id := by
  simp only [attend]
  cases ask a with
  | none => exact ⟨h, [], (List.append_nil _).symm, List.forall_mem_nil _⟩
  | some q =>
    obtain ⟨hspares, events, hlog, hevents⟩ := noted_serve hB h q.1 q.2 outside
    exact ⟨hspares, events, hlog, fun e he ↦ (hevents e he).1⟩

/-- Agents that are served note calls of the leaves of theirs. -/
theorem noted_attendEach {agents : List (Agent ο ((UInt64 × ν) × σ))}
    (h : ∀ a ∈ agents, a.Spares (fun _ ↦ True) [])
    (ask : Agent ο ((UInt64 × ν) × σ) → Option (Request × Option UInt64))
    (outside : Outside (ω × List (HookEvent (UInt64 × ν)))) :
    let r := attendEach B.traced ask agents outside
    (∀ a ∈ r.1, a.Spares (fun _ ↦ True) []) ∧
      ∃ events, r.2.world.2 = outside.world.2 ++ events ∧
        ∀ e ∈ events, ∃ a ∈ agents, e.leaf.1 = a.id := by
  induction agents generalizing outside with
  | nil => exact ⟨List.forall_mem_nil _, [], (List.append_nil _).symm, List.forall_mem_nil _⟩
  | cons a rest ih =>
    obtain ⟨ha, hrest⟩ := List.forall_mem_cons.mp h
    obtain ⟨hspares, events, hlog, hevents⟩ := noted_attend B.spares_nil ha ask outside
    obtain ⟨hspares', events', hlog', hevents'⟩ := ih hrest (a.attend B.traced ask outside).2
    refine ⟨List.forall_mem_cons.mpr ⟨hspares, hspares'⟩, events ++ events', ?_, ?_⟩
    · rw [attendEach, hlog', hlog, List.append_assoc]
    · intro e he
      rcases List.mem_append.mp he with he | he
      · exact ⟨a, List.mem_cons_self, hevents e he⟩
      · obtain ⟨b, hb, hid⟩ := hevents' e he
        exact ⟨b, List.mem_cons_of_mem _ hb, hid⟩

end Agent

namespace Squad

variable {B : Behavior ο σ ω} {id : UInt64}
  {s t : Squad ο ((UInt64 × ν) × σ) (ω × List (HookEvent (UInt64 × ν)))}

/-- Whether the leaves of each agent's tree carry its id. -/
def Labelled (s : Squad ο ((UInt64 × ν) × σ) (ω × List (HookEvent (UInt64 × ν)))) : Prop :=
  ∀ a ∈ s.runner.agents, a.Spares (fun _ ↦ True) []

/-- The leaves of an instance of a signed tree carry the id. -/
theorem spares_signed {quiet : σ → Prop} {keys : List String} (hB : B.Spares quiet keys)
    {t : Tree ο (ν × σ)} (ht : ∀ x ∈ t.root.states, quiet x.2) {owner : ο}
    {host : Host ((UInt64 × ν) × σ) (ω × List (HookEvent (UInt64 × ν)))}
    {x : Tree ο ((UInt64 × ν) × σ)}
    (h : ((t.signed id).instantiate B.traced owner host).1 = .ok x) :
    x.root.Everywhere (Node.Spares (Named (·.1 = id) quiet) keys) := by
  refine Tree.spares_instantiate (hB.traced (·.1 = id)) (fun y hy ↦ ?_) h
  rw [Tree.signed, Tree.renamed, Tree.map, Node.states_map] at hy
  obtain ⟨z, hz, rfl⟩ := List.mem_map.mp hy
  exact ⟨rfl, ht z hz⟩

private theorem labelled_act {who : UInt64 → Prop} (h : s.Labelled)
    (ha : s.Act B.traced Tree.Signed who t) : t.Labelled := by
  refine ha.forall_agents h ?_ (fun _ ha _ ↦ ha) ?_
  · intro a ha request lastThink outside
    exact (Agent.noted_serve B.spares_nil ha request lastThink outside).1
  · rintro id _ tree owner host hw ⟨u, rfl⟩ hi
    exact spares_signed B.spares_nil (fun _ _ ↦ trivial) (congrArg Prod.fst hi)

private theorem labelled_acts {who : UInt64 → Prop} (h : s.Labelled)
    (ha : s.Acts B.traced Tree.Signed who t) : t.Labelled := by
  induction ha with
  | refl => exact h
  | tail _ hact ih => exact labelled_act ih hact

private theorem labelled_obey (h : s.Labelled) (order : Order ο (ν × σ)) :
    (s.obey B.traced order.signed).Labelled :=
  labelled_acts h (acts_obey order.within_signed fun _ _ ↦ trivial)

/-- However a squad has come about, its agents stand in their order, each with leaves of its own. -/
theorem labelled_obeyAll (schedule : Schedule)
    (host : Host ((UInt64 × ν) × σ) (ω × List (HookEvent (UInt64 × ν))))
    (orders : List (Order ο (ν × σ))) :
    let s := (start schedule host).obeyAll B.traced (orders.map Order.signed)
    Runner.Ascending s.runner.agents ∧ s.Labelled := by
  induction orders using List.reverseRecOn with
  | nil => exact ⟨List.Pairwise.nil, List.forall_mem_nil _⟩
  | append_singleton orders order ih =>
    simp only [List.map_append, obeyAll, List.foldl_append] at ih ⊢
    exact ⟨ascending_obey ih.1 order.signed, labelled_obey ih.2 order⟩

/-- When all agents are served, an agent has its turn, and of its leaves there are the calls of
that turn. -/
theorem turn_attend (hasc : Runner.Ascending s.runner.agents) (hl : s.Labelled)
    {a : Agent ο ((UInt64 × ν) × σ)} (hf : s.runner.find? id = some a)
    (ask : Agent ο ((UInt64 × ν) × σ) → Option (Request × Option UInt64)) :
    ∃ turn events,
      (s.attend B.traced ask).runner.find? id = some (a.attend B.traced ask turn).1 ∧
      (s.attend B.traced ask).calls id = s.calls id ++ events ∧
      (a.attend B.traced ask turn).2.world.2 = turn.world.2 ++ events := by
  obtain ⟨before, after, hs, hid, hbefore, hafter⟩ := Runner.split_of_find? hasc hf
  unfold Labelled at hl
  rw [hs, List.forall_mem_append, List.forall_mem_cons] at hl
  obtain ⟨hlb, hla, hlc⟩ := hl
  let turn := (Agent.attendEach B.traced ask before s.host.toOutside).2
  let served := a.attend B.traced ask turn
  obtain ⟨-, front, hfront, hfronts⟩ := Agent.noted_attendEach (B := B) hlb ask s.host.toOutside
  obtain ⟨-, own, hown, howns⟩ := Agent.noted_attend B.spares_nil hla ask turn
  obtain ⟨-, back, hback, hbacks⟩ := Agent.noted_attendEach (B := B) hlc ask served.2
  have hall : Agent.attendEach B.traced ask s.runner.agents s.host.toOutside =
      ((Agent.attendEach B.traced ask before s.host.toOutside).1 ++
        served.1 :: (Agent.attendEach B.traced ask after served.2).1,
        (Agent.attendEach B.traced ask after served.2).2) := by
    rw [hs, Agent.attendEach_append]
    rfl
  refine ⟨turn, own, ?_, ?_, hown⟩
  · simp only [attend, withAgents, Runner.find?, hall]
    exact Agent.find?_attendEach_append B.traced ask hbefore
      ((a.id_attend B.traced ask turn).trans hid) _ s.host.toOutside
  · have hothers {events : List (HookEvent (UInt64 × ν))}
        {agents : List (Agent ο ((UInt64 × ν) × σ))}
        (hne : ∀ b ∈ agents, b.id ≠ id) (he : ∀ e ∈ events, ∃ b ∈ agents, e.leaf.1 = b.id) :
        events.filter (fun e ↦ e.leaf.1 == id) = [] := by
      refine List.filter_eq_nil_iff.mpr fun e hmem ↦ ?_
      obtain ⟨b, hb, heq⟩ := he e hmem
      simpa [heq] using hne b hb
    have hmine : own.filter (fun e ↦ e.leaf.1 == id) = own :=
      List.filter_eq_self.mpr fun e he ↦ by simp [howns e he, hid]
    simp only [attend, withAgents, calls, hall, hback, hown, turn, hfront, served,
      List.filter_append, hothers hbefore hfronts, hothers hafter hbacks, hmine, List.append_nil]

/-! ### The course of an agent -/

/-- Whether there is an agent of an id, with a schedule and the tick on which it last thought, whose
leaves spare the clock's keys; it has its place among others, and no calls are noted in its name but
those of its own leaves. -/
structure Minds (s : Squad ο ((UInt64 × ν) × σ) (ω × List (HookEvent (UInt64 × ν)))) (id : UInt64)
    (quiet : σ → Prop) (schedule : Schedule) (last : Option UInt64) : Prop where
  ascending : Runner.Ascending s.runner.agents
  labelled : s.Labelled
  agent : ∃ a, s.runner.find? id = some a ∧ a.schedule = schedule ∧ a.lastThink = last ∧
    a.Spares quiet Clock.keys

variable {quiet : σ → Prop} {schedule : Schedule} {last : Option UInt64}

/-- An agent that is spawned has not thought yet. -/
theorem minds_spawn (hB : B.Spares quiet Clock.keys) (hasc : Runner.Ascending s.runner.agents)
    (hl : s.Labelled) {t : Tree ο (ν × σ)} (ht : ∀ x ∈ t.root.states, quiet x.2) {owner : ο}
    {x : Tree ο ((UInt64 × ν) × σ)}
    (hx : ((t.signed id).instantiate B.traced owner s.host).1 = .ok x) :
    (s.obey B.traced (.spawn id (t.signed id) owner)).Minds id quiet
      (s.runner.schedule.forAgent id) none := by
  let order : Order ο (ν × σ) := .spawn id t owner
  refine ⟨ascending_obey hasc order.signed, labelled_obey hl order, ?_⟩
  let agent : Agent ο ((UInt64 × ν) × σ) := ⟨id, s.runner.schedule.forAgent id, x,
    .empty ((t.signed id).instantiate B.traced owner s.host).2.fresh, none⟩
  refine ⟨agent, ?_, rfl, rfl, spares_signed hB ht hx⟩
  rw [obey_spawn_of_ok hx]
  exact (Runner.insertAgent_of_ascending agent hasc).2.2

namespace Minds

/-- The agent has its turn when all are served. -/
theorem turn (h : s.Minds id quiet schedule last) (hB : B.Spares quiet Clock.keys)
    (ask : Agent ο ((UInt64 × ν) × σ) → Option (Request × Option UInt64))
    {next : Option UInt64}
    (hask : ∀ a : Agent ο ((UInt64 × ν) × σ), a.schedule = schedule → a.lastThink = last →
      ((ask a).elim last Prod.snd) = next)
    (order : Order ο (ν × σ)) (ho : s.obey B.traced order.signed = s.attend B.traced ask) :
    (s.obey B.traced order.signed).Minds id quiet schedule next := by
  refine ⟨ascending_obey h.ascending order.signed, labelled_obey h.labelled order, ?_⟩
  obtain ⟨a, hf, hs, hlast, hspares⟩ := h.agent
  obtain ⟨turn, -, hfind, -, -⟩ := turn_attend (B := B) h.ascending h.labelled hf ask
  rw [ho]
  refine ⟨_, hfind, ?_, ?_, (Agent.noted_attend hB hspares ask turn).1⟩
  · unfold Agent.attend
    cases ask a with
    | none => exact hs
    | some q => exact hs
  · rw [← hask a hs hlast]
    unfold Agent.attend
    cases ask a with
    | none => exact hlast
    | some q => rfl

/-- An order to another agent is nothing to the agent. -/
theorem other (h : s.Minds id quiet schedule last) (order : Order ο (ν × σ))
    (ho : s.Acts B.traced Tree.Signed (· ≠ id) (s.obey B.traced order.signed)) :
    (s.obey B.traced order.signed).Minds id quiet schedule last := by
  refine ⟨ascending_obey h.ascending order.signed, labelled_obey h.labelled order, ?_⟩
  rw [find?_acts ho]
  exact h.agent

private theorem write (h : s.Minds id quiet schedule last) (k : UInt64) (f : Entries → Entries) :
    (s.obey B.traced (.write k f)).Minds id quiet schedule last := by
  let order : Order ο (ν × σ) := .write k f
  by_cases hk : k = id
  · subst hk
    refine ⟨ascending_obey h.ascending order.signed, labelled_obey h.labelled order, ?_⟩
    obtain ⟨a, hf, hrest⟩ := h.agent
    refine ⟨a.mapEntries f, ?_, hrest⟩
    show (s.runner.mapEntries k f).find? k = _
    rw [Runner.find?_mapEntries, hf]
    rfl
  · exact h.other order (acts_write hk f)

/-- On a tick that is due the agent thinks. -/
theorem obey (h : s.Minds id quiet schedule last) (hB : B.Spares quiet Clock.keys)
    {order : Order ο (ν × σ)} (ho : order.Keeps id) :
    (s.obey B.traced order.signed).Minds id quiet schedule
      ((order.tick?.filter schedule.isDue).or last) := by
  cases order with
  | spawn k t owner => exact h.other (.spawn k t owner) (acts_spawn ho ⟨t, rfl⟩ owner)
  | despawn k => exact h.other (.despawn k) (acts_despawn ho)
  | write k f => exact h.write k f
  | tick clock =>
    refine h.turn hB (Agent.due clock) (fun a hs hl ↦ ?_) (.tick clock) (obey_tick ..)
    simp only [Agent.due, hs, Order.tick?, Option.filter_some]
    cases schedule.isDue clock.tick <;> rfl
  | stopAll =>
    exact h.turn hB Agent.halt (fun a _ hl ↦ hl) .stopAll (obey_stopAll ..)

/-- Over a course of orders the agent thinks on the ticks that are due. -/
theorem obeyAll (h : s.Minds id quiet schedule last) (hB : B.Spares quiet Clock.keys)
    (orders : List (Order ο (ν × σ))) (ho : ∀ order ∈ orders, order.Keeps id) :
    (s.obeyAll B.traced (orders.map Order.signed)).Minds id quiet schedule
      (((Order.ticks orders).filter schedule.isDue).getLast?.or last) := by
  induction orders generalizing s last with
  | nil => exact h
  | cons order rest ih =>
    obtain ⟨horder, hrest⟩ := List.forall_mem_cons.mp ho
    rw [Order.getLast?_ticks_cons]
    exact ih (h.obey hB horder) hrest

/-- An agent that is due thinks, and its leaves see the tick and the time since the last think; an
agent that is not due is left alone. -/
theorem tick (h : s.Minds id quiet schedule last) (hB : B.Spares quiet Clock.keys) {clock : Clock}
    (hlast : ∀ l ∈ last, l < clock.tick) :
    let t := s.obey B.traced (.tick clock)
    ∃ a a' events, s.runner.find? id = some a ∧ t.runner.find? id = some a' ∧
      t.calls id = s.calls id ++ events ∧
      if schedule.isDue clock.tick then
        ∃ turn, a' = (a.think B.traced clock turn).agent ∧
          (a.think B.traced clock turn).outside.world.2 = turn.world.2 ++ events ∧
          ∀ e ∈ events, e.Sees clock.tick
            (clock.seconds * (stepsSince last clock.tick).toFloat32)
      else a' = a ∧ events = [] := by
  intro t
  obtain ⟨a, hf, hs, hl, hspares⟩ := h.agent
  obtain ⟨turn, events, hfind, hcalls, hnoted⟩ :=
    turn_attend (B := B) h.ascending h.labelled hf (Agent.due clock)
  have ht : t = s.attend B.traced (Agent.due clock) := obey_tick ..
  rw [← ht] at hfind hcalls
  refine ⟨a, _, events, hf, hfind, hcalls, ?_⟩
  unfold Agent.attend Agent.due at hnoted ⊢
  rw [hs] at hnoted ⊢
  cases hdue : schedule.isDue clock.tick with
  | false =>
    rw [hdue] at hnoted
    exact ⟨rfl, List.self_eq_append_right.mp hnoted⟩
  | true =>
    rw [hdue] at hnoted
    refine ⟨turn, rfl, hnoted, ?_⟩
    obtain ⟨-, own, hown, howns⟩ :=
      Agent.noted_serve hB hspares (.tickWith (a.clock clock)) (some clock.tick) turn
    obtain rfl : own = events := List.append_cancel_left (hown.symm.trans hnoted)
    intro e he
    obtain ⟨-, hkeys⟩ := howns e he
    have helapsed : a.elapsed clock.tick = stepsSince last clock.tick := by
      rw [Agent.elapsed_eq (hl ▸ hlast), hl]
    obtain ⟨htick, hdelta⟩ := (a.clock clock).value?_publish a.board
    refine ⟨(hkeys _ (by simp [Clock.keys])).trans htick,
      (hkeys _ (by simp [Clock.keys])).trans (hdelta.trans ?_)⟩
    rw [Agent.clock, helapsed]

end Minds

/-- Agents keep pace. Take any runner with any agents, and spawn an agent the leaves of which leave
the clock's keys alone. Whatever the runner is told next, short of dismissing the agent or spawning
it again, with ticks one after the other: on a tick that is not due for the agent, it stays as it
is, and no hook of its leaves is called. On one that is due it thinks, and each hook of its leaves
that is called, in scopes however deep, sees the tick and the seconds times the steps since the last
think, the first think counting one. Over the thinks the steps add up to the ticks from the first
one to the last; and if the ticks are consecutive and fit in a word when they are shifted, all steps
but the first are the interval. -/
theorem agents_keep_pace (hB : B.Spares quiet Clock.keys) (schedule : Schedule)
    (host : Host ((UInt64 × ν) × σ) (ω × List (HookEvent (UInt64 × ν))))
    (past orders : List (Order ο (ν × σ))) (id : UInt64) {t : Tree ο (ν × σ)}
    (ht : ∀ x ∈ t.root.states, quiet x.2) (owner : ο) :
    let squad := (start schedule host).obeyAll B.traced (past.map Order.signed)
    let spawned := squad.obey B.traced (.spawn id (t.signed id) owner)
    let pace := squad.runner.schedule.forAgent id
    let thinks := (Order.ticks orders).filter pace.isDue
    (∃ x, ((t.signed id).instantiate B.traced owner squad.host).1 = .ok x) →
    (∀ order ∈ orders, order.Keeps id) → (Order.ticks orders).Pairwise (· < ·) →
    (∀ before clock after, orders = before ++ .tick clock :: after →
      let s := spawned.obeyAll B.traced (before.map Order.signed)
      let s' := s.obey B.traced (.tick clock)
      ∃ a a' events, s.runner.find? id = some a ∧ s'.runner.find? id = some a' ∧
        s'.calls id = s.calls id ++ events ∧
        if pace.isDue clock.tick then
          ∃ turn steps, a' = (a.think B.traced clock turn).agent ∧
            (a.think B.traced clock turn).outside.world.2 = turn.world.2 ++ events ∧
            (stepsOf none thinks)[((Order.ticks before).filter pace.isDue).length]? = some steps ∧
            ∀ e ∈ events, e.Sees clock.tick (clock.seconds * steps.toFloat32)
        else a' = a ∧ events = []) ∧
    (∀ first ∈ thinks.head?, ∀ last ∈ thinks.getLast?,
      ((stepsOf none thinks).map UInt64.toNat).sum = last.toNat - first.toNat + 1) ∧
    (Consecutive (Order.ticks orders) → (∀ tick ∈ Order.ticks orders, pace.Fits tick) →
      ∀ steps ∈ (stepsOf none thinks).tail, steps.toNat = pace.interval) := by
  intro squad spawned pace thinks hspawn hkeeps hticks
  obtain ⟨x, hx⟩ := hspawn
  obtain ⟨hasc, hlabelled⟩ := labelled_obeyAll (B := B) schedule host past
  have hfirst : spawned.Minds id quiet pace none := minds_spawn hB hasc hlabelled ht hx
  refine ⟨?_, ?_, ?_⟩
  · rintro before clock after rfl s s'
    have hs := hfirst.obeyAll hB before fun o ho ↦ hkeeps o (List.mem_append_left _ ho)
    rw [Option.or_none] at hs
    have hsplit := Order.ticks_append_tick before after clock
    have hlast : ∀ l ∈ ((Order.ticks before).filter pace.isDue).getLast?, l < clock.tick := by
      intro l hl
      have hmem := (List.mem_filter.mp (List.mem_of_getLast? hl)).1
      rw [hsplit] at hticks
      exact (List.pairwise_append.mp hticks).2.2 l hmem clock.tick List.mem_cons_self
    obtain ⟨a, a', events, hf, hf', hcalls, htick⟩ := hs.tick hB hlast
    refine ⟨a, a', events, hf, hf', hcalls, ?_⟩
    cases hdue : pace.isDue clock.tick with
    | false =>
      rw [hdue] at htick
      exact htick
    | true =>
      rw [hdue] at htick
      obtain ⟨turn, ha', hnoted, hsees⟩ := htick
      refine ⟨turn, _, ha', hnoted, ?_, hsees⟩
      simp only [thinks]
      rw [hsplit, List.filter_append, List.filter_cons_of_pos hdue, getElem?_stepsOf,
        Option.or_none]
  · intro first hfirst last hlast
    exact sum_stepsOf (hticks.filter _) hfirst hlast
  · exact Schedule.stepsOf_of_consecutive

/-- An agent that pauses and thinks on every other tick sees two steps at once. -/
theorem agents_keep_pace_pause :
    let B : Behavior Owner ((UInt64 × String) × Wait)
      (World × List (HookEvent (UInt64 × String))) := Wait.behavior.traced
    let squad : Squad Owner ((UInt64 × String) × Wait)
      (World × List (HookEvent (UInt64 × String))) :=
      start ⟨2, 0, false⟩ ⟨⟨(.initial, []), ⟨0⟩⟩, .empty 64⟩
    let before : List (Order Owner (String × Wait)) :=
      [.tick ⟨1, 0.5⟩, .tick ⟨2, 0.5⟩, .write 1 fun _ ↦ ∅, .tick ⟨3, 0.5⟩]
    let orders := before ++ [.tick ⟨4, 0.25⟩]
    let s := (squad.obey B (.spawn 1 (Wait.pause.signed 1) ⟨1, .unit⟩)).obeyAll B
      (before.map Order.signed)
    (∀ x ∈ Wait.pause.root.states, True) ∧
      (∃ x, ((Wait.pause.signed 1).instantiate B ⟨1, .unit⟩ squad.host).1 = .ok x) ∧
      (∀ order ∈ orders, order.Keeps 1) ∧ (Order.ticks orders).Pairwise (· < ·) ∧
      Consecutive (Order.ticks orders) ∧
      (∀ tick ∈ Order.ticks orders, (squad.runner.schedule.forAgent 1).Fits tick) ∧
      (∀ steps ∈ (stepsOf none [2, 4]).tail, steps.toNat = 2) ∧
      ∃ events, (s.obey B (.tick ⟨4, 0.25⟩)).calls 1 = s.calls 1 ++ events ∧
        ∀ e ∈ events, e.Sees 4 (0.25 * (2 : UInt64).toFloat32) := by
  intro B squad before orders s
  have hquiet : ∀ x ∈ Wait.pause.root.states, True := fun _ _ ↦ trivial
  have hspawn : ∃ x, ((Wait.pause.signed 1).instantiate B ⟨1, .unit⟩ squad.host).1 = .ok x :=
    ⟨_, rfl⟩
  have hkeeps : ∀ order ∈ orders, order.Keeps 1 := by simp [orders, before, Order.Keeps]
  have hticks : (Order.ticks orders).Pairwise (· < ·) := by
    show ([1, 2, 3, 4] : List UInt64).Pairwise (· < ·)
    decide
  have hconsecutive : Consecutive (Order.ticks orders) := by
    show ([1, 2, 3, 4] : List UInt64).IsChain _
    simp
  have hfits : ∀ tick ∈ Order.ticks orders, (squad.runner.schedule.forAgent 1).Fits tick :=
    List.forall_iff_forall_mem.mp (by decide)
  have hthinks : (Order.ticks orders).filter (squad.runner.schedule.forAgent 1).isDue = [2, 4] := by
    decide
  have hbefore : (Order.ticks before).filter (squad.runner.schedule.forAgent 1).isDue = [2] := by
    decide
  obtain ⟨hall, -, hsteps⟩ := agents_keep_pace (Wait.spares_behavior Clock.keys) ⟨2, 0, false⟩
    squad.host [] orders 1 hquiet ⟨1, .unit⟩ hspawn hkeeps hticks
  obtain ⟨a, a', events, -, -, hcalls, htick⟩ := hall before ⟨4, 0.25⟩ [] rfl
  rw [if_pos (by decide)] at htick
  obtain ⟨-, steps, -, -, hstep, hsees⟩ := htick
  change (stepsOf none ((Order.ticks orders).filter (squad.runner.schedule.forAgent 1).isDue))[
    ((Order.ticks before).filter (squad.runner.schedule.forAgent 1).isDue).length]? = _ at hstep
  rw [hthinks, hbefore] at hstep
  obtain rfl : 2 = steps := Option.some.inj hstep
  rw [← hthinks]
  exact ⟨hquiet, hspawn, hkeeps, hticks, hconsecutive, hfits, hsteps hconsecutive hfits, events,
    hcalls, hsees⟩

end Squad

end BehaviorTree
