import BehaviorTree.Proofs.Host.Trace
import BehaviorTree.Proofs.Leaf.Waiting
import BehaviorTree.Proofs.Runner.Search
import Std.Data.ExtTreeMap.Lemmas

/-!
# A runner as a map

A roster is a map from ids to agents. A round goes through its members in ascending order of their
ids, whatever they were called in. Whatever a squad is told, its agents are the members of a roster
that is told the same (`Squad.lists_obeyAll`), so it answers as the roster does.
-/

namespace BehaviorTree

variable {ο σ ω : Type}

/-- What comes of an agent's turn: the answer of its tree, if it was asked. -/
structure Turn (ο σ ω : Type) where
  answer : Option Status
  agent : Agent ο σ
  outside : Outside ω

namespace Agent

/-- On a tick, an agent thinks if it is due. -/
def tickTurn (B : Behavior ο σ ω) (clock : Clock) (a : Agent ο σ) (outside : Outside ω) :
    Turn ο σ ω :=
  if a.schedule.isDue clock.tick then
    let t := a.think B clock outside
    ⟨some t.status, t.agent, t.outside⟩
  else ⟨none, a, outside⟩

/-- When all are stopped, an agent stops. -/
def stopTurn (B : Behavior ο σ ω) (a : Agent ο σ) (outside : Outside ω) : Turn ο σ ω :=
  let r := a.stop B outside
  ⟨none, r.1, r.2⟩

end Agent

/-- What an order is answered. -/
inductive Answer where
  | spawned (failure : Option CloneError)
  | despawned (found : Bool)
  | written (found : Bool)
  | ticked (summary : Summary)
  | stopped

/-- The counts of turns with their answers. -/
def Summary.ofTurns (turns : List (UInt64 × Option Status)) : Summary where
  ticked := turns.countP (·.2.isSome)
  skipped := turns.countP (·.2.isNone)
  running := turns.countP (·.2 == some .running)
  success := turns.countP (·.2 == some .success)
  failure := turns.countP (·.2 == some .failure)

/-- A map from ids to agents, and where trees are made. -/
structure Roster (ο σ ω : Type) where
  schedule : Schedule
  members : Std.ExtTreeMap UInt64 (Agent ο σ)
  host : Host σ ω

namespace Roster

/-- A roster without members. -/
def start (schedule : Schedule) (host : Host σ ω) : Roster ο σ ω := ⟨schedule, ∅, host⟩

/-- The member of an id takes its turn, if there is one. -/
def turn (take : Agent ο σ → Outside ω → Turn ο σ ω)
    (r : List (UInt64 × Option Status) × Roster ο σ ω) (id : UInt64) :
    List (UInt64 × Option Status) × Roster ο σ ω :=
  match r.2.members[id]? with
  | none => r
  | some a =>
    let t := take a r.2.host.toOutside
    (r.1 ++ [(id, t.answer)],
      { r.2 with
        members := r.2.members.insert id t.agent
        host := { r.2.host with toOutside := t.outside } })

/-- All members take their turns, in ascending order of their ids. -/
def round (take : Agent ο σ → Outside ω → Turn ο σ ω) (s : Roster ο σ ω) :
    List (UInt64 × Option Status) × Roster ο σ ω :=
  s.members.keys.foldl (turn take) ([], s)

/-- Carries out an order. A new agent comes in whether or not there was one of its id. -/
def obey (B : Behavior ο σ ω) (s : Roster ο σ ω) : Order ο σ → Answer × Roster ο σ ω
  | .spawn id t owner =>
    match t.instantiate B owner s.host with
    | (.error e, host) => (.spawned (some e), { s with host })
    | (.ok tree, host) =>
      let agent := ⟨id, s.schedule.forAgent id, tree, .empty host.fresh, none⟩
      let host := { host with fresh := host.fresh.next }
      (.spawned none,
        { s with
          members := s.members.insert id agent
          host := Runner.retireAll B s.members[id]?.toList host })
  | .despawn id =>
    (.despawned (s.members.contains id),
      { s with
        members := s.members.erase id
        host := Runner.retireAll B s.members[id]?.toList s.host })
  | .write id f =>
    (.written (s.members.contains id), { s with members := s.members.modify id (·.mapEntries f) })
  | .tick clock =>
    let r := s.round (Agent.tickTurn B clock)
    (.ticked (.ofTurns r.1), r.2)
  | .stopAll => (.stopped, (s.round (Agent.stopTurn B)).2)

/-- Carries out orders one after the other. -/
def obeyAll (B : Behavior ο σ ω) (s : Roster ο σ ω) (orders : List (Order ο σ)) : Roster ο σ ω :=
  orders.foldl (fun s order ↦ (s.obey B order).2) s

end Roster

/-- What a squad answers to an order. -/
def Squad.answer (B : Behavior ο σ ω) (s : Squad ο σ ω) : Order ο σ → Answer
  | .spawn id t owner =>
    match s.runner.spawn B id t owner s.host with
    | (.error e, _) => .spawned (some e)
    | (.ok _, _) => .spawned none
  | .despawn id => .despawned (s.runner.despawn B id s.host).1
  | .write id _ => .written (s.runner.find? id).isSome
  | .tick clock => .ticked (s.runner.tick B clock s.host).1
  | .stopAll => .stopped

/-! ## Turns of agents in a list -/

/-- Whether agents keep their ids when they take their turns. -/
def KeepsId (take : Agent ο σ → Outside ω → Turn ο σ ω) : Prop :=
  ∀ a outside, (take a outside).agent.id = a.id

private theorem keepsId_tickTurn (B : Behavior ο σ ω) (clock : Clock) :
    KeepsId (Agent.tickTurn B clock) := by
  intro a outside
  simp only [Agent.tickTurn]
  split <;> rfl

private theorem keepsId_stopTurn (B : Behavior ο σ ω) : KeepsId (Agent.stopTurn B) := fun _ _ ↦ rfl

private theorem Summary.add_eq (a b : Summary) :
    a + b = ⟨a.ticked + b.ticked, a.skipped + b.skipped, a.running + b.running,
      a.success + b.success, a.failure + b.failure⟩ := rfl

/-- The counts of a turn and of those after it. -/
theorem Summary.ofTurns_cons (id : UInt64) (answer : Option Status)
    (turns : List (UInt64 × Option Status)) :
    ofTurns ((id, answer) :: turns) = answer.elim ofSkip ofStatus + ofTurns turns := by
  cases answer with
  | none => simp [ofTurns, ofSkip, add_eq, Nat.add_comm]
  | some status => cases status <;> simp [ofTurns, ofStatus, add_eq, Nat.add_comm]

namespace Runner

/-- Agents take their turns one after the other. -/
def turns (take : Agent ο σ → Outside ω → Turn ο σ ω) :
    List (Agent ο σ) → Outside ω → List (UInt64 × Option Status) × List (Agent ο σ) × Outside ω
  | [], outside => ([], [], outside)
  | a :: rest, outside =>
    let t := take a outside
    let r := turns take rest t.outside
    ((a.id, t.answer) :: r.1, t.agent :: r.2.1, r.2.2)

private theorem tickAgents_eq_turns (B : Behavior ο σ ω) (clock : Clock) (agents : List (Agent ο σ))
    (outside : Outside ω) :
    let r := turns (Agent.tickTurn B clock) agents outside
    tickAgents B clock agents outside = ⟨.ofTurns r.1, r.2.1, r.2.2⟩ := by
  induction agents generalizing outside with
  | nil => rfl
  | cons a rest ih =>
    simp only [tickAgents, turns, Summary.ofTurns_cons, Agent.tickTurn, ih]
    split <;> rfl

private theorem stopAgents_eq_turns (B : Behavior ο σ ω) (agents : List (Agent ο σ))
    (outside : Outside ω) :
    stopAgents B agents outside = (turns (Agent.stopTurn B) agents outside).2 := by
  induction agents generalizing outside with
  | nil => rfl
  | cons a rest ih => simp only [stopAgents, turns, Agent.stopTurn, ih]

variable {take : Agent ο σ → Outside ω → Turn ο σ ω}

private theorem ids_turns (hid : KeepsId take) (agents : List (Agent ο σ)) (outside : Outside ω) :
    (turns take agents outside).2.1.map (·.id) = agents.map (·.id) := by
  induction agents generalizing outside with
  | nil => rfl
  | cons a rest ih => rw [turns, List.map_cons, List.map_cons, hid, ih]

/-- Where one agent takes its turn among others, the others stay. -/
theorem find?_append_cons {before : List (Agent ο σ)} {a b : Agent ο σ}
    (hbefore : ∀ c ∈ before, c.id ≠ a.id) (hb : b.id = a.id) (after : List (Agent ο σ))
    (id : UInt64) :
    (before ++ b :: after).find? (·.id == id) =
      if a.id = id then some b else (before ++ a :: after).find? (·.id == id) := by
  split
  · next heq => exact find?_append_cons_self (heq ▸ hbefore) (hb.trans heq)
  · next hne =>
    rw [find?_append_cons_of_ne hne]
    exact find?_append_cons_of_ne (hb ▸ hne) before after

end Runner

namespace Roster

variable {take : Agent ο σ → Outside ω → Turn ο σ ω}

/-- When the members of `rest` take their turns after those of `before`, it is as in the list. -/
theorem foldl_turn (hid : KeepsId take) (log : List (UInt64 × Option Status)) {m : Roster ο σ ω}
    (before : List (Agent ο σ)) {rest : List (Agent ο σ)} (hasc : Runner.Ascending (before ++ rest))
    (hm : ∀ id : UInt64, (before ++ rest).find? (·.id == id) = m.members[id]?) :
    let r := Runner.turns take rest m.host.toOutside
    let q := (rest.map (·.id)).foldl (turn take) (log, m)
    q.1 = log ++ r.1 ∧ q.2.schedule = m.schedule ∧
      q.2.host = { m.host with toOutside := r.2.2 } ∧
      ∀ id : UInt64, (before ++ r.2.1).find? (·.id == id) = q.2.members[id]? := by
  induction rest generalizing log m before with
  | nil => exact ⟨(List.append_nil log).symm, rfl, rfl, hm⟩
  | cons a rest ih =>
    have hbefore : ∀ c ∈ before, c.id ≠ a.id := by
      intro c hc
      rw [Runner.Ascending, List.map_append, List.map_cons, List.pairwise_append] at hasc
      exact UInt64.ne_of_lt (hasc.2.2 _ (List.mem_map_of_mem hc) _ List.mem_cons_self)
    have ha : m.members[a.id]? = some a :=
      (hm a.id).symm.trans (Runner.find?_append_cons_self hbefore rfl)
    let t := take a m.host.toOutside
    have ht : t.agent.id = a.id := hid a _
    let m' : Roster ο σ ω :=
      { m with
        members := m.members.insert a.id t.agent
        host := { m.host with toOutside := t.outside } }
    have hturn : turn take (log, m) a.id = (log ++ [(a.id, t.answer)], m') := by
      simp only [turn, ha]
      rfl
    have hasc' : Runner.Ascending ((before ++ [t.agent]) ++ rest) := by
      simpa [Runner.Ascending, ht] using hasc
    have hm' (id : UInt64) :
        ((before ++ [t.agent]) ++ rest).find? (·.id == id) = m'.members[id]? := by
      rw [List.append_assoc, List.singleton_append, Runner.find?_append_cons hbefore ht, hm]
      simp only [m', Std.ExtTreeMap.getElem?_insert, Std.compare_eq_iff_eq]
    obtain ⟨hlog, hschedule, hhost, hfind⟩ :=
      ih (log ++ [(a.id, t.answer)]) (before ++ [t.agent]) hasc' hm'
    rw [List.map_cons, List.foldl_cons, hturn]
    refine ⟨?_, hschedule, hhost, fun id ↦ ?_⟩
    · rw [hlog, List.append_assoc]
      rfl
    · rw [← hfind, List.append_assoc]
      rfl

end Roster

/-! ## A squad and a roster -/

/-- Whether the agents of a squad are the members of a roster. -/
structure Squad.Lists (s : Squad ο σ ω) (m : Roster ο σ ω) : Prop where
  schedule : s.runner.schedule = m.schedule
  host : s.host = m.host
  ascending : Runner.Ascending s.runner.agents
  find : ∀ id, s.runner.find? id = m.members[id]?

namespace Squad.Lists

variable {s : Squad ο σ ω} {m : Roster ο σ ω}

/-- The ids are the same, in the same order. -/
theorem ids_eq (h : s.Lists m) : s.runner.ids = m.members.keys := by
  have hkeys : m.members.keys.Pairwise (· < ·) :=
    Std.ExtTreeMap.ordered_keys.imp Std.compare_eq_lt.mp
  have hmem (id : UInt64) : id ∈ s.runner.ids ↔ id ∈ m.members.keys := by
    rw [Std.ExtTreeMap.mem_keys, Std.ExtTreeMap.mem_iff_isSome_getElem?, ← h.find,
      Runner.find?, List.find?_isSome, Runner.ids, List.mem_map]
    simp only [beq_iff_eq]
  refine List.Perm.eq_of_pairwise (fun a b _ _ hab hba ↦ ?_) h.ascending hkeys ?_
  · exact absurd hba (UInt64.lt_asymm hab)
  · refine (List.perm_ext_iff_of_nodup ?_ ?_).mpr hmem
    · exact h.ascending.imp UInt64.ne_of_lt
    · exact hkeys.imp UInt64.ne_of_lt

private theorem size_eq (h : s.Lists m) : s.runner.size = m.members.size := by
  rw [← Std.ExtTreeMap.length_keys, ← h.ids_eq, Runner.ids, List.length_map, Runner.size]

/-- A round of all members is as in the list. -/
theorem round (h : s.Lists m) {take : Agent ο σ → Outside ω → Turn ο σ ω} (hid : KeepsId take) :
    let r := Runner.turns take s.runner.agents s.host.toOutside
    let q := m.round take
    q.1 = r.1 ∧ (s.withAgents r.2.1 { s.host with toOutside := r.2.2 }).Lists q.2 := by
  obtain ⟨hlog, hschedule, hhost, hfind⟩ :=
    Roster.foldl_turn hid [] (m := m) [] h.ascending h.find
  rw [← h.host] at hlog hhost hfind
  rw [Roster.round, ← h.ids_eq]
  refine ⟨hlog, ⟨h.schedule.trans hschedule.symm, hhost.symm, ?_, hfind⟩⟩
  rw [withAgents, Runner.Ascending, Runner.ids_turns hid]
  exact h.ascending

/-- What a new agent replaces is what the roster has under its id. -/
theorem insert (h : s.Lists m) (a : Agent ο σ) (host : Host σ ω) :
    let r := Runner.insertAgent a s.runner.agents
    r.1 = m.members[a.id]? ∧
      (s.withAgents r.2 host).Lists { m with members := m.members.insert a.id a, host } := by
  obtain ⟨hasc, hold, hnew⟩ := Runner.insertAgent_of_ascending a h.ascending
  refine ⟨hold.trans (h.find a.id), ⟨h.schedule, rfl, hasc, fun id ↦ ?_⟩⟩
  simp only [Std.ExtTreeMap.getElem?_insert, Std.compare_eq_iff_eq]
  split
  · next heq => exact heq ▸ hnew
  · next hne => exact (Runner.find?_insertAgent_of_ne hne _).trans (h.find id)

/-- What is taken out is what the roster has under the id. -/
theorem erase (h : s.Lists m) (id : UInt64) (host : Host σ ω) :
    let r := Runner.eraseAgent id s.runner.agents
    r.1 = m.members[id]? ∧
      (s.withAgents r.2 host).Lists { m with members := m.members.erase id, host } := by
  obtain ⟨hasc, htaken, hleft⟩ := Runner.eraseAgent_of_ascending id h.ascending
  refine ⟨htaken.trans (h.find id), ⟨h.schedule, rfl, hasc, fun k ↦ ?_⟩⟩
  simp only [Std.ExtTreeMap.getElem?_erase, Std.compare_eq_iff_eq]
  split
  · next heq => exact heq ▸ hleft
  · next hne => exact (Runner.find?_eraseAgent_of_ne hne _).trans (h.find k)

private theorem write (h : s.Lists m) (id : UInt64) (f : Entries → Entries) :
    ({ s with runner := s.runner.mapEntries id f } : Squad ο σ ω).Lists
      { m with members := m.members.modify id (·.mapEntries f) } := by
  refine ⟨h.schedule, h.host, ?_, fun k ↦ ?_⟩
  · have hids := s.runner.ids_mapEntries id f
    simp only [Runner.ids] at hids
    simpa only [Runner.Ascending, hids] using h.ascending
  · simp only [Std.ExtTreeMap.getElem?_modify, Std.compare_eq_iff_eq]
    split
    · next heq =>
      subst heq
      rw [Runner.find?_mapEntries, h.find]
    · next hne => exact (Runner.find?_mapEntries_of_ne hne _ _).trans (h.find k)

/-- An order is answered alike, and what comes of it is alike. -/
theorem obey (B : Behavior ο σ ω) (h : s.Lists m) (order : Order ο σ) :
    s.answer B order = (m.obey B order).1 ∧ (s.obey B order).Lists (m.obey B order).2 := by
  obtain ⟨schedule, members, host⟩ := m
  obtain rfl : s.runner.schedule = schedule := h.schedule
  obtain rfl : s.host = host := h.host
  cases order with
  | spawn id t owner =>
    simp only [answer, Squad.obey, Roster.obey, Runner.spawn]
    cases t.instantiate B owner s.host with
    | mk r host =>
      cases r with
      | error e => exact ⟨rfl, ⟨rfl, rfl, h.ascending, h.find⟩⟩
      | ok x =>
        obtain ⟨hold, hlists⟩ := h.insert
          ⟨id, s.runner.schedule.forAgent id, x, .empty host.fresh, none⟩ _
        exact ⟨rfl, hold ▸ hlists⟩
  | despawn id =>
    obtain ⟨htaken, hlists⟩ := h.erase id (Runner.retireAll B members[id]?.toList s.host)
    simp only [answer, Squad.obey, Roster.obey, Runner.despawn, htaken]
    refine ⟨?_, hlists⟩
    rw [Std.ExtTreeMap.contains_eq_isSome_getElem?]
  | write id f =>
    refine ⟨?_, h.write id f⟩
    simp only [answer, Roster.obey, h.find, Std.ExtTreeMap.contains_eq_isSome_getElem?]
  | tick clock =>
    obtain ⟨hlog, hlists⟩ := h.round (keepsId_tickTurn B clock)
    simp only [answer, Squad.obey, Roster.obey, Runner.tick, Runner.tickAgents_eq_turns, hlog]
    exact ⟨trivial, hlists⟩
  | stopAll =>
    obtain ⟨-, hlists⟩ := h.round (keepsId_stopTurn B)
    simp only [answer, Squad.obey, Roster.obey, Runner.stopAll, Runner.stopAgents_eq_turns]
    exact ⟨trivial, hlists⟩

private theorem obeyAll (B : Behavior ο σ ω) (h : s.Lists m) (orders : List (Order ο σ)) :
    (s.obeyAll B orders).Lists (m.obeyAll B orders) := by
  induction orders generalizing s m with
  | nil => exact h
  | cons order rest ih => exact ih (h.obey B order).2

private theorem start (schedule : Schedule) (host : Host σ ω) :
    (Squad.start schedule host : Squad ο σ ω).Lists (.start schedule host) :=
  ⟨rfl, rfl, List.Pairwise.nil, fun _ ↦ Std.ExtTreeMap.getElem?_empty.symm⟩

end Squad.Lists

/-! ## What a tick counts -/

/-- Every turn counts once, and every answer. -/
theorem Summary.ofTurns_adds (turns : List (UInt64 × Option Status)) :
    let s := ofTurns turns
    s.ticked + s.skipped = turns.length ∧ s.running + s.success + s.failure = s.ticked := by
  induction turns with
  | nil => exact ⟨rfl, rfl⟩
  | cons turn rest ih =>
    obtain ⟨id, answer⟩ := turn
    obtain ⟨hall, hanswers⟩ := ih
    simp only [ofTurns_cons, add_eq, List.length_cons]
    cases answer with
    | none =>
      simp only [Option.elim_none, ofSkip]
      omega
    | some status =>
      cases status with
      | running | success | failure =>
        simp only [Option.elim_some, ofStatus]
        omega

/-- What a turn on a tick makes of an agent. One that is due answers as its tree does, and one that
is not stays as it is. -/
structure Agent.Attended (clock : Clock) (a : Agent ο σ) (answer : Option Status)
    (a' : Agent ο σ) : Prop where
  due : a.schedule.isDue clock.tick → answer.isSome ∧ a'.tree.lastStatus = answer
  idle : ¬ a.schedule.isDue clock.tick → answer = none ∧ a' = a

private theorem Agent.attended_tickTurn (B : Behavior ο σ ω) (clock : Clock) (a : Agent ο σ)
    (outside : Outside ω) :
    let t := a.tickTurn B clock outside
    a.Attended clock t.answer t.agent := by
  simp only [tickTurn]
  split
  · next hdue => exact ⟨fun _ ↦ ⟨rfl, rfl⟩, fun h ↦ absurd hdue h⟩
  · next hdue => exact ⟨fun h ↦ absurd h hdue, fun _ ↦ ⟨rfl, rfl⟩⟩

/-- The turns of agents in a list, each with what it makes of the agent. -/
theorem Runner.turns_forall (B : Behavior ο σ ω) (clock : Clock) (agents : List (Agent ο σ))
    (outside : Outside ω) :
    let r := turns (Agent.tickTurn B clock) agents outside
    r.1.map (·.1) = agents.map (·.id) ∧
      ∀ turn ∈ r.1, ∃ a ∈ agents, ∃ a' ∈ r.2.1, a.id = turn.1 ∧ a'.id = turn.1 ∧
        a.Attended clock turn.2 a' := by
  induction agents generalizing outside with
  | nil => exact ⟨rfl, fun _ h ↦ nomatch h⟩
  | cons a rest ih =>
    obtain ⟨hids, hrest⟩ := ih (a.tickTurn B clock outside).outside
    refine ⟨congrArg (a.id :: ·) hids, fun turn hturn ↦ ?_⟩
    rcases List.mem_cons.mp hturn with rfl | hturn
    · exact ⟨a, List.mem_cons_self, _, List.mem_cons_self, rfl, keepsId_tickTurn B clock a outside,
        a.attended_tickTurn B clock outside⟩
    · obtain ⟨b, hb, b', hb', hattended⟩ := hrest turn hturn
      exact ⟨b, List.mem_cons_of_mem _ hb, b', List.mem_cons_of_mem _ hb', hattended⟩

/-- Of ascending agents, the one that is there of an id is found. -/
theorem Runner.Ascending.find?_of_mem {agents : List (Agent ο σ)} (h : Ascending agents)
    {a : Agent ο σ} (ha : a ∈ agents) : agents.find? (·.id == a.id) = some a := by
  obtain ⟨before, after, rfl⟩ := List.append_of_mem ha
  refine find?_append_cons_self (fun b hb ↦ ?_) rfl
  rw [Ascending, List.map_append, List.map_cons, List.pairwise_append] at h
  exact UInt64.ne_of_lt (h.2.2 _ (List.mem_map_of_mem hb) _ List.mem_cons_self)

namespace Squad

/-- Whether turns are those of a tick: each agent has one, in ascending order of the ids, and the
trees of those that are due are asked. -/
structure Ticks (B : Behavior ο σ ω) (s : Squad ο σ ω) (clock : Clock)
    (turns : List (UInt64 × Option Status)) : Prop where
  order : turns.map (·.1) = s.runner.ids
  attended : ∀ turn ∈ turns, ∃ a a', s.runner.find? turn.1 = some a ∧
    (s.obey B (.tick clock)).runner.find? turn.1 = some a' ∧ a.Attended clock turn.2 a'
  summary : (s.runner.tick B clock s.host).1 = .ofTurns turns

private theorem Lists.ticks {s : Squad ο σ ω} {m : Roster ο σ ω} (h : s.Lists m)
    (B : Behavior ο σ ω) (clock : Clock) :
    s.Ticks B clock (m.round (Agent.tickTurn B clock)).1 := by
  obtain ⟨hlog, hlists⟩ := h.round (keepsId_tickTurn B clock)
  obtain ⟨hids, hforall⟩ :=
    Runner.turns_forall B clock s.runner.agents s.host.toOutside
  rw [hlog]
  refine ⟨hids, fun turn hturn ↦ ?_, ?_⟩
  · obtain ⟨a, ha, a', ha', hid, hid', hattended⟩ := hforall turn hturn
    refine ⟨a, a', ?_, ?_, hattended⟩
    · exact hid ▸ h.ascending.find?_of_mem ha
    · have hfind := hlists.ascending.find?_of_mem ha'
      rw [hid'] at hfind
      simp only [Squad.obey, Runner.tick, Runner.tickAgents_eq_turns]
      exact hfind
  · simp only [Runner.tick, Runner.tickAgents_eq_turns]

/-- An order does not touch the agents that it does not concern. -/
theorem find?_obey_of_not_concerns (B : Behavior ο σ ω) (s : Squad ο σ ω) {order : Order ο σ}
    {id : UInt64} (h : order.concerns id = false) :
    (s.obey B order).runner.find? id = s.runner.find? id := by
  cases order with
  | spawn k t owner =>
    have hk : k ≠ id := by simpa [Order.concerns] using h
    simp only [Squad.obey, Runner.spawn]
    cases t.instantiate B owner s.host with
    | mk r host =>
      cases r with
      | error e => rfl
      | ok x =>
        exact Runner.find?_insertAgent_of_ne
          (a := ⟨k, s.runner.schedule.forAgent k, x, .empty host.fresh, none⟩) hk _
  | despawn k => exact Runner.find?_eraseAgent_of_ne (by simpa [Order.concerns] using h) _
  | write k f => exact Runner.find?_mapEntries_of_ne (by simpa [Order.concerns] using h) _ _
  | tick clock => cases h
  | stopAll => cases h

variable {search : List UInt64 → UInt64 → Except Nat Nat}

/-- After whatever orders, a squad is a map from ids to agents: its ids ascend, so that a search
finds its way among them, and all that can be asked of it is answered as a roster answers that was
told the same. An order leaves the agents alone that it does not concern. A tick asks the trees of
the agents that are due, in ascending order, and counts their answers. -/
theorem answers_as_roster (hsearch : SearchesAscending search) (B : Behavior ο σ ω)
    (schedule : Schedule) (host : Host σ ω) (orders : List (Order ο σ)) :
    let s := (Squad.start schedule host).obeyAll B orders
    let m := (Roster.start schedule host).obeyAll B orders
    s.runner.ids.Pairwise (· < ·) ∧ s.runner.FoundBy search ∧ s.host = m.host ∧
      s.runner.size = m.members.size ∧ s.runner.ids = m.members.keys ∧
      (∀ id, s.runner.find? id = m.members[id]? ∧
        s.runner.lastStatus? id = m.members[id]?.bind (·.tree.lastStatus)) ∧
      (∀ order, s.answer B order = (m.obey B order).1 ∧
        ∀ id, order.concerns id = false →
          (s.obey B order).runner.find? id = s.runner.find? id) ∧
      ∀ clock,
        let summary := (s.runner.tick B clock s.host).1
        s.Ticks B clock (m.round (Agent.tickTurn B clock)).1 ∧
          summary.ticked + summary.skipped = s.runner.size ∧
          summary.running + summary.success + summary.failure = summary.ticked := by
  intro s m
  have h : s.Lists m := (Lists.start schedule host).obeyAll B orders
  refine ⟨h.ascending, h.ascending.foundBy hsearch, h.host, h.size_eq, h.ids_eq, fun id ↦ ?_,
    fun order ↦ ⟨(h.obey B order).1, fun id ↦ find?_obey_of_not_concerns B s⟩, fun clock ↦ ?_⟩
  · exact ⟨h.find id, congrArg (·.bind (·.tree.lastStatus)) (h.find id)⟩
  · have hticks := h.ticks B clock
    obtain ⟨hall, hanswers⟩ := Summary.ofTurns_adds (m.round (Agent.tickTurn B clock)).1
    have hlength := congrArg List.length hticks.order
    rw [List.length_map, Runner.ids, List.length_map] at hlength
    refine ⟨hticks, ?_, ?_⟩
    · rw [hticks.summary, hall, hlength, Runner.size]
    · rw [hticks.summary, hanswers]

/-- Agents that pause, one of them called in anew and one dismissed. -/
theorem answers_as_roster_pause :
    let host : Host (String × Wait) (World × List (HookEvent String)) :=
      ⟨⟨(.initial, []), ⟨0⟩⟩, .empty 64⟩
    let orders : List (Order Owner (String × Wait)) :=
      [.spawn 3 Wait.pause ⟨3, .unit⟩, .spawn 1 Wait.pause ⟨1, .unit⟩, .tick ⟨1, 0.5⟩,
        .spawn 3 Wait.pause ⟨3, .unit⟩, .despawn 1]
    let s := (Squad.start .always host).obeyAll Wait.behavior.traced orders
    let m := (Roster.start .always host).obeyAll Wait.behavior.traced orders
    SearchesAscending linearSearch ∧ s.runner.ids = [3] ∧ s.runner.ids = m.members.keys ∧
      s.runner.find? 3 = m.members[(3 : UInt64)]? := by
  intro host orders s m
  obtain ⟨-, -, -, -, hids, hfind, -⟩ := answers_as_roster searchesAscending_linearSearch
    Wait.behavior.traced .always host orders
  have hleft : s.runner.ids = [3] := by decide +kernel
  exact ⟨searchesAscending_linearSearch, hleft, hids, (hfind 3).1⟩

end Squad

end BehaviorTree
