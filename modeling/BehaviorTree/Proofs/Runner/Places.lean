import BehaviorTree.Proofs.Runner.Acts

/-!
# The places of agents

The agents of a runner stand in ascending order of their ids, whatever it is told
(`ascending_obey`). So there is one agent of an id at most, and it is the one that is replaced or
taken out. Serving all agents serves each in its place (`Agent.find?_attendEach`).
-/

namespace BehaviorTree

variable {ο σ ω : Type}

namespace Runner

/-- Whether agents stand in ascending order of their ids. -/
def Ascending (agents : List (Agent ο σ)) : Prop := (agents.map (·.id)).Pairwise (· < ·)

variable {a b : Agent ο σ} {agents before after rest : List (Agent ο σ)} {id : UInt64}

private theorem ascending_cons :
    Ascending (a :: rest) ↔ (∀ b ∈ rest, a.id < b.id) ∧ Ascending rest := by
  simp [Ascending]

/-- An agent of another id is passed over. -/
theorem find?_cons_of_ne (h : a.id ≠ id) :
    (a :: rest).find? (·.id == id) = rest.find? (·.id == id) := by
  rw [List.find?_cons_of_neg]
  simpa using h

/-- An agent with another id can be left out of a search. -/
theorem find?_append_cons_of_ne (h : a.id ≠ id) (before after : List (Agent ο σ)) :
    (before ++ a :: after).find? (·.id == id) = (before ++ after).find? (·.id == id) := by
  rw [List.find?_append, List.find?_append, find?_cons_of_ne h]

/-- A search finds the first agent that has the id. -/
theorem find?_append_cons_self (hb : ∀ b ∈ before, b.id ≠ id) (ha : a.id = id) :
    (before ++ a :: after).find? (·.id == id) = some a := by
  have hbefore : before.find? (·.id == id) = none :=
    List.find?_eq_none.mpr fun b h ↦ by simpa using hb b h
  rw [List.find?_append, hbefore, Option.none_or, List.find?_cons_of_pos]
  simpa using ha

/-- Agents are not found behind one with a greater id. -/
theorem find?_eq_none (h : ∀ b ∈ agents, id < b.id) : agents.find? (·.id == id) = none := by
  refine List.find?_eq_none.mpr fun b hb hid ↦ ?_
  rw [beq_iff_eq] at hid
  exact UInt64.ne_of_lt (h b hb) hid.symm

/-- A new agent takes the place of the one with its id, if there is one. -/
theorem insertAgent_of_ascending (a : Agent ο σ) (h : Ascending agents) :
    let r := insertAgent a agents
    Ascending r.2 ∧ r.1 = agents.find? (·.id == a.id) ∧ r.2.find? (·.id == a.id) = some a := by
  induction agents with
  | nil => simp [insertAgent, Ascending]
  | cons b rest ih =>
    obtain ⟨hb, hrest⟩ := ascending_cons.mp h
    simp only [insertAgent]
    by_cases hlt : a.id < b.id
    · have hbehind : ∀ c ∈ b :: rest, a.id < c.id := by
        intro c hc
        rcases List.mem_cons.mp hc with rfl | hc
        · exact hlt
        · exact UInt64.lt_trans hlt (hb c hc)
      rw [if_pos hlt]
      exact ⟨ascending_cons.mpr ⟨hbehind, h⟩, (find?_eq_none hbehind).symm, by simp⟩
    · rw [if_neg hlt]
      by_cases hid : a.id = b.id
      · rw [if_pos hid]
        refine ⟨ascending_cons.mpr ⟨fun c hc ↦ hid ▸ hb c hc, hrest⟩, ?_, ?_⟩
        · simp [hid]
        · simp
      · obtain ⟨hasc, hold, hnew⟩ := ih hrest
        obtain ⟨before, after, hagents, hplaced, hids⟩ := insertAgent_cases a rest
        rw [if_neg hid]
        refine ⟨ascending_cons.mpr ⟨fun c hc ↦ ?_, hasc⟩, ?_, ?_⟩
        · rw [hplaced] at hc
          rcases List.mem_append.mp hc with hc | hc
          · exact hb c (by rw [hagents]; simp [hc])
          · rcases List.mem_cons.mp hc with rfl | hc
            · exact UInt64.lt_of_le_of_ne (UInt64.not_lt.mp hlt) (Ne.symm hid)
            · exact hb c (by rw [hagents]; simp [hc])
        · rw [find?_cons_of_ne (Ne.symm hid)]
          exact hold
        · rw [find?_cons_of_ne (Ne.symm hid)]
          exact hnew

/-- A new agent comes behind those of lesser ids. -/
theorem insertAgent_append (h : ∀ b ∈ before, b.id < a.id) (rest : List (Agent ο σ)) :
    let r := insertAgent a rest
    insertAgent a (before ++ rest) = (r.1, before ++ r.2) := by
  induction before with
  | nil => rfl
  | cons b before ih =>
    have hb : b.id < a.id := h b List.mem_cons_self
    have hlt : ¬ a.id < b.id := UInt64.lt_asymm hb
    have hne : ¬ a.id = b.id := fun heq ↦ UInt64.ne_of_lt hb heq.symm
    simp only [List.cons_append, insertAgent, hlt, hne, if_false,
      ih fun c hc ↦ h c (List.mem_cons_of_mem _ hc)]

/-- A new agent comes behind all others if its id is the greatest. -/
theorem insertAgent_of_lt (h : ∀ b ∈ agents, b.id < a.id) :
    insertAgent a agents = (none, agents ++ [a]) := by
  simpa [insertAgent] using insertAgent_append h []

/-- Agents of other ids are left in front of the one that is taken out. -/
theorem eraseAgent_append (h : ∀ b ∈ before, b.id ≠ id) (rest : List (Agent ο σ)) :
    let r := eraseAgent id rest
    eraseAgent id (before ++ rest) = (r.1, before ++ r.2) := by
  induction before with
  | nil => rfl
  | cons b before ih =>
    simp only [List.cons_append, eraseAgent, h b List.mem_cons_self, if_false,
      ih fun c hc ↦ h c (List.mem_cons_of_mem _ hc)]

/-- A new agent changes nothing for agents of other ids. -/
theorem find?_insertAgent_of_ne (h : a.id ≠ id) (agents : List (Agent ο σ)) :
    (insertAgent a agents).2.find? (·.id == id) = agents.find? (·.id == id) := by
  obtain ⟨before, after, hagents, hplaced, hids⟩ := insertAgent_cases a agents
  rw [hplaced, find?_append_cons_of_ne h, hagents]
  cases hr : (insertAgent a agents).1 with
  | none => rfl
  | some b => exact (find?_append_cons_of_ne (by rwa [hids b hr]) before after).symm

/-- Agents of other ids stay when one is taken out. -/
theorem find?_eraseAgent_of_ne {other : UInt64} (h : other ≠ id) (agents : List (Agent ο σ)) :
    (eraseAgent other agents).2.find? (·.id == id) = agents.find? (·.id == id) := by
  obtain ⟨before, after, hagents, hleft, hids⟩ := eraseAgent_cases other agents
  rw [hleft, hagents]
  cases hr : (eraseAgent other agents).1 with
  | none => rfl
  | some b => exact (find?_append_cons_of_ne (by rwa [hids b hr]) before after).symm

/-- The agent of an id is taken out, if there is one, and there is no other. -/
theorem eraseAgent_of_ascending (id : UInt64) (h : Ascending agents) :
    let r := eraseAgent id agents
    Ascending r.2 ∧ r.1 = agents.find? (·.id == id) ∧ r.2.find? (·.id == id) = none := by
  induction agents with
  | nil => simp [eraseAgent, Ascending]
  | cons b rest ih =>
    obtain ⟨hb, hrest⟩ := ascending_cons.mp h
    simp only [eraseAgent]
    by_cases hid : b.id = id
    · rw [if_pos hid]
      refine ⟨hrest, ?_, find?_eq_none fun c hc ↦ hid ▸ hb c hc⟩
      rw [List.find?_cons_of_pos (by simpa using hid)]
    · obtain ⟨hasc, htaken, hleft⟩ := ih hrest
      obtain ⟨before, after, hagents, hrem, -⟩ := eraseAgent_cases id rest
      rw [if_neg hid]
      refine ⟨ascending_cons.mpr ⟨fun c hc ↦ ?_, hasc⟩, ?_, ?_⟩
      · rw [hrem] at hc
        refine hb c ?_
        rw [hagents]
        rcases List.mem_append.mp hc with hc | hc <;> simp [hc]
      · rw [find?_cons_of_ne hid]
        exact htaken
      · rw [find?_cons_of_ne hid]
        exact hleft

/-- A write reaches the agent of the id. -/
theorem find?_mapEntries (r : Runner ο σ) (id : UInt64) (f : Entries → Entries) :
    (r.mapEntries id f).find? id = (r.find? id).map fun a ↦ a.mapEntries f := by
  have hids : (fun a : Agent ο σ ↦ a.id == id) ∘ (fun a ↦ if a.id = id then a.mapEntries f else a) =
      fun a ↦ a.id == id := by
    funext a
    simp only [Function.comp_apply]
    split <;> rfl
  rw [find?, mapEntries, List.find?_map, hids, find?]
  cases hf : r.agents.find? (·.id == id) with
  | none => rfl
  | some a =>
    have hid : a.id = id := by simpa using List.find?_some hf
    simp [hid]

/-- A write to the scope of an agent leaves the ids. -/
theorem ids_mapEntries (r : Runner ο σ) (id : UInt64) (f : Entries → Entries) :
    (r.mapEntries id f).ids = r.ids := by
  simp only [mapEntries, ids, List.map_map]
  refine List.map_congr_left fun a _ ↦ ?_
  simp only [Function.comp_apply]
  split <;> rfl

/-- A write does not reach an agent of another id. -/
theorem find?_mapEntries_of_ne {other : UInt64} (h : other ≠ id) (r : Runner ο σ)
    (f : Entries → Entries) : (r.mapEntries other f).find? id = r.find? id := by
  simp only [find?, mapEntries]
  induction r.agents with
  | nil => rfl
  | cons a rest ih =>
    by_cases ha : a.id = id
    · have hother : a.id ≠ other := fun heq ↦ h (heq.symm.trans ha)
      rw [List.map_cons, if_neg hother, List.find?_cons_of_pos (by simpa using ha),
        List.find?_cons_of_pos (by simpa using ha)]
    · rw [List.map_cons, find?_cons_of_ne ha, find?_cons_of_ne ?_, ih]
      split
      · exact ha
      · exact ha

/-- The agent of an id stands between others. -/
theorem split_of_find? (h : Ascending agents) (hf : agents.find? (·.id == id) = some a) :
    ∃ before after, agents = before ++ a :: after ∧ a.id = id ∧ (∀ b ∈ before, b.id ≠ id) ∧
      ∀ b ∈ after, b.id ≠ id := by
  obtain ⟨hid, before, after, rfl, hbefore⟩ := List.find?_eq_some_iff_append.mp hf
  rw [beq_iff_eq] at hid
  refine ⟨before, after, rfl, hid, fun b hb ↦ by simpa using hbefore b hb, fun b hb heq ↦ ?_⟩
  rw [Ascending, List.map_append, List.map_cons, List.pairwise_append] at h
  have hlt := (List.pairwise_cons.mp h.2.1).1 b.id (List.mem_map_of_mem hb)
  rw [hid, heq] at hlt
  exact UInt64.lt_irrefl _ hlt

end Runner

/-- Serving an agent leaves its id. -/
@[simp] theorem Agent.id_attend (B : Behavior ο σ ω)
    (ask : Agent ο σ → Option (Request × Option UInt64)) (a : Agent ο σ) (outside : Outside ω) :
    (a.attend B ask outside).1.id = a.id := by
  unfold attend
  cases ask a <;> rfl

/-- Serving agents leaves their ids. -/
theorem Agent.ids_attendEach (B : Behavior ο σ ω)
    (ask : Agent ο σ → Option (Request × Option UInt64)) (agents : List (Agent ο σ))
    (outside : Outside ω) :
    (attendEach B ask agents outside).1.map (·.id) = agents.map (·.id) := by
  induction agents generalizing outside with
  | nil => rfl
  | cons a rest ih =>
    simp only [attendEach, List.map_cons, id_attend, ih]

/-- Behind others that were served stands the agent of an id. -/
theorem Agent.find?_attendEach_append (B : Behavior ο σ ω)
    (ask : Agent ο σ → Option (Request × Option UInt64)) {before : List (Agent ο σ)} {id : UInt64}
    (hb : ∀ b ∈ before, b.id ≠ id) {a : Agent ο σ} (ha : a.id = id) (after : List (Agent ο σ))
    (outside : Outside ω) :
    ((attendEach B ask before outside).1 ++ a :: after).find? (·.id == id) = some a := by
  refine Runner.find?_append_cons_self (fun b hmem ↦ ?_) ha
  have hids : b.id ∈ before.map (·.id) :=
    ids_attendEach B ask before outside ▸ List.mem_map_of_mem hmem
  obtain ⟨c, hc, heq⟩ := List.mem_map.mp hids
  exact heq ▸ hb c hc

/-- While agents are served, each has its turn. -/
theorem Agent.mem_attendEach {B : Behavior ο σ ω}
    {ask : Agent ο σ → Option (Request × Option UInt64)} {agents : List (Agent ο σ)}
    {outside : Outside ω} {a' : Agent ο σ} (h : a' ∈ (attendEach B ask agents outside).1) :
    ∃ a ∈ agents, ∃ turn, a' = (a.attend B ask turn).1 := by
  induction agents generalizing outside with
  | nil => cases h
  | cons b rest ih =>
    rcases List.mem_cons.mp h with rfl | h
    · exact ⟨b, List.mem_cons_self, outside, rfl⟩
    · obtain ⟨a, ha, turn⟩ := ih h
      exact ⟨a, List.mem_cons_of_mem _ ha, turn⟩

/-- While agents are served, the agent of an id has its turn. -/
theorem Agent.find?_attendEach (B : Behavior ο σ ω)
    (ask : Agent ο σ → Option (Request × Option UInt64)) {agents : List (Agent ο σ)} {id : UInt64}
    {a : Agent ο σ} (h : agents.find? (·.id == id) = some a) (outside : Outside ω) :
    ∃ turn, (attendEach B ask agents outside).1.find? (·.id == id) =
      some (a.attend B ask turn).1 := by
  induction agents generalizing outside with
  | nil => cases h
  | cons b rest ih =>
    by_cases hid : b.id = id
    · rw [List.find?_cons_of_pos (by simpa using hid), Option.some.injEq] at h
      obtain rfl := h
      refine ⟨outside, List.find?_cons_of_pos ?_⟩
      simpa using hid
    · rw [Runner.find?_cons_of_ne hid] at h
      obtain ⟨turn, hrest⟩ := ih h (b.attend B ask outside).2
      refine ⟨turn, (Runner.find?_cons_of_ne ?_).trans hrest⟩
      simpa using hid

namespace Squad

variable {B : Behavior ο σ ω}

/-- Every order leaves agents in their order. -/
theorem ascending_obey {s : Squad ο σ ω} (h : Runner.Ascending s.runner.agents)
    (order : Order ο σ) : Runner.Ascending (s.obey B order).runner.agents := by
  cases order with
  | spawn id t owner =>
    simp only [obey, Runner.spawn]
    cases t.instantiate B owner s.host with
    | mk r host =>
      cases r with
      | error e => exact h
      | ok x => exact (Runner.insertAgent_of_ascending _ h).1
  | despawn id => exact (Runner.eraseAgent_of_ascending id h).1
  | write id f =>
    have hids : (s.obey B (.write id f)).runner.agents.map (·.id) = s.runner.agents.map (·.id) :=
      s.runner.ids_mapEntries id f
    rw [Runner.Ascending, hids]
    exact h
  | tick clock =>
    rw [obey_tick, Runner.Ascending, attend, withAgents, Agent.ids_attendEach]
    exact h
  | stopAll =>
    rw [obey_stopAll, Runner.Ascending, attend, withAgents, Agent.ids_attendEach]
    exact h

/-- Acts of others leave an agent as it is. -/
theorem find?_act {made : UInt64 → Tree ο σ → Prop} {id : UInt64} {s s' : Squad ο σ ω}
    (h : s.Act B made (· ≠ id) s') : s'.runner.find? id = s.runner.find? id := by
  cases h with
  | @serve before after a hs hw request lastThink =>
    rw [Runner.find?, Runner.find?, hs, Runner.find?_append_cons_of_ne hw]
    exact Runner.find?_append_cons_of_ne (a := (a.serve B request lastThink s.host.toOutside).1) hw
      before after
  | @write before after a hs hw f =>
    rw [Runner.find?, Runner.find?, hs, Runner.find?_append_cons_of_ne hw]
    exact Runner.find?_append_cons_of_ne (a := a.mapEntries f) hw before after
  | hire hs hw hm hi =>
    rw [Runner.find?, Runner.find?, hs]
    exact Runner.find?_append_cons_of_ne hw _ _
  | refuse => rfl
  | leave hs hw hstopped =>
    rw [Runner.find?, Runner.find?, hs, Runner.find?_append_cons_of_ne hw]
    rfl

/-- Acts on other agents leave what is found under an id. -/
theorem find?_acts {made : UInt64 → Tree ο σ → Prop} {id : UInt64} {s s' : Squad ο σ ω}
    (h : s.Acts B made (· ≠ id) s') : s'.runner.find? id = s.runner.find? id := by
  induction h with
  | refl => rfl
  | tail _ hact ih => exact (find?_act hact).trans ih

end Squad

end BehaviorTree
