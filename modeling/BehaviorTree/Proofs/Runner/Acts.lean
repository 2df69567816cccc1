import BehaviorTree.Proofs.Node.Step
import BehaviorTree.Proofs.Runner.Orders
import Mathlib.Logic.Relation

/-!
# What a squad does

Every order comes down to a few acts, each of which concerns a single agent: it is made or fails to
be made, its tree is served, its blackboard is written to, or it leaves with its tree stopped. An
order to one agent is made of acts of this agent (`acts_spawn`, `acts_despawn`, `acts_write`), and
one to all of them of an act of each (`acts_tickAgents`, `acts_stopAgents`); what every act
preserves, orders preserve (`acts_obeyAll`).
-/

namespace BehaviorTree

variable {ο σ ω : Type}

/-- Whether an order, if it is to a single agent, is to one of them. -/
def Order.Within (made : UInt64 → Tree ο σ → Prop) (who : UInt64 → Prop) :
    Order ο σ → Prop
  | .spawn id t _ => who id ∧ made id t
  | .despawn id => who id
  | .write id _ => who id
  | .tick _ => True
  | .stopAll => True

private theorem Order.within_all (order : Order ο σ) :
    order.Within (fun _ _ ↦ True) fun _ ↦ True := by
  cases order <;> simp [Within]

namespace Squad

/-- Whether a squad becomes another by an act of an agent `who`; agents are made of the prototypes
that are `made` for them. -/
inductive Act (B : Behavior ο σ ω) (made : UInt64 → Tree ο σ → Prop) (who : UInt64 → Prop)
    (s : Squad ο σ ω) : Squad ο σ ω → Prop where
  | serve {before after : List (Agent ο σ)} {a : Agent ο σ}
      (hs : s.runner.agents = before ++ a :: after) (hw : who a.id) (request : Request)
      (lastThink : Option UInt64) :
      Act B made who s (s.withAgents
        (before ++ (a.serve B request lastThink s.host.toOutside).1 :: after)
        { s.host with toOutside := (a.serve B request lastThink s.host.toOutside).2 })
  | write {before after : List (Agent ο σ)} {a : Agent ο σ}
      (hs : s.runner.agents = before ++ a :: after) (hw : who a.id) (f : Entries → Entries) :
      Act B made who s (s.withAgents (before ++ a.mapEntries f :: after) s.host)
  | hire {before after : List (Agent ο σ)} (hs : s.runner.agents = before ++ after) {id : UInt64}
      (hw : who id) {t : Tree ο σ} (hm : made id t) {owner : ο} {tree : Tree ο σ} {host : Host σ ω}
      (hi : t.instantiate B owner s.host = (.ok tree, host)) :
      Act B made who s (s.withAgents
        (before ++ ⟨id, s.runner.schedule.forAgent id, tree, .empty host.fresh, none⟩ :: after)
        { host with fresh := host.fresh.next })
  | refuse {id : UInt64} (hw : who id) {t : Tree ο σ} (hm : made id t) {owner : ο} {e : CloneError}
      {host : Host σ ω} (hi : t.instantiate B owner s.host = (.error e, host)) :
      Act B made who s (s.withAgents s.runner.agents host)
  /-- A stopped agent hands back its nodes. -/
  | leave {before after : List (Agent ο σ)} {a : Agent ο σ}
      (hs : s.runner.agents = before ++ a :: after) (hw : who a.id)
      (hstopped : a.tree.root.started = false) :
      Act B made who s (s.withAgents (before ++ after)
        { s.host with pool := a.tree.release s.host.pool })

/-- Whether a squad becomes another by several acts. -/
abbrev Acts (B : Behavior ο σ ω) (made : UInt64 → Tree ο σ → Prop) (who : UInt64 → Prop) :
    Squad ο σ ω → Squad ο σ ω → Prop := Relation.ReflTransGen (Act B made who)

variable {B : Behavior ο σ ω} {made : UInt64 → Tree ο σ → Prop} {who : UInt64 → Prop}
  {s s' : Squad ο σ ω} {a : Agent ο σ} {before after : List (Agent ο σ)} {id : UInt64}

/-- An agent that is retired is stopped, and leaves. -/
theorem acts_retire (hs : s.runner.agents = before ++ a :: after) (hw : who a.id) :
    s.Acts B made who (s.withAgents (before ++ after) (a.retire B s.host)) := by
  refine (Relation.ReflTransGen.single (.serve hs hw .stop a.lastThink)).tail ?_
  exact .leave rfl hw (Node.started_abort B _ _)

private theorem acts_retireAll {rest : List (Agent ο σ)}
    (hs : s.runner.agents = before ++ (rest ++ after)) (hw : ∀ a ∈ rest, who a.id) :
    s.Acts B made who (s.withAgents (before ++ after) (Runner.retireAll B rest s.host)) := by
  induction rest generalizing s with
  | nil =>
    rw [List.nil_append] at hs
    rw [← hs]
    exact .refl
  | cons a rest ih =>
    refine (acts_retire hs (hw a (by simp))).trans ?_
    exact ih rfl fun b hb ↦ hw b (by simp [hb])

/-- Spawning is made of acts. -/
theorem acts_spawn {t : Tree ο σ} (hw : who id) (hm : made id t) (owner : ο) :
    s.Acts B made who (s.obey B (.spawn id t owner)) := by
  simp only [obey, Runner.spawn]
  cases hi : t.instantiate B owner s.host with
  | mk r host =>
    cases r with
    | error e => exact .single (.refuse hw hm hi)
    | ok tree =>
      let agent : Agent ο σ := ⟨id, s.runner.schedule.forAgent id, tree, .empty host.fresh, none⟩
      obtain ⟨before, after, hs, hplaced, hid⟩ := Runner.insertAgent_cases agent s.runner.agents
      refine (Relation.ReflTransGen.single (.hire hs hw hm hi)).trans ?_
      have hwho : ∀ b ∈ (Runner.insertAgent agent s.runner.agents).1.toList, who b.id := by
        intro b hb
        rw [hid b (Option.mem_toList.mp hb)]
        exact hw
      have hretire : Acts B made who
          (s.withAgents (before ++ agent :: ((Runner.insertAgent agent s.runner.agents).1.toList
            ++ after)) { host with fresh := host.fresh.next }) _ :=
        acts_retireAll (List.append_cons ..) hwho
      rw [List.append_assoc, List.singleton_append, ← hplaced] at hretire
      exact hretire

/-- Despawning is made of acts. -/
theorem acts_despawn (hw : who id) : s.Acts B made who (s.obey B (.despawn id)) := by
  obtain ⟨before, after, hs, htaken, hid⟩ := Runner.eraseAgent_cases id s.runner.agents
  have hwho : ∀ b ∈ (Runner.eraseAgent id s.runner.agents).1.toList, who b.id := by
    intro b hb
    rw [hid b (Option.mem_toList.mp hb)]
    exact hw
  simp only [obey, Runner.despawn, htaken]
  exact acts_retireAll hs hwho

private theorem acts_mapEntries (hw : who id) (f : Entries → Entries)
    {rest : List (Agent ο σ)} (hs : s.runner.agents = before ++ (rest ++ after)) :
    s.Acts B made who (s.withAgents
      (before ++ ((rest.map fun a ↦ if a.id = id then a.mapEntries f else a) ++ after))
      s.host) := by
  induction rest generalizing s before with
  | nil =>
    show s.Acts B made who (s.withAgents (before ++ ([] ++ after)) s.host)
    rw [← hs]
    exact .refl
  | cons a rest ih =>
    rw [List.map_cons]
    split
    · next ha =>
      refine (Relation.ReflTransGen.single (.write hs (ha ▸ hw) f)).trans ?_
      have hrest := ih (s := s.withAgents (before ++ a.mapEntries f :: (rest ++ after)) s.host)
        (List.append_cons before _ _)
      rw [List.append_assoc, List.singleton_append] at hrest
      exact hrest
    · have hrest := ih (hs.trans (List.append_cons before _ _))
      rw [List.append_assoc, List.singleton_append] at hrest
      exact hrest

/-- A write to the scope of an agent is made of acts. -/
theorem acts_write (hw : who id) (f : Entries → Entries) :
    s.Acts B made who (s.obey B (.write id f)) := by
  have hall : s.runner.agents = [] ++ (s.runner.agents ++ []) := by simp
  have hacts : s.Acts B made who _ := acts_mapEntries hw f hall
  rw [List.append_nil] at hacts
  exact hacts

/-- Agents are served one after the other. -/
theorem acts_attendEach (ask : Agent ο σ → Option (Request × Option UInt64))
    (before rest after : List (Agent ο σ)) (hs : s.runner.agents = before ++ (rest ++ after))
    (hw : ∀ a ∈ rest, who a.id) :
    s.Acts B made who (s.withAgents
      (before ++ ((Agent.attendEach B ask rest s.host.toOutside).1 ++ after))
      { s.host with toOutside := (Agent.attendEach B ask rest s.host.toOutside).2 }) := by
  induction rest generalizing s before with
  | nil =>
    show s.Acts B made who (s.withAgents (before ++ ([] ++ after)) s.host)
    rw [← hs]
    exact .refl
  | cons a rest ih =>
    have hwrest : ∀ b ∈ rest, who b.id := fun b hb ↦ hw b (by simp [hb])
    simp only [Agent.attendEach, Agent.attend]
    cases ask a with
    | none =>
      have hrest := ih (before ++ [a]) (hs.trans (List.append_cons before _ _)) hwrest
      rw [List.append_assoc, List.singleton_append] at hrest
      exact hrest
    | some q =>
      let t := a.serve B q.1 q.2 s.host.toOutside
      refine (Relation.ReflTransGen.single (.serve hs (hw a (by simp)) q.1 q.2)).trans ?_
      have hrest := ih (s := s.withAgents (before ++ t.1 :: (rest ++ after))
        { s.host with toOutside := t.2 }) (before ++ [t.1]) (List.append_cons before _ _) hwrest
      rw [List.append_assoc, List.singleton_append] at hrest
      exact hrest

/-- Serving all agents is made of acts. -/
theorem acts_attend (ask : Agent ο σ → Option (Request × Option UInt64))
    (hw : ∀ a ∈ s.runner.agents, who a.id) : s.Acts B made who (s.attend B ask) := by
  have hacts : s.Acts B made who _ := acts_attendEach ask [] s.runner.agents [] (by simp) hw
  rw [List.append_nil] at hacts
  exact hacts

/-- An order comes down to acts. -/
theorem acts_obey {order : Order ο σ} (ho : order.Within made who)
    (hw : ∀ a ∈ s.runner.agents, who a.id) : s.Acts B made who (s.obey B order) := by
  cases order with
  | spawn id t owner => exact acts_spawn ho.1 ho.2 owner
  | despawn id => exact acts_despawn ho
  | write id f => exact acts_write ho f
  | tick clock =>
    rw [obey_tick]
    exact acts_attend _ hw
  | stopAll =>
    rw [obey_stopAll]
    exact acts_attend _ hw

/-! ### What acts keep -/

/-- What serving and writing keep, and what holds of new agents, holds of all agents after an act if
it did before. -/
theorem Act.forall_agents {P : Agent ο σ → Prop} (h : s.Act B made who s')
    (hp : ∀ a ∈ s.runner.agents, P a)
    (hserve : ∀ a, P a → ∀ request lastThink outside, P (a.serve B request lastThink outside).1)
    (hwrite : ∀ a, P a → ∀ f, P (a.mapEntries f))
    (hhire : ∀ {id : UInt64} {t tree : Tree ο σ} {owner : ο} {host : Host σ ω}, who id → made id t →
      t.instantiate B owner s.host = (.ok tree, host) →
        P ⟨id, s.runner.schedule.forAgent id, tree, .empty host.fresh, none⟩) :
    ∀ a ∈ s'.runner.agents, P a := by
  cases h with
  | serve hs hw request lastThink =>
    rw [hs] at hp
    simp only [withAgents, List.forall_mem_append, List.forall_mem_cons] at hp ⊢
    exact ⟨hp.1, hserve _ hp.2.1 request lastThink _, hp.2.2⟩
  | write hs hw f =>
    rw [hs] at hp
    simp only [withAgents, List.forall_mem_append, List.forall_mem_cons] at hp ⊢
    exact ⟨hp.1, hwrite _ hp.2.1 f, hp.2.2⟩
  | hire hs hw hm hi =>
    rw [hs] at hp
    simp only [withAgents, List.forall_mem_append, List.forall_mem_cons] at hp ⊢
    exact ⟨hp.1, hhire hw hm hi, hp.2⟩
  | refuse => exact hp
  | leave hs =>
    rw [hs] at hp
    simp only [withAgents, List.forall_mem_append, List.forall_mem_cons] at hp ⊢
    exact ⟨hp.1, hp.2.2⟩

/-- What instantiating and taking back nodes make of a pool, acts do. -/
theorem Act.pool_holds {P : Pool σ → Prop} (h : s.Act B made who s') (hp : P s.host.pool)
    (hmake : ∀ (t : Tree ο σ) (owner : ο), P (t.instantiate B owner s.host).2.pool)
    (hrelease : ∀ n, P (s.host.pool.release n)) : P s'.host.pool := by
  cases h with
  | serve | write => exact hp
  | @hire _ _ _ _ _ t _ owner _ _ hi =>
    have hmade := hmake t owner
    rw [hi] at hmade
    exact hmade
  | @refuse _ _ t _ owner _ _ hi =>
    have hmade := hmake t owner
    rw [hi] at hmade
    exact hmade
  | leave => exact hrelease _

/-- Acts of some agents bring in no others. -/
theorem who_acts (hw : ∀ a ∈ s.runner.agents, who a.id) (h : s.Acts B made who s') :
    ∀ a ∈ s'.runner.agents, who a.id := by
  induction h with
  | refl => exact hw
  | tail _ hact ih =>
    exact hact.forall_agents ih (fun _ ha _ _ _ ↦ ha) (fun _ ha _ ↦ ha) fun hw _ _ ↦ hw

/-- Orders come down to acts. -/
theorem acts_obeyAll {orders : List (Order ο σ)} (ho : ∀ order ∈ orders, order.Within made who)
    (hw : ∀ a ∈ s.runner.agents, who a.id) : s.Acts B made who (s.obeyAll B orders) := by
  induction orders generalizing s with
  | nil => exact .refl
  | cons order rest ih =>
    have hacts : s.Acts B made who (s.obey B order) := acts_obey (ho order (by simp)) hw
    exact hacts.trans (ih (fun o h ↦ ho o (by simp [h])) (who_acts hw hacts))

/-- Whatever the orders are, they come down to acts. -/
theorem acts_obeyAny (s : Squad ο σ ω) (orders : List (Order ο σ)) :
    s.Acts B (fun _ _ ↦ True) (fun _ ↦ True) (s.obeyAll B orders) :=
  acts_obeyAll (fun order _ ↦ order.within_all) fun _ _ ↦ trivial

/-- When the runner is given up, every agent is retired. -/
theorem acts_dismiss (s : Squad ο σ ω) :
    s.Acts B (fun _ _ ↦ True) (fun _ ↦ True) (s.dismiss B) := by
  have hall : s.runner.agents = [] ++ (s.runner.agents ++ []) := by simp
  exact acts_retireAll hall fun _ _ ↦ trivial

end Squad

end BehaviorTree
