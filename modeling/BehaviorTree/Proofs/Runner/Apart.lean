import BehaviorTree.Proofs.Host.Play
import BehaviorTree.Proofs.Host.Pooling
import BehaviorTree.Proofs.Runner.Bystanders

/-!
# Agents apart

An agent in a squad and the same agent on its own are twins: whatever a squad is told, an agent of
which nothing is asked goes on as it was, and what is asked of it comes out as if it were alone. So
nobody can tell from an agent whether there are others (`agents_independent`).
-/

namespace BehaviorTree

variable {ο σ ν ω : Type}

/-- The last answer of a tree, its nodes with their states, and the entries of the blackboard that
goes with it. -/
structure Sight (σ : Type) where
  status : Option Status
  root : Node σ
  entries : Entries

/-- What can be told of an agent without identities of scopes. -/
def Agent.sight (a : Agent ο σ) : Sight σ :=
  ⟨a.tree.lastStatus, a.tree.root.plain, a.scope.entries⟩

/-- What can be told of the agent of an id, if there is one. -/
def Squad.sight (s : Squad ο σ ω) (id : UInt64) : Option (Sight σ) :=
  (s.runner.find? id).map Agent.sight

/-! ### Twin agents -/

/-- A desk with the blackboard of a single agent, and an empty trace. -/
def Scope.desk (ν : Type) (s : Scope) (fresh : ScopeId) : Desk (Unit × List (HookEvent ν)) :=
  ⟨⟨((), []), fresh⟩, [s]⟩

/-- Whether two agents of one id are twins. -/
inductive Agent.Twins (fresh fresh' : ScopeId) :
    Agent ο ((UInt64 × ν) × σ) → Agent ο ((UInt64 × ν) × σ) → Prop where
  | intro (id : UInt64) (schedule : Schedule) (last : Option UInt64) {u u' : Tree ο (ν × σ)}
      {s s' : Scope} {r : Link}
      (hp : Tree.Paired (fun x ↦ x) True r u u' (s.desk ν fresh) (s'.desk ν fresh'))
      (hl : u.lastStatus = u'.lastStatus) :
      Twins fresh fresh' ⟨id, schedule, u.signed id, s, last⟩ ⟨id, schedule, u'.signed id, s', last⟩

/-- The last answer of a tree is that of the last request that had one. -/
theorem Tree.lastStatus_serve (B : Behavior ο σ ω) (t : Tree ο σ) (request : Request)
    (env : Env ω) :
    let r := t.serve B request env
    r.tree.lastStatus = r.reply.or t.lastStatus := by
  rcases t.serve_cases B request env with ⟨board, hr⟩ | hr <;> rw [hr] <;> rfl

namespace Agent.Twins

variable {B : Behavior ο σ ω} {fresh fresh' : ScopeId} {a a' : Agent ο ((UInt64 × ν) × σ)}

/-- Twins stay twins when others take identities of scopes. -/
theorem later (h : Twins fresh fresh' a a') {later later' : ScopeId}
    (hl : fresh.number ≤ later.number) (hl' : fresh'.number ≤ later'.number) :
    Twins later later' a a' := by
  cases h with
  | intro id schedule last hp hlast =>
    exact .intro id schedule last (hp.later hl hl') hlast

/-- Twins, if there are any, stay twins. -/
theorem later_if {a a' : Option (Agent ο ((UInt64 × ν) × σ))}
    (h : Option.Rel (Twins fresh fresh') a a') {later later' : ScopeId}
    (hl : fresh.number ≤ later.number) (hl' : fresh'.number ≤ later'.number) :
    Option.Rel (Twins later later') a a' := by
  cases h with
  | none => exact .none
  | some h => exact .some (h.later hl hl')

/-- Twins look the same. -/
theorem sight_eq (h : Twins fresh fresh' a a') : a.sight = a'.sight := by
  cases h with
  | intro id schedule last hp hlast =>
    have hplain (n : Node (ν × σ)) : (n.map fun s ↦ ((id, s.1), s.2)).plain =
        n.plain.map fun s ↦ ((id, s.1), s.2) := by
      rw [Node.plain, Node.plain, Node.map, Node.map, Node.recast_recast, Node.recast_recast]
      rfl
    have hentries := (List.forall₂_cons.mp hp.desks.scopes).1.2
    simp only [sight, Tree.signed, Tree.renamed, Tree.map, hplain, hp.twins.plain_eq, hlast,
      hentries]

/-- What is asked of twins comes out the same. -/
theorem serve (hB : B.Secluded) (hblind : B.Blind)
    (outside outside' : Outside (ω × List (HookEvent (UInt64 × ν))))
    (h : Twins outside.fresh outside'.fresh a a') (request : Request) (lastThink : Option UInt64) :
    let r := a.serve B.traced request lastThink outside
    let r' := a'.serve B.traced request lastThink outside'
    Twins r.2.fresh r'.2.fresh r.1 r'.1 ∧ ∃ events, r.2.world.2 = outside.world.2 ++ events ∧
      r'.2.world.2 = outside'.world.2 ++ events := by
  cases h with
  | @intro id schedule last u u' s s' link hp hlast =>
    intro r r'
    let w₀ := outside.world.1
    obtain ⟨hagent, hfresh, hlog⟩ := Agent.serve_signed hB w₀
      (a := ⟨id, schedule, u.signed id, s, last⟩) rfl request lastThink outside
    obtain ⟨hagent', hfresh', hlog'⟩ := Agent.serve_signed hB w₀
      (a := ⟨id, schedule, u'.signed id, s', last⟩) rfl request lastThink outside'
    have hb : s.alone.Alike link s'.alone := hp.desks.scopes
    obtain ⟨hreply, link', -, hpaired⟩ := Tree.serve_alike (hblind.within w₀).traced
      (B.within w₀).traced.resets_self hp hb request 0
    rw [show r.1 = _ from hagent, show r'.1 = _ from hagent', show r.2.fresh = _ from hfresh,
      show r'.2.fresh = _ from hfresh']
    refine ⟨?_, _, hlog, ?_⟩
    · refine .intro id schedule lastThink ⟨?_, hpaired.twins, hpaired.left, hpaired.right⟩ ?_
      · exact hpaired.desks.withWorld ((), [])
      · rw [Tree.lastStatus_serve, Tree.lastStatus_serve, hlast]
        exact congrArg (Option.or · u'.lastStatus) hreply
    · exact hlog'.trans (congrArg (fun w : Unit × List (HookEvent ν) ↦
        outside'.world.2 ++ w.2.map (HookEvent.rename (Prod.mk id))) hpaired.desks.world.symm)

/-- What is asked of twins, if anything is, comes out the same. -/
theorem attend (hB : B.Secluded) (hblind : B.Blind)
    {ask : Agent ο ((UInt64 × ν) × σ) → Option (Request × Option UInt64)}
    (outside outside' : Outside (ω × List (HookEvent (UInt64 × ν)))) (hask : ask a = ask a')
    (h : Twins outside.fresh outside'.fresh a a') :
    let r := a.attend B.traced ask outside
    let r' := a'.attend B.traced ask outside'
    Twins r.2.fresh r'.2.fresh r.1 r'.1 ∧ ∃ events, r.2.world.2 = outside.world.2 ++ events ∧
      r'.2.world.2 = outside'.world.2 ++ events := by
  simp only [Agent.attend, ← hask]
  cases ask a with
  | none => exact ⟨h, [], (List.append_nil _).symm, (List.append_nil _).symm⟩
  | some q => exact h.serve hB hblind outside outside' q.1 q.2

/-- Twins stay twins when the same is written to their blackboards. -/
theorem mapEntries (h : Twins fresh fresh' a a') (f : Entries → Entries) :
    Twins fresh fresh' (a.mapEntries f) (a'.mapEntries f) := by
  cases h with
  | intro id schedule last hp hlast =>
    exact .intro id schedule last { hp with desks := hp.desks.write 0 f } hlast

end Agent.Twins

/-- Twins that are retired, if there are any, leave the same in the trace. -/
theorem Agent.Twins.retireAll {B : Behavior ο σ ω} (hB : B.Secluded) (hblind : B.Blind)
    {a a' : Option (Agent ο ((UInt64 × ν) × σ))}
    (host host' : Host ((UInt64 × ν) × σ) (ω × List (HookEvent (UInt64 × ν))))
    (h : Option.Rel (Twins host.fresh host'.fresh) a a') :
    ∃ events, (Runner.retireAll B.traced a.toList host).world.2 = host.world.2 ++ events ∧
      (Runner.retireAll B.traced a'.toList host').world.2 = host'.world.2 ++ events := by
  cases h with
  | none => exact ⟨[], (List.append_nil _).symm, (List.append_nil _).symm⟩
  | @some a a' h =>
    have hserved := h.serve hB hblind host.toOutside host'.toOutside .stop a.lastThink
    cases h
    exact hserved.2

/-- Retiring gives back no identity. -/
theorem Runner.fresh_retireAll (B : Behavior ο σ ω) (agents : List (Agent ο σ)) (host : Host σ ω) :
    host.fresh.number ≤ (retireAll B agents host).fresh.number := by
  induction agents generalizing host with
  | nil => exact Nat.le_refl _
  | cons a rest ih =>
    have hserve := a.tree.fresh_serve B .stop { host.toOutside with board := a.board }
    exact Nat.le_trans hserve (ih (a.retire B host))

/-- Unused instances of one prototype are the trees of twins. -/
theorem Agent.twins_of_unused {u u' : Tree ο (ν × σ)} {fresh fresh' : ScopeId}
    (hf : u.root.frame (fun s ↦ s) = u'.root.frame fun s ↦ s) (hu : u.root.AllUnused)
    (hu' : u'.root.AllUnused) (hd : Distinct fresh u.root.stores)
    (hd' : Distinct fresh' u'.root.stores) (hl : u.lastStatus = u'.lastStatus) (id : UInt64)
    (schedule : Schedule) :
    Twins fresh.next fresh'.next ⟨id, schedule, u.signed id, .empty fresh, none⟩
      ⟨id, schedule, u'.signed id, .empty fresh', none⟩ := by
  let nobody : Link := fun _ _ ↦ False
  let d (fresh : ScopeId) : Desk (Unit × List (HookEvent ν)) := ⟨⟨((), []), fresh⟩, []⟩
  have hp : Tree.Paired (fun s ↦ s) True nobody u u' (d fresh) (d fresh') := by
    refine ⟨⟨⟨?_, ?_⟩, ?_, .nil, rfl⟩, ?_, hd, hd'⟩
    · exact False.elim
    · exact False.elim
    · exact fun h ↦ h.elim
    · refine Node.twins_of_frame hf ?_ ?_
      · exact fun m hm ↦ ⟨Node.quiet_of_allUnused hu m hm, fun _ ↦ hu m hm, fun _ _ _ h ↦ h⟩
      · exact fun m hm ↦ ⟨Node.quiet_of_allUnused hu' m hm, fun _ ↦ hu' m hm, fun _ _ _ h ↦ h⟩
  exact .intro id schedule none hp.create hl

/-! ### An agent in two squads -/

namespace Squad

variable {B : Behavior ο σ ω} {id : UInt64}
  {s t s' t' : Squad ο ((UInt64 × ν) × σ) (ω × List (HookEvent (UInt64 × ν)))}

/-- The same calls come behind the same calls. -/
theorem filter_append_eq {before before' after after' events : List (HookEvent (UInt64 × ν))}
    (h : before.filter (fun e ↦ e.leaf.1 == id) = before'.filter fun e ↦ e.leaf.1 == id)
    (ha : after = before ++ events) (ha' : after' = before' ++ events) :
    after.filter (fun e ↦ e.leaf.1 == id) = after'.filter fun e ↦ e.leaf.1 == id := by
  rw [ha, ha', List.filter_append, List.filter_append, h]

/-- Whether an agent is the same in two squads: there is none, or there are twins, and their leaves
had the same calls. -/
structure Alike (id : UInt64)
    (s s' : Squad ο ((UInt64 × ν) × σ) (ω × List (HookEvent (UInt64 × ν)))) : Prop where
  schedule : s.runner.schedule = s'.runner.schedule
  calls : s.calls id = s'.calls id
  agent : Option.Rel (Agent.Twins s.host.fresh s'.host.fresh) (s.runner.find? id)
    (s'.runner.find? id)

/-- What is done with other agents makes no difference. -/
theorem Alike.passes (h : s.Alike id s') (hp : s.Passes id t) (hp' : s'.Passes id t') :
    t.Alike id t' := by
  refine ⟨?_, ?_, ?_⟩
  · rw [hp.schedule, hp'.schedule, h.schedule]
  · rw [hp.calls, hp'.calls, h.calls]
  · rw [hp.agent, hp'.agent]
    exact Agent.Twins.later_if h.agent hp.fresh hp'.fresh

/-- Whether a squad is orderly, with its agents in their order. -/
structure Sound (s : Squad ο ((UInt64 × ν) × σ) (ω × List (HookEvent (UInt64 × ν)))) : Prop where
  orderly : s.Orderly
  ascending : Runner.Ascending s.runner.agents

/-! ### Orders to the agent -/

/-- Where there is no instance, spawning leaves the agents. -/
theorem obey_spawn_of_error {B : Behavior ο σ ω} {s : Squad ο σ ω} {t : Tree ο σ} {owner : ο}
    {e : CloneError} (h : (t.instantiate B owner s.host).1 = .error e) (id : UInt64) :
    s.obey B (.spawn id t owner) = { s with host := (t.instantiate B owner s.host).2 } := by
  simp only [obey, Runner.spawn]
  cases hr : t.instantiate B owner s.host with
  | mk r host =>
    rw [hr] at h
    cases h
    rfl

/-- Where there is an instance, a new agent gets it, and an agent of the same id is retired
afterwards. -/
theorem obey_spawn_of_ok {B : Behavior ο σ ω} {s : Squad ο σ ω} {t tree : Tree ο σ} {owner : ο}
    (h : (t.instantiate B owner s.host).1 = .ok tree) (id : UInt64) :
    let host := (t.instantiate B owner s.host).2
    let placed := Runner.insertAgent
      ⟨id, s.runner.schedule.forAgent id, tree, .empty host.fresh, none⟩ s.runner.agents
    s.obey B (.spawn id t owner) = ⟨⟨s.runner.schedule, placed.2⟩,
      Runner.retireAll B placed.1.toList { host with fresh := host.fresh.next }⟩ := by
  simp only [obey, Runner.spawn]
  cases hr : t.instantiate B owner s.host with
  | mk r host =>
    rw [hr] at h
    cases h
    rfl

/-- What an instance is like that has not been asked anything. -/
theorem new_instance {t : Tree ο (ν × σ)} {owner : ο} {u : Tree ο (ν × σ)} (h : s.Tidy)
    (hu : ((t.signed id).instantiate B.traced owner s.host).1 = .ok (u.signed id)) :
    u.root.AllUnused ∧ u.lastStatus = none ∧ Distinct s.host.fresh u.root.stores := by
  have hi := (t.signed id).framed_instantiate B.traced owner s.host
  have hlast : (u.signed id).lastStatus = none :=
    Tree.lastStatus_instantiate B.traced (t.signed id) hu
  refine ⟨Node.allUnused_of_map (hi.unused _ hu), hlast, ?_⟩
  refine h.distinct.of_le fun i ↦ ?_
  have hstores := hi.stores i
  rw [hu] at hstores
  have hown : (u.root.map fun s ↦ ((id, s.1), s.2)).stores i + _ ≤ s.host.pool.stores i := hstores
  rw [Node.stores_map] at hown
  rw [stores]
  omega

private theorem Alike.spawn (hB : B.Secluded) (hblind : B.Blind) (h : s.Alike id s') (ho : s.Sound)
    (ho' : s'.Sound) (t : Tree ο (ν × σ)) (owner : ο) :
    (s.obey B.traced (.spawn id (t.signed id) owner)).Alike id
      (s'.obey B.traced (.spawn id (t.signed id) owner)) := by
  have hfresh := (t.signed id).fresh_instantiate B.traced owner s.host
  have hfresh' := (t.signed id).fresh_instantiate B.traced owner s'.host
  obtain ⟨hlog, hmade⟩ := t.instantiate_signed hB s.host.world.1 id owner ho.orderly.tidy.keyed
  obtain ⟨hlog', hmade'⟩ := t.instantiate_signed hB s.host.world.1 id owner ho'.orderly.tidy.keyed
  rcases hmade with ⟨e, hr, he⟩ | ⟨y, u, hr, hu, hf⟩
  · rcases hmade' with ⟨e', hr', he'⟩ | ⟨y', u', hr', hu', hf'⟩
    · rw [obey_spawn_of_error he, obey_spawn_of_error he']
      refine ⟨h.schedule, filter_append_eq h.calls hlog hlog', ?_⟩
      rw [hfresh, hfresh']
      exact h.agent
    · rw [hr] at hr'
      cases hr'
  · rcases hmade' with ⟨e', hr', he'⟩ | ⟨y', u', hr', hu', hf'⟩
    · rw [hr] at hr'
      cases hr'
    · obtain rfl : y = y' := Except.ok.inj (hr.symm.trans hr')
      obtain ⟨hunused, hlast, hd⟩ := new_instance ho.orderly.tidy hu
      obtain ⟨hunused', hlast', hd'⟩ := new_instance ho'.orderly.tidy hu'
      have htwins := Agent.twins_of_unused (hf.trans hf'.symm) hunused hunused' hd hd'
        (hlast.trans hlast'.symm) id (s.runner.schedule.forAgent id)
      have hnext : s.host.fresh.number ≤ s.host.fresh.next.number := Nat.le_succ _
      have hnext' : s'.host.fresh.number ≤ s'.host.fresh.next.number := Nat.le_succ _
      let agent (u : Tree ο (ν × σ)) (fresh : ScopeId) : Agent ο ((UInt64 × ν) × σ) :=
        ⟨id, s.runner.schedule.forAgent id, u.signed id, .empty fresh, none⟩
      obtain ⟨-, hold, hnew⟩ := Runner.insertAgent_of_ascending (agent u s.host.fresh) ho.ascending
      obtain ⟨-, hold', hnew'⟩ :=
        Runner.insertAgent_of_ascending (agent u' s'.host.fresh) ho'.ascending
      rw [obey_spawn_of_ok hu, obey_spawn_of_ok hu', hfresh, hfresh', ← h.schedule, hold, hold']
      let host : Host ((UInt64 × ν) × σ) (ω × List (HookEvent (UInt64 × ν))) :=
        { ((t.signed id).instantiate B.traced owner s.host).2 with fresh := s.host.fresh.next }
      let host' : Host ((UInt64 × ν) × σ) (ω × List (HookEvent (UInt64 × ν))) :=
        { ((t.signed id).instantiate B.traced owner s'.host).2 with fresh := s'.host.fresh.next }
      obtain ⟨events, he, he'⟩ := Agent.Twins.retireAll hB hblind host host'
        (Agent.Twins.later_if h.agent hnext hnext')
      refine ⟨rfl, filter_append_eq (filter_append_eq h.calls hlog hlog') he he', ?_⟩
      rw [Runner.find?, Runner.find?, hnew, hnew']
      exact .some (htwins.later (Runner.fresh_retireAll B.traced _ host)
        (Runner.fresh_retireAll B.traced _ host'))

private theorem Alike.despawn (hB : B.Secluded) (hblind : B.Blind) (h : s.Alike id s')
    (ho : s.Sound) (ho' : s'.Sound) :
    (s.obey B.traced (.despawn id)).Alike id (s'.obey B.traced (.despawn id)) := by
  obtain ⟨-, hold, hnone⟩ := Runner.eraseAgent_of_ascending id ho.ascending
  obtain ⟨-, hold', hnone'⟩ := Runner.eraseAgent_of_ascending id ho'.ascending
  obtain ⟨events, he, he'⟩ := Agent.Twins.retireAll hB hblind s.host s'.host h.agent
  simp only [obey, Runner.despawn, hold, hold']
  refine ⟨h.schedule, filter_append_eq h.calls he he', ?_⟩
  rw [Runner.find?, Runner.find?, hnone, hnone']
  exact .none

private theorem Alike.write (h : s.Alike id s') (f : Entries → Entries) :
    (s.obey B.traced (.write id f)).Alike id (s'.obey B.traced (.write id f)) := by
  refine ⟨h.schedule, h.calls, ?_⟩
  have ha := h.agent
  simp only [obey, Runner.find?_mapEntries]
  generalize s.runner.find? id = a, s'.runner.find? id = a' at ha
  cases ha with
  | none => exact .none
  | some ha => exact .some (ha.mapEntries f)

/-! ### Orders to all agents -/

variable (ask : Agent ο ((UInt64 × ν) × σ) → Option (Request × Option UInt64))

/-- If there is no agent of an id, serving all agents is no matter of it. -/
theorem passes_attend (hB : B.Secluded) (ho : s.Sound) (hn : s.runner.find? id = none) :
    s.Passes id (s.attend B.traced ask) := by
  refine passes_acts hB ho.orderly (acts_attend ask fun a ha ↦ ?_)
  simpa using List.find?_eq_none.mp hn a ha

/-- When all agents are served, others come first, then the agent of an id, then others. -/
theorem passes_attend_passes (hB : B.Secluded) (ho : s.Sound) {a : Agent ο ((UInt64 × ν) × σ)}
    (hf : s.runner.find? id = some a) :
    ∃ s₁ s₂ : Squad ο ((UInt64 × ν) × σ) (ω × List (HookEvent (UInt64 × ν))),
      s.Passes id s₁ ∧ s₂.runner.schedule = s.runner.schedule ∧
      s₂.runner.find? id = some (a.attend B.traced ask s₁.host.toOutside).1 ∧
      s₂.host.toOutside = (a.attend B.traced ask s₁.host.toOutside).2 ∧
      s₂.Passes id (s.attend B.traced ask) := by
  obtain ⟨before, after, hs, hid, hbefore, hafter⟩ := Runner.split_of_find? ho.ascending hf
  let x := Agent.attendEach B.traced ask before s.host.toOutside
  let y := a.attend B.traced ask x.2
  let z := Agent.attendEach B.traced ask after y.2
  let s₁ := s.withAgents (x.1 ++ a :: after) { s.host with toOutside := x.2 }
  let s₂ := s.withAgents (x.1 ++ y.1 :: after) { s.host with toOutside := y.2 }
  have h₁ : s.Acts B.traced Tree.Signed (· ≠ id) s₁ :=
    acts_attendEach ask [] before (a :: after) hs hbefore
  have h₂ : s₁.Acts B.traced Tree.Signed (fun _ ↦ True) s₂ :=
    acts_attendEach ask x.1 [a] after rfl fun _ _ ↦ trivial
  have h₃ : s₂.Acts B.traced Tree.Signed (· ≠ id) (s.attend B.traced ask) := by
    have hacts : s₂.Acts B.traced Tree.Signed (· ≠ id) _ :=
      acts_attendEach ask (x.1 ++ [y.1]) after [] (by simp [s₂, withAgents]) hafter
    have hall : s.attend B.traced ask =
        s₂.withAgents (x.1 ++ [y.1] ++ (z.1 ++ [])) { s₂.host with toOutside := z.2 } := by
      rw [attend, hs, Agent.attendEach_append, List.append_nil, List.append_assoc]
      rfl
    rw [hall]
    exact hacts
  have ho₂ : s₂.Orderly := orderly_acts hB (orderly_acts hB ho.orderly h₁) h₂
  refine ⟨s₁, s₂, passes_acts hB ho.orderly h₁, rfl, ?_, rfl, passes_acts hB ho₂ h₃⟩
  exact Agent.find?_attendEach_append B.traced ask hbefore (by simp [y, hid]) after _

/-- When the same is asked of twins, serving all agents leaves them twins. -/
theorem Alike.attend (hB : B.Secluded) (hblind : B.Blind) (h : s.Alike id s') (ho : s.Sound)
    (ho' : s'.Sound)
    (hask : ∀ {fresh fresh' : ScopeId} {a a' : Agent ο ((UInt64 × ν) × σ)},
      a.Twins fresh fresh' a' → ask a = ask a') :
    (s.attend B.traced ask).Alike id (s'.attend B.traced ask) := by
  have hagent := h.agent
  cases hf : s.runner.find? id with
  | none =>
    cases hf' : s'.runner.find? id with
    | none => exact h.passes (passes_attend ask hB ho hf) (passes_attend ask hB ho' hf')
    | some a' =>
      rw [hf, hf'] at hagent
      cases hagent
  | some a =>
    cases hf' : s'.runner.find? id with
    | none =>
      rw [hf, hf'] at hagent
      cases hagent
    | some a' =>
      rw [hf, hf'] at hagent
      obtain ⟨s₁, s₂, hp, hschedule, hfind, hout, hq⟩ := passes_attend_passes ask hB ho hf
      obtain ⟨s₁', s₂', hp', hschedule', hfind', hout', hq'⟩ :=
        passes_attend_passes ask hB ho' hf'
      have h₁ : s₁.Alike id s₁' := h.passes hp hp'
      have htwins : a.Twins s₁.host.fresh s₁'.host.fresh a' := by
        have hlater := h₁.agent
        rw [hp.agent, hp'.agent, hf, hf'] at hlater
        cases hlater
        assumption
      obtain ⟨hserved, events, he, he'⟩ := htwins.attend hB hblind s₁.host.toOutside
        s₁'.host.toOutside (hask htwins)
      rw [← hout, ← hout'] at hserved
      rw [← hout] at he
      rw [← hout'] at he'
      have h₂ : s₂.Alike id s₂' := by
        refine ⟨?_, filter_append_eq h₁.calls he he', ?_⟩
        · rw [hschedule, hschedule', h.schedule]
        · rw [hfind, hfind']
          exact .some hserved
      exact h₂.passes hq hq'

end Squad

/-- The order, with a prototype signed by the agent that is to be spawned. -/
def Order.signed : Order ο (ν × σ) → Order ο ((UInt64 × ν) × σ)
  | .spawn id t owner => .spawn id (t.signed id) owner
  | .despawn id => .despawn id
  | .write id f => .write id f
  | .tick clock => .tick clock
  | .stopAll => .stopAll

/-- A signed order spawns trees that are signed. -/
theorem Order.within_signed (order : Order ο (ν × σ)) :
    order.signed.Within Tree.Signed fun _ ↦ True := by
  cases order with
  | spawn id t owner => exact ⟨trivial, t, rfl⟩
  | _ => trivial

namespace Squad

variable {B : Behavior ο σ ω} {id : UInt64}
  {s s' : Squad ο ((UInt64 × ν) × σ) (ω × List (HookEvent (UInt64 × ν)))}

/-- A sound squad obeys a signed order and is sound again. -/
theorem Sound.obey (hB : B.Secluded) (h : s.Sound) (order : Order ο (ν × σ)) :
    (s.obey B.traced order.signed).Sound where
  orderly := orderly_acts hB h.orderly (acts_obey order.within_signed fun _ _ ↦ trivial)
  ascending := ascending_obey h.ascending order.signed

/-- An order to another agent does nothing to an agent. -/
theorem passes_obey (hB : B.Secluded) (h : s.Sound) {order : Order ο (ν × σ)}
    (ho : order.concerns id = false) : s.Passes id (s.obey B.traced order.signed) := by
  refine passes_acts hB h.orderly ?_
  cases order with
  | spawn k t owner => exact acts_spawn (by simpa [Order.concerns] using ho) ⟨t, rfl⟩ owner
  | despawn k => exact acts_despawn (by simpa [Order.concerns] using ho)
  | write k f => exact acts_write (by simpa [Order.concerns] using ho) f
  | tick clock => cases ho
  | stopAll => cases ho

/-- An order to an agent, or to all, does the same in both squads. -/
theorem Alike.obey (hB : B.Secluded) (hblind : B.Blind) (h : s.Alike id s') (hs : s.Sound)
    (hs' : s'.Sound) {order : Order ο (ν × σ)} (ho : order.concerns id = true) :
    (s.obey B.traced order.signed).Alike id (s'.obey B.traced order.signed) := by
  cases order with
  | spawn k t owner =>
    obtain rfl : k = id := by simpa [Order.concerns] using ho
    exact h.spawn hB hblind hs hs' t owner
  | despawn k =>
    obtain rfl : k = id := by simpa [Order.concerns] using ho
    exact h.despawn hB hblind hs hs'
  | write k f =>
    obtain rfl : k = id := by simpa [Order.concerns] using ho
    exact h.write f
  | tick clock =>
    simp only [Order.signed, obey_tick]
    refine h.attend _ hB hblind hs hs' fun htwins ↦ ?_
    cases htwins
    rfl
  | stopAll =>
    simp only [Order.signed, obey_stopAll]
    refine h.attend _ hB hblind hs hs' fun htwins ↦ ?_
    cases htwins
    rfl

/-- What a squad does for an agent, it does if it is told no more than what concerns the agent. -/
theorem Alike.obeyAll (hB : B.Secluded) (hblind : B.Blind) (h : s.Alike id s') (hs : s.Sound)
    (hs' : s'.Sound) (orders : List (Order ο (ν × σ))) :
    (s.obeyAll B.traced (orders.map Order.signed)).Alike id
      (s'.obeyAll B.traced ((orders.filter (·.concerns id)).map Order.signed)) := by
  induction orders generalizing s s' with
  | nil => exact h
  | cons order rest ih =>
    cases ho : order.concerns id with
    | true =>
      rw [List.filter_cons_of_pos ho]
      exact ih (h.obey hB hblind hs hs' ho) (hs.obey hB order) (hs'.obey hB order)
    | false =>
      rw [List.filter_cons_of_neg (by simp [ho])]
      exact ih (h.passes (passes_obey hB hs ho) (.refl s')) (hs.obey hB order) hs'

/-- Orders that concern an agent bring in no others. -/
theorem id_of_mem_obeyAll (schedule : Schedule)
    (host : Host ((UInt64 × ν) × σ) (ω × List (HookEvent (UInt64 × ν))))
    (orders : List (Order ο (ν × σ))) :
    let alone := (start schedule host).obeyAll B.traced
      ((orders.filter (·.concerns id)).map Order.signed)
    ∀ a ∈ alone.runner.agents, a.id = id := by
  have hnone : ∀ a ∈ (start schedule host : Squad ο _ _).runner.agents, a.id = id := by
    intro a ha
    cases ha
  have hwithin : ∀ order ∈ (orders.filter (·.concerns id)).map Order.signed,
      order.Within (fun _ _ ↦ True) (· = id) := by
    intro order hmem
    obtain ⟨o, ho, rfl⟩ := List.mem_map.mp hmem
    have hconcerns := (List.mem_filter.mp ho).2
    cases o with
    | spawn => exact ⟨by simpa [Order.concerns] using hconcerns, trivial⟩
    | despawn => simpa [Order.signed, Order.Within, Order.concerns] using hconcerns
    | write => simpa [Order.signed, Order.Within, Order.concerns] using hconcerns
    | tick => trivial
    | stopAll => trivial
  have hacts : Acts B.traced (fun _ _ ↦ True) (· = id) (start schedule host) _ :=
    acts_obeyAll hwithin hnone
  exact who_acts hnone hacts

/-- A squad that starts on the host of a session is sound. -/
theorem sound_start {s : Session ((UInt64 × ν) × σ) (ω × List (HookEvent (UInt64 × ν)))}
    (hs : s.Tidy fun _ ↦ 0) (schedule : Schedule) (w : ω × List (HookEvent (UInt64 × ν))) :
    (start schedule { s.host with world := w } : Squad ο _ _).Sound := by
  refine ⟨⟨⟨hs.keyed, hs.distinct.of_le fun i ↦ ?_⟩, fun a ha ↦ by cases ha⟩, List.Pairwise.nil⟩
  have hpool : (start schedule { s.host with world := w } : Squad ο _ _).stores i =
    0 + s.pool.stores i := rfl
  rw [hpool, Session.stores]
  omega

/-- Agents do not interfere. Take a squad that may have come by any pool, and for any agent another
one, on a host of its own, which is told only what concerns the agent, and so never has any other
agent. After whatever orders, the agent looks the same in both: the last answer of its tree, the
nodes with their states, and the entries of its blackboard; and the hooks of its leaves had the same
calls with the same to be seen. -/
theorem agents_independent (hB : B.Secluded) (hblind : B.Blind) (schedule : Schedule)
    {s s' : Session ((UInt64 × ν) × σ) (ω × List (HookEvent (UInt64 × ν)))}
    (hs : s.Reachable B.traced) (hs' : s'.Reachable B.traced) (w w' : ω)
    (orders : List (Order ο (ν × σ))) (id : UInt64) :
    let squad := (start schedule { s.host with world := (w, []) }).obeyAll B.traced
      (orders.map Order.signed)
    let alone := (start schedule { s'.host with world := (w', []) }).obeyAll B.traced
      ((orders.filter (·.concerns id)).map Order.signed)
    squad.sight id = alone.sight id ∧ squad.calls id = alone.calls id ∧
      ∀ a ∈ alone.runner.agents, a.id = id := by
  intro squad alone
  have hfirst : (start schedule { s.host with world := (w, []) }).Alike id
      (start schedule { s'.host with world := (w', []) } : Squad ο _ _) := ⟨rfl, rfl, .none⟩
  have hlast : squad.Alike id alone := hfirst.obeyAll hB hblind (sound_start hs.tidy schedule _)
    (sound_start hs'.tidy schedule _) orders
  refine ⟨?_, hlast.calls, id_of_mem_obeyAll schedule _ orders⟩
  have hagent := hlast.agent
  rw [sight, sight]
  generalize squad.runner.find? id = a, alone.runner.find? id = a' at hagent
  cases hagent with
  | none => rfl
  | some htwins => exact congrArg some htwins.sight_eq

/-- Two agents that pause; the nodes of one, given up while it runs, come to the other. -/
theorem agents_independent_pause :
    let B : Behavior Owner ((UInt64 × String) × Wait)
      (World × List (HookEvent (UInt64 × String))) := Wait.behavior.traced
    let used : Session ((UInt64 × String) × Wait) (World × List (HookEvent (UInt64 × String))) :=
      .start ⟨(.initial, []), ⟨0⟩⟩ 64
    let orders : List (Order Owner (String × Wait)) :=
      [.spawn 1 Wait.pause ⟨1, .unit⟩, .tick ⟨1, 0.5⟩, .despawn 1, .spawn 2 Wait.pause ⟨2, .unit⟩,
        .write 2 (·.insert "key" (.int 7)), .tick ⟨2, 0.5⟩, .stopAll]
    let squad := (start .always { used.host with world := (.initial, []) }).obeyAll B
      (orders.map Order.signed)
    let alone := (start .always { used.host with world := (.initial, []) }).obeyAll B
      ((orders.filter (·.concerns 2)).map Order.signed)
    used.Reachable B ∧ squad.sight 2 = alone.sight 2 ∧ squad.calls 2 = alone.calls 2 ∧
      ∀ a ∈ alone.runner.agents, a.id = 2 := by
  intro B used orders squad alone
  have hused : used.Reachable B := .start ⟨(World.initial, []), ⟨0⟩⟩ 64
  exact ⟨hused, agents_independent Wait.secluded_behavior Wait.blind_behavior .always hused hused
    World.initial World.initial orders 2⟩

end Squad

end BehaviorTree
