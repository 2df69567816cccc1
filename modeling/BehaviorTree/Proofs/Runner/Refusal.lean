import BehaviorTree.Proofs.Host.Rollback
import BehaviorTree.Proofs.Runner.Apart

/-!
# Agents that cannot be spawned

When no instance can be made for an agent, the squad goes on as it was. The agents are the same, one
under the id that was asked for among them, and no hook was called but those that bind the copies of
the template's leaves (`failed_spawn_changes_no_agent`).
-/

namespace BehaviorTree

variable {ο σ ν ω : Type}

namespace Node

/-- The calls that bind nodes one after the other. -/
def awakings (ns : List (Node (ν × σ))) : List (HookEvent ν) :=
  (leafStates ns).map fun x ↦ ⟨x.1, .awake, []⟩

private theorem awakings_append (as bs : List (Node (ν × σ))) :
    awakings (as ++ bs) = awakings as ++ awakings bs := by
  rw [awakings, leafStates_append, List.map_append]
  rfl

/-- Whether the only hooks that were called to copy some nodes are those that bind the copies, in
pre-order and, if there was no failure, of all nodes. -/
def OnlyAwakes (ns : List (Node (ν × σ))) (w : ω × List (HookEvent ν))
    (c : Copies (ν × σ) (ω × List (HookEvent ν))) : Prop :=
  ∃ asked, asked <+: preorders ns ∧ c.world.2 = w.2 ++ awakings asked ∧
    (c.failure = none → asked = preorders ns)

variable {B : Behavior ο σ ω} {owner : ο} {as bs : List (Node (ν × σ))}
  {w : ω × List (HookEvent ν)} {c d : Copies (ν × σ) (ω × List (HookEvent ν))}

private theorem OnlyAwakes.append_of_failure (h : OnlyAwakes as w c) (hf : c.failure ≠ none)
    (bs : List (Node (ν × σ))) : OnlyAwakes (as ++ bs) w c := by
  obtain ⟨asked, hprefix, htrace, -⟩ := h
  refine ⟨asked, ?_, htrace, fun hn ↦ absurd hn hf⟩
  rw [preorders_append]
  exact hprefix.trans (List.prefix_append _ _)

private theorem OnlyAwakes.append (h : OnlyAwakes as w c) (hf : c.failure = none)
    (h' : OnlyAwakes bs c.world d) :
    OnlyAwakes (as ++ bs) w { d with children := c.children ++ d.children } := by
  obtain ⟨asked, -, htrace, hall⟩ := h
  obtain ⟨asked', hprefix', htrace', hall'⟩ := h'
  obtain rfl := hall hf
  refine ⟨preorders as ++ asked', ?_, ?_, fun hn ↦ ?_⟩
  · rw [preorders_append]
    exact (List.prefix_append_right_inj _).mpr hprefix'
  · rw [awakings_append, ← List.append_assoc, ← htrace]
    exact htrace'
  · rw [preorders_append, hall' hn]

private theorem onlyAwakes_copies {ns : List (Node (ν × σ))}
    (ih : ∀ n ∈ ns, ∀ (p : Pool (ν × σ)) (w : ω × List (HookEvent ν)),
      OnlyAwakes [n] w (.ofCopy (n.copy B.traced owner p w)))
    (p : Pool (ν × σ)) (w : ω × List (HookEvent ν)) :
    OnlyAwakes ns w (copies B.traced owner ns p w) := by
  induction ns generalizing p w with
  | nil => exact ⟨[], List.prefix_rfl, (List.append_nil _).symm, fun _ ↦ rfl⟩
  | cons n rest rest_ih =>
    have hn := ih n (by simp) p w
    simp only [copies]
    generalize n.copy B.traced owner p w = x at hn ⊢
    obtain ⟨r, q, v⟩ := x
    cases r with
    | error e => exact hn.append_of_failure (by simp [Copies.ofCopy]) rest
    | ok m => exact hn.append rfl (rest_ih (fun k hk ↦ ih k (by simp [hk])) q v)

/-- Taking a shell and binding it calls at most the one hook that binds it. -/
theorem awakings_acquireAwake (B : Behavior ο σ ω) (owner : ο) (model : Node (ν × σ))
    (p : Pool (ν × σ)) (w : ω × List (HookEvent ν)) :
    let r := model.acquireAwake B.traced owner p w
    r.2.2.2 = w.2 ++ awakings [model] ∨ r.2.2.2 = w.2 ∧ ∃ e, r.1 = .error e := by
  have hsupplied : p.Supplied model (p.acquire model) := p.supplied_acquire model
  intro r
  simp only [r, acquireAwake]
  generalize p.acquire model = x at hsupplied ⊢
  obtain ⟨x, q⟩ := x
  cases x with
  | error e => exact .inr ⟨rfl, e, rfl⟩
  | ok n =>
    have hstates := (hsupplied.shell n rfl).leafStates_eq
    have htrace := Behavior.traced_awake B owner n w
    rw [hstates] at htrace
    left
    dsimp only
    generalize n.awake B.traced owner w = a at htrace ⊢
    obtain ⟨a, v⟩ := a
    cases a <;> exact htrace

/-- A node that was bound is followed by what is below it. -/
theorem OnlyAwakes.adopt {model n : Node (ν × σ)} {v : ω × List (HookEvent ν)}
    (hw : v.2 = w.2 ++ awakings [model]) (h : OnlyAwakes model.children v c) :
    OnlyAwakes [model] w (.ofCopy (n.adopt c)) := by
  obtain ⟨asked, hprefix, htrace, hall⟩ := h
  have hworld : (Copies.ofCopy (n.adopt c)).world = c.world := by
    unfold Node.adopt
    cases c.failure <;> rfl
  have hfailure : (Copies.ofCopy (n.adopt c)).failure = c.failure := by
    unfold Node.adopt
    cases hf : c.failure <;> rfl
  refine ⟨model :: asked, ?_, ?_, fun hn ↦ ?_⟩
  · rw [preorders_singleton, preorder_eq]
    exact List.cons_prefix_cons.mpr ⟨rfl, hprefix⟩
  · rw [hworld, htrace, hw, List.append_assoc, ← awakings_append]
    rfl
  · rw [hall (hfailure ▸ hn), preorders_singleton, preorder_eq]

/-- Copying a subtree calls no hooks but those that bind the copies of its leaves. -/
theorem onlyAwakes_copy (B : Behavior ο σ ω) (owner : ο) (n : Node (ν × σ)) (p : Pool (ν × σ))
    (w : ω × List (HookEvent ν)) : OnlyAwakes [n] w (.ofCopy (n.copy B.traced owner p w)) := by
  induction n using child_induction generalizing p w with
  | step n ih =>
    have hfetched := awakings_acquireAwake B owner n p w
    rw [copy_eq, copyWith]
    generalize n.acquireAwake B.traced owner p w = x at hfetched ⊢
    obtain ⟨r, q, v⟩ := x
    cases r with
    | error e =>
      rcases hfetched with htrace | ⟨htrace, -⟩
      · refine ⟨[n], ?_, htrace, fun hn ↦ by cases hn⟩
        rw [preorders_singleton, preorder_eq]
        exact List.cons_prefix_cons.mpr ⟨rfl, List.nil_prefix⟩
      · exact ⟨[], List.nil_prefix, htrace.trans (List.append_nil _).symm, fun hn ↦ by cases hn⟩
    | ok m =>
      rcases hfetched with htrace | ⟨-, e, he⟩
      · exact (onlyAwakes_copies ih q v).adopt htrace
      · cases he

end Node

/-- Instantiating calls no hooks but those that bind the leaves of the instance, and all of those if
there is one. -/
theorem Tree.onlyAwakes_instantiate (B : Behavior ο σ ω) (t : Tree ο (ν × σ)) (owner : ο)
    (host : Host (ν × σ) (ω × List (HookEvent ν))) :
    let r := t.instantiate B.traced owner host
    ∃ asked, asked <+: t.root.preorder ∧ r.2.world.2 = host.world.2 ++ Node.awakings asked ∧
      ∀ x, r.1 = .ok x → asked = t.root.preorder := by
  cases hi : t.isInstance with
  | true =>
    simp only [instantiate, hi, if_true]
    exact ⟨[], List.nil_prefix, (List.append_nil _).symm, fun x hx ↦ by cases hx⟩
  | false =>
    obtain ⟨asked, hprefix, htrace, hall⟩ :=
      Node.onlyAwakes_copy B owner t.root host.pool host.world
    rw [Node.preorders_singleton] at hprefix hall
    refine ⟨asked, hprefix, ?_⟩
    simp only [instantiate, hi, Bool.false_eq_true, if_false, ← htrace]
    generalize t.root.copy B.traced owner host.pool host.world = x at hall ⊢
    obtain ⟨r, q, v⟩ := x
    cases r with
    | error e => exact ⟨rfl, fun x hx ↦ by cases hx⟩
    | ok root => exact ⟨rfl, fun _ _ ↦ hall rfl⟩

/-- An agent cannot be spawned only if its template cannot be instantiated. -/
theorem Runner.instantiate_of_spawn_error {B : Behavior ο σ ω} {r : Runner ο σ} {id : UInt64}
    {t : Tree ο σ} {owner : ο} {host : Host σ ω} {e : CloneError}
    (h : (r.spawn B id t owner host).1 = .error e) :
    (t.instantiate B owner host).1 = .error e := by
  simp only [spawn] at h
  cases hr : t.instantiate B owner host with
  | mk x host' =>
    rw [hr] at h
    cases x with
    | error e' =>
      cases h
      rfl
    | ok tree => cases h

namespace Squad

/-- When an agent cannot be spawned, the agents stay as they are, an agent of that id among them:
its tree, its blackboard, its schedule, its last answer and the tick on which it last thought. No
identity of a scope is given out, and no hook is called but those that bind the copies of the
template's leaves, in pre-order and up to the one that refused. If the template is itself an
instance, nothing happens at all. -/
theorem failed_spawn_changes_no_agent (B : Behavior ο σ ω)
    (s : Squad ο (ν × σ) (ω × List (HookEvent ν))) (id : UInt64) (t : Tree ο (ν × σ)) (owner : ο)
    {e : CloneError} (h : (s.runner.spawn B.traced id t owner s.host).1 = .error e) :
    let s' := s.obey B.traced (.spawn id t owner)
    s'.runner = s.runner ∧ s'.host.fresh = s.host.fresh ∧
      (∃ asked, asked <+: t.root.preorder ∧
        s'.host.world.2 = s.host.world.2 ++ Node.awakings asked) ∧
      (t.isInstance = true → e = .notAPrototype ∧ s' = s) := by
  intro s'
  have hi := Runner.instantiate_of_spawn_error h
  have hs' : s' = { s with host := (t.instantiate B.traced owner s.host).2 } :=
    obey_spawn_of_error hi id
  rw [hs']
  obtain ⟨asked, hprefix, htrace, -⟩ := t.onlyAwakes_instantiate B owner s.host
  refine ⟨rfl, t.fresh_instantiate B.traced owner s.host, ⟨asked, hprefix, htrace⟩,
    fun hinstance ↦ ?_⟩
  simp only [Tree.instantiate, hinstance, if_true] at hi ⊢
  cases hi
  exact ⟨rfl, trivial⟩

/-- A guard keeps watch and is to be replaced by an owner that is none, so that the walk refuses. -/
theorem failed_spawn_changes_no_agent_vigil :
    let B : Behavior Owner (String × Leaf) (World × List (HookEvent String)) :=
      Leaf.behavior.traced
    let watch := Node.newLeaf (.plain (.ofNat 1) "watch")
      ("watch", Leaf.action fun b w ↦ (.running, b.entries, w))
    let walk := Node.newLeaf (.plain (.ofNat 2) "walk") ("walk", Leaf.patrol .unbound)
    let root := Node.newComposite (.plain (.ofNat 0) "vigil") .sequencer [watch, walk]
    let vigil : Tree Owner (String × Leaf) := ⟨root, root.ids, none, false, none⟩
    let s := (start .always ⟨⟨(World.initial, []), ⟨0⟩⟩, .empty 64⟩).obeyAll B
      [.spawn 1 vigil ⟨1, .guard ⟨1, 3, [.zero]⟩⟩, .tick ⟨1, 0.5⟩]
    let s' := s.obey B (.spawn 1 vigil ⟨0, .unit⟩)
    (s.runner.spawn B 1 vigil ⟨0, .unit⟩ s.host).1 =
        .error (.awake (.ofNat 2) "walk" (.ownerType "Guard")) ∧
      s'.runner = s.runner ∧ s'.host.fresh = s.host.fresh ∧
      (∃ asked, asked <+: root.preorder ∧
        s'.host.world.2 = s.host.world.2 ++ Node.awakings asked) ∧
      (vigil.isInstance = true →
        CloneError.awake (.ofNat 2) "walk" (.ownerType "Guard") = .notAPrototype ∧ s' = s) := by
  intro B watch walk root vigil s s'
  have h : (s.runner.spawn B 1 vigil ⟨0, .unit⟩ s.host).1 =
      .error (.awake (.ofNat 2) "walk" (.ownerType "Guard")) := rfl
  exact ⟨h, failed_spawn_changes_no_agent Leaf.behavior s 1 vigil ⟨0, .unit⟩ h⟩

/-! ### Afterwards -/

/-- The squad with an empty trace. -/
def anew (s : Squad ο σ (ω × List (HookEvent ν))) : Squad ο σ (ω × List (HookEvent ν)) :=
  { s with host := { s.host with world := (s.host.world.1, []) } }

variable {B : Behavior ο σ ω}
  {s s' : Squad ο ((UInt64 × ν) × σ) (ω × List (HookEvent (UInt64 × ν)))}

private theorem Sound.anew (h : s.Sound) : s.anew.Sound :=
  ⟨⟨⟨h.orderly.tidy.keyed, h.orderly.tidy.distinct⟩, h.orderly.signed⟩, h.ascending⟩

/-- An agent that is the same in two squads stays so when both are told the same. -/
theorem Alike.obeyEach {id : UInt64} (hB : B.Secluded) (hblind : B.Blind) (h : s.Alike id s')
    (hs : s.Sound) (hs' : s'.Sound) (orders : List (Order ο (ν × σ))) :
    (s.obeyAll B.traced (orders.map Order.signed)).Alike id
      (s'.obeyAll B.traced (orders.map Order.signed)) := by
  induction orders generalizing s s' with
  | nil => exact h
  | cons order rest ih =>
    refine ih ?_ (hs.obey hB order) (hs'.obey hB order)
    cases ho : order.concerns id with
    | true => exact h.obey hB hblind hs hs' ho
    | false => exact h.passes (passes_obey hB hs ho) (passes_obey hB hs' ho)

private theorem Sound.obeyAll (hB : B.Secluded) (h : s.Sound) (orders : List (Order ο (ν × σ))) :
    (s.obeyAll B.traced (orders.map Order.signed)).Sound := by
  induction orders generalizing s with
  | nil => exact h
  | cons order rest ih => exact ih (h.obey hB order)

private theorem Alike.sight_eq {id : UInt64} (h : s.Alike id s') : s.sight id = s'.sight id := by
  have hagent := h.agent
  rw [sight, sight]
  generalize s.runner.find? id = a, s'.runner.find? id = a' at hagent
  cases hagent with
  | none => rfl
  | some htwins => exact congrArg some htwins.sight_eq

/-- Whatever the squad is told after an agent could not be spawned, each agent goes on as if there
had been no attempt: it looks the same, and from then on its leaves have the same calls. -/
theorem failed_spawn_goes_unnoticed (hB : B.Secluded) (hblind : B.Blind) (schedule : Schedule)
    {session : Session ((UInt64 × ν) × σ) (ω × List (HookEvent (UInt64 × ν)))}
    (hsession : session.Reachable B.traced) (w : ω) (orders later : List (Order ο (ν × σ)))
    (id other : UInt64) (t : Tree ο (ν × σ)) (owner : ο) {e : CloneError} :
    let s := (start schedule { session.host with world := (w, []) }).obeyAll B.traced
      (orders.map Order.signed)
    let s' := s.obey B.traced (.spawn id (t.signed id) owner)
    let after (s : Squad ο ((UInt64 × ν) × σ) (ω × List (HookEvent (UInt64 × ν)))) :=
      s.anew.obeyAll B.traced (later.map Order.signed)
    (s.runner.spawn B.traced id (t.signed id) owner s.host).1 = .error e →
      (after s').sight other = (after s).sight other ∧
        (after s').calls other = (after s).calls other := by
  intro s s' after h
  let first : Squad ο ((UInt64 × ν) × σ) (ω × List (HookEvent (UInt64 × ν))) :=
    start schedule { session.host with world := (w, []) }
  have hstart : first.Sound := sound_start hsession.tidy schedule (w, [])
  have hsame : first.Alike other first := ⟨rfl, rfl, .none⟩
  have hs : s.Sound := hstart.obeyAll hB orders
  have hs' : s'.Sound := hs.obey hB (.spawn id t owner)
  have htwins := (hsame.obeyEach hB hblind hstart hstart orders).agent
  have hanew : s'.anew.Alike other s.anew := by
    have hrefused : s' = { s with host := ((t.signed id).instantiate B.traced owner s.host).2 } :=
      obey_spawn_of_error (Runner.instantiate_of_spawn_error h) id
    have hfresh := (t.signed id).fresh_instantiate B.traced owner s.host
    rw [hrefused]
    refine ⟨rfl, rfl, ?_⟩
    simp only [anew, hfresh]
    exact htwins
  have hlater := hanew.obeyEach hB hblind hs'.anew hs.anew later
  exact ⟨hlater.sight_eq, hlater.calls⟩

end Squad

end BehaviorTree
