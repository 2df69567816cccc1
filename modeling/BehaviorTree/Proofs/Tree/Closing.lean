import BehaviorTree.Proofs.Node.Moved
import BehaviorTree.Proofs.Tree.Assembled

/-!
# What an abort closes

A steady node that is aborted while it is started aborts its started children and leaves the others
alone, however it comes upon them: a parallel node by their states, a sequencer or selector by the
index at which it resumes, a decorator by whether its child is started. So an abort goes down
exactly to what is started. It stops each started leaf once, and nothing is left for a second one.
-/

namespace BehaviorTree

variable {ο σ τ ν ω : Type}

namespace Env

variable {env env' env'' : Env (ω × List (HookEvent ν))} {names names' : List ν}

/-- Whether the given leaves were stopped meanwhile, one after the other, and no other hook of any
leaf was called. -/
def Stopped (env env' : Env (ω × List (HookEvent ν))) (names : List ν) : Prop :=
  ∃ events, env'.world.2 = env.world.2 ++ events ∧
    events.map (fun e ↦ (e.leaf, e.hook)) = names.map fun name ↦ (name, .stop)

private theorem Stopped.refl (env : Env (ω × List (HookEvent ν))) : env.Stopped env [] :=
  ⟨[], by simp, rfl⟩

private theorem Stopped.append (h : env.Stopped env' names) (h' : env'.Stopped env'' names') :
    env.Stopped env'' (names ++ names') := by
  obtain ⟨events, he, hn⟩ := h
  obtain ⟨events', he', hn'⟩ := h'
  exact ⟨events ++ events', by rw [he', he, List.append_assoc],
    by rw [List.map_append, List.map_append, hn, hn']⟩

/-- Of the surroundings only the world tells what was called. -/
theorem Stopped.congr {inner inner' : Env (ω × List (HookEvent ν))}
    (h : inner.Stopped inner' names) (hw : inner.world = env.world)
    (hw' : env'.world = inner'.world) : env.Stopped env' names := by
  rwa [Stopped, hw', ← hw]

end Env

namespace Node

/-- The states of the leaves of which an activation is open, in pre-order. -/
def openStates (n : Node σ) : List σ := leafStates (n.preorder.filter started)

/-- The names of those leaves. -/
def openNames (n : Node (ν × σ)) : List ν := n.openStates.map Prod.fst

variable {B : Behavior ο σ ω} {L : Phase → σ → Prop} {n m c : Node σ} {ns : List (Node σ)}

/-- The leaf states of open activations are that of the root, if started, and those of the children.
-/
theorem openStates_eq (n : Node σ) :
    n.openStates = leafStates ([n].filter started) ++ n.children.flatMap openStates := by
  have hall (ns : List (Node σ)) :
      leafStates ((preorders ns).filter started) = ns.flatMap openStates := by
    induction ns with
    | nil => rfl
    | cons c rest ih =>
      rw [preorders, List.filter_append, leafStates_append, ih, List.flatMap_cons, openStates]
  rw [openStates, preorder_eq, ← List.singleton_append, List.filter_append, leafStates_append, hall]

/-- The leaves with an open activation stand among the others in order. -/
theorem openStates_sublist (n : Node σ) : n.openStates.Sublist n.states :=
  List.filter_sublist.filterMap leaf?

private theorem openStates_of_not_started (h : n.AllSteady L) (hs : n.started = false) :
    n.openStates = [] := by
  have hnone : n.preorder.filter started = [] := by
    rw [List.filter_eq_nil_iff]
    intro m hm
    simp [not_started_of_resting h hs m hm]
  rw [openStates, hnone]
  rfl

/-! ### Children -/

/-- Aborts all started nodes, in order. -/
def abortAll (B : Behavior ο σ ω) : List (Node σ) → Env ω → List (Node σ) × Env ω
  | [], env => ([], env)
  | c :: rest, env =>
    let r := if c.started then c.abort B env else (c, env)
    let rs := abortAll B rest r.2
    (r.1 :: rs.1, rs.2)

private theorem abortAll_of_none (h : ∀ c ∈ ns, c.started = false) (env : Env ω) :
    abortAll B ns env = (ns, env) := by
  induction ns with
  | nil => rfl
  | cons c rest ih =>
    have hc : c.started = false := h c List.mem_cons_self
    simp [abortAll, hc, ih fun d hd ↦ h d (List.mem_cons_of_mem _ hd)]

/-- A steady node that is running is a started one. -/
theorem abort_if_started (h : c.Steady L) (env : Env ω) :
    (if c.state = .running then c.abort B env else (c, env)) =
      if c.started then c.abort B env else (c, env) :=
  if_congr h.started_iff.symm rfl rfl

private theorem stopRunning_eq_abortAll (h : ∀ c ∈ ns, c.Steady L) (env : Env ω) :
    stopRunning B ns env = abortAll B ns env := by
  induction ns generalizing env with
  | nil => rfl
  | cons c rest ih =>
    rw [stopRunning_cons, abort_if_started (h c List.mem_cons_self)]
    simp only [abortAll, ih fun d hd ↦ h d (List.mem_cons_of_mem _ hd)]

/-- Where at most one node is started, it is enough to look there. -/
theorem stopRunningAt_eq_abortAll (h : ∀ c ∈ ns, c.Steady L) {index : Nat}
    (ho : OnlyAt index ns) (env : Env ω) :
    stopRunningAt B ns index env = abortAll B ns env := by
  induction ns generalizing index with
  | nil => rfl
  | cons c rest ih =>
    cases index with
    | zero =>
      rw [stopRunningAt_zero, abort_if_started (h c List.mem_cons_self)]
      simp only [abortAll, abortAll_of_none (onlyAt_cons_zero.mp ho)]
    | succ index =>
      obtain ⟨hc, ho⟩ := onlyAt_cons_succ.mp ho
      rw [stopRunningAt_succ, ih (fun d hd ↦ h d (List.mem_cons_of_mem _ hd)) ho]
      simp [abortAll, hc]

/-- In its place each node was aborted in some surroundings, or left alone. -/
theorem getElem?_abortAll {index : Nat} (hc : ns[index]? = some c) (env : Env ω) :
    ∃ env', (abortAll B ns env).1[index]? =
      some (if c.started then (c.abort B env').1 else c) := by
  induction ns generalizing index env with
  | nil => cases hc
  | cons d rest ih =>
    cases index with
    | zero =>
      obtain rfl := Option.some.inj hc
      refine ⟨env, congrArg some ?_⟩
      split <;> rfl
    | succ index => exact ih hc _

/-! ### Nodes -/

/-- A started node that is aborted aborts its started children, in the same world. -/
theorem abort_of_steady (h : n.AllSteady L) (hs : n.started = true) (hleaf : n.leaf? = none)
    (env : Env ω) :
    ∃ inner : Env ω, inner.world = env.world ∧
      let r := abortAll B n.children inner
      (n.abort B env).1.children = r.1 ∧ (n.abort B env).2.world = r.2.world := by
  have hopen := (h.here.active hs).1
  have hsteady (c : Node σ) (hc : c ∈ n.children) : c.Steady L := (h.below hc).here
  rw [abort_of_started hs, children_withLife]
  cases n with
  | leaf => cases hleaf
  | composite tag life kind resume ns =>
    refine ⟨env, rfl, ?_⟩
    have parts {r s : List (Node σ) × Env ω} (heq : r = s) : r.1 = s.1 ∧ r.2.world = s.2.world :=
      heq ▸ ⟨rfl, rfl⟩
    cases kind with
    | sequencer => exact parts (stopRunningAt_eq_abortAll hsteady hopen env)
    | selector => exact parts (stopRunningAt_eq_abortAll hsteady hopen env)
    | parallel => exact parts (stopRunning_eq_abortAll hsteady env)
  | decorator tag life kind memory child =>
    cases child with
    | none => exact ⟨env, rfl, rfl, rfl⟩
    | some child =>
      cases kind with
      | «scoped» => exact ⟨env.enter memory, env.world_enter memory, rfl, rfl⟩
      | invert => exact ⟨env, rfl, rfl, rfl⟩
      | succeeder => exact ⟨env, rfl, rfl, rfl⟩
      | loop limit => exact ⟨env, rfl, rfl, rfl⟩

/-- An abort takes the started nodes back to the life of a node that was never run, and leaves all
others alone but the one that is aborted itself. -/
theorem at?_abort (h : n.AllSteady L) {path : List Nat} (hm : n.at? path = some m) (env : Env ω) :
    ∃ m', (n.abort B env).1.at? path = some m' ∧ (m.started = true → m'.life = .fresh) ∧
      (m.started = false → path ≠ [] → m' = m) := by
  induction path generalizing n env with
  | nil =>
    obtain rfl := Option.some.inj hm
    exact ⟨_, rfl, fun _ ↦ life_abort B n env, fun _ hne ↦ absurd rfl hne⟩
  | cons index path ih =>
    have hplace : m ∈ n.preorder := mem_preorder_of_at? hm
    obtain ⟨c, hc, hm⟩ := Option.bind_eq_some_iff.mp hm
    have hmem : c ∈ n.children := List.mem_of_getElem? hc
    cases hs : n.started with
    | false =>
      have hms : m.started = false := not_started_of_resting h hs m hplace
      refine ⟨m, ?_, fun hm' ↦ absurd hm' (by simp [hms]), fun _ _ ↦ rfl⟩
      rw [abort_of_not_started hs, at?, children_withLife, hc, Option.bind_some, hm]
    | true =>
      have hleaf : n.leaf? = none := by
        cases n with
        | leaf => cases hc
        | composite => rfl
        | decorator => rfl
      obtain ⟨inner, -, hchildren, -⟩ := abort_of_steady (B := B) h hs hleaf env
      obtain ⟨env', hc'⟩ := getElem?_abortAll (B := B) hc inner
      rw [at?, hchildren, hc', Option.bind_some]
      cases hcs : c.started with
      | false =>
        have hms : m.started = false :=
          not_started_of_resting (h.below hmem) hcs m (mem_preorder_of_at? hm)
        exact ⟨m, by simpa using hm, fun hm' ↦ absurd hm' (by simp [hms]), fun _ _ ↦ rfl⟩
      | true =>
        obtain ⟨m', hm', hfresh, hsame⟩ := ih (h.below hmem) hm env'
        refine ⟨m', hm', hfresh, fun hms _ ↦ hsame hms fun hnil ↦ ?_⟩
        subst hnil
        obtain rfl := Option.some.inj hm
        simp [hcs] at hms

/-- A second abort does nothing. -/
theorem abort_abort (n : Node σ) (env env' : Env ω) :
    (n.abort B env).1.abort B env' = ((n.abort B env).1, env') := by
  have hlife := life_abort B n env
  rw [abort_of_not_started (started_abort B n env)]
  generalize (n.abort B env).1 = m at hlife
  cases m <;> rw [← hlife] <;> rfl

/-! ### Leaves -/

private theorem openNames_of_not_leaf {n : Node (ν × σ)} (h : n.leaf? = none) :
    n.openNames = n.children.flatMap openNames := by
  have hnone : leafStates ([n].filter started) = [] := by
    rw [leafStates, List.filterMap_eq_nil_iff]
    intro m hm
    rw [List.mem_singleton.mp (List.mem_of_mem_filter hm), h]
  rw [openNames, openStates_eq, hnone, List.nil_append, List.map_flatMap]
  rfl

section

variable {L : Phase → ν × σ → Prop} {n : Node (ν × σ)} {ns : List (Node (ν × σ))}

private theorem stopped_abortAll (h : ∀ c ∈ ns, c.AllSteady L)
    (ih : ∀ c ∈ ns, ∀ env : Env (ω × List (HookEvent ν)),
      env.Stopped (c.abort B.traced env).2 c.openNames) (env : Env (ω × List (HookEvent ν))) :
    env.Stopped (abortAll B.traced ns env).2 (ns.flatMap openNames) := by
  induction ns generalizing env with
  | nil => exact .refl env
  | cons c rest rest_ih =>
    have hrest := rest_ih (fun d hd ↦ h d (List.mem_cons_of_mem _ hd))
      fun d hd ↦ ih d (List.mem_cons_of_mem _ hd)
    rw [List.flatMap_cons]
    refine Env.Stopped.append ?_ (hrest _)
    cases hs : c.started with
    | false =>
      have hnone : c.openNames = [] := by
        rw [openNames, openStates_of_not_started (h c List.mem_cons_self) hs, List.map_nil]
      rw [hnone]
      exact .refl env
    | true => exact ih c List.mem_cons_self env

/-- An abort stops each started leaf once, in pre-order, and calls no other hook. -/
theorem stopped_abort (h : n.AllSteady L) (env : Env (ω × List (HookEvent ν))) :
    env.Stopped (n.abort B.traced env).2 n.openNames := by
  induction n using child_induction generalizing env with
  | step n ih =>
    cases hs : n.started with
    | false =>
      rw [abort_of_not_started hs, openNames, openStates_of_not_started h hs]
      exact .refl env
    | true =>
      cases hleaf : n.leaf? with
      | none =>
        obtain ⟨inner, hworld, -, hworld'⟩ := abort_of_steady (B := B.traced) h hs hleaf env
        rw [openNames_of_not_leaf hleaf]
        exact (stopped_abortAll (fun c ↦ h.below) (fun c hc ↦ ih c hc (h.below hc)) inner).congr
          hworld hworld'
      | some s =>
        cases n with
        | leaf tag life state =>
          have hnames : (leaf tag life state).openNames = [state.1] := by
            simp [openNames, openStates, preorder_eq, hs, leafStates, leaf?, children, preorders]
          rw [abort_of_started hs, hnames]
          exact ⟨[⟨state.1, .stop, env.board.contents⟩], rfl, rfl⟩
        | composite => cases hleaf
        | decorator => cases hleaf

end

/-! ### Projections -/

section

variable {f : σ → τ} {L : Phase → τ → Prop}

private theorem resting_map {ready : τ → Prop} {n : Node σ} :
    (n.map f).Resting ready ↔ n.Resting fun s ↦ ready (f s) := by
  cases n with
  | leaf => rfl
  | composite => simp [Resting]
  | decorator _ _ _ _ child => cases child <;> simp [Resting]

private theorem onlyAt_map {index : Nat} {ns : List (Node σ)} :
    OnlyAt index (ns.map (map f)) ↔ OnlyAt index ns := by
  simp [OnlyAt]

private theorem open_map {ready : τ → Prop} {n : Node σ} :
    (n.map f).Open ready ↔ n.Open fun s ↦ ready (f s) := by
  cases n with
  | leaf => rfl
  | composite _ _ kind => cases kind <;> simp [Open, onlyAt_map]
  | decorator => simp [Open]

private theorem waiting_map {n : Node σ} : (n.map f).Waiting ↔ n.Waiting := by
  cases n with
  | leaf => rfl
  | composite _ _ kind => cases kind <;> simp [Waiting]
  | decorator _ _ kind _ child => cases kind <;> cases child <;> simp [Waiting]

/-- A subtree is as steady as its projection. -/
theorem allSteady_map {n : Node σ} :
    (n.map f).AllSteady L ↔ n.AllSteady fun p s ↦ L p (f s) := by
  have hsteady (m : Node σ) : (m.map f).Steady L ↔ m.Steady fun p s ↦ L p (f s) := by
    constructor
    · intro h
      exact ⟨by simpa using h.started_iff, by simpa [open_map, waiting_map] using h.active,
        by simpa [resting_map] using h.resting⟩
    · intro h
      exact ⟨by simpa using h.started_iff, by simpa [open_map, waiting_map] using h.active,
        by simpa [resting_map] using h.resting⟩
  rw [AllSteady, Everywhere, map, preorder_recast, List.forall_mem_map]
  exact forall₂_congr fun m _ ↦ hsteady m

end

end Node

namespace Tree

open Node

variable {B : Behavior ο σ ω}

/-- Whatever was asked of a tree that was assembled from unused nodes, it is steady. -/
theorem Assembled.allSteady {t : Tree ο σ} (h : t.Assembled B) :
    t.root.AllSteady fun _ _ ↦ True := by
  induction h with
  | prototype hu h =>
    obtain ⟨rfl, -⟩ := eq_of_prototype h
    exact allSteady_of_allUnused hu fun _ _ _ _ ↦ trivial
  | @instantiated t x owner host host' ht h ih =>
    exact allSteady_of_allUnused (allUnused_of_made (congrArg Prod.fst h)) fun _ _ _ _ ↦ trivial
  | served ht request env ih => exact (serve_steady B.respects_true ih request env).1

/-- A tree that was assembled from unused nodes, in whatever state, is stopped. That calls no hook
but a stop of each leaf that is started, once and in pre-order. No node is started afterwards; each
that was is as if it was never run, and the others are left alone, but for the life of the root. A
further stop does nothing at all, and one of a tree that is not started only makes the root forget
its state. Tracing the hooks changes nothing else. -/
theorem stop_closes {t : Tree ο σ} (ht : t.Assembled B) (env : Env ω) :
    let x := t.sited
    let r := x.stop B.traced (env.map fun w ↦ (w, []))
    (r.1.map Prod.snd, r.2.map Prod.fst) = t.stop B env ∧
      (r.2.world.2.map fun e ↦ (e.leaf, e.hook)) = x.root.openNames.map (fun site ↦ (site, .stop)) ∧
      (x.root.openNames.map Site.id).Nodup ∧
      (∀ m ∈ r.1.root.preorder, m.started = false) ∧
      (∀ path m, x.root.at? path = some m → ∃ m', r.1.root.at? path = some m' ∧
        (m.started = true → m'.life = .fresh) ∧ (m.started = false → path ≠ [] → m' = m)) ∧
      (∀ env', r.1.stop B.traced env' = (r.1, env')) ∧
      (x.root.started = false →
        ∀ env', x.stop B.traced env' = ({ x with root := x.root.withLife .fresh }, env')) := by
  intro x r
  have hback : x.root.map Prod.snd = t.root := Node.map_snd_sited [] t.root
  have hsteady : x.root.AllSteady fun _ _ ↦ True := by
    have hroot := ht.allSteady
    rw [← hback] at hroot
    exact allSteady_map.mp hroot
  have hquiet : r.1.root.started = false := started_abort _ _ _
  refine ⟨?_, ?_, ?_, ?_, fun path m hm ↦ at?_abort hsteady hm _, fun env' ↦ ?_, fun hs env' ↦ ?_⟩
  · have hmap := serve_map B.projects_traced x .stop (env.map fun w ↦ (w, []))
    have hx : x.map Prod.snd = t := t.map_snd_sited
    rw [hx] at hmap
    exact Prod.ext (congrArg Served.tree hmap.symm) (congrArg Served.env hmap.symm)
  · obtain ⟨events, hevents, hnames⟩ := stopped_abort (B := B) hsteady (env.map fun w ↦ (w, []))
    obtain rfl : r.2.world.2 = events := hevents
    exact hnames
  · obtain ⟨hregistry, hnodup⟩ := ht.registry
    have hsites : (x.root.openNames.map Site.id).Sublist x.root.siteIds := by
      rw [openNames, List.map_map]
      exact (openStates_sublist x.root).map _
    rw [hregistry] at hnodup
    exact (hsites.trans (t.root.siteIds_sited_sublist [])).nodup hnodup
  · exact not_started_of_resting (abort_steady B.traced.respects_true _ hsteady) hquiet
  · exact congrArg (fun a ↦ ({ r.1 with root := a.1 }, a.2)) (abort_abort x.root _ env')
  · rw [stop, abort_of_not_started hs]

/-- The guard, stopped after its first tick. -/
theorem stop_closes_guard :
    let made : Tree Owner Leaf := ⟨Guard.root 1 0.5, (Guard.root 1 0.5).ids, none, false, none⟩
    let env : Env World := ⟨⟨.initial, ⟨2⟩⟩, (Scope.empty ⟨0⟩).alone⟩
    let t := (made.serve Leaf.behavior (.tickWith ⟨0, 0.1⟩) env).tree
    let x := t.sited
    let r := x.stop Leaf.behavior.traced (env.map fun w ↦ (w, []))
    t.Assembled Leaf.behavior ∧
      (r.1.map Prod.snd, r.2.map Prod.fst) = t.stop Leaf.behavior env ∧
      (r.2.world.2.map fun e ↦ (e.leaf, e.hook)) =
        x.root.openNames.map (fun site ↦ (site, .stop)) ∧
      (x.root.openNames.map Site.id).Nodup ∧ ∀ m ∈ r.1.root.preorder, m.started = false := by
  intro made env t x r
  have hmade : made.Assembled Leaf.behavior :=
    .prototype (Guard.allUnused_root 1 0.5) (Guard.prototype_eq 0.5)
  have ht : t.Assembled Leaf.behavior := hmade.served (.tickWith ⟨0, 0.1⟩) env
  obtain ⟨hsame, hstops, honce, hquiet, -⟩ := stop_closes ht env
  exact ⟨ht, hsame, hstops, honce, hquiet⟩

end Tree

end BehaviorTree
