import BehaviorTree.Proofs.Host.Trace
import BehaviorTree.Proofs.Node.Leaves
import BehaviorTree.Proofs.Tree.Calls
import BehaviorTree.Proofs.Tree.Copy

/-!
# Keys that leaves leave alone

Where no leaf of a subtree changes a key locally and no stored scope holds it, the key looks the
same throughout a run: a hook, in scopes however deep, sees the value that was visible when the run
began. `law_spared` says so of each step of the engine, and `spared_serve` of a request to a tree.
-/

namespace BehaviorTree

variable {ο σ ν ω : Type}

/-- The visible value of a key when a hook was called: from the nearest scope that had one. -/
def HookEvent.value? (e : HookEvent ν) (key : String) : Option Value := e.seen.findSome? (·[key]?)

/-- What is visible on a blackboard can be told from what is in its scopes. -/
theorem Blackboard.findSome?_contents (b : Blackboard) (key : String) :
    b.contents.findSome? (·[key]?) = b.value? key := by
  rw [contents, value?]
  induction b.scopes with
  | nil => rfl
  | cons s rest ih =>
    rw [List.map_cons, List.findSome?_cons, nearest?, ih]
    cases s.entries[key]? <;> rfl

/-- Hooks that leave the local entries of some keys alone when they are called on a quiet leaf, and
leave it quiet. -/
structure Behavior.Spares (B : Behavior ο σ ω) (quiet : σ → Prop) (keys : List String) : Prop where
  awake : ∀ owner s w s', quiet s → (B.awake owner s w).1 = .ok s' → quiet s'
  start : ∀ s b w, quiet s →
    quiet (B.start s b w).state ∧ ∀ key ∈ keys, (B.start s b w).entries[key]? = b.entries[key]?
  run : ∀ s b w, quiet s →
    quiet (B.run s b w).2.state ∧ ∀ key ∈ keys, (B.run s b w).2.entries[key]? = b.entries[key]?
  stop : ∀ s b w, quiet s →
    quiet (B.stop s b w).state ∧ ∀ key ∈ keys, (B.stop s b w).entries[key]? = b.entries[key]?

/-- All hooks spare no keys. -/
theorem Behavior.spares_nil (B : Behavior ο σ ω) : B.Spares (fun _ ↦ True) [] where
  awake _ _ _ _ _ _ := trivial
  start _ _ _ _ := ⟨trivial, List.forall_mem_nil _⟩
  run _ _ _ _ := ⟨trivial, List.forall_mem_nil _⟩
  stop _ _ _ _ := ⟨trivial, List.forall_mem_nil _⟩

/-- A quiet leaf with a name that one looks for. -/
def Named (mine : ν → Prop) (quiet : σ → Prop) (s : ν × σ) : Prop := mine s.1 ∧ quiet s.2

/-- Tracing changes neither the names nor what hooks do to the local entries. -/
theorem Behavior.Spares.traced {B : Behavior ο σ ω} {quiet : σ → Prop} {keys : List String}
    (h : B.Spares quiet keys) (mine : ν → Prop) :
    (B.traced : Behavior ο (ν × σ) _).Spares (Named mine quiet) keys where
  awake owner s w s' hs hok := by
    simp only [Behavior.traced] at hok
    cases ha : (B.awake owner s.2 w.1).1 with
    | error e =>
      rw [ha] at hok
      cases hok
    | ok state =>
      rw [ha] at hok
      cases hok
      exact ⟨hs.1, h.awake owner s.2 w.1 state hs.2 ha⟩
  start s b w hs := ⟨⟨hs.1, (h.start s.2 b w.1 hs.2).1⟩, (h.start s.2 b w.1 hs.2).2⟩
  run s b w hs := ⟨⟨hs.1, (h.run s.2 b w.1 hs.2).1⟩, (h.run s.2 b w.1 hs.2).2⟩
  stop s b w hs := ⟨⟨hs.1, (h.stop s.2 b w.1 hs.2).1⟩, (h.stop s.2 b w.1 hs.2).2⟩

/-- Whether a node is no leaf but a quiet one, and stores no value of some keys. -/
def Node.Spares (quiet : σ → Prop) (keys : List String) : Node σ → Prop
  | leaf _ _ s => quiet s
  | composite .. => True
  | decorator _ _ _ memory _ => ∀ s ∈ memory.scope, ∀ key ∈ keys, s.entries[key]? = none

/-- Whether surroundings became others in a way that left some keys alone: the blackboard has the
same values of them, and in the trace there are new calls of certain leaves only, each of which saw
these values. -/
structure Spared (mine : ν → Prop) (keys : List String) (env env' : Env (ω × List (HookEvent ν))) :
    Prop where
  enclosing : env'.board.enclosing = env.board.enclosing
  entries : ∀ key ∈ keys, env'.board.entries[key]? = env.board.entries[key]?
  noted : ∃ events, env'.world.2 = env.world.2 ++ events ∧
    ∀ e ∈ events, mine e.leaf ∧ ∀ key ∈ keys, e.value? key = env.board.value? key

namespace Spared

variable {mine : ν → Prop} {keys : List String} {env env' env'' : Env (ω × List (HookEvent ν))}

private theorem value? (h : Spared mine keys env env') {key : String} (hk : key ∈ keys) :
    env'.board.value? key = env.board.value? key := by
  rw [Blackboard.value?_eq_or, Blackboard.value?_eq_or, h.enclosing]
  exact congrArg (Option.or · _) (h.entries key hk)

private theorem refl (env : Env (ω × List (HookEvent ν))) : Spared mine keys env env :=
  ⟨rfl, fun _ _ ↦ rfl, [], (List.append_nil _).symm, List.forall_mem_nil _⟩

private theorem trans (h : Spared mine keys env env') (h' : Spared mine keys env' env'') :
    Spared mine keys env env'' := by
  obtain ⟨events, hlog, hevents⟩ := h.noted
  obtain ⟨events', hlog', hevents'⟩ := h'.noted
  refine ⟨h'.enclosing.trans h.enclosing,
    fun key hk ↦ (h'.entries key hk).trans (h.entries key hk), events ++ events', ?_, ?_⟩
  · rw [hlog', hlog, List.append_assoc]
  · intro e he
    rcases List.mem_append.mp he with he | he
    · exact hevents e he
    · obtain ⟨hmine, hseen⟩ := hevents' e he
      exact ⟨hmine, fun key hk ↦ (hseen key hk).trans (h.value? hk)⟩

/-- A hook is noted with what it sees. -/
theorem noted_hook {name : ν} (hn : mine name) (hook : Hook) {e : Effect σ ω}
    (he : ∀ key ∈ keys, e.entries[key]? = env.board.entries[key]?) :
    Spared mine keys env (env.after (e.noted env.world.2 ⟨name, hook, env.board.contents⟩)) := by
  refine ⟨rfl, he, _, rfl, fun event hevent ↦ ?_⟩
  obtain rfl := List.mem_singleton.mp hevent
  exact ⟨hn, fun key _ ↦ env.board.findSome?_contents key⟩

/-- What happens in a scope that holds none of the keys happens around it as well. -/
theorem leave {outer inner : Env (ω × List (HookEvent ν))} {s : Scope} {fresh : ScopeId}
    (hs : ∀ key ∈ keys, s.entries[key]? = none)
    (h : Spared mine keys ⟨⟨outer.world, fresh⟩, .under s outer.board⟩ inner) :
    Spared mine keys outer (outer.leave inner) ∧
      ∀ key ∈ keys, inner.board.entries[key]? = none := by
  obtain ⟨events, hlog, hevents⟩ := h.noted
  refine ⟨⟨rfl, fun _ _ ↦ rfl, events, hlog, fun e he ↦ ?_⟩, fun key hk ↦ ?_⟩
  · obtain ⟨hmine, hseen⟩ := hevents e he
    refine ⟨hmine, fun key hk ↦ (hseen key hk).trans ?_⟩
    show s.entries[key]?.or (outer.board.value? key) = _
    rw [hs key hk, Option.none_or]
  · exact (h.entries key hk).trans (hs key hk)

end Spared

namespace Node

variable {B : Behavior ο σ ω} {quiet : σ → Prop} {keys : List String}

private theorem spares_withLife {n : Node σ} (h : n.Everywhere (Spares quiet keys)) (life : Life) :
    (n.withLife life).Everywhere (Spares quiet keys) := by
  obtain ⟨hn, hc⟩ := everywhere_iff.mp h
  refine everywhere_iff.mpr ⟨?_, by rwa [children_withLife]⟩
  cases n <;> exact hn

/-- A node that was never run spares all keys if its leaves do. -/
theorem spares_of_unused {n : Node σ} (h : n.AllUnused) (hq : ∀ s ∈ n.states, quiet s) :
    n.Everywhere (Spares quiet keys) := by
  intro m hm
  have hunused := h m hm
  cases m with
  | leaf tag life s => exact hq s (List.mem_filterMap.mpr ⟨_, hm, rfl⟩)
  | composite => trivial
  | decorator tag life kind memory child =>
    intro s hs key _
    rw [hunused.2.2.2 s hs]
    simp

variable {mine : ν → Prop}

/-- A probe notes calls that see what is visible where it begins. -/
theorem noted_evaluate {n : Node (ν × σ)} (h : n.Everywhere (Spares (Named mine quiet) keys))
    (b : Blackboard) (w : ω × List (HookEvent ν)) :
    ∃ events, (n.evaluate B.traced b w).2.2 = w.2 ++ events ∧
      ∀ e ∈ events, mine e.leaf ∧ ∀ key ∈ keys, e.value? key = b.value? key := by
  induction n using child_induction generalizing b with
  | step n ih =>
    cases n with
    | leaf tag life s =>
      refine ⟨_, rfl, fun e he ↦ ?_⟩
      obtain rfl := List.mem_singleton.mp he
      exact ⟨h.here.1, fun key _ ↦ b.findSome?_contents key⟩
    | composite => exact ⟨[], (List.append_nil _).symm, List.forall_mem_nil _⟩
    | decorator tag life kind memory child =>
      cases child with
      | none => exact ⟨[], (List.append_nil _).symm, List.forall_mem_nil _⟩
      | some child =>
        have hmem : child ∈ (decorator tag life kind memory (some child)).children := by
          simp [children]
        have hc (b : Blackboard) := ih child hmem (h.below hmem) b
        cases kind with
        | invert => exact hc b
        | succeeder => exact hc b
        | loop limit => exact hc b
        | «scoped» =>
          obtain ⟨events, hlog, hevents⟩ := hc (memory.probeBoard b)
          have hboard : ∀ key ∈ keys, (memory.probeBoard b).value? key = b.value? key := by
            intro key hk
            unfold Memory.probeBoard
            cases hs : memory.scope with
            | none => rfl
            | some s =>
              simp only
              split
              · show s.entries[key]?.or (b.value? key) = _
                rw [h.here s hs key hk, Option.none_or]
              · rfl
          refine ⟨events, hlog, fun e he ↦ ?_⟩
          obtain ⟨hmine, hseen⟩ := hevents e he
          exact ⟨hmine, fun key hk ↦ (hseen key hk).trans (hboard key hk)⟩

/-- The scope that a memory keeps, or a new one, holds none of the keys. -/
theorem enter_spares {memory : Memory}
    (h : ∀ s ∈ memory.scope, ∀ key ∈ keys, s.entries[key]? = none) (env : Env ω) :
    ∃ s fresh, env.enter memory = ⟨⟨env.world, fresh⟩, .under s env.board⟩ ∧
      ∀ key ∈ keys, s.entries[key]? = none := by
  unfold Env.enter
  cases hs : memory.keptScope env.board.id with
  | none => exact ⟨_, _, rfl, fun key _ ↦ by simp [Scope.empty]⟩
  | some s =>
    refine ⟨s, _, rfl, h s ?_⟩
    unfold Memory.keptScope at hs
    split at hs
    · exact hs
    · cases hs

/-- Whatever the engine does with a subtree that spares some keys, it still spares them, and they
are left alone. -/
theorem law_spared (hB : B.Spares quiet keys) (mine : ν → Prop) :
    Law (B.traced : Behavior ο (ν × σ) _) (fun _ env ↦ env) (fun (k : Unit) _ ↦ k)
      fun _ n env n' env' ↦ n.Everywhere (Spares (Named mine quiet) keys) →
        n'.Everywhere (Spares (Named mine quiet) keys) ∧ Spared mine keys env env' where
  refl _ n env h := ⟨h, .refl env⟩
  trans hnm hmk hn := by
    obtain ⟨hm, hspared⟩ := hnm hn
    obtain ⟨hk, hspared'⟩ := hmk hm
    exact ⟨hk, hspared.trans hspared'⟩
  probe _ n m hm env hn :=
    ⟨hn, rfl, fun _ _ ↦ rfl, noted_evaluate (hn.below hm) env.board env.world⟩
  begin _ n env hn := by
    unfold begin
    split
    · exact ⟨hn, .refl env⟩
    · cases n with
      | leaf tag life s =>
        obtain ⟨hmine, hquiet⟩ := hn.here
        obtain ⟨hquiet', hkeys⟩ := hB.start s.2 env.board env.world.1 hquiet
        exact ⟨everywhere_iff.mpr ⟨⟨hmine, hquiet'⟩, List.forall_mem_nil _⟩,
          .noted_hook hmine .start hkeys⟩
      | composite => exact ⟨everywhere_iff.mpr ⟨trivial, (everywhere_iff.mp hn).2⟩, .refl env⟩
      | decorator =>
        exact ⟨everywhere_iff.mpr ⟨hn.here, (everywhere_iff.mp hn).2⟩, .refl env⟩
  life _ n env life _ hn := ⟨spares_withLife hn life, .refl env⟩
  run _ tag life s env hn := by
    obtain ⟨hmine, hquiet⟩ := hn.here
    obtain ⟨hquiet', hkeys⟩ := hB.run s.2 env.board env.world.1 hquiet
    exact ⟨everywhere_iff.mpr ⟨⟨hmine, hquiet'⟩, List.forall_mem_nil _⟩,
      .noted_hook hmine .run hkeys⟩
  stop _ tag life life' s env hn := by
    obtain ⟨hmine, hquiet⟩ := hn.here
    obtain ⟨hquiet', hkeys⟩ := hB.stop s.2 env.board env.world.1 hquiet
    exact ⟨everywhere_iff.mpr ⟨⟨hmine, hquiet'⟩, List.forall_mem_nil _⟩,
      .noted_hook hmine .stop hkeys⟩
  composite _ tag life life' kind i j children env hn :=
    ⟨everywhere_iff.mpr ⟨trivial, (everywhere_iff.mp hn).2⟩, .refl env⟩
  child tag life kind i front back c c' env env' h hn := by
    obtain ⟨-, hchildren⟩ := everywhere_iff.mp hn
    simp only [children, List.forall_mem_append, List.forall_mem_cons] at hchildren
    obtain ⟨hfront, hc, hback⟩ := hchildren
    obtain ⟨hc', hspared⟩ := h hc
    refine ⟨everywhere_iff.mpr ⟨trivial, ?_⟩, hspared⟩
    simp only [children, List.forall_mem_append, List.forall_mem_cons]
    exact ⟨hfront, hc', hback⟩
  childless _ tag life life' kind memory env hn :=
    ⟨everywhere_iff.mpr ⟨hn.here, List.forall_mem_nil _⟩, .refl env⟩
  only tag life life' kind _ memory count c c' env env' h hn := by
    obtain ⟨hmemory, hchildren⟩ := everywhere_iff.mp hn
    obtain ⟨hc', hspared⟩ := h (hchildren c (by simp [children]))
    exact ⟨everywhere_iff.mpr ⟨hmemory, by simpa [children] using hc'⟩, hspared⟩
  inScope {_ tag life} memory c c' env inner h _ hn := by
    obtain ⟨hmemory, hchildren⟩ := everywhere_iff.mp hn
    obtain ⟨s, fresh, henter, hs⟩ := enter_spares hmemory env
    obtain ⟨hc', hinner⟩ := h (hchildren c (by simp [children]))
    obtain ⟨hspared, hkept⟩ := Spared.leave hs (henter ▸ hinner)
    refine ⟨everywhere_iff.mpr ⟨?_, by simpa [children] using hc'⟩, hspared⟩
    rintro _ ⟨⟩
    exact hkept
  endScope {_ tag life life'} memory c c' env inner h _ _ hn := by
    obtain ⟨hmemory, hchildren⟩ := everywhere_iff.mp hn
    obtain ⟨s, fresh, henter, hs⟩ := enter_spares hmemory env
    obtain ⟨hc', hinner⟩ := h (hchildren c (by simp [children]))
    obtain ⟨hspared, -⟩ := Spared.leave hs (henter ▸ hinner)
    refine ⟨everywhere_iff.mpr ⟨?_, by simpa [children] using hc'⟩, hspared⟩
    rintro _ ⟨⟩ key -
    simp [Scope.cleared]

end Node

/-! ### Instances -/

namespace Node

variable {B : Behavior ο σ ω} {owner : ο} {P : σ → Prop}
  (hP : ∀ s w s', P s → (B.awake owner s w).1 = .ok s' → P s')

private theorem mem_states_withChildren {n : Node σ} {cs : List (Node σ)} {s : σ}
    (h : s ∈ (n.withChildren cs).states) : n.leaf? = some s ∨ ∃ c ∈ cs, s ∈ c.states := by
  cases n with
  | leaf => exact .inl (congrArg some (List.mem_singleton.mp h).symm)
  | composite => exact .inr (by simpa [withChildren] using h)
  | decorator =>
    rw [withChildren, states_decorator, List.mem_flatMap] at h
    obtain ⟨c, hc, hs⟩ := h
    exact .inr ⟨c, List.mem_of_head? (Option.mem_toList.mp hc), hs⟩

/-- A shell of a node that is no leaf is no leaf. -/
theorem ShellOf.leaf?_eq_none {n model : Node σ} (h : n.ShellOf model) (hm : model.leaf? = none) :
    n.leaf? = none := by
  have hframe := h.frame
  cases n with
  | leaf =>
    cases model with
    | leaf => cases hm
    | composite => simp [Node.frame, shell] at hframe
    | decorator => simp [Node.frame, shell] at hframe
  | composite => rfl
  | decorator => rfl

include hP

/-- What is bound to an owner has a property of the model's state that binding keeps. -/
theorem holds_acquireAwake {model n : Node σ} (hm : ∀ s ∈ model.leaf?, P s) {p q : Pool σ}
    {w w' : ω} (h : model.acquireAwake B owner p w = (.ok n, q, w')) : ∀ s ∈ n.leaf?, P s := by
  have hs := p.supplied_acquire model
  unfold acquireAwake at h
  generalize p.acquire model = x at hs h
  obtain ⟨r, p'⟩ := x
  cases r with
  | error e => cases h
  | ok m =>
    have hshell := hs.shell m rfl
    cases model with
    | leaf tag life state =>
      obtain rfl := hshell.leaf_eq
      simp only [awake] at h
      cases ha : B.awake owner state w with
      | mk r v =>
        rw [ha] at h
        cases r with
        | error e => cases h
        | ok state' =>
          cases h
          rintro _ ⟨⟩
          exact hP state w state' (hm state rfl) (by rw [ha])
    | composite =>
      simp only [hshell.awake_eq rfl] at h
      cases h
      simp [hshell.leaf?_eq_none rfl]
    | decorator =>
      simp only [hshell.awake_eq rfl] at h
      cases h
      simp [hshell.leaf?_eq_none rfl]

omit hP in
private theorem holds_copies {ns : List (Node σ)}
    (ih : ∀ n ∈ ns, (∀ s ∈ n.states, P s) → ∀ {c : Node σ} {p q : Pool σ} {w w' : ω},
      n.copy B owner p w = (.ok c, q, w') → ∀ s ∈ c.states, P s)
    (hns : ∀ n ∈ ns, ∀ s ∈ n.states, P s) (p : Pool σ) (w : ω) :
    ∀ c ∈ (copies B owner ns p w).children, ∀ s ∈ c.states, P s := by
  induction ns generalizing p w with
  | nil => exact List.forall_mem_nil _
  | cons n rest rest_ih =>
    simp only [copies]
    cases hn : n.copy B owner p w with
    | mk r x =>
      obtain ⟨q, v⟩ := x
      cases r with
      | error e => exact List.forall_mem_nil _
      | ok c =>
        refine List.forall_mem_cons.mpr ⟨ih n List.mem_cons_self (hns n List.mem_cons_self) hn, ?_⟩
        exact rest_ih (fun k hk ↦ ih k (List.mem_cons_of_mem _ hk))
          (fun k hk ↦ hns k (List.mem_cons_of_mem _ hk)) q v

/-- The leaves of a copy have a property of the model's leaves that binding keeps. -/
theorem holds_copy {n c : Node σ} (hn : ∀ s ∈ n.states, P s) {p q : Pool σ} {w w' : ω}
    (h : n.copy B owner p w = (.ok c, q, w')) : ∀ s ∈ c.states, P s := by
  induction n using child_induction generalizing c p q w w' with
  | step n ih =>
    have hleaf : ∀ s ∈ n.leaf?, P s := by
      intro s hs
      exact hn s (by rw [states_eq, hs]; simp)
    have hchildren : ∀ k ∈ n.children, ∀ s ∈ k.states, P s := by
      intro k hk s hs
      refine hn s ?_
      rw [states_eq]
      exact List.mem_append_right _ (List.mem_flatMap.mpr ⟨k, hk, hs⟩)
    rw [copy_eq, copyWith] at h
    cases ha : n.acquireAwake B owner p w with
    | mk r x =>
      obtain ⟨q', v⟩ := x
      rw [ha] at h
      cases r with
      | error e => cases h
      | ok m =>
        simp only [adopt] at h
        split at h
        · cases h
          intro s hs
          rcases mem_states_withChildren hs with hs | ⟨k, hk, hs⟩
          · exact holds_acquireAwake hP hleaf ha s hs
          · exact holds_copies (fun k hk hs _ _ _ _ _ hc ↦ ih k hk hs hc) hchildren q' v k hk s hs
        · cases h

end Node

/-- An instance of a tree whose leaves are quiet spares the keys that quiet leaves do. -/
theorem Tree.spares_instantiate {B : Behavior ο σ ω} {quiet : σ → Prop} {keys : List String}
    (hB : B.Spares quiet keys) {t x : Tree ο σ} (ht : ∀ s ∈ t.root.states, quiet s) {owner : ο}
    {host : Host σ ω} (h : (t.instantiate B owner host).1 = .ok x) :
    x.root.Everywhere (Node.Spares quiet keys) := by
  refine Node.spares_of_unused (allUnused_of_made h) ?_
  unfold instantiate at h
  split at h
  · cases h
  · cases hc : t.root.copy B owner host.pool host.world with
    | mk r y =>
      rw [hc] at h
      cases r with
      | error e => cases h
      | ok c =>
        cases h
        exact Node.holds_copy (hB.awake owner) ht hc

/-- What is asked of a tree that spares some keys leaves them alone, as they are on the blackboard
where the clock, if there is one, was published. -/
theorem Tree.spared_serve {B : Behavior ο σ ω} {quiet : σ → Prop} {keys : List String}
    {mine : ν → Prop} (hB : B.Spares quiet keys) {t : Tree ο (ν × σ)}
    (ht : t.root.Everywhere (Node.Spares (Named mine quiet) keys)) (request : Request)
    (env : Env (ω × List (HookEvent ν))) :
    let r := t.serve B.traced request env
    let board := match request with
      | .tickWith clock => clock.publish env.board
      | _ => env.board
    r.tree.root.Everywhere (Node.Spares (Named mine quiet) keys) ∧
      Spared mine keys { env with board } r.env := by
  have hlaw := Node.law_spared (ο := ο) hB mine
  cases request with
  | tick => exact hlaw.runs (Node.run_eq B.traced) t.root () env ht
  | tickWith clock =>
    exact hlaw.runs (Node.run_eq B.traced) t.root ()
      { env with board := clock.publish env.board } ht
  | stop => exact hlaw.abort (k := ()) t.root env ht

end BehaviorTree
