import BehaviorTree.Proofs.Host.Sparing
import BehaviorTree.Proofs.Lifecycle.Order
import BehaviorTree.Proofs.Scope.Mooring

/-!
# Probes and runs of the same leaf

Below decorators alone a probe reaches the leaf that a run would reach. Both step down through the
same stored scopes, but a run steps into each of them, and a probe only into those that have entries
and were last used under the scope before. Where no scope with entries lies below an empty one, this
comes to the same: `value?_probeBoards` says so of what is visible in the end.
-/

namespace BehaviorTree

variable {ο σ ν ω : Type}

/-- The blackboard on which the child of the last of several scope decorators is probed. -/
def Memory.probeBoards (ms : List Memory) (b : Blackboard) : Blackboard :=
  ms.foldl (fun b m ↦ m.probeBoard b) b

/-- Steps into the scopes of several scope decorators, one after the other. -/
def Env.enterAll (env : Env ω) (ms : List Memory) : Env ω := ms.foldl Env.enter env

/-- Whether a run, if it runs a leaf at all, first calls a hook that sees a blackboard. -/
def Env.FirstSees (env env' : Env (ω × List (HookEvent ν))) (b : Blackboard) : Prop :=
  ∃ events, env'.world.2 = env.world.2 ++ events ∧
    (ranLeaves events ≠ [] → ∀ e ∈ events.head?, e.seen = b.contents)

namespace Env.FirstSees

variable {env env' env'' : Env (ω × List (HookEvent ν))} {b : Blackboard}

/-- Where no leaf is run there is nothing to say. -/
theorem of_quiet (h : env.Ran env' []) : env.FirstSees env' b := by
  obtain ⟨events, hlog, hran⟩ := h
  exact ⟨events, hlog, fun hne ↦ absurd (List.sublist_nil.mp hran) hne⟩

/-- A quiet part after a run. -/
theorem before (h : env.FirstSees env' b) (hq : env'.Ran env'' []) : env.FirstSees env'' b := by
  obtain ⟨events, hlog, hfirst⟩ := h
  obtain ⟨rest, hrest, hran⟩ := hq
  refine ⟨events ++ rest, by rw [hrest, hlog, List.append_assoc], fun hne ↦ ?_⟩
  rw [ranLeaves, List.filterMap_append, ← ranLeaves, ← ranLeaves, List.sublist_nil.mp hran,
    List.append_nil] at hne
  have hfirst := hfirst hne
  cases events with
  | nil => exact absurd rfl hne
  | cons e events => exact hfirst

end Env.FirstSees

namespace Node

/-- The leaf below a node, if there are decorators alone on the way to it. -/
def leafBelow? : Node σ → Option σ
  | leaf _ _ state => some state
  | composite .. => none
  | decorator _ _ _ _ none => none
  | decorator _ _ _ _ (some child) => leafBelow? child
termination_by structural n => n

/-- The memories of the scope decorators on the way to that leaf, outermost first. -/
def wayDown : Node σ → List Memory
  | leaf .. => []
  | composite .. => []
  | decorator _ _ _ _ none => []
  | decorator _ _ kind memory (some child) =>
    match kind with
    | .scoped => memory :: wayDown child
    | .invert | .succeeder | .loop _ => wayDown child
termination_by structural n => n

/-- A probe asks the leaf below the decorators. -/
theorem evaluate_of_leafBelow (B : Behavior ο σ ω) {n : Node σ} {state : σ}
    (h : n.leafBelow? = some state) (b : Blackboard) (w : ω) :
    (n.evaluate B b w).2 = (B.evaluate state (Memory.probeBoards n.wayDown b) w).2 := by
  induction n using child_induction generalizing b with
  | step n ih =>
    cases n with
    | leaf tag life s =>
      obtain rfl := Option.some.inj h
      rfl
    | composite => cases h
    | decorator tag life kind memory child =>
      cases child with
      | none => cases h
      | some child =>
        have hc := ih child (by simp [children]) h
        cases kind with
        | invert => exact hc b
        | succeeder => exact hc b
        | loop limit => exact hc b
        | «scoped» => exact hc (memory.probeBoard b)

variable {B : Behavior ο σ ω}

/-- The first call in a run of a leaf: it is started, unless it was, and run on the blackboard. -/
theorem firstSees_leaf (tag : Tag) (life : Life) (s : ν × σ)
    (env : Env (ω × List (HookEvent ν))) :
    let r := (leaf tag life s).begin B.traced env
    env.FirstSees (r.1.work B.traced (run B.traced) r.2).env env.board := by
  unfold begin
  split
  · refine ⟨[⟨s.1, .run, env.board.contents⟩], rfl, fun _ e he ↦ ?_⟩
    obtain rfl := Option.some.inj he
    rfl
  · let started := B.start s.2 env.board env.world.1
    refine ⟨[⟨s.1, .start, env.board.contents⟩,
      ⟨s.1, .run, (env.board.withEntries started.entries).contents⟩], ?_, fun _ e he ↦ ?_⟩
    · exact List.append_assoc _ [_] [_]
    · obtain rfl := Option.some.inj he
      rfl

/-- A decorator runs its child on the same blackboard or in its scope. -/
theorem firstSees_workDecorator (kind : DecoratorKind) (memory : Memory) {child : Node (ν × σ)}
    (ih : ∀ env : Env (ω × List (HookEvent ν)),
      env.FirstSees (child.run B.traced env).env (env.enterAll child.wayDown).board)
    (tag : Tag) (life : Life) (env : Env (ω × List (HookEvent ν))) :
    env.FirstSees (workDecorator B.traced (run B.traced) kind memory child env).1.env
      (env.enterAll (decorator tag life kind memory (some child)).wayDown).board := by
  cases kind with
  | invert => exact ih env
  | succeeder => exact ih env
  | «scoped» =>
    have hc := ih (env.enter memory)
    rw [Env.FirstSees, Env.world_enter] at hc
    exact hc
  | loop limit =>
    cases hm : memory.reached limit with
    | true =>
      rw [workDecorator_loop_of_reached hm]
      exact .of_quiet (.refl env)
    | false =>
      by_cases hs : (child.run B.traced env).status = .running
      · rw [workDecorator_loop_of_running hm hs]
        exact ih env
      · rw [workDecorator_loop_of_ne_running hm hs]
        exact (ih env).before (evolves_abort_hushed _ _).quiet

/-- If a run reaches the leaf below the decorators, the first call is in the scopes on the way. -/
theorem firstSees_run {n : Node (ν × σ)} (h : n.leafBelow?.isSome)
    (env : Env (ω × List (HookEvent ν))) :
    env.FirstSees (n.run B.traced env).env (env.enterAll n.wayDown).board := by
  induction n using child_induction generalizing env with
  | step n ih =>
    have hsettle := evolves_settle_hushed (B := B)
      ((n.begin B.traced env).1.work B.traced (run B.traced) (n.begin B.traced env).2)
      (by rw [started_work, started_begin])
    rw [run_eq, advance]
    refine Env.FirstSees.before ?_ hsettle.quiet
    cases n with
    | leaf tag life s => exact firstSees_leaf tag life s env
    | composite => cases h
    | decorator tag life kind memory child =>
      cases child with
      | none => cases h
      | some child =>
        have hc := ih child (by simp [children]) h
        unfold begin
        split
        · exact firstSees_workDecorator kind memory hc tag life env
        · have hwork := firstSees_workDecorator kind { memory with count := 0 } hc tag life env
          cases kind <;> exact hwork

end Node

/-! ### What is visible in the end -/

/-- Whether the scope decorators on a way down are moored. -/
def MooredDown (fresh : ScopeId) : (near far : Set ScopeId) → List Memory → Prop
  | _, _, [] => True
  | near, far, m :: rest => m.Moored fresh near far ∧ MooredDown fresh (near ∪ m.ids) near rest

/-- In a moored subtree the way down to the leaf is moored. -/
theorem Node.Moored.wayDown {n : Node σ} {fresh : ScopeId} {near far : Set ScopeId}
    (h : n.Moored fresh near far) : MooredDown fresh near far n.wayDown := by
  induction n using child_induction generalizing near far with
  | step n ih =>
    cases n with
    | leaf => trivial
    | composite => trivial
    | decorator tag life kind memory child =>
      cases child with
      | none => trivial
      | some child =>
        have hc (near far : Set ScopeId) (h : child.Moored fresh near far) :=
          ih child (by simp [children]) h
        cases kind with
        | invert => exact hc near far h
        | succeeder => exact hc near far h
        | loop limit => exact hc near far h
        | «scoped» => exact ⟨h.1, hc _ _ h.2⟩

namespace MooredDown

variable {fresh : ScopeId} {near far : Set ScopeId} {ms : List Memory}

/-- On the way down no scope was last used under one further out. -/
theorem enclosing (h : MooredDown fresh near far ms) (hs : far ⊆ near) :
    ∀ m ∈ ms, ∀ i ∈ m.enclosing, i.number < fresh.number ∧ i ∉ far := by
  induction ms generalizing near far with
  | nil => exact List.forall_mem_nil _
  | cons m rest ih =>
    refine List.forall_mem_cons.mpr ⟨h.1.enclosing, fun k hk i hi ↦ ?_⟩
    obtain ⟨hlt, hout⟩ := ih h.2 Set.subset_union_left k hk i hi
    exact ⟨hlt, fun hin ↦ hout (hs hin)⟩

private theorem vacant (h : MooredDown fresh near far ms) :
    ∀ m ∈ ms, m.enclosing = none → m.Vacant := by
  induction ms generalizing near far with
  | nil => exact List.forall_mem_nil _
  | cons m rest ih => exact List.forall_mem_cons.mpr ⟨h.1.vacant, ih h.2⟩

end MooredDown

/-- Whether no scope with entries is stored below an empty one. -/
def Unblocked (ms : List Memory) : Prop := ms.Pairwise fun outer inner ↦ outer.Vacant → inner.Vacant

namespace Memory

variable {ms : List Memory} {b : Blackboard}

/-- A probe steps into no empty scope. -/
theorem probeBoard_of_vacant {m : Memory} (h : m.Vacant) (b : Blackboard) : m.probeBoard b = b := by
  unfold probeBoard
  cases hs : m.scope with
  | none => rfl
  | some s => simp [h s hs]

/-- A probe steps into no scope that was last used under another one. -/
theorem probeBoard_of_ne {m : Memory} (h : b.id ∉ m.enclosing) : m.probeBoard b = b := by
  unfold probeBoard
  cases m.scope with
  | none => rfl
  | some s =>
    refine if_neg fun hboth ↦ h ?_
    rw [Bool.and_eq_true, beq_iff_eq] at hboth
    exact hboth.2

private theorem probeBoards_of_forall (h : ∀ m ∈ ms, m.probeBoard b = b) :
    probeBoards ms b = b := by
  induction ms with
  | nil => rfl
  | cons m rest ih =>
    obtain ⟨hm, hrest⟩ := List.forall_mem_cons.mp h
    rw [probeBoards, List.foldl_cons, hm]
    exact ih hrest

/-- Through an empty scope the same is visible as around it. -/
theorem value?_under_of_empty {s : Scope} (h : s.entries = ∅) (b : Blackboard) (key : String) :
    (Blackboard.under s b).value? key = b.value? key := by
  show s.entries[key]?.or (b.value? key) = _
  rw [h, Std.ExtTreeMap.getElem?_empty, Option.none_or]

/-- Stepping into a scope that is empty, or new, changes nothing that is visible. -/
theorem value?_enter (env : Env ω) {m : Memory} (h : ∀ s ∈ m.keptScope env.board.id, s.entries = ∅)
    (key : String) : (env.enter m).board.value? key = env.board.value? key := by
  unfold Env.enter
  cases hk : m.keptScope env.board.id with
  | none => exact value?_under_of_empty rfl env.board key
  | some s => exact value?_under_of_empty (h s hk) env.board key

/-- A memory without entries keeps none. -/
theorem Vacant.keptScope {m : Memory} (h : m.Vacant) (i : ScopeId) :
    ∀ s ∈ m.keptScope i, s.entries = ∅ := by
  unfold Memory.keptScope
  split
  · exact h
  · exact fun s hs ↦ by cases hs

private theorem keptScope_of_ne {m : Memory} {i j : ScopeId} (hi : m.enclosing = some i)
    (hne : i ≠ j) : m.keptScope j = none := by
  rw [keptScope, hi]
  simp [hne]

/-- Under another scope than the last time a run steps into a new one. -/
theorem enter_of_ne (env : Env ω) {m : Memory} {i : ScopeId} (hi : m.enclosing = some i)
    (hne : i ≠ env.board.id) :
    env.enter m =
      { env with board := .under (.empty env.fresh) env.board, fresh := env.fresh.next } := by
  rw [Env.enter, keptScope_of_ne hi hne]

private theorem value?_enterAll_of_vacant (env : Env ω) (h : ∀ m ∈ ms, m.Vacant) (key : String) :
    (env.enterAll ms).board.value? key = env.board.value? key := by
  induction ms generalizing env with
  | nil => rfl
  | cons m rest ih =>
    obtain ⟨hm, hrest⟩ := List.forall_mem_cons.mp h
    exact (ih (env.enter m) hrest).trans (value?_enter env (hm.keptScope env.board.id) key)

/-- Below an empty scope all are. -/
theorem vacant_of_unblocked {m : Memory} (h : Unblocked (m :: ms)) (hm : m.Vacant) :
    ∀ k ∈ m :: ms, k.Vacant :=
  List.forall_mem_cons.mpr ⟨hm, fun k hk ↦ (List.pairwise_cons.mp h).1 k hk hm⟩

/-- In a new scope a run finds none of the stored ones. -/
theorem value?_enterAll_of_new (env : Env ω) {bound : Nat} (hu : Unblocked ms)
    (hv : ∀ m ∈ ms, m.enclosing = none → m.Vacant)
    (he : ∀ m ∈ ms, ∀ i ∈ m.enclosing, i.number < bound) (hb : bound ≤ env.board.id.number)
    (hf : bound ≤ env.fresh.number) (key : String) :
    (env.enterAll ms).board.value? key = env.board.value? key := by
  induction ms generalizing env with
  | nil => rfl
  | cons m rest ih =>
    obtain ⟨hvm, hvrest⟩ := List.forall_mem_cons.mp hv
    obtain ⟨hem, herest⟩ := List.forall_mem_cons.mp he
    by_cases hm : m.Vacant
    · exact value?_enterAll_of_vacant env (vacant_of_unblocked hu hm) key
    · obtain ⟨i, hi⟩ := Option.ne_none_iff_exists'.mp fun hnone ↦ hm (hvm hnone)
      have hne : i ≠ env.board.id := by
        rintro rfl
        exact Nat.lt_irrefl _ ((hem _ hi).trans_le hb)
      have henter := enter_of_ne env hi hne
      refine (ih (env.enter m) (List.pairwise_cons.mp hu).2 hvrest herest ?_ ?_).trans
        (value?_enter env (by simp [keptScope_of_ne hi hne]) key)
      · rw [henter]
        exact hf
      · rw [henter]
        exact Nat.le_succ_of_le hf

/-- If no scope with entries is stored below an empty one, in the end a probe and a run see the
same. -/
theorem value?_probeBoards (env : Env ω) {fresh : ScopeId} {near far : Set ScopeId}
    (h : MooredDown fresh near far ms) (hb : env.board.id ∈ near)
    (hf : fresh.number ≤ env.fresh.number) (hu : Unblocked ms) (key : String) :
    (probeBoards ms env.board).value? key = (env.enterAll ms).board.value? key := by
  induction ms generalizing near far env with
  | nil => rfl
  | cons m rest ih =>
    by_cases hm : m.Vacant
    · have hall := vacant_of_unblocked hu hm
      rw [value?_enterAll_of_vacant env hall,
        probeBoards_of_forall fun k hk ↦ probeBoard_of_vacant (hall k hk) env.board]
    · obtain ⟨hmoored, hrest⟩ := h
      have hurest := (List.pairwise_cons.mp hu).2
      obtain ⟨i, hi⟩ := Option.ne_none_iff_exists'.mp fun hnone ↦ hm (hmoored.vacant hnone)
      obtain ⟨s, hs, hentries⟩ : ∃ s ∈ m.scope, s.entries ≠ ∅ := by
        simpa [Vacant] using hm
      rw [Option.mem_def] at hs
      by_cases heq : i = env.board.id
      · -- Both step into the stored scope.
        subst heq
        have hprobe : m.probeBoard env.board = .under s env.board := by
          simp [probeBoard, hs, hi, hentries]
        have henter : env.enter m = { env with board := .under s env.board } := by
          simp [Env.enter, keptScope, hs, hi]
        have hsame := ih (env.enter m) hrest (by rw [henter]; exact .inr ⟨s, hs, rfl⟩)
          (by rw [henter]; exact hf) hurest
        rw [probeBoards, List.foldl_cons, hprobe]
        rw [henter] at hsame
        exact hsame.trans (by rw [Env.enterAll, Env.enterAll, List.foldl_cons, henter])
      · -- A run gets a new scope, and new ones below it; a probe passes them all.
        have henclosing := hrest.enclosing Set.subset_union_left
        have hprobe : probeBoards (m :: rest) env.board = env.board := by
          refine probeBoards_of_forall
            (List.forall_mem_cons.mpr ⟨probeBoard_of_ne ?_, fun k hk ↦ ?_⟩)
          · rw [hi]
            exact fun hid ↦ heq (Option.some.inj hid)
          · exact probeBoard_of_ne fun hid ↦ (henclosing k hk _ hid).2 hb
        have henter := enter_of_ne env hi heq
        have hnew := value?_enterAll_of_new (env.enter m) hurest hrest.vacant
          (fun k hk i hi ↦ (henclosing k hk i hi).1) (by rw [henter]; exact hf)
          (by rw [henter]; exact Nat.le_succ_of_le hf) key
        rw [hprobe]
        exact (hnew.trans (value?_enter env (by simp [keptScope_of_ne hi heq]) key)).symm

end Memory

end BehaviorTree
