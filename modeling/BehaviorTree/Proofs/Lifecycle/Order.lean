import BehaviorTree.Proofs.Host.Trace
import BehaviorTree.Proofs.Node.Leaves
import Mathlib.Data.List.Flatten

/-!
# The order of runs

In one run of a node its leaves are run in the order in which they stand below it, and each at most
once. What goes back over the children, aborts and probes, runs nothing: it is what hooks that
never run would do as well (`hushed`), so that the small steps of the engine tell what it does.
-/

namespace BehaviorTree

variable {ο σ ν ω : Type}

/-- The leaf that was run, if the call is one of a run. -/
def HookEvent.ran? (event : HookEvent ν) : Option ν :=
  if event.hook = .run then some event.leaf else none

/-- The leaves that were run, in order. -/
def ranLeaves (trace : List (HookEvent ν)) : List ν := trace.filterMap HookEvent.ran?

/-- The hooks with a run that does nothing. -/
def Behavior.hushed (B : Behavior ο σ ω) : Behavior ο σ ω :=
  { B with run := fun s b w ↦ (.running, ⟨s, b.entries, w⟩) }

namespace Env

variable {env env' env'' : Env (ω × List (HookEvent ν))} {names names' : List ν}

/-- Whether the leaves that were run meanwhile are some of the given ones, in their order. -/
def Ran (env env' : Env (ω × List (HookEvent ν))) (names : List ν) : Prop :=
  ∃ events, env'.world.2 = env.world.2 ++ events ∧ (ranLeaves events).Sublist names

/-- Where nothing happens, no leaf is run. -/
theorem Ran.refl (env : Env (ω × List (HookEvent ν))) : env.Ran env [] :=
  ⟨[], by simp, List.nil_sublist _⟩

/-- One part of a run after another. -/
theorem Ran.append (h : env.Ran env' names) (h' : env'.Ran env'' names') :
    env.Ran env'' (names ++ names') := by
  obtain ⟨events, he, hs⟩ := h
  obtain ⟨events', he', hs'⟩ := h'
  refine ⟨events ++ events', by rw [he', he, List.append_assoc], ?_⟩
  rw [ranLeaves, List.filterMap_append]
  exact hs.append hs'

/-- Leaves that were run as some of the given ones were run as some of more. -/
theorem Ran.mono (h : env.Ran env' names) (hn : names.Sublist names') : env.Ran env' names' := by
  obtain ⟨events, he, hs⟩ := h
  exact ⟨events, he, hs.trans hn⟩

/-- A quiet part before a run. -/
theorem Ran.after (h : env'.Ran env'' names) (hq : env.Ran env' []) : env.Ran env'' names :=
  hq.append h

/-- A quiet part after a run. -/
theorem Ran.before (h : env.Ran env' names) (hq : env'.Ran env'' []) : env.Ran env'' names := by
  simpa using h.append hq

end Env

/-- Hooks never change the name of a leaf. -/
theorem Behavior.keeps_name_hushed (B : Behavior ο σ ω) :
    (B.traced.hushed : Behavior ο (ν × σ) _).Keeps Prod.fst where
  start _ _ _ := rfl
  run _ _ _ := rfl
  stop _ _ _ := rfl

namespace Node

/-- The names of the leaves of a subtree. -/
def names (n : Node (ν × σ)) : List ν := n.states.map Prod.fst

/-- The names of the leaves of several subtrees. -/
def namesAll (ns : List (Node (ν × σ))) : List ν := ns.flatMap names

private theorem names_composite (tag : Tag) (life : Life) (kind : CompositeKind) (resume : Nat)
    (children : List (Node (ν × σ))) :
    (composite tag life kind resume children).names = namesAll children := by
  rw [names, states_composite, List.map_flatMap]
  rfl

private theorem names_decorator (tag : Tag) (life : Life) (kind : DecoratorKind) (memory : Memory)
    (child : Node (ν × σ)) :
    (decorator tag life kind memory (some child)).names = child.names := by
  simp [names]

variable {B : Behavior ο σ ω} {n n' : Node (ν × σ)} {ns ns' : List (Node (ν × σ))}
  {env env' : Env (ω × List (HookEvent ν))}

private theorem Evolves.names_eq (h : n.Evolves B.traced.hushed env n' env') : n'.names = n.names :=
  h.states_eq B.keeps_name_hushed

private theorem EvolvesAll.namesAll_eq (h : EvolvesAll B.traced.hushed ns env ns' env') :
    namesAll ns' = namesAll ns := by
  have hc := (h.composite (.plain (.ofNat 0) "") .fresh .sequencer 0).names_eq
  rwa [names_composite, names_composite] at hc

/-! ### What runs nothing -/

/-- Steps of hooks that never run leave no run in the trace. -/
theorem Evolves.quiet (h : n.Evolves B.traced.hushed env n' env') : env.Ran env' [] := by
  induction h with
  | probe n s b env => exact ⟨[⟨s.1, .evaluate, b.contents⟩], rfl, List.Sublist.refl _⟩
  | trans h h' ih ih' => exact ih'.after ih
  | start tag life s env => exact ⟨[⟨s.1, .start, env.board.contents⟩], rfl, List.Sublist.refl _⟩
  | stop tag life s env => exact ⟨[⟨s.1, .stop, env.board.contents⟩], rfl, List.Sublist.refl _⟩
  | child _ _ _ _ _ _ h ih => exact ih
  | only _ _ _ _ h ih => exact ih
  | @inScope tag life kind memory c c' env inner h ih =>
    have hworld : (env.enter memory).world = env.world := env.world_enter memory
    rw [Env.Ran, hworld] at ih
    exact ih
  | _ => exact .refl _

private theorem EvolvesAll.quiet (h : EvolvesAll B.traced.hushed ns env ns' env') :
    env.Ran env' [] :=
  (h.composite (.plain (.ofNat 0) "") .fresh .sequencer 0).quiet

/-- Probing runs nothing. -/
theorem evaluate_hushed (B : Behavior ο σ ω) (n : Node σ) :
    n.evaluate B.hushed = n.evaluate B := by
  delta evaluate
  rfl

/-- Stopping runs nothing. -/
theorem stop_hushed (B : Behavior ο σ ω) (n : Node σ) : n.stop B.hushed = n.stop B := by
  delta stop
  rfl

private theorem abort_hushed (B : Behavior ο σ ω) (n : Node σ) : n.abort B.hushed = n.abort B := by
  funext env
  rw [abort, abort, stop_hushed]

private theorem probe_hushed (B : Behavior ο σ ω) (flag : Flags → Bool) (wanted : Status)
    (ns : List (Node σ)) (b : Blackboard) (w : ω) :
    probe B.hushed flag wanted ns b w = probe B flag wanted ns b w := by
  induction ns generalizing w with
  | nil => rfl
  | cons c rest ih => simp only [probe, evaluate_hushed, ih]

private theorem abortAt_hushed (B : Behavior ο σ ω) (ns : List (Node σ)) (index : Nat)
    (env : Env ω) : abortAt B.hushed ns index env = abortAt B ns index env := by
  induction ns generalizing index with
  | nil => rfl
  | cons c rest ih => cases index <;> simp only [abortAt, abort_hushed, ih]

private theorem quiet_probeBefore (flag : Flags → Bool) (wanted : Status) (resume : Nat)
    (ns : List (Node (ν × σ))) (env : Env (ω × List (HookEvent ν))) :
    env.Ran (probeBefore B.traced flag wanted resume ns env).2 [] := by
  have h := (evolves_probeBefore (B := B.traced.hushed) flag wanted resume ns env).quiet
  rwa [probeBefore, probe_hushed] at h

/-- An abort is made of small steps that run no leaf. -/
theorem evolves_abort_hushed (n : Node (ν × σ)) (env : Env (ω × List (HookEvent ν))) :
    n.Evolves B.traced.hushed env (n.abort B.traced env).1 (n.abort B.traced env).2 := by
  rw [← abort_hushed]
  exact evolves_abort n env

private theorem evolves_abortAt_hushed (ns : List (Node (ν × σ))) (index : Nat)
    (env : Env (ω × List (HookEvent ν))) :
    EvolvesAll B.traced.hushed ns env (abortAt B.traced ns index env).1
      (abortAt B.traced ns index env).2 := by
  rw [← abortAt_hushed]
  exact evolves_abortAt ns index env

private theorem evolves_begin_hushed (n : Node (ν × σ)) (env : Env (ω × List (HookEvent ν))) :
    n.Evolves B.traced.hushed env (n.begin B.traced env).1 (n.begin B.traced env).2 :=
  evolves_begin n env

/-- What follows a tick of work is made of small steps that run no leaf. -/
theorem evolves_settle_hushed (s : Step (ν × σ) (ω × List (HookEvent ν)))
    (hs : s.node.started = true) :
    s.node.Evolves B.traced.hushed s.env (settle B.traced s).node (settle B.traced s).env := by
  have h := evolves_settle (B := B.traced.hushed) s hs
  rwa [settle, stop_hushed] at h

/-! ### Running -/

section

variable (ih : ∀ c ∈ ns, ∀ env : Env (ω × List (HookEvent ν)),
  env.Ran (c.run B.traced env).env c.names)

include ih

private theorem ran_scan (pass : Status) (env : Env (ω × List (HookEvent ν))) :
    env.Ran (scan (run B.traced) pass ns env).env (namesAll ns) := by
  induction ns generalizing env with
  | nil => exact .refl _
  | cons c rest rest_ih =>
    have hc := ih c (by simp) env
    by_cases hs : (c.run B.traced env).status = pass
    · rw [scan_cons_of_pass hs]
      exact hc.append (rest_ih (fun d hd ↦ ih d (by simp [hd])) _)
    · rw [scan_cons_of_ne hs]
      exact hc.mono (List.sublist_append_left _ _)

/-- A scan from an index on does not run the children before it. -/
theorem ran_scanFrom (pass : Status) (index : Nat) (env : Env (ω × List (HookEvent ν))) :
    env.Ran (scanFrom (run B.traced) pass index ns env).env (namesAll ns) := by
  have hdrop : ∀ c ∈ ns.drop index, ∀ env : Env (ω × List (HookEvent ν)),
      env.Ran (c.run B.traced env).env c.names := fun c hc ↦ ih c (List.mem_of_mem_drop hc)
  exact (ran_scan hdrop pass env).mono ((List.drop_sublist index ns).flatMap names)

private theorem ran_sweep (env : Env (ω × List (HookEvent ν))) :
    env.Ran (sweep (run B.traced) ns env).env (namesAll ns) := by
  induction ns generalizing env with
  | nil => exact .refl _
  | cons c rest rest_ih =>
    exact (ih c (by simp) env).append (rest_ih (fun d hd ↦ ih d (by simp [hd])) _)

private theorem ran_workSequencer (resume : Nat) (env : Env (ω × List (HookEvent ν))) :
    env.Ran (workSequencer B.traced (run B.traced) resume ns env).env (namesAll ns) := by
  have hprobe := quiet_probeBefore (B := B) (·.reEvaluate) .failure resume ns env
  rw [workSequencer_eq]
  cases (probeBefore B.traced (·.reEvaluate) .failure resume ns env).1 with
  | some first => exact hprobe.mono (List.nil_sublist _)
  | none => exact (ran_scanFrom ih .success _ _).after hprobe

end

/-- A child that takes over is run after the abort of the one that was to be resumed, and with it
the children behind it. -/
theorem ran_workSelector (ih : ∀ c : Node (ν × σ), c.size ≤ sizes ns →
      ∀ env : Env (ω × List (HookEvent ν)), env.Ran (c.run B.traced env).env c.names)
    (resume : Nat) (env : Env (ω × List (HookEvent ν))) :
    env.Ran (workSelector B.traced (run B.traced) resume ns env).env (namesAll ns) := by
  have hprobe := quiet_probeBefore (B := B) (·.hijack) .success resume ns env
  rw [workSelector_eq]
  cases (probeBefore B.traced (·.hijack) .success resume ns env).1 with
  | some first =>
    have habort := evolves_abortAt_hushed (B := B) ns (min resume ns.length)
      (probeBefore B.traced (·.hijack) .success resume ns env).2
    refine (Env.Ran.after ?_ habort.quiet).after hprobe
    rw [← habort.namesAll_eq]
    exact ran_scanFrom (fun c hc ↦ ih c (size_le_of_mem_abortAt hc)) .failure first _
  | none => exact (ran_scanFrom (fun c hc ↦ ih c (size_le_sizes hc)) .failure _ _).after hprobe

/-- A loop runs its child once in a tick, even if it is to be restarted. -/
theorem ran_workDecorator (kind : DecoratorKind) (memory : Memory) {child : Node (ν × σ)}
    (ih : ∀ env : Env (ω × List (HookEvent ν)), env.Ran (child.run B.traced env).env child.names)
    (env : Env (ω × List (HookEvent ν))) :
    env.Ran (workDecorator B.traced (run B.traced) kind memory child env).1.env child.names := by
  cases kind with
  | invert => exact ih env
  | succeeder => exact ih env
  | «scoped» =>
    have hc := ih (env.enter memory)
    rw [Env.Ran, Env.world_enter] at hc
    exact hc
  | loop limit =>
    cases hm : memory.reached limit with
    | true =>
      rw [workDecorator_loop_of_reached hm]
      exact (Env.Ran.refl env).mono (List.nil_sublist _)
    | false =>
      by_cases hs : (child.run B.traced env).status = .running
      · rw [workDecorator_loop_of_running hm hs]
        exact ih env
      · rw [workDecorator_loop_of_ne_running hm hs]
        exact (ih env).before (evolves_abort_hushed _ _).quiet

private theorem ran_work (n : Node (ν × σ)) (ih : ∀ c : Node (ν × σ), c.size < n.size →
      ∀ env : Env (ω × List (HookEvent ν)), env.Ran (c.run B.traced env).env c.names)
    (env : Env (ω × List (HookEvent ν))) :
    env.Ran (n.work B.traced (run B.traced) env).env n.names := by
  cases n with
  | leaf tag life s => exact ⟨[⟨s.1, .run, env.board.contents⟩], rfl, List.Sublist.refl _⟩
  | composite tag life kind resume children =>
    have hc (c : Node (ν × σ)) (hc : c.size ≤ sizes children)
        (env : Env (ω × List (HookEvent ν))) : env.Ran (c.run B.traced env).env c.names := by
      refine ih c ?_ env
      rw [size]
      omega
    have hm (c : Node (ν × σ)) (hm : c ∈ children) := hc c (size_le_sizes hm)
    rw [names_composite]
    cases kind with
    | sequencer => exact ran_workSequencer hm resume env
    | selector => exact ran_workSelector hc resume env
    | parallel mode => exact ran_sweep hm env
  | decorator tag life kind memory child =>
    cases child with
    | none => exact .refl _
    | some child =>
      rw [names_decorator]
      exact ran_workDecorator kind memory
        (ih child (size_lt_of_mem_children (by simp [children]))) env

/-- The leaves that one run of a node runs are some of those below it, in their order. -/
theorem ran_run (n : Node (ν × σ)) (env : Env (ω × List (HookEvent ν))) :
    env.Ran (n.run B.traced env).env n.names := by
  induction n using size_induction generalizing env with
  | step n ih =>
    have hbegin := evolves_begin_hushed (B := B) n env
    have hwork := ran_work (B := B) (n.begin B.traced env).1
      (fun c hc ↦ ih c (by rwa [size_begin] at hc)) (n.begin B.traced env).2
    rw [hbegin.names_eq] at hwork
    have hsettle := evolves_settle_hushed (B := B)
      ((n.begin B.traced env).1.work B.traced (run B.traced) (n.begin B.traced env).2)
      (by rw [started_work, started_begin])
    rw [run_eq, advance]
    exact (hwork.after hbegin.quiet).before hsettle.quiet

end Node

end BehaviorTree
