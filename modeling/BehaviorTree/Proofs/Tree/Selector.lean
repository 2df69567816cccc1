import BehaviorTree.Proofs.Node.Deeds
import BehaviorTree.Proofs.Node.Moved
import BehaviorTree.Proofs.Node.Selector

/-!
# The ticks of a selector

A selector that is suspended resumes at its started child, unless an earlier one takes over. Then
the started child is aborted before anything runs, and the children from the one that takes over on
are run anew. However it comes about, one child at most is started after the tick.
-/

namespace BehaviorTree

variable {ο σ ω : Type}

namespace Node

/-- What a selector that would resume at `k` does to its children. -/
def selectorDeeds (B : Behavior ο σ ω) (k : Nat) (ns : List (Node σ)) (env : Env ω) : List Deed :=
  let r := probeBefore B (·.hijack) .success k ns env
  match r.1 with
  | some first =>
    let a := abortAt B ns k r.2
    .abort k :: scanDeeds B .failure first (a.1.drop first) a.2
  | none => scanDeeds B .failure k (ns.drop k) r.2

/-- How a selector over `ns` that would resume at `k` comes by deeds through a tick. -/
structure SelectorTick (B : Behavior ο σ ω) (life : Life) (k : Nat) (ns : List (Node σ))
    (env : Env ω) (deeds : List Deed) (s : Step σ ω) : Prop where
  /-- A selector that is suspended waits for the child at which it resumes. -/
  suspended : life.started = true → ∃ c, ns[k]? = some c ∧ c.started = true
  /-- One that is not started begins with the first child. -/
  begins : life.started = false → k = 0
  /-- If no earlier child may take over and holds, the children are run from the one to resume at
  on, up to the first that does not fail. -/
  resumes : (∀ j < k, ¬ Hits B (·.hijack) .success ns env.board env.world j) →
    ∃ last, Stretch .failure ns.length life.started k deeds s.status last
  /-- Otherwise the child to resume at is aborted, and then the children are run from the first
  that holds on, each in a new activation. -/
  hijacked : ∀ first < k, FirstHit B (·.hijack) .success ns env.board env.world first →
    ∃ runs last, deeds = .abort k :: runs ∧
      Stretch .failure ns.length false first runs s.status last
  /-- The deeds make of the children what they are after the tick. -/
  doing : ∃ count ≤ k,
    Doing B deeds ns (asked B (·.hijack) ns count env) s.node.children s.env
  /-- A selector that is suspended resumes at the child that was run last, and no other is
  started. -/
  one : s.status = .running → ∃ i opens,
    deeds.getLast? = some (.run i opens .running) ∧ s.node.resume? = some i ∧
      ∀ j c, s.node.children[j]? = some c → (c.started = true ↔ j = i)
  /-- After any other answer no child is started. -/
  none : s.status ≠ .running → ∀ c ∈ s.node.children, c.started = false

variable {B : Behavior ο σ ω} {L : Phase → σ → Prop} {tag : Tag} {life : Life} {k : Nat}
  {ns : List (Node σ)}

/-- A steady selector that resumes where a stretch ended has one started child at most, the one that
was run last. -/
theorem one_of_stretch {deeds : List Deed} {size index last : Nat} {resumed : Bool}
    {status : Status} (h : Stretch .failure size resumed index deeds status last)
    {state : NodeState}
    (hsteady : (composite tag ⟨state, status.isRunning⟩ .selector
      (if status = .running then last else 0) ns).Steady L) :
    (status = .running → ∃ i opens, deeds.getLast? = some (.run i opens .running) ∧
      some (if status = .running then last else 0) = some i ∧
      ∀ j c, ns[j]? = some c → (c.started = true ↔ j = i)) ∧
    (status ≠ .running → ∀ c ∈ ns, c.started = false) := by
  constructor
  · intro hs
    obtain ⟨-, opens, hlast⟩ := h.getLast? (by simp [hs])
    rw [if_pos hs] at hsteady ⊢
    refine ⟨last, opens, hs ▸ hlast, rfl, fun j c hc ↦ ?_⟩
    exact started_iff_eq (.inr rfl) hsteady (Status.isRunning_iff.mpr hs) hc
  · intro hs
    obtain ⟨-, hbegins, -⟩ := steady_place (.inr rfl) hsteady
    exact (hbegins (Status.isRunning_eq_false hs)).2

/-- Where no earlier child takes over, a steady selector resumes. -/
theorem selectorTick_of_not_hits (hB : B.Respects L)
    (h : (composite tag life .selector k ns).AllSteady L) {env : Env ω}
    (hno : ∀ j < k, ¬ Hits B (·.hijack) .success ns env.board env.world j) :
    SelectorTick B life k ns env (selectorDeeds B k ns env)
      ((composite tag life .selector k ns).run B env) := by
  obtain ⟨hsuspended, hbegins, hk, -⟩ := steady_place (.inr rfl) h.here
  have hprobe := probeBefore_of_not_hits hk hno
  have hdeeds : selectorDeeds B k ns env =
      scanDeeds B .failure k (ns.drop k) (asked B (·.hijack) ns k env) := by
    rw [selectorDeeds, hprobe]
  have hstretch := stretch_of_steady B .failure (.inr rfl) h.here (asked B (·.hijack) ns k env)
  have hdoing := doing_scanFrom B .failure hk (asked B (·.hijack) ns k env)
  have hafter := run_steady hB env h
  have hrun := run_selector_eq B tag (fun hs ↦ (hbegins hs).1) ns env
  simp only [workSelector_eq, hprobe, Nat.min_eq_left hk] at hrun
  rw [← hdeeds] at hstretch hdoing
  generalize scanFrom (run B) .failure k ns (asked B (·.hijack) ns k env) = r at *
  rw [hrun] at hafter ⊢
  obtain ⟨hone, hnone⟩ := one_of_stretch hstretch hafter.here
  exact ⟨hsuspended, fun hs ↦ (hbegins hs).1, fun _ ↦ ⟨_, hstretch⟩,
    fun j hj hhits ↦ absurd hhits.1 (hno j hj), ⟨k, Nat.le_refl k, hdoing⟩, hone, hnone⟩

/-- Where an earlier child takes over, a steady selector goes on from there with all children
quiet. -/
theorem selectorTick_of_firstHit (hB : B.Respects L)
    (h : (composite tag life .selector k ns).AllSteady L) {env : Env ω} {first : Nat}
    (hlt : first < k) (hfirst : FirstHit B (·.hijack) .success ns env.board env.world first) :
    SelectorTick B life k ns env (selectorDeeds B k ns env)
      ((composite tag life .selector k ns).run B env) := by
  obtain ⟨hsuspended, hbegins, hk, honly⟩ := steady_place (.inr rfl) h.here
  have hstarted : life.started = true := by
    by_contra hs
    have hzero := (hbegins (by simpa using hs)).1
    omega
  obtain ⟨c, hc, hcs⟩ := hsuspended hstarted
  let env' := asked B (·.hijack) ns (first + 1) env
  let ms := ns.set k (c.abort B env').1
  have hprobe : probeBefore B (·.hijack) .success k ns env = (some first, env') :=
    probeBefore_of_firstHit hk hlt hfirst
  have habort : abortAt B ns k env' = (ms, (c.abort B env').2) := abortAt_eq_set hc env'
  have hlength : ms.length = ns.length := List.length_set
  have hindex : first ≤ ms.length := by omega
  have hquiet (d : Node σ) (hd : d ∈ ms) : d.started = false := by
    have hbelow : ∀ e ∈ ns, e.AllSteady L := fun e he ↦ h.below he
    have ha := abortAt_steady hB hbelow honly env'
    rw [habort] at ha
    exact (ha d hd).2
  have hdeeds : selectorDeeds B k ns env =
      .abort k :: scanDeeds B .failure first (ms.drop first) (c.abort B env').2 := by
    simp only [selectorDeeds, hprobe, habort]
  have hstretch := stretch_scanFrom B .failure hindex false
    (fun d hd ↦ hquiet d (List.mem_of_getElem? hd)) (fun d hd ↦ hquiet d (List.mem_of_mem_drop hd))
    (c.abort B env').2
  have hdoing := doing_scanFrom B .failure hindex (c.abort B env').2
  have hafter := run_steady hB env h
  have hrun := run_selector_eq B tag (fun hs ↦ (hbegins hs).1) ns env
  simp only [workSelector_eq, hprobe, Nat.min_eq_left hk, habort] at hrun
  rw [hlength] at hstretch
  generalize scanFrom (run B) .failure first ms (c.abort B env').2 = r at *
  rw [hrun] at hafter ⊢
  rw [hdeeds]
  obtain ⟨hone, hnone⟩ := one_of_stretch hstretch hafter.here
  refine ⟨hsuspended, fun hs ↦ (hbegins hs).1, fun hno ↦ absurd hfirst.1 (hno first hlt),
    fun other hother hhit ↦ ?_, ⟨first + 1, hlt, .abort hc hcs hdoing⟩, fun hs ↦ ?_, hnone⟩
  · obtain rfl := hfirst.unique hhit
    exact ⟨_, _, rfl, hstretch⟩
  · obtain ⟨i, opens, hlast, hplaces⟩ := hone hs
    exact ⟨i, opens, by rw [List.getLast?_cons, hlast]; rfl, hplaces⟩

/-- What a steady selector does in a tick. -/
theorem selectorTick_of_steady (hB : B.Respects L)
    (h : (composite tag life .selector k ns).AllSteady L) (env : Env ω) :
    SelectorTick B life k ns env (selectorDeeds B k ns env)
      ((composite tag life .selector k ns).run B env) := by
  by_cases hhit : ∃ j < k, Hits B (·.hijack) .success ns env.board env.world j
  · obtain ⟨j, hj, hhits⟩ := hhit
    obtain ⟨first, hle, hfirst⟩ := exists_firstHit hhits
    exact selectorTick_of_firstHit hB h (Nat.lt_of_le_of_lt hle hj) hfirst
  · exact selectorTick_of_not_hits hB h fun j hj hhits ↦ hhit ⟨j, hj, hhits⟩

end Node

namespace Tree

open Node

/-- A selector that stands anywhere in a tree that was not used. What is done with the tree comes
down to runs and aborts of the selector, and in every state that they lead to, it takes a tick as
`SelectorTick` says. -/
theorem selector_ticks (B : Behavior ο σ ω) {t : Tree ο σ} (h : t.root.AllUnused)
    {path : List Nat} {tag : Tag} {life : Life} {k : Nat} {ns : List (Node σ)}
    (hn : t.root.at? path = some (composite tag life .selector k ns)) :
    let n := composite tag life .selector k ns
    (∀ calls : List (Call ω), ∃ m,
      (t.serveAll B calls).tree.root.at? path = some m ∧ n.Moved B m) ∧
    ∀ m, n.Moved B m → ∃ life k ns, m = composite tag life .selector k ns ∧
      ∀ env, SelectorTick B life k ns env (selectorDeeds B k ns env) (m.run B env) := by
  intro n
  have hunused : n.AllUnused := h.at_mem (mem_preorder_of_at? hn)
  have hsteady : n.AllSteady fun _ _ ↦ True :=
    allSteady_of_allUnused hunused fun _ _ _ _ ↦ trivial
  refine ⟨moved_serveAll B hn, fun m hm ↦ ?_⟩
  obtain ⟨life', k', ns', rfl, -⟩ := hm.exists_composite
  exact ⟨life', k', ns', rfl,
    selectorTick_of_steady B.respects_true (hm.allSteady B.respects_true hsteady)⟩

/-- The guard, which engages whatever it was doing. -/
theorem selector_ticks_guard :
    let t : Tree Owner Leaf := ⟨Guard.root 1 0.5, [], none, false, none⟩
    ∃ tag life k ns, t.root.AllUnused ∧ t.root.at? [] = some (composite tag life .selector k ns) ∧
      ∀ m, (composite tag life .selector k ns).Moved Leaf.behavior m →
        ∃ life k ns, m = composite tag life .selector k ns ∧ ∀ env,
          SelectorTick Leaf.behavior life k ns env (selectorDeeds Leaf.behavior k ns env)
            (m.run Leaf.behavior env) := by
  intro t
  have hunused := Guard.allUnused_root 1 0.5
  obtain ⟨-, hticks⟩ := selector_ticks Leaf.behavior hunused (show t.root.at? [] = some _ from rfl)
  exact ⟨_, _, _, _, hunused, rfl, hticks⟩

end Tree

end BehaviorTree
