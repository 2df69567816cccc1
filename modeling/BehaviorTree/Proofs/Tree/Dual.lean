import BehaviorTree.Proofs.Host.Trace
import BehaviorTree.Proofs.Leaf.Waiting
import BehaviorTree.Proofs.Node.Inverted
import BehaviorTree.Proofs.Node.Sequencer
import BehaviorTree.Proofs.Tree.Calls

/-!
# Selectors and sequencers are dual

A selector does what an inverted sequencer does over its children inverted: in every course of
calls both give the same replies, call the same hooks and leave the same blackboards. The two
trees simulate each other. Between calls they agree on whether they are started and on the child
to resume, and that child is suspended together with the decorator over it.
-/

namespace BehaviorTree

variable {ο σ ν ω : Type}

namespace Node

variable {B : Behavior ο σ ω} {n m : Node σ}

/-- Whether a node is a selector and another one its dual, an inverted sequencer over the inverted
children, in the same state of their runs. -/
inductive Dual : Node σ → Node σ → Prop where
  | mk {tag outer inner : Tag} {life lifeOuter lifeInner : Life} {resume resume' : Nat}
      {memory : Memory} {cs ds : List (Node σ)}
      (children : List.Forall₂ Inverts cs ds)
      (startedOuter : lifeOuter.started = life.started)
      (startedInner : lifeInner.started = life.started)
      (suspended : life.started = true → resume' = resume ∧
        (∀ c ∈ cs[resume]?, c.life = ⟨.running, true⟩) ∧
        ∀ d ∈ ds[resume]?, d.life = ⟨.running, true⟩) :
      Dual (composite tag life .selector resume cs)
        (decorator outer lifeOuter .invert memory
          (some (composite inner lifeInner .sequencer resume' ds)))

/-- One run of each: the answer of the sequencer is inverted twice. -/
theorem Dual.run (h : Dual n m) (env : Env ω) :
    (m.run B env).status = (n.run B env).status ∧ (m.run B env).env = (n.run B env).env ∧
      Dual (n.run B env).node (m.run B env).node := by
  obtain @⟨tag, outer, inner, life, lifeOuter, lifeInner, resume, resume', memory, cs, ds,
    hchildren, -, hinner, hsuspended⟩ := h
  obtain ⟨htame, hunchecked⟩ := unflagged_of_inverts hchildren
  have hindex : min (if lifeInner.started then resume' else 0) ds.length =
      min (if life.started then resume else 0) cs.length := by
    rw [hchildren.length_eq, hinner]
    by_cases hl : life.started = true
    · simp only [hl, if_true, (hsuspended hl).1]
    · simp only [hl, Bool.false_eq_true, if_false]
  rw [run_selector_of_tame B htame, run_invert, run_sequencer_of_unchecked B hunchecked, hindex]
  have hle := Nat.min_le_right (if life.started then resume else 0) cs.length
  generalize min (if life.started then resume else 0) cs.length = index at hle
  have hhalted : Scan.Halted (scanFrom (Node.run B) .failure index cs env) :=
    halted_scanFrom hle env
  have hhalted' : Scan.Halted (scanFrom (Node.run B) .success index ds env) :=
    halted_scanFrom (hchildren.length_eq ▸ hle) env
  have hscan := inverts_scanFrom (B := B) hchildren index env
  generalize scanFrom (Node.run B) .failure index cs env = r at hhalted hscan
  generalize scanFrom (Node.run B) .success index ds env = r' at hhalted' hscan
  obtain ⟨hstatus, hpassed, hchildren, henv⟩ := hscan
  have hrunning : r'.status.isRunning = r.status.isRunning := by
    rw [hstatus]
    cases r.status <;> rfl
  refine ⟨by simp [hstatus], henv, .mk hchildren hrunning hrunning fun hl ↦ ?_⟩
  -- Where the selector suspends, the sequencer suspends at the same child.
  have hs : r.status = .running := Status.isRunning_iff.mp hl
  have hs' : r'.status = .running := by rw [hstatus, hs]; rfl
  have hlife : ∀ c ∈ r.children[r.passed]?, c.life = ⟨.running, true⟩ := by
    intro c hc
    rw [hhalted c hc, hs]
    rfl
  have hlife' : ∀ d ∈ r'.children[r'.passed]?, d.life = ⟨.running, true⟩ := by
    intro d hd
    rw [hhalted' d hd, hs']
    rfl
  simp only [hs, hs', if_true]
  exact ⟨hpassed, hlife, hpassed ▸ hlife'⟩

/-- Both are aborted alike: the child that suspended is aborted, under its decorator. -/
theorem Dual.abort (h : Dual n m) (env : Env ω) :
    (m.abort B env).2 = (n.abort B env).2 ∧ Dual (n.abort B env).1 (m.abort B env).1 := by
  obtain @⟨tag, outer, inner, life, lifeOuter, lifeInner, resume, resume', memory, cs, ds,
    hchildren, houter, hinner, hsuspended⟩ := h
  cases hl : life.started with
  | true =>
    obtain ⟨rfl, hc, hd⟩ := hsuspended hl
    obtain ⟨henv, hstopped⟩ := inverts_stopRunningAt (B := B) hchildren hc hd env
    have hselector : (composite tag life .selector resume' cs).started = true := hl
    have hsequencer : (composite inner lifeInner .sequencer resume' ds).started = true :=
      hinner.trans hl
    rw [abort_invert B (houter.trans hl) hsequencer, abort_of_started hselector,
      abort_of_started hsequencer]
    exact ⟨henv, .mk hstopped rfl rfl fun hfresh ↦ nomatch hfresh⟩
  | false =>
    have hselector : (composite tag life .selector resume cs).started = false := hl
    have hinvert : (decorator outer lifeOuter .invert memory
        (some (composite inner lifeInner .sequencer resume' ds))).started = false := houter.trans hl
    rw [abort_of_not_started hselector, abort_of_not_started hinvert]
    exact ⟨rfl, .mk hchildren rfl (hinner.trans hl) fun hfresh ↦ nomatch hfresh⟩

end Node

namespace Tree

variable {B : Behavior ο σ ω}

/-- A request to each of two dual trees. -/
theorem serve_dual {t t' : Tree ο σ} (h : t.root.Dual t'.root) (request : Request) (env : Env ω) :
    let r := t.serve B request env
    let r' := t'.serve B request env
    r'.reply = r.reply ∧ r'.env = r.env ∧ r.tree.root.Dual r'.tree.root := by
  have htick (env : Env ω) :
      some (t'.tick B env).status = some (t.tick B env).status ∧
        (t'.tick B env).env = (t.tick B env).env ∧
        (t.tick B env).tree.root.Dual (t'.tick B env).tree.root := by
    obtain ⟨hstatus, henv, hdual⟩ := h.run (B := B) env
    exact ⟨congrArg some hstatus, henv, hdual⟩
  cases request with
  | tick => exact htick env
  | tickWith clock => exact htick _
  | stop => exact ⟨rfl, h.abort env⟩

/-- Dual trees cannot be told apart by calls. -/
theorem observeAll_dual (calls : List (Call ω)) {t t' : Tree ο σ} (h : t.root.Dual t'.root) :
    t'.observeAll B calls = t.observeAll B calls := by
  induction calls generalizing t t' with
  | nil => rfl
  | cons call rest ih =>
    obtain ⟨hreply, henv, hdual⟩ := serve_dual (B := B) h call.request call.env
    simp only [observeAll, hreply, henv, ih hdual]

/-- A selector and the inverted sequencer over its children inverted, none of them flagged, give
the same replies in every course of calls, and leave the same surroundings: the same calls of hooks
in the trace, with the same entries in sight, and the same blackboards. -/
theorem selector_dual_sequencer (B : Behavior ο σ ω) (t t' : Tree ο (ν × σ)) (tag outer inner : Tag)
    (tags : Nat → Tag) (children : List (Node (ν × σ)))
    (hchildren : ∀ c ∈ children, c.flags.hijack = false)
    (htags : ∀ i, (tags i).flags.reEvaluate = false)
    (calls : List (Call (ω × List (HookEvent ν)))) :
    let selector := Node.newComposite tag .selector children
    let sequencer := Node.newComposite inner .sequencer
      (children.mapIdx fun i c ↦ c.inverted (tags i))
    { t with root := selector }.observeAll B.traced calls =
      { t' with root := sequencer.inverted outer }.observeAll B.traced calls := by
  have hinverts (k : Nat) : List.Forall₂ Node.Inverts children
      (children.mapIdx fun i c ↦ c.inverted (tags (i + k))) := by
    induction children generalizing k with
    | nil => exact .nil
    | cons c rest ih =>
      obtain ⟨hc, hrest⟩ := List.forall_mem_cons.mp hchildren
      rw [List.mapIdx_cons]
      refine .cons (.mk _ _ (htags _) hc) ?_
      simpa only [Nat.add_assoc, Nat.add_comm 1] using ih hrest (k + 1)
  have hdual : Node.Dual (Node.newComposite tag .selector children)
      ((Node.newComposite inner .sequencer
        (children.mapIdx fun i c ↦ c.inverted (tags i))).inverted outer) :=
    .mk (hinverts 0) rfl rfl fun hfresh ↦ nomatch hfresh
  exact (observeAll_dual calls hdual).symm

/-- A wait in a scope of its own and a wait beside it, ticked twice and stopped. -/
theorem selector_dual_sequencer_pause :
    let wait := Node.newLeaf (.plain (.ofNat 2) "wait") ("beside", Wait.ofSeconds 2)
    let children := [Wait.pause.root, wait]
    let tags i := Tag.plain (.ofNat (i + 3)) "invert"
    let env : Env (World × List (HookEvent String)) :=
      ⟨⟨(.initial, []), ⟨1⟩⟩, (Scope.empty ⟨0⟩).alone⟩
    let calls : List (Call _) := [⟨.tick, env⟩, ⟨.tickWith ⟨7, 1⟩, env⟩, ⟨.stop, env⟩]
    let selector := Node.newComposite (.plain (.ofNat 0) "root") .selector children
    let sequencer := Node.newComposite (.plain (.ofNat 0) "root") .sequencer
      (children.mapIdx fun i c ↦ c.inverted (tags i))
    { Wait.pause with root := selector }.observeAll Wait.behavior.traced calls =
      { Wait.pause with root := sequencer.inverted (tags 2) }.observeAll Wait.behavior.traced
        calls :=
  selector_dual_sequencer Wait.behavior Wait.pause Wait.pause _ _ _ _ _ (by decide)
    (fun _ ↦ rfl) _

end Tree

end BehaviorTree
