import BehaviorTree.Leaf.Basic
import BehaviorTree.Proofs.Node.InRange

/-!
# Runs that check the index to resume at

A checked run takes the same steps as a run, on lists that it changes in place, and comes to nothing
when a check fails: when the index to resume at cannot be read, when the children before it are more
than there are, or when there is no child at an index in the loop. How the index is read is left
open: it may be asserted to be in range, clamped to the number of children, or taken as it is. In a
subtree in which each index is in range no check fails, and all of these do the same
(`runChecked_eq`, `abortChecked_eq`).
-/

namespace BehaviorTree

variable {ο σ ω : Type}

/-- A way to read an index to resume at among a number of children, which may fail. -/
abbrev Reader := Nat → Nat → Option Nat

namespace Reader

/-- The index, which is asserted to be in range. -/
def asserting : Reader := fun resume count ↦ if resume ≤ count then some resume else none

/-- The index, clamped to the number of children. -/
def clamping : Reader := fun resume count ↦ some (min resume count)

/-- The index as it is. -/
def trusting : Reader := fun resume _ ↦ some resume

/-- Whether an index in range is read as it is. -/
def Faithful (read : Reader) : Prop :=
  ∀ ⦃resume count : Nat⦄, resume ≤ count → read resume count = some resume

private theorem faithful_asserting : Faithful asserting := fun _ _ h ↦ if_pos h

private theorem faithful_clamping :
    Faithful clamping := fun _ _ h ↦ congrArg some (Nat.min_eq_left h)

private theorem faithful_trusting : Faithful trusting := fun _ _ _ ↦ rfl

end Reader

namespace Node

/-- The nodes before an index, which must not be more than there are. -/
def slice? (ns : List (Node σ)) (index : Nat) : Option (List (Node σ)) :=
  if index ≤ ns.length then some (ns.take index) else none

/-! ### Stopping -/

/-- Gives up a node whose stopping is `stop`. -/
def abandonChecked (n : Node σ) (stop : Env ω → Option (Node σ × Env ω)) (env : Env ω) :
    Option (Node σ × Env ω) :=
  if n.started then (stop env).map fun r ↦ (r.1.withLife .fresh, r.2)
  else some (n.withLife .fresh, env)

mutual

/-- Closes the activation of a node. -/
def stopChecked (read : Reader) (B : Behavior ο σ ω) : Node σ → Env ω → Option (Node σ × Env ω)
  | leaf tag life state, env =>
    let e := B.stop state env.board env.world
    some (leaf tag life e.state, env.after e)
  | composite tag life kind resume children, env =>
    let r := match kind with
      | .parallel _ => stopRunningChecked read B children env
      | .sequencer | .selector =>
        (read resume children.length).bind fun index ↦
          stopRunningAtChecked read B children index env
    r.map fun r ↦ (composite tag life kind 0 r.1, r.2)
  | decorator tag life kind memory none, env => some (decorator tag life kind memory none, env)
  | decorator tag life kind memory (some child), env =>
    match kind with
    | .scoped =>
      let inner := env.enter memory
      let r := if child.started then child.abandonChecked (stopChecked read B child) inner
        else some (child, inner)
      r.map fun r ↦
        (decorator tag life kind (memory.keep env.board.id r.2.board.scope.cleared) (some r.1),
          env.leave r.2)
    | .invert | .succeeder | .loop _ =>
      let r := if child.started then child.abandonChecked (stopChecked read B child) env
        else some (child, env)
      r.map fun r ↦ (decorator tag life kind memory (some r.1), r.2)
termination_by structural n => n

/-- Aborts all nodes that are running. -/
def stopRunningChecked (read : Reader) (B : Behavior ο σ ω) :
    List (Node σ) → Env ω → Option (List (Node σ) × Env ω)
  | [], env => some ([], env)
  | c :: rest, env =>
    let r := if c.state = .running then c.abandonChecked (stopChecked read B c) env
      else some (c, env)
    r.bind fun r ↦ (stopRunningChecked read B rest r.2).map fun rs ↦ (r.1 :: rs.1, rs.2)
termination_by structural ns => ns

/-- Aborts the node at an index if there is one and it is running. -/
def stopRunningAtChecked (read : Reader) (B : Behavior ο σ ω) :
    List (Node σ) → Nat → Env ω → Option (List (Node σ) × Env ω)
  | [], _, env => some ([], env)
  | c :: rest, 0, env =>
    let r := if c.state = .running then c.abandonChecked (stopChecked read B c) env
      else some (c, env)
    r.map fun r ↦ (r.1 :: rest, r.2)
  | c :: rest, index + 1, env =>
    (stopRunningAtChecked read B rest index env).map fun rs ↦ (c :: rs.1, rs.2)
termination_by structural ns => ns

end

/-- Cancels the activation of a node and forgets its state. -/
def abortChecked (read : Reader) (B : Behavior ο σ ω) (n : Node σ) (env : Env ω) :
    Option (Node σ × Env ω) :=
  n.abandonChecked (n.stopChecked read B) env

/-- Aborts the node at an index, if there is one. -/
def abortAtChecked (read : Reader) (B : Behavior ο σ ω) :
    List (Node σ) → Nat → Env ω → Option (List (Node σ) × Env ω)
  | [], _, env => some ([], env)
  | c :: rest, 0, env => (c.abortChecked read B env).map fun r ↦ (r.1 :: rest, r.2)
  | c :: rest, index + 1, env =>
    (abortAtChecked read B rest index env).map fun rs ↦ (c :: rs.1, rs.2)

/-! ### Running -/

/-- Runs nodes from an index on as long as they answer `pass`; each run leaves its node in place. -/
def loopChecked (run : Node σ → Env ω → Option (Step σ ω)) (pass : Status) (index : Nat)
    (ns : List (Node σ)) (env : Env ω) : Option (Scan σ ω) :=
  if index < ns.length then
    ns[index]?.bind fun c ↦ (run c env).bind fun s ↦
      if s.status = pass then loopChecked run pass (index + 1) (ns.set index s.node) s.env
      else some ⟨s.status, index, ns.set index s.node, s.env⟩
  else some ⟨pass, index, ns, env⟩
termination_by ns.length - index
decreasing_by
  rw [List.length_set]
  omega

/-- Runs all nodes in order. -/
def sweepChecked (run : Node σ → Env ω → Option (Step σ ω)) :
    List (Node σ) → Env ω → Option (Sweep σ ω)
  | [], env => some ⟨[], [], env⟩
  | c :: rest, env =>
    (run c env).bind fun s ↦ (sweepChecked run rest s.env).map fun r ↦
      ⟨s.status :: r.statuses, s.node :: r.children, r.env⟩

/-- Probes the nodes before an index, if there are any. -/
def probeChecked (B : Behavior ο σ ω) (flag : Flags → Bool) (wanted : Status) (index : Nat)
    (ns : List (Node σ)) (env : Env ω) : Option (Option Nat × Env ω) :=
  if 0 < index then
    (slice? ns index).map fun earlier ↦
      let r := probe B flag wanted earlier env.board env.world
      (r.1, { env with world := r.2 })
  else some (none, env)

/-- One tick of work of a sequencer. -/
def workSequencerChecked (read : Reader) (B : Behavior ο σ ω)
    (run : Node σ → Env ω → Option (Step σ ω)) (resume : Nat) (children : List (Node σ))
    (env : Env ω) : Option (Scan σ ω) :=
  (read resume children.length).bind fun index ↦
    (probeChecked B (·.reEvaluate) .failure index children env).bind fun r ↦
      match r.1 with
      | some _ => some ⟨.failure, index, children, r.2⟩
      | none => loopChecked run .success index children r.2

/-- One tick of work of a selector. -/
def workSelectorChecked (read : Reader) (B : Behavior ο σ ω)
    (run : Node σ → Env ω → Option (Step σ ω)) (resume : Nat) (children : List (Node σ))
    (env : Env ω) : Option (Scan σ ω) :=
  (read resume children.length).bind fun index ↦
    (probeChecked B (·.hijack) .success index children env).bind fun r ↦
      match r.1 with
      | some first =>
        (abortAtChecked read B children index r.2).bind fun a ↦
          loopChecked run .failure first a.1 a.2
      | none => loopChecked run .failure index children r.2

/-- One tick of work of a decorator with a child. -/
def workDecoratorChecked (read : Reader) (B : Behavior ο σ ω)
    (run : Node σ → Env ω → Option (Step σ ω)) (kind : DecoratorKind) (memory : Memory)
    (child : Node σ) (env : Env ω) : Option (Step σ ω × Memory) :=
  match kind with
  | .invert => (run child env).map fun s ↦ ({ s with status := s.status.invert }, memory)
  | .succeeder => (run child env).map fun s ↦ ({ s with status := s.status.forgive }, memory)
  | .loop limit =>
    if memory.reached limit then some (⟨.success, child, env⟩, memory)
    else
      (run child env).bind fun s ↦
        if s.status = .running then some (s, memory)
        else
          (s.node.abortChecked read B s.env).map fun a ↦
            let memory := memory.counted
            (⟨if memory.reached limit then .success else .running, a.1, a.2⟩, memory)
  | .scoped =>
    (run child (env.enter memory)).map fun s ↦
      ({ s with env := env.leave s.env }, memory.keep env.board.id s.env.board.scope)

/-- One tick of work of a node, given how its children run. -/
def workChecked (read : Reader) (B : Behavior ο σ ω) (run : Node σ → Env ω → Option (Step σ ω))
    (n : Node σ) (env : Env ω) : Option (Step σ ω) :=
  match n with
  | leaf tag life state =>
    let r := B.run state env.board env.world
    some ⟨r.1, leaf tag life r.2.state, env.after r.2⟩
  | composite tag life .sequencer resume children =>
    (workSequencerChecked read B run resume children env).map fun r ↦
      ⟨r.status, composite tag life .sequencer r.passed r.children, r.env⟩
  | composite tag life .selector resume children =>
    (workSelectorChecked read B run resume children env).map fun r ↦
      ⟨r.status, composite tag life .selector r.passed r.children, r.env⟩
  | composite tag life (.parallel mode) resume children =>
    (sweepChecked run children env).map fun r ↦
      ⟨if children.isEmpty || mode.completes r.statuses then .success else .running,
        composite tag life (.parallel mode) resume r.children, r.env⟩
  | decorator tag life kind memory none => some ⟨.success, decorator tag life kind memory none, env⟩
  | decorator tag life kind memory (some child) =>
    (workDecoratorChecked read B run kind memory child env).map fun r ↦
      ⟨r.1.status, decorator tag life kind r.2 (some r.1.node), r.1.env⟩

/-- Records the answer of a tick of work and stops a node that came to an end. -/
def settleChecked (read : Reader) (B : Behavior ο σ ω) (s : Step σ ω) : Option (Step σ ω) :=
  if s.status.isTerminal then
    (s.node.stopChecked read B s.env).map fun r ↦
      ⟨s.status, r.1.withLife ⟨.ofStatus s.status, false⟩, r.2⟩
  else some { s with node := s.node.withLife ⟨.ofStatus s.status, true⟩ }

/-- One run of a node, given how its children run. -/
def advanceChecked (read : Reader) (B : Behavior ο σ ω) (run : Node σ → Env ω → Option (Step σ ω))
    (n : Node σ) (env : Env ω) : Option (Step σ ω) :=
  let r := n.begin B env
  (r.1.workChecked read B run r.2).bind (settleChecked read B)

/-- One run of a node that is nested at most `fuel` deep. -/
def runWithinChecked (read : Reader) (B : Behavior ο σ ω) :
    (fuel : Nat) → Node σ → Env ω → Option (Step σ ω)
  | 0, n, env => some ⟨.running, n, env⟩
  | fuel + 1, n, env => n.advanceChecked read B (runWithinChecked read B fuel) env

/-- Advances a node by one tick. -/
def runChecked (read : Reader) (B : Behavior ο σ ω) (n : Node σ) (env : Env ω) :
    Option (Step σ ω) :=
  runWithinChecked read B n.size n env

variable {read : Reader} (hread : read.Faithful) {B : Behavior ο σ ω} {n : Node σ}
  {ns : List (Node σ)}

/-! ### Stopping meets no failing check -/

/-- What stopping does without a failing check, giving up does. -/
theorem abandonChecked_eq {stop : Env ω → Option (Node σ × Env ω)} {stop' : Env ω → Node σ × Env ω}
    (h : ∀ env, stop env = some (stop' env)) (env : Env ω) :
    n.abandonChecked stop env = some (n.abandon stop' env) := by
  unfold abandonChecked abandon
  split
  · rw [h, Option.map_some]
  · rfl

private theorem stopRunningChecked_eq
    (h : ∀ c ∈ ns, ∀ env, c.stopChecked read B env = some (c.stop B env)) (env : Env ω) :
    stopRunningChecked read B ns env = some (stopRunning B ns env) := by
  induction ns generalizing env with
  | nil => rfl
  | cons c rest ih =>
    have hc := abandonChecked_eq (n := c) (h c List.mem_cons_self) env
    have hrest := ih fun d hd ↦ h d (List.mem_cons_of_mem _ hd)
    simp only [stopRunningChecked, stopRunning]
    split
    · rw [hc, Option.bind_some, hrest, Option.map_some]
    · rw [Option.bind_some, hrest, Option.map_some]

private theorem stopRunningAtChecked_eq
    (h : ∀ c ∈ ns, ∀ env, c.stopChecked read B env = some (c.stop B env)) (index : Nat)
    (env : Env ω) :
    stopRunningAtChecked read B ns index env = some (stopRunningAt B ns index env) := by
  induction ns generalizing index with
  | nil => rfl
  | cons c rest ih =>
    cases index with
    | zero =>
      have hc := abandonChecked_eq (n := c) (h c List.mem_cons_self) env
      simp only [stopRunningAtChecked, stopRunningAt]
      split
      · rw [hc, Option.map_some]
      · rw [Option.map_some]
    | succ index =>
      have hrest := ih (fun d hd ↦ h d (List.mem_cons_of_mem _ hd)) index
      simp only [stopRunningAtChecked, stopRunningAt, hrest, Option.map_some]

include hread

/-- Where each index is in range, stopping a node meets no failing check. -/
theorem stopChecked_eq (h : n.AllInRange) (env : Env ω) :
    n.stopChecked read B env = some (n.stop B env) := by
  induction n using child_induction generalizing env with
  | step n ih =>
    have hstop (c : Node σ) (hc : c ∈ n.children) (env : Env ω) := ih c hc (h.below hc) env
    cases n with
    | leaf => rfl
    | composite tag life kind resume children =>
      have hone : stopRunningAtChecked read B children resume env =
          some (stopRunningAt B children resume env) := stopRunningAtChecked_eq hstop resume env
      have hall : stopRunningChecked read B children env = some (stopRunning B children env) :=
        stopRunningChecked_eq hstop env
      have hresume : read resume children.length = some resume := hread h.here
      cases kind with
      | parallel mode => simp only [stopChecked, stop, hall, Option.map_some]
      | sequencer =>
        simp only [stopChecked, stop, hresume, Option.bind_some, hone, Option.map_some]
      | selector =>
        simp only [stopChecked, stop, hresume, Option.bind_some, hone, Option.map_some]
    | decorator tag life kind memory child =>
      cases child with
      | none => rfl
      | some child =>
        have hc (env : Env ω) :=
          abandonChecked_eq (n := child) (hstop child (by simp [children])) env
        have hif (env : Env ω) :
            (if child.started then child.abandonChecked (stopChecked read B child) env
              else some (child, env)) =
            some (if child.started then child.abandon (stop B child) env else (child, env)) := by
          split
          · exact hc env
          · rfl
        cases kind with
        | «scoped» => simp only [stopChecked, stop, hif, Option.map_some]
        | invert => simp only [stopChecked, stop, hif, Option.map_some]
        | succeeder => simp only [stopChecked, stop, hif, Option.map_some]
        | loop limit => simp only [stopChecked, stop, hif, Option.map_some]

/-- So does aborting it. -/
theorem abortChecked_eq (h : n.AllInRange) (env : Env ω) :
    n.abortChecked read B env = some (n.abort B env) :=
  abandonChecked_eq (stopChecked_eq hread h) env

private theorem abortAtChecked_eq (h : ∀ c ∈ ns, c.AllInRange) (index : Nat) (env : Env ω) :
    abortAtChecked read B ns index env = some (abortAt B ns index env) := by
  induction ns generalizing index with
  | nil => rfl
  | cons c rest ih =>
    cases index with
    | zero =>
      simp only [abortAtChecked, abortAt, abortChecked_eq hread (h c List.mem_cons_self),
        Option.map_some]
    | succ index =>
      have hrest := ih (fun d hd ↦ h d (List.mem_cons_of_mem _ hd)) index
      simp only [abortAtChecked, abortAt, hrest, Option.map_some]

omit hread

/-! ### Nor does running -/

variable {run : Node σ → Env ω → Option (Step σ ω)}

/-- The loop in place goes through what is behind the index, as `scan` does. -/
theorem loopChecked_eq_scan {run' : Node σ → Env ω → Step σ ω} (before : List (Node σ))
    (h : ∀ c ∈ ns, ∀ env, run c env = some (run' c env)) (pass : Status) (env : Env ω) :
    loopChecked run pass before.length (before ++ ns) env =
      let r := scan run' pass ns env
      some { r with passed := before.length + r.passed, children := before ++ r.children } := by
  induction ns generalizing before env with
  | nil =>
    rw [loopChecked, if_neg (by simp)]
    rfl
  | cons c rest ih =>
    have hc : (before ++ c :: rest)[before.length]? = some c := by simp
    have hset (d : Node σ) : (before ++ c :: rest).set before.length d = before ++ d :: rest := by
      simp
    rw [loopChecked, if_pos (by simp), hc, Option.bind_some, h c List.mem_cons_self,
      Option.bind_some, hset]
    by_cases hs : (run' c env).status = pass
    · have hrest := ih (before ++ [(run' c env).node])
        (fun d hd ↦ h d (List.mem_cons_of_mem _ hd)) (run' c env).env
      simp only [List.length_append, List.length_singleton, List.append_assoc,
        List.singleton_append] at hrest
      rw [if_pos hs, hrest, scan_cons_of_pass hs]
      simp only [Nat.add_assoc, Nat.add_comm 1]
    · rw [if_neg hs, scan_cons_of_ne hs]
      rfl

/-- From an index in range the loop is a scan. -/
theorem loopChecked_eq {run' : Node σ → Env ω → Step σ ω} {index : Nat} (hi : index ≤ ns.length)
    (h : ∀ c ∈ ns, ∀ env, run c env = some (run' c env)) (pass : Status) (env : Env ω) :
    loopChecked run pass index ns env = some (scanFrom run' pass index ns env) := by
  have hloop := loopChecked_eq_scan (ns.take index)
    (fun c hc ↦ h c (List.mem_of_mem_drop (i := index) hc)) pass env
  rwa [List.take_append_drop, List.length_take_of_le hi] at hloop

private theorem sweepChecked_eq {run' : Node σ → Env ω → Step σ ω}
    (h : ∀ c ∈ ns, ∀ env, run c env = some (run' c env)) (env : Env ω) :
    sweepChecked run ns env = some (sweep run' ns env) := by
  induction ns generalizing env with
  | nil => rfl
  | cons c rest ih =>
    have hrest := ih fun d hd ↦ h d (List.mem_cons_of_mem _ hd)
    rw [sweepChecked, h c List.mem_cons_self, Option.bind_some, hrest, Option.map_some]
    rfl

/-- There are as many children as are probed. -/
theorem probeChecked_eq {flag : Flags → Bool} {wanted : Status} {resume : Nat}
    (hi : resume ≤ ns.length) (env : Env ω) :
    probeChecked B flag wanted resume ns env =
      some (probeBefore B flag wanted resume ns env) := by
  unfold probeChecked probeBefore
  rw [Nat.min_eq_left hi]
  split
  · rw [slice?, if_pos hi, Option.map_some]
  · next hzero =>
    obtain rfl : resume = 0 := by omega
    rfl

private theorem workSequencerChecked_eq (hread : read.Faithful) {resume : Nat}
    (hi : resume ≤ ns.length) (h : ∀ c ∈ ns, ∀ env, run c env = some (c.run B env)) (env : Env ω) :
    workSequencerChecked read B run resume ns env =
      some (workSequencer B (Node.run B) resume ns env) := by
  rw [workSequencerChecked, hread hi, Option.bind_some, probeChecked_eq hi, Option.bind_some,
    workSequencer_eq, Nat.min_eq_left hi]
  cases (probeBefore B (·.reEvaluate) .failure resume ns env).1 with
  | some first => rfl
  | none => exact loopChecked_eq hi h _ _

private theorem workSelectorChecked_eq (hread : read.Faithful) {resume : Nat}
    (hi : resume ≤ ns.length) (hns : ∀ c ∈ ns, c.AllInRange)
    (h : ∀ c : Node σ, c.size ≤ sizes ns → c.AllInRange → ∀ env, run c env = some (c.run B env))
    (env : Env ω) :
    workSelectorChecked read B run resume ns env =
      some (workSelector B (Node.run B) resume ns env) := by
  rw [workSelectorChecked, hread hi, Option.bind_some, probeChecked_eq hi, Option.bind_some,
    workSelector_eq, Nat.min_eq_left hi]
  cases hp : (probeBefore B (·.hijack) .success resume ns env).1 with
  | some first =>
    have hlt := probeBefore_lt hp
    simp only [abortAtChecked_eq hread hns, Option.bind_some]
    refine loopChecked_eq ?_ (fun c hc ↦ h c (size_le_of_mem_abortAt hc) ?_) _ _
    · rw [length_abortAt]
      omega
    · obtain ⟨d, hd, hmoved⟩ := (moved_abortAt ns resume _).exists_of_mem hc
      exact hmoved.allInRange (hns d hd)
  | none => exact loopChecked_eq hi (fun c hc ↦ h c (size_le_sizes hc) (hns c hc)) _ _

private theorem workDecoratorChecked_eq (hread : read.Faithful) {child : Node σ}
    (hc : child.AllInRange) (h : ∀ env, run child env = some (child.run B env))
    (kind : DecoratorKind) (memory : Memory) (env : Env ω) :
    workDecoratorChecked read B run kind memory child env =
      some (workDecorator B (Node.run B) kind memory child env) := by
  cases kind with
  | invert => simp only [workDecoratorChecked, workDecorator, h, Option.map_some]
  | succeeder => simp only [workDecoratorChecked, workDecorator, h, Option.map_some]
  | «scoped» => simp only [workDecoratorChecked, workDecorator, h, Option.map_some]
  | loop limit =>
    have hrun : (child.run B env).node.AllInRange := (Moved.refl.run env).allInRange hc
    have habort := abortChecked_eq (B := B) hread hrun
    simp only [workDecoratorChecked, workDecorator, h, Option.bind_some, habort, Option.map_some]
    split
    · rfl
    · split <;> rfl

/-- A tick of work of a node whose children run without a failing check. -/
theorem workChecked_eq (hread : read.Faithful) (hn : n.AllInRange)
    (h : ∀ c : Node σ, c.size < n.size → c.AllInRange → ∀ env, run c env = some (c.run B env))
    (env : Env ω) : n.workChecked read B run env = some (n.work B (Node.run B) env) := by
  have hchild (c : Node σ) (hc : c ∈ n.children) (env : Env ω) : run c env = some (c.run B env) :=
    h c (size_lt_of_mem_children hc) (hn.below hc) env
  cases n with
  | leaf => rfl
  | composite tag life kind resume children =>
    have hsize (c : Node σ) (hc : c.size ≤ sizes children) :
        c.size < (composite tag life kind resume children).size := by
      rw [size]
      omega
    cases kind with
    | sequencer =>
      rw [workChecked, workSequencerChecked_eq hread hn.here hchild, Option.map_some]
      rfl
    | selector =>
      rw [workChecked, workSelectorChecked_eq hread hn.here (fun c ↦ hn.below)
        (fun c hc ↦ h c (hsize c hc)), Option.map_some]
      rfl
    | parallel mode =>
      have hsweep : sweepChecked run children env = some (sweep (Node.run B) children env) :=
        sweepChecked_eq hchild env
      rw [workChecked, hsweep, Option.map_some]
      rfl
  | decorator tag life kind memory child =>
    cases child with
    | none => rfl
    | some child =>
      have hmem : child ∈ (decorator tag life kind memory (some child)).children := by
        simp [children]
      rw [workChecked, workDecoratorChecked_eq hread (hn.below hmem) (hchild child hmem),
        Option.map_some]
      rfl

/-- What comes of a tick of work can be stopped without a failing check. -/
theorem settleChecked_eq (hread : read.Faithful) {s : Step σ ω} (h : s.node.AllInRange) :
    settleChecked read B s = some (settle B s) := by
  unfold settleChecked settle
  split
  · rw [stopChecked_eq hread h, Option.map_some]
  · rfl

private theorem AllInRange.begin (h : n.AllInRange) (env : Env ω) :
    (n.begin B env).1.AllInRange := by
  refine everywhere_iff.mpr ⟨h.here.begin env, ?_⟩
  rw [children_begin]
  exact fun c ↦ h.below

private theorem AllInRange.work (h : n.AllInRange) (env : Env ω) :
    (n.work B (Node.run B) env).node.AllInRange := by
  refine everywhere_iff.mpr ⟨h.here.work env, fun d hd ↦ ?_⟩
  obtain ⟨c, hc, hmoved⟩ := (moved_work n env).exists_of_mem hd
  exact hmoved.allInRange (h.below hc)

/-- Where each index is in range, a run meets no failing check. -/
theorem runWithinChecked_eq (hread : read.Faithful) {fuel : Nat} (hfuel : n.size ≤ fuel)
    (h : n.AllInRange) (env : Env ω) :
    runWithinChecked read B fuel n env = some (n.run B env) := by
  induction fuel generalizing n env with
  | zero => exact absurd n.size_pos (by omega)
  | succ fuel ih =>
    have hbegin := h.begin (B := B) env
    have hchild (c : Node σ) (hc : c.size < (n.begin B env).1.size) (hrange : c.AllInRange)
        (env : Env ω) : runWithinChecked read B fuel c env = some (c.run B env) := by
      rw [size_begin] at hc
      exact ih (by omega) hrange env
    rw [runWithinChecked, advanceChecked, workChecked_eq hread hbegin hchild, Option.bind_some,
      settleChecked_eq hread (hbegin.work _), run_eq, advance]

private theorem runChecked_eq (hread : read.Faithful) (h : n.AllInRange) (env : Env ω) :
    n.runChecked read B env = some (n.run B env) :=
  runWithinChecked_eq hread (Nat.le_refl _) h env

/-- In every node that a host can come by, whatever the leaves do, each composite resumes at one of
its children or behind them, and no check fails in a run or an abort of the node: whether the index
is asserted to be in range, clamped, or taken as it is, the run and the abort are the same. -/
theorem resume_stays_in_range {n : Node σ} (h : n.Reachable B) :
    n.AllInRange ∧
      ∀ read ∈ [Reader.asserting, Reader.clamping, Reader.trusting], ∀ env : Env ω,
        n.runChecked read B env = some (n.run B env) ∧
          n.abortChecked read B env = some (n.abort B env) := by
  refine ⟨h.allInRange, fun read hmem env ↦ ?_⟩
  have hread : read.Faithful := by
    simp only [List.mem_cons, List.not_mem_nil, or_false] at hmem
    rcases hmem with rfl | rfl | rfl
    · exact Reader.faithful_asserting
    · exact Reader.faithful_clamping
    · exact Reader.faithful_trusting
  exact ⟨runChecked_eq hread h.allInRange env, abortChecked_eq hread h.allInRange env⟩

/-- A sequencer that is suspended on its second child and loses the first: it resumes behind the one
that is left. -/
theorem resume_stays_in_range_removed :
    let B := Leaf.behavior
    let env : Env World := ⟨⟨.initial, ⟨1⟩⟩, (Scope.empty ⟨0⟩).alone⟩
    let done : Node Leaf := .newLeaf (.plain (.ofNat 1) "done") (.action fun b w ↦
      (.success, b.entries, w))
    let busy : Node Leaf := .newLeaf (.plain (.ofNat 2) "busy") (.action fun b w ↦
      (.running, b.entries, w))
    let pair := newComposite (.plain (.ofNat 0) "pair") .sequencer [done, busy]
    let n := (pair.handle B (.run env)).handle B (.remove 0)
    n.Reachable B ∧ (∃ c, n = composite pair.tag ⟨.running, true⟩ .sequencer 1 [c]) ∧
      n.AllInRange ∧ n.runChecked .asserting B env = some (n.run B env) ∧
        n.abortChecked .asserting B env = some (n.abort B env) := by
  intro B env done busy pair n
  have hpair : pair.Reachable B := .composite _ _ fun c hc ↦ by
    rcases List.mem_pair.mp hc with rfl | rfl
    · exact .leaf _ _
    · exact .leaf _ _
  have hn : n.Reachable B := (hpair.handled (.run env) nofun).handled (.remove 0) nofun
  obtain ⟨hrange, hchecked⟩ := resume_stays_in_range hn
  exact ⟨hn, ⟨_, rfl⟩, hrange, hchecked .asserting List.mem_cons_self env⟩

/-- An index that is out of range does not go unnoticed. -/
example (child : Node Leaf) (env : Env World) :
    (composite (.plain (.ofNat 0) "pair") ⟨.running, true⟩ .sequencer 5 [child]).runChecked
      .asserting Leaf.behavior env = none := by
  rw [runChecked, size, sizes, sizes, Nat.add_comm 1]
  rfl

end Node

end BehaviorTree
