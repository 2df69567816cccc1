import BehaviorTree.Proofs.Node.Deeds
import BehaviorTree.Proofs.Node.Halt
import BehaviorTree.Proofs.Node.Moved

/-!
# The activations of a sequencer

A sequencer runs its children in order, over as many ticks as they take, and each in one activation.
A tick resumes the child that was suspended, unless an earlier one is checked again and fails. What
a sequencer does in one tick is `SequencerTick`; what follows for its activations is told by the log
of its deeds, which is a chain.
-/

namespace BehaviorTree

variable {ο σ ω : Type}

namespace Node

/-- What a sequencer that would resume at `k` does to its children. -/
def sequencerDeeds (B : Behavior ο σ ω) (k : Nat) (ns : List (Node σ)) (env : Env ω) : List Deed :=
  let r := probeBefore B (·.reEvaluate) .failure k ns env
  match r.1 with
  | some _ => [.abort k]
  | none => scanDeeds B .success k (ns.drop k) r.2

/-- How a sequencer over `ns` that would resume at `k` comes by deeds through a tick. -/
structure SequencerTick (B : Behavior ο σ ω) (life : Life) (k : Nat) (ns : List (Node σ))
    (env : Env ω) (deeds : List Deed) (s : Step σ ω) : Prop where
  /-- A sequencer that is suspended waits for the child at which it resumes. -/
  suspended : life.started = true → ∃ c, ns[k]? = some c ∧ c.started = true
  /-- One that is not started begins with the first child. -/
  begins : life.started = false → k = 0
  /-- If an earlier child is to be checked again and fails, then the child to resume at is aborted
  and none is run. -/
  checked : (∃ j < k, Hits B (·.reEvaluate) .failure ns env.board env.world j) →
    deeds = [.abort k] ∧ s.status = .failure
  /-- Otherwise the children are run from that child on, up to the first that does not succeed. -/
  runs : (∀ j < k, ¬ Hits B (·.reEvaluate) .failure ns env.board env.world j) →
    ∃ last, Stretch .success ns.length life.started k deeds s.status last
  failed : (∀ j < k, ¬ Hits B (·.reEvaluate) .failure ns env.board env.world j) →
    (s.status = .failure ↔ ∃ i opens, deeds.getLast? = some (.run i opens .failure))
  /-- The deeds make of the children what they are after the tick. -/
  doing : ∃ count ≤ k,
    Doing B deeds ns (asked B (·.reEvaluate) ns count env) s.node.children s.env
  /-- A sequencer that is suspended resumes at the child that was run last. -/
  resumes : s.status = .running → ∃ i opens,
    deeds.getLast? = some (.run i opens .running) ∧ s.node.resume? = some i

variable {B : Behavior ο σ ω} {L : Phase → σ → Prop} {tag : Tag} {life : Life} {k : Nat}
  {ns : List (Node σ)}

/-- A run of a sequencer that resumes where it says is a tick of its work. -/
theorem run_sequencer_eq (B : Behavior ο σ ω) (tag : Tag) (hk : life.started = false → k = 0)
    (ns : List (Node σ)) (env : Env ω) :
    let r := workSequencer B (Node.run B) k ns env
    (composite tag life .sequencer k ns).run B env =
      settle B ⟨r.status,
        composite tag { life with started := true } .sequencer r.passed r.children, r.env⟩ := by
  obtain ⟨state, started⟩ := life
  rw [run_eq, advance]
  cases started with
  | true => rfl
  | false =>
    obtain rfl := hk rfl
    rfl

/-- Where an earlier child is checked again and fails, a steady sequencer runs nothing. -/
theorem sequencerTick_of_hit (h : (composite tag life .sequencer k ns).AllSteady L) {env : Env ω}
    {j : Nat} (hj : j < k) (hhits : Hits B (·.reEvaluate) .failure ns env.board env.world j) :
    SequencerTick B life k ns env (sequencerDeeds B k ns env)
      ((composite tag life .sequencer k ns).run B env) := by
  obtain ⟨hsuspended, hbegins, hk, -⟩ := steady_place (.inl rfl) h.here
  have hzero (hs : life.started = false) : k = 0 := (hbegins hs).1
  have hstarted : life.started = true := by
    by_contra hs
    have hk0 := hzero (by simpa using hs)
    omega
  obtain ⟨c, hc, hcs⟩ := hsuspended hstarted
  have hrunning : c.state = .running :=
    (h.below (List.mem_of_getElem? hc)).here.started_iff.mp hcs
  obtain ⟨first, hle, hfirst⟩ := exists_firstHit hhits
  have hlt : first < k := Nat.lt_of_le_of_lt hle hj
  have hprobe := probeBefore_of_firstHit hk hlt hfirst
  have hdeeds : sequencerDeeds B k ns env = [.abort k] := by rw [sequencerDeeds, hprobe]
  have hrun := run_sequencer_eq B tag hzero ns env
  simp only [workSequencer_eq, hprobe] at hrun
  rw [settle_of_ne_running (by simp)] at hrun
  simp only [stop, Nat.min_eq_left hk, stopRunningAt_eq_set hc hrunning] at hrun
  rw [hrun, hdeeds]
  exact ⟨hsuspended, hzero, fun _ ↦ ⟨rfl, rfl⟩, fun hno ↦ absurd hhits (hno j hj),
    fun hno ↦ absurd hhits (hno j hj), ⟨first + 1, hlt, .abort hc hcs (.done _ _)⟩,
    fun hr ↦ nomatch hr⟩

/-- Otherwise it runs its children from where it would resume on. -/
theorem sequencerTick_of_not_hits (h : (composite tag life .sequencer k ns).AllSteady L)
    {env : Env ω} (hno : ∀ j < k, ¬ Hits B (·.reEvaluate) .failure ns env.board env.world j) :
    SequencerTick B life k ns env (sequencerDeeds B k ns env)
      ((composite tag life .sequencer k ns).run B env) := by
  obtain ⟨hsuspended, hbegins, hk, -⟩ := steady_place (.inl rfl) h.here
  have hzero (hs : life.started = false) : k = 0 := (hbegins hs).1
  have hprobe := probeBefore_of_not_hits hk hno
  have hdeeds : sequencerDeeds B k ns env =
      scanDeeds B .success k (ns.drop k) (asked B (·.reEvaluate) ns k env) := by
    rw [sequencerDeeds, hprobe]
  have hstretch := stretch_of_steady B .success (.inl rfl) h.here (asked B (·.reEvaluate) ns k env)
  have hdoing := doing_scanFrom B .success hk (asked B (·.reEvaluate) ns k env)
  have hrun := run_sequencer_eq B tag hzero ns env
  simp only [workSequencer_eq, hprobe, Nat.min_eq_left hk] at hrun
  rw [settle_halted (halted_scanFrom hk _) tag _ (.inl rfl)] at hrun
  rw [← hdeeds] at hstretch hdoing
  generalize scanFrom (run B) .success k ns (asked B (·.reEvaluate) ns k env) = r at *
  rw [hrun]
  refine ⟨hsuspended, hzero, ?_, fun _ ↦ ⟨_, hstretch⟩, fun _ ↦ hstretch.answers (by simp),
    ⟨k, Nat.le_refl k, hdoing⟩, fun hr ↦ ?_⟩
  · rintro ⟨j, hj, hhits⟩
    exact absurd hhits (hno j hj)
  · have hr : r.status = .running := hr
    obtain ⟨-, opens, hlast⟩ := hstretch.getLast? (by simp [hr])
    exact ⟨r.passed, opens, hr ▸ hlast, by simp [resume?, hr]⟩

/-- What a steady sequencer does in a tick. -/
theorem sequencerTick_of_steady (B : Behavior ο σ ω)
    (h : (composite tag life .sequencer k ns).AllSteady L) (env : Env ω) :
    SequencerTick B life k ns env (sequencerDeeds B k ns env)
      ((composite tag life .sequencer k ns).run B env) := by
  by_cases hhit : ∃ j < k, Hits B (·.reEvaluate) .failure ns env.board env.world j
  · obtain ⟨j, hj, hhits⟩ := hhit
    exact sequencerTick_of_hit h hj hhits
  · exact sequencerTick_of_not_hits h fun j hj hhits ↦ hhit ⟨j, hj, hhits⟩

/-! ### The log of an activation -/

end Node

/-- Whether deeds are a log of an activation: from the first child on, each is run until it
succeeds, which opens one activation of it, and then the next. A child that is suspended may be
aborted, and then nothing follows. -/
inductive Sequenced : List Deed → Prop where
  | nil : Sequenced []
  | first (answer : Status) : Sequenced [.run 0 true answer]
  | next {log : List Deed} {i : Nat} {opens : Bool} (h : Sequenced log)
      (hlast : log.getLast? = some (.run i opens .success)) (answer : Status) :
      Sequenced (log ++ [.run (i + 1) true answer])
  | again {log : List Deed} {i : Nat} {opens : Bool} (h : Sequenced log)
      (hlast : log.getLast? = some (.run i opens .running)) (answer : Status) :
      Sequenced (log ++ [.run i false answer])
  | close {log : List Deed} {i : Nat} {opens : Bool} (h : Sequenced log)
      (hlast : log.getLast? = some (.run i opens .running)) : Sequenced (log ++ [.abort i])

namespace Sequenced

variable {log : List Deed} {d : Deed}

/-- The activations of the children are opened in order. -/
theorem opened_of_getLast? (h : Sequenced log) (hd : log.getLast? = some d) :
    log.filterMap Deed.opened? = List.range (d.index + 1) := by
  induction h generalizing d with
  | nil => cases hd
  | first answer =>
    obtain rfl : Deed.run 0 true answer = d := Option.some.inj hd
    rfl
  | next h hlast answer ih =>
    rw [List.getLast?_concat, Option.some.injEq] at hd
    rw [List.filterMap_append, ih hlast, ← hd]
    exact List.range_succ.symm
  | again h hlast answer ih =>
    rw [List.getLast?_concat, Option.some.injEq] at hd
    rw [List.filterMap_append, ih hlast, ← hd]
    exact List.append_nil _
  | close h hlast ih =>
    rw [List.getLast?_concat, Option.some.injEq] at hd
    rw [List.filterMap_append, ih hlast, ← hd]
    exact List.append_nil _

private theorem opened (h : Sequenced log) :
    ∃ count, log.filterMap Deed.opened? = List.range count := by
  cases hd : log.getLast? with
  | none =>
    rw [List.getLast?_eq_none_iff.mp hd]
    exact ⟨0, rfl⟩
  | some d => exact ⟨d.index + 1, h.opened_of_getLast? hd⟩

/-- A deed is the last of a log or one of those before it. -/
theorem split_concat {before after : List Deed} {e : Deed} (h : log ++ [e] = before ++ d :: after) :
    (log = before ∧ e = d) ∨ ∃ after', log = before ++ d :: after' := by
  rcases List.eq_nil_or_concat after with rfl | ⟨after', e', rfl⟩
  · obtain ⟨hlog, he⟩ := List.append_inj' h rfl
    exact .inl ⟨hlog, List.singleton_inj.mp he⟩
  · rw [List.concat_eq_append, ← List.cons_append, ← List.append_assoc] at h
    exact .inr ⟨after', (List.append_inj' h rfl).1⟩

/-- A child succeeds before the next one is run for the first time. -/
theorem after_success (h : Sequenced log) {before after : List Deed} {i : Nat} {answer : Status}
    (hsplit : log = before ++ .run (i + 1) true answer :: after) :
    ∃ opens, .run i opens .success ∈ before := by
  induction h generalizing after with
  | nil => simp at hsplit
  | first answer =>
    rw [← List.nil_append [_]] at hsplit
    rcases split_concat hsplit with ⟨-, he⟩ | ⟨after', hl⟩
    · cases he
    · simp at hl
  | @next log j opens h hlast answer ih =>
    rcases split_concat hsplit with ⟨rfl, he⟩ | ⟨after', hl⟩
    · cases he
      exact ⟨opens, List.mem_of_getLast? hlast⟩
    · exact ih hl
  | again h hlast answer ih =>
    rcases split_concat hsplit with ⟨-, he⟩ | ⟨after', hl⟩
    · cases he
    · exact ih hl
  | close h hlast ih =>
    rcases split_concat hsplit with ⟨-, he⟩ | ⟨after', hl⟩
    · cases he
    · exact ih hl

/-- All children before the last that was run have succeeded. -/
theorem success_of_lt (h : Sequenced log) (hd : log.getLast? = some d) {i : Nat}
    (hi : i < d.index) : ∃ opens, .run i opens .success ∈ log := by
  have happend {l : List Deed} (e : Deed) (hl : ∃ opens, .run i opens .success ∈ l) :
      ∃ opens, .run i opens .success ∈ l ++ [e] := by
    obtain ⟨opens, hmem⟩ := hl
    exact ⟨opens, List.mem_append_left _ hmem⟩
  induction h generalizing d with
  | nil => cases hd
  | first answer =>
    obtain rfl : Deed.run 0 true answer = d := Option.some.inj hd
    exact absurd hi (Nat.not_lt_zero i)
  | @next log j opens h hlast answer ih =>
    rw [List.getLast?_concat, Option.some.injEq] at hd
    subst hd
    refine happend _ ?_
    rcases Nat.eq_or_lt_of_le (Nat.le_of_lt_succ hi) with rfl | hlt
    · exact ⟨opens, List.mem_of_getLast? hlast⟩
    · exact ih hlast hlt
  | again h hlast answer ih =>
    rw [List.getLast?_concat, Option.some.injEq] at hd
    subst hd
    exact happend _ (ih hlast hi)
  | close h hlast ih =>
    rw [List.getLast?_concat, Option.some.injEq] at hd
    subst hd
    exact happend _ (ih hlast hi)

/-- A child that has succeeded is not run again. -/
theorem lt_of_success (h : Sequenced log) (hd : log.getLast? = some d) {i : Nat} {opens : Bool}
    (hmem : .run i opens .success ∈ log) : i < d.index ∨ d = .run i opens .success := by
  induction h generalizing d with
  | nil => cases hd
  | first answer =>
    obtain rfl : Deed.run 0 true answer = d := Option.some.inj hd
    exact .inr (List.mem_singleton.mp hmem).symm
  | next h hlast answer ih =>
    rw [List.getLast?_concat, Option.some.injEq] at hd
    subst hd
    rcases List.mem_append.mp hmem with hmem | hmem
    · refine .inl ?_
      rcases ih hlast hmem with hlt | heq
      · exact Nat.lt_succ_of_lt hlt
      · cases heq
        exact Nat.lt_succ_self i
    · exact .inr (List.mem_singleton.mp hmem).symm
  | again h hlast answer ih =>
    rw [List.getLast?_concat, Option.some.injEq] at hd
    subst hd
    rcases List.mem_append.mp hmem with hmem | hmem
    · exact .inl ((ih hlast hmem).resolve_right (by simp))
    · exact .inr (List.mem_singleton.mp hmem).symm
  | close h hlast ih =>
    rw [List.getLast?_concat, Option.some.injEq] at hd
    subst hd
    rcases List.mem_append.mp hmem with hmem | hmem
    · exact .inl ((ih hlast hmem).resolve_right (by simp))
    · exact absurd (List.mem_singleton.mp hmem) (by simp)

/-- The deeds of a stretch go on with an activation. -/
theorem append (h : Sequenced log) {size index last : Nat} {resumed : Bool} {deeds : List Deed}
    {answer : Status} (hdeeds : Node.Stretch .success size resumed index deeds answer last)
    (hfirst : ∀ answer, Sequenced (log ++ [.run index (!resumed) answer])) :
    Sequenced (log ++ deeds) := by
  induction hdeeds generalizing log with
  | done => rwa [List.append_nil]
  | halt _ _ _ => exact hfirst _
  | @pass resumed index _ deeds answer last _ ih =>
    have hpassed := hfirst .success
    have hrest := ih hpassed fun answer ↦ hpassed.next (by rw [List.getLast?_concat]) answer
    rwa [List.append_assoc] at hrest

end Sequenced

/-- Whether the children of an activation are run in order: their activations are opened one by one
from the first child on, and each but the first after the child before it succeeded. -/
structure InOrder (log : List Deed) : Prop where
  opened : ∃ count, log.filterMap Deed.opened? = List.range count
  after_success : ∀ {before after : List Deed} {i : Nat} {answer : Status},
    log = before ++ .run (i + 1) true answer :: after → ∃ opens, .run i opens .success ∈ before

private theorem Sequenced.inOrder {log : List Deed} (h : Sequenced log) : InOrder log :=
  ⟨h.opened, h.after_success⟩

namespace Node

/-- What a sequencer does to its children in a tick. -/
def tickDeeds (B : Behavior ο σ ω) (n : Node σ) (env : Env ω) : List Deed :=
  match n with
  | composite _ _ .sequencer k ns => sequencerDeeds B k ns env
  | _ => []

/-- Whether a sequencer comes to another, with a log of its deeds, by ticks that it all answers
running. -/
inductive Underway (B : Behavior ο σ ω) (n : Node σ) : List Deed → Node σ → Prop where
  | begin : Underway B n [] n
  | tick {log : List Deed} {m : Node σ} (h : Underway B n log m) (env : Env ω)
      (hs : (m.run B env).status = .running) :
      Underway B n (log ++ m.tickDeeds B env) (m.run B env).node

/-- How an activation may go on that came to `m` with a log. -/
structure GoesOn (B : Behavior ο σ ω) (log : List Deed) (m : Node σ) : Prop where
  /-- On a further tick the sequencer succeeds if by then all children did. -/
  tick : ∀ env,
    let log' := log ++ m.tickDeeds B env
    InOrder log' ∧ ((m.run B env).status = .success ↔
      ∀ i < m.children.length, ∃ opens, .run i opens .success ∈ log')
  /-- When the sequencer is aborted, so is the child at which it would resume. -/
  abort : m.started = true → ∀ env, ∃ k, m.resume? = some k ∧ InOrder (log ++ [.abort k]) ∧
    Doing B [.abort k] m.children env (m.abort B env).1.children (m.abort B env).2

/-- Where the log of an activation ends while the sequencer would resume at `k`. -/
def LogEnds (log : List Deed) (life : Life) (k : Nat) : Prop :=
  if life.started then ∃ opens, log.getLast? = some (.run k opens .running) else log = []

variable {B : Behavior ο σ ω} {L : Phase → σ → Prop} {tag : Tag} {life : Life} {k : Nat}
  {ns : List (Node σ)} {env : Env ω} {log deeds : List Deed} {s : Step σ ω}

namespace SequencerTick

/-- Only a sequencer that is started has children before the one at which it would resume. -/
theorem started_of_lt (h : SequencerTick B life k ns env deeds s) {j : Nat} (hj : j < k) :
    life.started = true := by
  by_contra hs
  have hzero : k = 0 := h.begins (by simpa using hs)
  omega

/-- A tick goes on with the log. -/
theorem sequenced (h : SequencerTick B life k ns env deeds s) (hlog : Sequenced log)
    (hends : LogEnds log life k) : Sequenced (log ++ deeds) := by
  unfold LogEnds at hends
  by_cases hhit : ∃ j < k, Hits B (·.reEvaluate) .failure ns env.board env.world j
  · rw [(h.checked hhit).1]
    obtain ⟨j, hj, -⟩ := hhit
    rw [if_pos (h.started_of_lt hj)] at hends
    obtain ⟨opens, hlast⟩ := hends
    exact hlog.close hlast
  · obtain ⟨last, hstretch⟩ := h.runs fun j hj hhits ↦ hhit ⟨j, hj, hhits⟩
    refine hlog.append hstretch fun answer ↦ ?_
    cases hs : life.started with
    | true =>
      rw [if_pos hs] at hends
      obtain ⟨opens, hlast⟩ := hends
      exact hlog.again hlast answer
    | false =>
      rw [if_neg (by simp [hs])] at hends
      rw [hends, h.begins hs]
      exact .first answer

/-- The sequencer succeeds when all its children did. -/
theorem success_iff (h : SequencerTick B life k ns env deeds s) (hlog : Sequenced log)
    (hends : LogEnds log life k) :
    s.status = .success ↔ ∀ i < ns.length, ∃ opens, .run i opens .success ∈ log ++ deeds := by
  have hall := h.sequenced hlog hends
  by_cases hhit : ∃ j < k, Hits B (·.reEvaluate) .failure ns env.board env.world j
  · obtain ⟨hdeeds, hstatus⟩ := h.checked hhit
    obtain ⟨j, hj, -⟩ := hhit
    obtain ⟨c, hc, -⟩ := h.suspended (h.started_of_lt hj)
    have hk : k < ns.length := (List.getElem?_eq_some_iff.mp hc).1
    rw [hdeeds] at hall ⊢
    refine ⟨fun hs ↦ by simp [hstatus] at hs, fun hsuccess ↦ ?_⟩
    obtain ⟨opens, hmem⟩ := hsuccess k hk
    rcases hall.lt_of_success (List.getLast?_concat ..) hmem with hlt | heq
    · exact absurd hlt (Nat.lt_irrefl k)
    · cases heq
  · obtain ⟨last, hstretch⟩ := h.runs fun j hj hhits ↦ hhit ⟨j, hj, hhits⟩
    constructor
    · intro hs i hi
      rcases Nat.lt_or_ge i k with hik | hki
      · have hstarted := h.started_of_lt hik
        rw [LogEnds, if_pos hstarted] at hends
        obtain ⟨opens, hlast⟩ := hends
        obtain ⟨opens, hmem⟩ := hlog.success_of_lt hlast hik
        exact ⟨opens, List.mem_append_left _ hmem⟩
      · obtain ⟨opens, hmem⟩ := hstretch.all_passed hs hki hi
        exact ⟨opens, List.mem_append_right _ hmem⟩
    · intro hsuccess
      by_contra hs
      obtain ⟨hlt, opens, hlast⟩ := hstretch.getLast? hs
      obtain ⟨opens', hmem⟩ := hsuccess last hlt
      have hlast' : (log ++ deeds).getLast? = some (.run last opens s.status) := by
        rw [List.getLast?_append, hlast, Option.some_or]
      rcases hall.lt_of_success hlast' hmem with hlt | heq
      · exact absurd hlt (Nat.lt_irrefl last)
      · injection heq with _ _ hsuccess
        exact hs hsuccess

/-- While the sequencer is suspended, the log ends with the run of the child at which it resumes. -/
theorem logEnds (h : SequencerTick B life k ns env deeds s) (hs : s.status = .running)
    {life' : Life} {k' : Nat} (hlife : life'.started = true) (hresume : s.node.resume? = some k') :
    LogEnds (log ++ deeds) life' k' := by
  obtain ⟨i, opens, hlast, hi⟩ := h.resumes hs
  obtain rfl : k' = i := Option.some.inj (hresume.symm.trans hi)
  rw [LogEnds, if_pos hlife]
  exact ⟨opens, by rw [List.getLast?_append, hlast, Option.some_or]⟩

end SequencerTick

/-- What is left of an activation by the ticks so far: the sequencer is steady, and its log ends
where it would resume. -/
theorem Underway.spec {first m : Node σ} (hB : B.Respects L) (h : first.Underway B log m)
    (hfirst : first.AllSteady L) (hseq : first = composite tag life .sequencer k ns)
    (hs : first.started = false) :
    first.Moved B m ∧ Sequenced log ∧ ∃ life k ns, m = composite tag life .sequencer k ns ∧
      LogEnds log life k := by
  induction h with
  | begin =>
    subst hseq
    have hlife : life.started = false := hs
    exact ⟨.refl, .nil, life, k, ns, rfl, by simp [LogEnds, hlife]⟩
  | @tick log m hm env hrunning ih =>
    obtain ⟨hmoved, hlog, life', k', ns', rfl, hends⟩ := ih
    have htick := sequencerTick_of_steady B (hmoved.allSteady hB hfirst) env
    have hmoved' := hmoved.run env
    obtain ⟨life'', k'', ns'', hnode, -⟩ := (hseq ▸ hmoved').exists_composite
    have hlife : life''.started = true := by
      have hstarted := started_run B (composite tag life' .sequencer k' ns') env
      rwa [hnode, hrunning] at hstarted
    refine ⟨hmoved', htick.sequenced hlog hends, life'', k'', ns'', hnode, ?_⟩
    refine htick.logEnds hrunning hlife ?_
    rw [hnode]
    rfl

/-- A suspended sequencer that is aborted closes the activation of the child at which it would
resume. -/
theorem doing_abort_sequencer (h : (composite tag life .sequencer k ns).AllSteady L)
    (hs : life.started = true) (env : Env ω) :
    let r := (composite tag life .sequencer k ns).abort B env
    Doing B [.abort k] ns env r.1.children r.2 := by
  obtain ⟨hsuspended, -⟩ := steady_place (.inl rfl) h.here
  obtain ⟨c, hc, hcs⟩ := hsuspended hs
  have hrunning : c.state = .running :=
    (h.below (List.mem_of_getElem? hc)).here.started_iff.mp hcs
  rw [abort_of_started (n := composite tag life .sequencer k ns) hs]
  simp only [children_withLife, stop, stopRunningAt_eq_set hc hrunning]
  exact .abort hc hcs (.done _ _)

/-- The ticks of an activation have a log. -/
theorem Resumed.underway {n m : Node σ} (h : n.Resumed B m) : ∃ log, n.Underway B log m := by
  induction h with
  | refl => exact ⟨[], .begin⟩
  | run _ env hs ih =>
    obtain ⟨log, hlog⟩ := ih
    exact ⟨_, hlog.tick env hs⟩

/-- Whatever happened to a node that was not started, it is in an activation, or in none. -/
theorem Moved.underway {n m : Node σ} (hn : n.started = false) (h : n.Moved B m) :
    ∃ first log, n.Moved B first ∧ first.started = false ∧ first.Underway B log m := by
  obtain ⟨first, hfirst, hstarted, hm⟩ := h.resumed hn
  obtain ⟨log, hlog⟩ := hm.underway
  exact ⟨first, log, hfirst, hstarted, hlog⟩

/-- Whatever the ticks so far, an activation goes on as it should. -/
theorem Underway.goesOn {first m : Node σ} (hB : B.Respects L) (h : first.Underway B log m)
    (hfirst : first.AllSteady L) (hseq : first = composite tag life .sequencer k ns)
    (hs : first.started = false) : GoesOn B log m := by
  obtain ⟨hmoved, hlog, life', k', ns', rfl, hends⟩ := h.spec hB hfirst hseq hs
  have hsteady := hmoved.allSteady hB hfirst
  constructor
  · intro env
    have htick := sequencerTick_of_steady B hsteady env
    exact ⟨(htick.sequenced hlog hends).inOrder, htick.success_iff hlog hends⟩
  · intro hstarted env
    have hstarted : life'.started = true := hstarted
    rw [LogEnds, if_pos hstarted] at hends
    obtain ⟨opens, hlast⟩ := hends
    exact ⟨k', rfl, (hlog.close hlast).inOrder, doing_abort_sequencer hsteady hstarted env⟩

end Node

namespace Tree

open Node

/-- A sequencer that stands anywhere in a tree that was not used. What is done with the tree comes
down to runs and aborts of the sequencer. In every state that they lead to, it takes a tick as
`SequencerTick` says. Such a state is come to by an activation, ticks that are answered running from
one in which the sequencer is not started, and every activation goes on as `GoesOn` says. -/
theorem sequencer_activations (B : Behavior ο σ ω) {t : Tree ο σ} (h : t.root.AllUnused)
    {path : List Nat} {tag : Tag} {life : Life} {k : Nat} {ns : List (Node σ)}
    (hn : t.root.at? path = some (composite tag life .sequencer k ns)) :
    let n := composite tag life .sequencer k ns
    (∀ calls : List (Call ω), ∃ m,
      (t.serveAll B calls).tree.root.at? path = some m ∧ n.Moved B m) ∧
    (∀ m, n.Moved B m → ∃ life k ns, m = composite tag life .sequencer k ns ∧
      ∀ env, SequencerTick B life k ns env (m.tickDeeds B env) (m.run B env)) ∧
    (∀ m, n.Moved B m → ∃ first log, n.Moved B first ∧ first.started = false ∧
      first.Underway B log m) ∧
    ∀ first, n.Moved B first → first.started = false →
      ∀ log m, first.Underway B log m → GoesOn B log m := by
  intro n
  have hunused : n.AllUnused := h.at_mem (mem_preorder_of_at? hn)
  have hsteady : n.AllSteady fun _ _ ↦ True :=
    allSteady_of_allUnused hunused fun _ _ _ _ ↦ trivial
  have hstarted : n.started = false := by rw [started, hunused.here.life_eq, Life.fresh]
  refine ⟨moved_serveAll B hn, fun m hm ↦ ?_, fun m hm ↦ hm.underway hstarted,
    fun first hfirst hs log m hm ↦ ?_⟩
  · obtain ⟨life', k', ns', rfl, -⟩ := hm.exists_composite
    have hmsteady := hm.allSteady B.respects_true hsteady
    exact ⟨life', k', ns', rfl, sequencerTick_of_steady B hmsteady⟩
  · obtain ⟨life', k', ns', hseq, -⟩ := hfirst.exists_composite
    exact hm.goesOn B.respects_true (hfirst.allSteady B.respects_true hsteady) hseq hs

/-- The guard on its patrol, which waits until it has lingered. -/
theorem sequencer_activations_patrol :
    let t : Tree Owner Leaf := ⟨Guard.root 1 0.5, [], none, false, none⟩
    ∃ tag life k ns, t.root.AllUnused ∧
      t.root.at? [1, 0] = some (composite tag life .sequencer k ns) ∧
      ∀ log m, (composite tag life .sequencer k ns).Underway Leaf.behavior log m →
        GoesOn Leaf.behavior log m := by
  intro t
  have hunused := Guard.allUnused_root 1 0.5
  obtain ⟨-, -, -, hgoes⟩ := sequencer_activations Leaf.behavior hunused
    (show t.root.at? [1, 0] = some _ from rfl)
  exact ⟨_, _, _, _, hunused, rfl, hgoes _ .refl rfl⟩

end Tree

end BehaviorTree
