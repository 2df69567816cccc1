import BehaviorTree.Proofs.Node.Turns
import BehaviorTree.Proofs.Tree.Selector
import BehaviorTree.Proofs.Tree.Sequencer

/-!
# Suspended sequencers and selectors

A sequencer or selector that is suspended on a child remembers where the child stands, not which
one it is. So it keeps its place when a child is removed that stands behind it: the next tick
resumes the same child, unless an earlier one is in the way, and by the time the activation is over
the child has been stopped and none is left started.
-/

namespace BehaviorTree

variable {ο σ ω : Type}

namespace Node

/-- Whether a node is a sequencer or selector that is suspended on a child at an index, the only one
that is started. -/
inductive SuspendedOn : Node σ → Nat → Node σ → Prop where
  | mk {tag : Tag} {kind : CompositeKind} {k : Nat} {ns : List (Node σ)} {c : Node σ}
      (hkind : kind = .sequencer ∨ kind = .selector) (hc : ns[k]? = some c)
      (hlife : c.life = ⟨.running, true⟩) (honly : OnlyAt k ns) :
      SuspendedOn (composite tag ⟨.running, true⟩ kind k ns) k c

/-- Whether an earlier child is in the way of the one at which a node would resume: in a sequencer
one that is checked again and fails, in a selector one that takes over. -/
def Disturbed (B : Behavior ο σ ω) : Node σ → Env ω → Prop
  | composite _ _ .sequencer k ns, env =>
    ∃ j < k, Hits B (·.reEvaluate) .failure ns env.board env.world j
  | composite _ _ .selector k ns, env =>
    ∃ j < k, Hits B (·.hijack) .success ns env.board env.world j
  | _, _ => False

/-- What a sequencer or selector does to its children in a tick. -/
def deeds (B : Behavior ο σ ω) (n : Node σ) (env : Env ω) : List Deed :=
  match n with
  | composite _ _ .sequencer k ns => sequencerDeeds B k ns env
  | composite _ _ .selector k ns => selectorDeeds B k ns env
  | _ => []

/-- Whether a node comes to another, with a log of its deeds, by ticks that it all answers
running. -/
inductive Course (B : Behavior ο σ ω) (n : Node σ) : List Deed → Node σ → Prop where
  | begin : Course B n [] n
  | tick {log : List Deed} {m : Node σ} (h : Course B n log m) (env : Env ω)
      (hs : (m.run B env).status = .running) :
      Course B n (log ++ m.deeds B env) (m.run B env).node

variable {B : Behavior ο σ ω} {n m c : Node σ} {ns : List (Node σ)} {k : Nat} {env : Env ω}

/-! ### A tick -/

private theorem openAt_only {i : Nat} (h : OnlyAt k ns) (hi : openAt ns i = true) :
    i = k ∧ i < ns.length := by
  obtain ⟨c, hc, hs⟩ := (Option.any_eq_true ..).mp hi
  refine ⟨?_, (List.getElem?_eq_some_iff.mp hc).1⟩
  by_contra hne
  exact absurd ((h i c hc hne).symm.trans hs) (by simp)

/-- Where no activation is open no node is started. -/
theorem not_started_of_openAt (h : ∀ i, openAt ns i ≠ true) : ∀ c ∈ ns, c.started = false := by
  intro c hc
  obtain ⟨i, hi⟩ := List.mem_iff_getElem?.mp hc
  have hi' := h i
  rw [openAt_of_getElem? hi] at hi'
  simpa using hi'

/-- How a suspended sequencer or selector comes through a tick. -/
structure ComesThrough (B : Behavior ο σ ω) (k : Nat) (m : Node σ) (env : Env ω) : Prop where
  /-- Nothing is done to the children but the deeds; before, the world may be asked. -/
  doing : ∃ world, Doing B (m.deeds B env) m.children { env with world } (m.run B env).node.children
    (m.run B env).env
  /-- It resumes the child first if no other is in the way. -/
  resumes : ¬ m.Disturbed B env → ∃ answer rest, m.deeds B env = .run k false answer :: rest
  /-- Otherwise it aborts the child first. -/
  yields : m.Disturbed B env → ∃ rest, m.deeds B env = .abort k :: rest
  suspended : (m.run B env).status = .running → ∃ i d, (m.run B env).node.SuspendedOn i d
  ended : (m.run B env).status ≠ .running → ∀ d ∈ (m.run B env).node.children, d.started = false

/-- A sequencer or selector in which at most the child at an index was started comes, by running the
children from there on, to a halt at a child that it is suspended on, or at none that is started. -/
theorem halts {pass : Status} (hpass : pass ≠ .running) {index : Nat} {resumed : Bool}
    {deeds : List Deed} {r : Scan σ ω} (honly : OnlyAt index ns)
    (hdoing : Doing B deeds ns env r.children r.env)
    (hstretch : Stretch pass ns.length resumed index deeds r.status r.passed)
    (hhalted : Scan.Halted r) (tag : Tag) {kind : CompositeKind}
    (hkind : kind = .sequencer ∨ kind = .selector) :
    let m := composite tag ⟨.ofStatus r.status, r.status.isRunning⟩ kind
      (if r.status = .running then r.passed else 0) r.children
    (r.status = .running → ∃ i d, m.SuspendedOn i d) ∧
      (r.status ≠ .running → ∀ d ∈ m.children, d.started = false) := by
  have hopen (i : Nat) (hi : openAt r.children i = true) : r.status = .running ∧ i = r.passed := by
    rw [hdoing.openAt_eq] at hi
    exact hstretch.open_only hpass (fun j ↦ openAt_only honly) hi
  constructor
  · intro hs
    have hlt : r.passed < r.children.length := by
      rw [hdoing.length_eq]
      exact (hstretch.getLast? (by rw [hs]; exact Ne.symm hpass)).1
    have hd : r.children[r.passed]? = some r.children[r.passed] := List.getElem?_eq_getElem hlt
    have hlife := hhalted _ hd
    refine ⟨r.passed, r.children[r.passed], ?_⟩
    rw [hs] at hlife ⊢
    refine .mk hkind hd hlife fun i e he hne ↦ ?_
    by_contra hstarted
    have hat : openAt r.children i = true := by
      rw [openAt_of_getElem? he]
      simpa using hstarted
    exact hne (hopen i hat).2
  · intro hs
    exact not_started_of_openAt fun i hi ↦ hs (hopen i hi).1

/-- A stretch that resumes a child begins with a run of it. -/
theorem Stretch.resumes {pass answer : Status} {size index last : Nat} {deeds : List Deed}
    (h : Stretch pass size true index deeds answer last) (hi : index < size) :
    ∃ first rest, deeds = .run index false first :: rest := by
  generalize hr : true = resumed at h
  cases h with
  | done => exact absurd hi (Nat.lt_irrefl _)
  | halt => exact ⟨_, [], by rw [← hr]; rfl⟩
  | pass => exact ⟨_, _, by rw [← hr]; rfl⟩

private theorem not_started_set (h : OnlyAt k ns) {d : Node σ} (hd : d.started = false) :
    ∀ e ∈ ns.set k d, e.started = false := by
  intro e he
  obtain ⟨i, hi⟩ := List.mem_iff_getElem?.mp he
  rw [List.getElem?_set] at hi
  split at hi
  · split at hi
    · exact Option.some.inj hi ▸ hd
    · cases hi
  · next hne => exact h i e hi (Ne.symm hne)

/-- Where no child is in the way, the children are run from the one on that is resumed. -/
theorem comesThrough_scan {pass : Status} (hpass : pass ≠ .running) (hc : ns[k]? = some c)
    (hlife : c.life = ⟨.running, true⟩) (honly : OnlyAt k ns) (tag : Tag) {kind : CompositeKind}
    (hkind : kind = .sequencer ∨ kind = .selector) (world : ω) (hno : ¬ m.Disturbed B env)
    (hm : m = composite tag ⟨.running, true⟩ kind k ns)
    (hdeeds : m.deeds B env = scanDeeds B pass k (ns.drop k) { env with world })
    (hrun : m.run B env =
      let r := scanFrom (Node.run B) pass k ns { env with world }
      ⟨r.status, composite tag ⟨.ofStatus r.status, r.status.isRunning⟩ kind
        (if r.status = .running then r.passed else 0) r.children, r.env⟩) :
    ComesThrough B k m env := by
  have hlt : k < ns.length := (List.getElem?_eq_some_iff.mp hc).1
  have hstarted : c.started = true := by rw [started, hlife]
  have hdoing := doing_scanFrom B pass (Nat.le_of_lt hlt) { env with world }
  have hstretch := stretch_scanFrom B pass (Nat.le_of_lt hlt) true
    (fun d hd ↦ Option.some.inj (hc.symm.trans hd) ▸ hstarted) honly.behind { env with world }
  have hhalts := halts hpass honly hdoing hstretch (halted_scanFrom (Nat.le_of_lt hlt) _) tag hkind
  rw [← hdeeds] at hdoing hstretch
  generalize scanFrom (Node.run B) pass k ns { env with world } = r at *
  subst hm
  constructor
  · rw [hrun]
    exact ⟨world, hdoing⟩
  · exact fun _ ↦ hstretch.resumes hlt
  · exact fun hd ↦ absurd hd hno
  · rw [hrun]
    exact hhalts.1
  · rw [hrun]
    exact hhalts.2

private theorem comesThrough_sequencer (hc : ns[k]? = some c) (hlife : c.life = ⟨.running, true⟩)
    (honly : OnlyAt k ns) (tag : Tag) (env : Env ω) :
    ComesThrough B k (composite tag ⟨.running, true⟩ .sequencer k ns) env := by
  have hk : k ≤ ns.length := Nat.le_of_lt (List.getElem?_eq_some_iff.mp hc).1
  have hbegins : (⟨.running, true⟩ : Life).started = false → k = 0 := Bool.noConfusion
  have hrun := run_sequencer_eq B tag hbegins ns env
  by_cases hhit : ∃ j < k, Hits B (·.reEvaluate) .failure ns env.board env.world j
  · obtain ⟨j, hj, hhits⟩ := hhit
    obtain ⟨first, hle, hfirst⟩ := exists_firstHit hhits
    have hprobe := probeBefore_of_firstHit hk (Nat.lt_of_le_of_lt hle hj) hfirst
    have hdeeds : sequencerDeeds B k ns env = [.abort k] := by rw [sequencerDeeds, hprobe]
    have hstate : c.state = .running := by rw [state, hlife]
    have hstarted : c.started = true := by rw [started, hlife]
    simp only [workSequencer_eq, hprobe] at hrun
    rw [settle_of_ne_running (by simp)] at hrun
    simp only [stop, Nat.min_eq_left hk, stopRunningAt_eq_set hc hstate] at hrun
    constructor
    · rw [hrun, deeds, hdeeds]
      exact ⟨_, .abort hc hstarted (.done _ _)⟩
    · exact fun hno ↦ absurd ⟨j, hj, hhits⟩ hno
    · exact fun _ ↦ ⟨[], hdeeds⟩
    · rw [hrun]
      exact Status.noConfusion
    · rw [hrun]
      exact fun _ ↦ not_started_set honly (started_abort B c _)
  · have hprobe := probeBefore_of_not_hits hk fun j hj hhits ↦ hhit ⟨j, hj, hhits⟩
    simp only [workSequencer_eq, hprobe, Nat.min_eq_left hk] at hrun
    rw [settle_halted (halted_scanFrom hk _) tag _ (.inl rfl)] at hrun
    refine comesThrough_scan (by simp) hc hlife honly tag (.inl rfl) _ hhit rfl ?_ hrun
    rw [deeds, sequencerDeeds, hprobe]
    rfl

private theorem comesThrough_selector (hc : ns[k]? = some c) (hlife : c.life = ⟨.running, true⟩)
    (honly : OnlyAt k ns) (tag : Tag) (env : Env ω) :
    ComesThrough B k (composite tag ⟨.running, true⟩ .selector k ns) env := by
  have hk : k ≤ ns.length := Nat.le_of_lt (List.getElem?_eq_some_iff.mp hc).1
  have hbegins : (⟨.running, true⟩ : Life).started = false → k = 0 := Bool.noConfusion
  have hrun := run_selector_eq B tag hbegins ns env
  by_cases hhit : ∃ j < k, Hits B (·.hijack) .success ns env.board env.world j
  · obtain ⟨j, hj, hhits⟩ := hhit
    obtain ⟨first, hle, hfirst⟩ := exists_firstHit hhits
    have hlt : first < k := Nat.lt_of_le_of_lt hle hj
    have hstarted : c.started = true := by rw [started, hlife]
    let env' := asked B (·.hijack) ns (first + 1) env
    let ms := ns.set k (c.abort B env').1
    have hprobe : probeBefore B (·.hijack) .success k ns env = (some first, env') :=
      probeBefore_of_firstHit hk hlt hfirst
    have habort : abortAt B ns k env' = (ms, (c.abort B env').2) := abortAt_eq_set hc env'
    have hdeeds : selectorDeeds B k ns env =
        .abort k :: scanDeeds B .failure first (ms.drop first) (c.abort B env').2 := by
      simp only [selectorDeeds, hprobe, habort]
    have hquiet : ∀ d ∈ ms, d.started = false := not_started_set honly (started_abort B c _)
    have hindex : first ≤ ms.length := by
      rw [List.length_set]
      omega
    have hdoing := doing_scanFrom B .failure hindex (c.abort B env').2
    have hstretch := stretch_scanFrom B .failure hindex false
      (fun d hd ↦ hquiet d (List.mem_of_getElem? hd))
      (fun d hd ↦ hquiet d (List.mem_of_mem_drop hd)) (c.abort B env').2
    have hhalts := halts (by simp) (onlyAt_of_none hquiet) hdoing hstretch
      (halted_scanFrom hindex (c.abort B env').2) tag (.inr rfl)
    simp only [workSelector_eq, hprobe, Nat.min_eq_left hk, habort] at hrun
    generalize scanFrom (run B) .failure first ms (c.abort B env').2 = r at *
    constructor
    · rw [hrun, deeds, hdeeds]
      exact ⟨_, .abort hc hstarted hdoing⟩
    · exact fun hno ↦ absurd ⟨j, hj, hhits⟩ hno
    · exact fun _ ↦ ⟨_, hdeeds⟩
    · rw [hrun]
      exact hhalts.1
    · rw [hrun]
      exact hhalts.2
  · have hprobe := probeBefore_of_not_hits hk fun j hj hhits ↦ hhit ⟨j, hj, hhits⟩
    simp only [workSelector_eq, hprobe, Nat.min_eq_left hk] at hrun
    refine comesThrough_scan (by simp) hc hlife honly tag (.inr rfl) _ hhit rfl ?_ hrun
    rw [deeds, selectorDeeds, hprobe]
    rfl

/-- What a suspended sequencer or selector does in a tick. -/
theorem SuspendedOn.comesThrough (h : m.SuspendedOn k c) (env : Env ω) :
    ComesThrough B k m env := by
  obtain ⟨rfl | rfl, hc, hlife, honly⟩ := h
  · exact comesThrough_sequencer hc hlife honly _ env
  · exact comesThrough_selector hc hlife honly _ env

/-- An abort is passed on to the child, and no child is started afterwards. -/
theorem SuspendedOn.abort (h : m.SuspendedOn k c) (env : Env ω) :
    let r := m.abort B env
    Doing B [.abort k] m.children env r.1.children r.2 ∧
      ∀ d ∈ r.1.children, d.started = false := by
  obtain @⟨tag, kind, k, ns, c, hkind, hc, hlife, honly⟩ := h
  have hstate : c.state = .running := by rw [state, hlife]
  have hstarted : c.started = true := by rw [started, hlife]
  have hstop : (composite tag ⟨.running, true⟩ kind k ns).stop B env =
      (composite tag ⟨.running, true⟩ kind 0 (ns.set k (c.abort B env).1), (c.abort B env).2) := by
    rcases hkind with rfl | rfl <;> simp only [stop, stopRunningAt_eq_set hc hstate]
  rw [abort_of_started rfl, hstop]
  exact ⟨.abort hc hstarted (.done _ _), not_started_set honly (started_abort B c env)⟩

private theorem SuspendedOn.resume (h : m.SuspendedOn k c) : m.resume? = some k := by
  cases h
  rfl

private theorem SuspendedOn.openAt (h : m.SuspendedOn k c) : openAt m.children k = true := by
  obtain ⟨-, hc, hlife, -⟩ := h
  rw [children, openAt_of_getElem? hc, started, hlife]

/-! ### Until it stops -/

/-- Ticks that a suspended node answers running leave it suspended, and those activations open that
the log leaves open. -/
theorem Course.suspended {log : List Deed} (h : Course B n log m) (hn : n.SuspendedOn k c) :
    (∃ i d, m.SuspendedOn i d) ∧
      Node.openAt m.children = openAfter (Node.openAt n.children) log := by
  induction h with
  | begin => exact ⟨⟨k, c, hn⟩, rfl⟩
  | tick _ env hs ih =>
    obtain ⟨⟨i, d, hm⟩, hopen⟩ := ih
    have htick := hm.comesThrough (B := B) env
    obtain ⟨world, hdoing⟩ := htick.doing
    refine ⟨htick.suspended hs, ?_⟩
    rw [hdoing.openAt_eq, hopen, openAfter_append]

/-- Whether a suspended sequencer or selector holds its place at a child until it stops. -/
structure HoldsPlace (B : Behavior ο σ ω) (k : Nat) (c m : Node σ) : Prop where
  suspended : m.SuspendedOn k c
  /-- In the next tick the child is resumed before anything is done to another one, if no other is
  in the way. -/
  resumes : ∀ env, ¬ m.Disturbed B env → ∃ answer rest, m.deeds B env = .run k false answer :: rest
  /-- Otherwise it is aborted first. -/
  yields : ∀ env, m.Disturbed B env → ∃ rest, m.deeds B env = .abort k :: rest
  /-- In each tick nothing is done to the children but the deeds; before, the world may be asked. -/
  doing : ∀ {log : List Deed} {p : Node σ}, Course B m log p → ∀ env, ∃ world,
    Doing B (p.deeds B env) p.children { env with world } (p.run B env).node.children
      (p.run B env).env
  /-- When a tick ends the activation, that of the child was closed, and no child is started. -/
  ended : ∀ {log : List Deed} {p : Node σ}, Course B m log p → ∀ env,
    (p.run B env).status ≠ .running →
      Closes k (log ++ p.deeds B env) ∧ ∀ d ∈ (p.run B env).node.children, d.started = false
  /-- So it is when the activation is aborted. -/
  aborted : ∀ {log : List Deed} {p : Node σ}, Course B m log p → ∀ env, ∃ i,
    Doing B [.abort i] p.children env (p.abort B env).1.children (p.abort B env).2 ∧
      Closes k (log ++ [.abort i]) ∧ ∀ d ∈ (p.abort B env).1.children, d.started = false

/-- An activation of a child that was open is closed by deeds after which no child is started. -/
theorem closes_of_not_started {log : List Deed} {ms : List (Node σ)}
    (hopen : Node.openAt ns k = true) (hms : Node.openAt ms = openAfter (Node.openAt ns) log)
    (hs : ∀ d ∈ ms, d.started = false) : Closes k log := by
  refine closes_of_open hopen ?_
  rw [← hms, Node.openAt]
  cases hd : ms[k]? with
  | none => rfl
  | some d => exact hs d (List.mem_of_getElem? hd)

private theorem SuspendedOn.holdsPlace (h : m.SuspendedOn k c) : HoldsPlace B k c m where
  suspended := h
  resumes env := (h.comesThrough env).resumes
  yields env := (h.comesThrough env).yields
  doing hp env := by
    obtain ⟨⟨i, d, hsuspended⟩, -⟩ := hp.suspended h
    exact (hsuspended.comesThrough env).doing
  ended hp env hs := by
    obtain ⟨⟨i, d, hsuspended⟩, hopen⟩ := hp.suspended h
    have htick := hsuspended.comesThrough (B := B) env
    obtain ⟨world, hdoing⟩ := htick.doing
    refine ⟨closes_of_not_started h.openAt ?_ (htick.ended hs), htick.ended hs⟩
    rw [hdoing.openAt_eq, hopen, openAfter_append]
  aborted hp env := by
    obtain ⟨⟨i, d, hsuspended⟩, hopen⟩ := hp.suspended h
    obtain ⟨hdoing, hnone⟩ := hsuspended.abort (B := B) env
    refine ⟨i, hdoing, closes_of_not_started h.openAt ?_ hnone, hnone⟩
    rw [hdoing.openAt_eq, hopen, openAfter_append]

/-! ### Removals -/

/-- Behind the child on which a node is suspended another one can be removed. -/
theorem SuspendedOn.removeChild (h : m.SuspendedOn k c) {index : Nat} (hi : k < index)
    {d m' : Node σ} (hr : m.removeChild index = some (d, m')) : m'.SuspendedOn k c := by
  obtain @⟨tag, kind, k, ns, c, hkind, hc, hlife, honly⟩ := h
  obtain ⟨e, he, heq⟩ := Option.map_eq_some_iff.mp hr
  obtain ⟨rfl, rfl⟩ := Prod.ext_iff.mp heq
  have hlt : index < ns.length := (List.getElem?_eq_some_iff.mp he).1
  rw [Nat.min_eq_left (by omega)]
  refine .mk hkind ?_ hlife fun i n hn hne ↦ ?_
  · rw [List.getElem?_eraseIdx_of_lt hi]
    exact hc
  · rw [List.getElem?_eraseIdx] at hn
    split at hn
    · exact honly i n hn hne
    · exact honly (i + 1) n hn (by omega)

/-- Runs and aborts leave a sequencer or selector that is started suspended on a child. -/
theorem exists_suspendedOn {tag : Tag} {kind : CompositeKind}
    (hkind : kind = .sequencer ∨ kind = .selector) (hu : (newComposite tag kind ns).AllUnused)
    (hm : (newComposite tag kind ns).Moved B m) (hs : m.started = true) :
    ∃ k c, m.SuspendedOn k c := by
  have hsteady : m.AllSteady fun _ _ ↦ True :=
    hm.allSteady B.respects_true (allSteady_of_allUnused hu fun _ _ _ _ ↦ trivial)
  obtain ⟨life, k, ms, rfl, -⟩ := hm.exists_composite
  have hrunning := hsteady.here.started_iff.mp hs
  obtain ⟨hsuspended, -, -, honly⟩ := steady_place hkind hsteady.here
  obtain ⟨c, hc, hcs⟩ := hsuspended hs
  have hcrunning := (hsteady.below (List.mem_of_getElem? hc)).here.started_iff.mp hcs
  obtain ⟨state, started⟩ := life
  obtain rfl : started = true := hs
  obtain rfl : state = .running := hrunning
  have hlife : c.life = ⟨c.state, c.started⟩ := rfl
  rw [hcrunning, hcs] at hlife
  exact ⟨k, c, .mk hkind hc hlife honly⟩

/-- Whatever runs and aborts have made of a sequencer or selector that was not used, if it is
started it is suspended on a child. And wherever a sequencer or selector is suspended on a child,
and a child is removed that stands behind this one, it holds its place: the next tick resumes the
child, unless an earlier one is in the way, and when the activation is over the child has been
stopped and no child is started. -/
theorem removal_holds_place (B : Behavior ο σ ω) :
    (∀ {tag kind ns} {m : Node σ}, kind = .sequencer ∨ kind = .selector →
      (newComposite tag kind ns).AllUnused → (newComposite tag kind ns).Moved B m →
      m.started = true → ∃ k c, m.SuspendedOn k c) ∧
    ∀ {m c : Node σ} {k : Nat}, m.SuspendedOn k c →
      ∀ {index : Nat} {d m' : Node σ}, k < index → m.removeChild index = some (d, m') →
        HoldsPlace B k c m' := by
  constructor
  · intro tag kind ns m hkind hu hm hs
    exact exists_suspendedOn hkind hu hm hs
  · intro m c k h index d m' hi hr
    exact (h.removeChild hi hr).holdsPlace

/-- A leaf that gives an answer and does nothing else. -/
def answering (number : Nat) (answer : Status) : Node Leaf :=
  newLeaf (.plain (.ofNat number) "Action") (.commanded [] none answer .failure)

/-- A sequencer that is suspended on the second of three children, after a tick. -/
def halfway : Node Leaf :=
  let env : Env World := ⟨⟨.initial, ⟨1⟩⟩, (Scope.empty ⟨0⟩).alone⟩
  ((newComposite (.plain (.ofNat 0) "Sequencer") .sequencer
    [answering 1 .success, answering 2 .running, answering 3 .success]).run Leaf.behavior env).node

/-- The last child is removed from it. -/
theorem removal_holds_place_last :
    ∃ c d m, halfway.SuspendedOn 1 c ∧ halfway.removeChild 2 = some (d, m) ∧
      HoldsPlace Leaf.behavior 1 c m := by
  obtain ⟨hreached, hremoved⟩ := removal_holds_place Leaf.behavior
  have hunused : (newComposite (.plain (.ofNat 0) "Sequencer") .sequencer
      [answering 1 .success, answering 2 .running, answering 3 .success]).AllUnused := by
    refine allUnused_newComposite fun c hc ↦ ?_
    simp only [List.mem_cons, List.not_mem_nil, or_false] at hc
    rcases hc with rfl | rfl | rfl <;> exact allUnused_newLeaf _ _
  obtain ⟨k, c, h⟩ := hreached (.inl rfl) hunused (Moved.refl.run _) rfl
  have h : halfway.SuspendedOn k c := h
  obtain ⟨d, m, hr⟩ : ∃ d m, halfway.removeChild 2 = some (d, m) := ⟨_, _, rfl⟩
  obtain rfl : 1 = k := Option.some.inj h.resume
  exact ⟨c, d, m, h, hr, hremoved h (by decide) hr⟩

/-- If the first child is removed instead, the next tick runs the last one and succeeds, and the
child on which the sequencer was suspended stays started. -/
theorem removal_loses_place_first :
    let env : Env World := ⟨⟨.initial, ⟨1⟩⟩, (Scope.empty ⟨0⟩).alone⟩
    ∃ c d m, halfway.SuspendedOn 1 c ∧ halfway.removeChild 0 = some (d, m) ∧
      m.children[0]? = some c ∧ ¬ m.Disturbed Leaf.behavior env ∧
      m.deeds Leaf.behavior env = [.run 1 true .success] ∧
      (m.run Leaf.behavior env).status = .success ∧
      ∃ e ∈ (m.run Leaf.behavior env).node.children[0]?, e.started = true := by
  intro env
  refine ⟨_, _, _, .mk (.inl rfl) rfl rfl fun i c hc hne ↦ ?_, rfl, rfl, ?_, rfl, rfl, _, rfl, rfl⟩
  · match i, hne with
    | 0, _ => obtain rfl := Option.some.inj hc; rfl
    | 2, _ => obtain rfl := Option.some.inj hc; rfl
    | i + 3, _ => cases hc
  · rintro ⟨j, hj, n, hn, hflag, -⟩
    obtain rfl : j = 0 := Nat.lt_one_iff.mp hj
    obtain rfl := Option.some.inj hn
    cases hflag

end Node

end BehaviorTree
