import BehaviorTree.Proofs.Twin.Stop

/-!
# Running twins

Runs of twins go side by side: they answer the same, call the same hooks with the same effects, and
leave twins. A start is where what twins may differ in is reset.
-/

namespace BehaviorTree

variable {ο σ κ ω : Type}

private theorem Life.Alike.opened {strict : Prop} {l l' : Life} (h : l.Alike strict l') :
    Life.Alike strict { l with started := true } { l' with started := true } where
  started := rfl
  running := h.running
  same hs := by rw [h.same hs]

namespace Node

variable {B : Behavior ο σ ω} {part : σ → κ} {strict : Prop} {r : Link}
  {pairs rest : List (Node σ × Node σ)} {env env' : Env ω}

/-- Starting twins opens an activation of both. -/
theorem begin_paired (hB : B.Blind) (hR : B.Resets part) {n n' : Node σ}
    (h : Paired part strict r ((n, n') :: rest) env env') :
    let x := n.begin B env
    let x' := n'.begin B env'
    x.1.started = true ∧ Paired part strict r ((x.1, x'.1) :: rest) x.2 x'.2 := by
  have heq := h.head.started_eq
  cases hs : n.started with
  | true =>
    have hs' : n'.started = true := heq.symm.trans hs
    have hb : n.begin B env = (n, env) := by simp [begin, hs]
    have hb' : n'.begin B env' = (n', env') := by simp [begin, hs']
    rw [hb, hb']
    exact ⟨hs, h⟩
  | false =>
    have hs' : n'.started = false := heq.symm.trans hs
    simp only [begin, hs, hs', Bool.false_eq_true, if_false]
    cases n with
    | leaf tag life s =>
      obtain ⟨life', s', rfl, hl, hp, -⟩ := h.head.leaf_left
      have he : B.start s' env'.board env'.world = B.start s env.board env.world := by
        rw [← h.world, ← hR.start env'.board env.world hp]
        exact hB.start s env.world h.contents.symm
      simp only [he]
      refine ⟨rfl, (h.replace ?_ (by simp) (by simp)).after _⟩
      exact .leaf hl.opened rfl fun _ ↦ rfl
    | composite tag life kind resume children =>
      obtain ⟨life', pairs, rfl, rfl, hl, hp⟩ := h.head.composite_left
      exact ⟨rfl, h.replace (.composite hl.opened hp) (by simp) (by simp)⟩
    | decorator tag life kind memory child =>
      cases child with
      | none =>
        obtain ⟨life', memory', rfl, hl, hm, -⟩ := h.head.decorator_none_left
        refine ⟨rfl, h.replace (.decorator_none hl.opened (hm.counts 0 0) fun _ ↦ rfl) ?_ ?_⟩
        · intro i
          exact Nat.le_of_eq rfl
        · intro i
          exact Nat.le_of_eq rfl
      | some c =>
        obtain ⟨life', memory', c', rfl, hl, hm, -, hc⟩ := h.head.decorator_some_left
        refine ⟨rfl, h.replace (.decorator_some hl.opened (hm.counts 0 0) (fun _ ↦ rfl) hc) ?_ ?_⟩
        · intro i
          exact Nat.le_of_eq rfl
        · intro i
          exact Nat.le_of_eq rfl

/-- Whether two steps answer the same and come out side by side. -/
def StepOnward (part : σ → κ) (strict : Prop) (r : Link) (rest : List (Node σ × Node σ))
    (s s' : Step σ ω) : Prop :=
  s.status = s'.status ∧ Onward part strict r rest (s.node, s.env) (s'.node, s'.env)

/-- Whether runs of two nodes go side by side, whenever the runs do before. -/
def RunsOnward (B : Behavior ο σ ω) (part : σ → κ) (strict : Prop) (n n' : Node σ) : Prop :=
  ∀ {r : Link} {rest : List (Node σ × Node σ)} {env env' : Env ω},
    Paired part strict r ((n, n') :: rest) env env' →
      StepOnward part strict r rest (n.run B env) (n'.run B env')

/-- Settling after steps side by side. -/
theorem settle_onward (hB : B.Blind) {s s' : Step σ ω}
    (h : StepOnward part strict r rest s s') (hs : s.node.started = true) :
    StepOnward part strict r rest (settle B s) (settle B s') := by
  obtain ⟨hstatus, r₁, hext, hp⟩ := h
  by_cases hr : s.status = .running
  · rw [settle_of_running hr, settle_of_running (hstatus.symm.trans hr)]
    exact ⟨rfl, r₁, hext, hp.withLife fun _ ↦ hs⟩
  · obtain ⟨r₂, hext₂, hp₂⟩ := stop_onward hB hs (fun c _ c' ↦ abort_onward hB c c') hp
    rw [settle_of_ne_running hr, settle_of_ne_running (hstatus ▸ hr), hstatus]
    exact ⟨rfl, r₂, hext₂.trans hext, hp₂.withLife fun hf ↦ by cases hf⟩

/-! ### Loops over children -/

/-- Whether two loops over children answer the same, in the same place, and come out side by
side. -/
structure ScanOnward (part : σ → κ) (strict : Prop) (r : Link) (rest : List (Node σ × Node σ))
    (q q' : Scan σ ω) : Prop where
  status : q.status = q'.status
  passed : q.passed = q'.passed
  children : OnwardAll part strict r rest (q.children, q.env) (q'.children, q'.env)

private theorem scan_onward (pass : Status) (ih : ∀ p ∈ pairs, RunsOnward B part strict p.1 p.2)
    (h : Paired part strict r (pairs ++ rest) env env') :
    ScanOnward part strict r rest (scan (run B) pass (pairs.map Prod.fst) env)
      (scan (run B) pass (pairs.map Prod.snd) env') := by
  induction pairs generalizing r rest env env' with
  | nil => exact ⟨rfl, rfl, r, [], Link.Extends.refl r, rfl, rfl, h⟩
  | cons p pairs rest_ih =>
    have hp := ih p (by simp) h
    rw [List.map_cons, List.map_cons]
    by_cases hs : (p.1.run B env).status = pass
    · obtain ⟨hstatus, r₁, hext, hp⟩ := hp
      have hr := rest_ih (fun q hq ↦ ih q (by simp [hq])) (hp.perm List.perm_middle)
      rw [scan_cons_of_pass hs, scan_cons_of_pass (hstatus.symm.trans hs)]
      exact ⟨hr.status, congrArg (· + 1) hr.passed, hr.children.behind_first hext⟩
    · rw [scan_cons_of_ne hs, scan_cons_of_ne (hp.1 ▸ hs)]
      exact ⟨hp.1, rfl, .head hp.2⟩

private theorem scanFrom_onward (pass : Status) (index : Nat)
    (ih : ∀ p ∈ pairs, RunsOnward B part strict p.1 p.2)
    (h : Paired part strict r (pairs ++ rest) env env') :
    ScanOnward part strict r rest (scanFrom (run B) pass index (pairs.map Prod.fst) env)
      (scanFrom (run B) pass index (pairs.map Prod.snd) env') := by
  have hperm : (pairs.drop index ++ (pairs.take index ++ rest)).Perm (pairs ++ rest) := by
    rw [← List.append_assoc]
    refine List.perm_append_comm.append_right rest |>.trans ?_
    rw [List.take_append_drop]
  have hr := scan_onward pass (fun p hp ↦ ih p (List.mem_of_mem_drop hp)) (h.perm hperm)
  simp only [scanFrom, ← List.map_drop, ← List.map_take]
  exact ⟨hr.status, congrArg (index + ·) hr.passed, hr.children.behind⟩

private theorem sweep_onward (ih : ∀ p ∈ pairs, RunsOnward B part strict p.1 p.2)
    (h : Paired part strict r (pairs ++ rest) env env') :
    let q := sweep (run B) (pairs.map Prod.fst) env
    let q' := sweep (run B) (pairs.map Prod.snd) env'
    q.statuses = q'.statuses ∧
      OnwardAll part strict r rest (q.children, q.env) (q'.children, q'.env) := by
  induction pairs generalizing r rest env env' with
  | nil => exact ⟨rfl, r, [], Link.Extends.refl r, rfl, rfl, h⟩
  | cons p pairs rest_ih =>
    obtain ⟨hstatus, r₁, hext, hp⟩ := ih p (by simp) h
    obtain ⟨hr, hall⟩ := rest_ih (fun q hq ↦ ih q (by simp [hq])) (hp.perm List.perm_middle)
    exact ⟨by simp only [List.map_cons, sweep, hstatus, hr], hall.behind_first hext⟩

/-- Probes of earlier children give the same hit and leave the same world. -/
theorem probeBefore_paired (hB : B.Blind) (hR : B.Resets part) (flag : Flags → Bool)
    (wanted : Status) (resume : Nat) (h : Paired part strict r (pairs ++ rest) env env') :
    ∃ hit w, probeBefore B flag wanted resume (pairs.map Prod.fst) env =
        (hit, { env with world := w }) ∧
      probeBefore B flag wanted resume (pairs.map Prod.snd) env' =
        (hit, { env' with world := w }) := by
  have ht : ∀ p ∈ pairs.take (min resume pairs.length), Twins part strict r p.1 p.2 :=
    fun p hp ↦ h.twins p (List.mem_append_left _ (List.mem_of_mem_take hp))
  have heq := Twins.probe_eq hB hR h.matching ht h.board flag wanted env'.world
  refine ⟨_, _, rfl, ?_⟩
  simp only [probeBefore, List.length_map, ← List.map_take, heq, h.world]

private theorem workSequencer_onward (hB : B.Blind) (hR : B.Resets part) (resume : Nat)
    (ih : ∀ p ∈ pairs, RunsOnward B part strict p.1 p.2)
    (h : Paired part strict r (pairs ++ rest) env env') :
    ScanOnward part strict r rest (workSequencer B (run B) resume (pairs.map Prod.fst) env)
      (workSequencer B (run B) resume (pairs.map Prod.snd) env') := by
  obtain ⟨hit, w, hl, hr⟩ := probeBefore_paired hB hR (·.reEvaluate) .failure resume h
  rw [workSequencer_eq, workSequencer_eq, hl, hr, List.length_map, List.length_map]
  cases hit with
  | some first =>
    exact ⟨rfl, rfl, r, pairs, Link.Extends.refl r, rfl, rfl, h.withWorld w⟩
  | none => exact scanFrom_onward .success _ ih (h.withWorld w)

private theorem workSelector_onward (hB : B.Blind) (hR : B.Resets part) (resume : Nat)
    (ih : ∀ c : Node σ, c.size ≤ sizes (pairs.map Prod.fst) →
      ∀ c' : Node σ, RunsOnward B part strict c c')
    (h : Paired part strict r (pairs ++ rest) env env') :
    ScanOnward part strict r rest (workSelector B (run B) resume (pairs.map Prod.fst) env)
      (workSelector B (run B) resume (pairs.map Prod.snd) env') := by
  obtain ⟨hit, w, hl, hr⟩ := probeBefore_paired hB hR (·.hijack) .success resume h
  rw [workSelector_eq, workSelector_eq, hl, hr, List.length_map, List.length_map]
  cases hit with
  | some first =>
    obtain ⟨r₁, qs, hext, hleft, hright, hp⟩ :=
      abortAt_onward hB (min resume pairs.length) (h.withWorld w)
    have hsize (q : Node σ × Node σ) (hq : q ∈ qs) : q.1.size ≤ sizes (pairs.map Prod.fst) := by
      have hmem := List.mem_map_of_mem (f := Prod.fst) hq
      rw [← hleft] at hmem
      exact size_le_of_mem_abortAt hmem
    have hscan := scanFrom_onward .failure first (fun q hq ↦ ih q.1 (hsize q hq) q.2) hp
    rw [← hleft, ← hright] at hscan
    obtain ⟨r₂, qs₂, hext₂, hall⟩ := hscan.children
    exact ⟨hscan.status, hscan.passed, r₂, qs₂, hext₂.trans hext, hall⟩
  | none =>
    refine scanFrom_onward .failure _ (fun p hp ↦ ?_) (h.withWorld w)
    exact ih p.1 (size_le_sizes (List.mem_map_of_mem hp)) p.2

/-! ### Decorators -/

/-- Both decorators are given one count. -/
theorem Paired.counts {tag : Tag} {life life' : Life} {kind : DecoratorKind}
    {memory memory' : Memory} {c c' : Node σ} (count : UInt32)
    (h : Paired part strict r
      ((decorator tag life kind memory (some c), decorator tag life' kind memory' (some c')) ::
        rest) env env') :
    Paired part strict r
      ((decorator tag life kind { memory with count } (some c),
        decorator tag life' kind { memory' with count } (some c')) :: rest) env env' := by
  obtain ⟨_, _, _, hn, hl, hm, -, hc⟩ := h.head.decorator_some_left
  cases hn
  refine h.replace (.decorator_some hl (hm.counts count count) (fun _ ↦ rfl) hc) ?_ ?_
  · intro i
    exact Nat.le_of_eq rfl
  · intro i
    exact Nat.le_of_eq rfl

private theorem workLoop_onward (hB : B.Blind) {tag : Tag} {life life' : Life}
    {limit : Option UInt32} {memory memory' : Memory} {c c' : Node σ}
    (hcount : memory.count = memory'.count)
    (ih : RunsOnward B part strict c c')
    (h : Paired part strict r
      ((decorator tag life (.loop limit) memory (some c),
        decorator tag life' (.loop limit) memory' (some c')) :: rest) env env') :
    let q := workDecorator B (run B) (.loop limit) memory c env
    let q' := workDecorator B (run B) (.loop limit) memory' c' env'
    q.1.status = q'.1.status ∧ Onward part strict r rest
      (decorator tag life (.loop limit) q.2 (some q.1.node), q.1.env)
      (decorator tag life' (.loop limit) q'.2 (some q'.1.node), q'.1.env) := by
  have hreached : memory.reached limit = memory'.reached limit := by
    cases limit with
    | none => rfl
    | some limit => simp only [Memory.reached, hcount]
  have hcounted : memory'.counted = { memory' with count := memory.counted.count } := by
    simp only [Memory.counted, hcount]
  have hcounted_reached : memory.counted.reached limit = memory'.counted.reached limit := by
    cases limit with
    | none => rfl
    | some limit => simp only [Memory.reached, hcounted]
  cases hr : memory.reached limit with
  | true =>
    rw [workDecorator_loop_of_reached hr, workDecorator_loop_of_reached (hreached.symm.trans hr)]
    exact ⟨rfl, r, Link.Extends.refl r, h⟩
  | false =>
    have hr' := hreached.symm.trans hr
    obtain ⟨hstatus, r₁, hext, hp⟩ := ih h.openDecorator
    by_cases hs : (c.run B env).status = .running
    · rw [workDecorator_loop_of_running hr hs,
        workDecorator_loop_of_running hr' (hstatus.symm.trans hs)]
      exact ⟨hstatus, r₁, hext, hp.closeDecorator⟩
    · obtain ⟨r₂, hext₂, hp₂⟩ := abort_onward hB _ _ hp
      rw [workDecorator_loop_of_ne_running hr hs,
        workDecorator_loop_of_ne_running hr' (hstatus ▸ hs)]
      refine ⟨by simp only [hcounted_reached], r₂, hext₂.trans hext, ?_⟩
      have hclose := hp₂.closeDecorator.counts memory.counted.count
      rw [← hcounted] at hclose
      exact hclose

private theorem workDecorator_onward (hB : B.Blind) {tag : Tag} {life life' : Life}
    {kind : DecoratorKind} {memory memory' : Memory} {c c' : Node σ}
    (hcount : memory.count = memory'.count)
    (ih : RunsOnward B part strict c c')
    (h : Paired part strict r
      ((decorator tag life kind memory (some c), decorator tag life' kind memory' (some c')) ::
        rest) env env') :
    let q := workDecorator B (run B) kind memory c env
    let q' := workDecorator B (run B) kind memory' c' env'
    q.1.status = q'.1.status ∧ Onward part strict r rest
      (decorator tag life kind q.2 (some q.1.node), q.1.env)
      (decorator tag life' kind q'.2 (some q'.1.node), q'.1.env) := by
  cases kind with
  | invert =>
    obtain ⟨hstatus, ho⟩ := ih h.openDecorator
    exact ⟨congrArg Status.invert hstatus, ho.decorator⟩
  | succeeder =>
    obtain ⟨hstatus, ho⟩ := ih h.openDecorator
    exact ⟨congrArg Status.forgive hstatus, ho.decorator⟩
  | loop limit => exact workLoop_onward hB hcount ih h
  | «scoped» =>
    obtain ⟨r₁, hext, hin⟩ := h.enter
    obtain ⟨hstatus, r₂, hext₂, hp⟩ := ih hin
    have hboard := (evolves_run (B := B) c (env.enter memory)).board.1
    have hboard' := (evolves_run (B := B) c' (env'.enter memory')).board.1
    have hboth : r₂.Extends r := hext₂.trans hext
    exact ⟨hstatus, r₂, hboth, hp.leave hboard hboard' (h.board.mono hboth)⟩

/-! ### Whole nodes -/

private theorem work_onward (hB : B.Blind) (hR : B.Resets part) {n n' : Node σ}
    (hs : n.started = true)
    (ih : ∀ c : Node σ, c.size < n.size → ∀ c' : Node σ, RunsOnward B part strict c c')
    (h : Paired part strict r ((n, n') :: rest) env env') :
    StepOnward part strict r rest (n.work B (run B) env) (n'.work B (run B) env') := by
  cases n with
  | leaf tag life s =>
    obtain ⟨life', s', rfl, hl, -, hst⟩ := h.head.leaf_left
    obtain rfl := hst hs
    have he : B.run s env'.board env'.world = B.run s env.board env.world := by
      rw [← h.world]
      exact hB.run s env.world h.contents.symm
    simp only [work, he]
    refine ⟨rfl, r, Link.Extends.refl r, (h.replace ?_ (by simp) (by simp)).after _⟩
    exact .leaf hl rfl fun _ ↦ rfl
  | composite tag life kind resume children =>
    obtain ⟨life', pairs, rfl, rfl, hl, hp⟩ := h.head.composite_left
    have hopen := h.openComposite hp
    have hsize (c : Node σ) (hc : c.size ≤ sizes (pairs.map Prod.fst)) (c' : Node σ) :
        RunsOnward B part strict c c' := by
      refine ih c ?_ c'
      rw [size]
      omega
    have hmem (p : Node σ × Node σ) (hp : p ∈ pairs) : RunsOnward B part strict p.1 p.2 :=
      hsize p.1 (size_le_sizes (List.mem_map_of_mem hp)) p.2
    cases kind with
    | sequencer =>
      obtain ⟨hstatus, hpassed, hall⟩ := workSequencer_onward hB hR resume hmem hopen
      simp only [work, hpassed]
      exact ⟨hstatus, hall.composite hl⟩
    | selector =>
      obtain ⟨hstatus, hpassed, hall⟩ := workSelector_onward hB hR resume hsize hopen
      simp only [work, hpassed]
      exact ⟨hstatus, hall.composite hl⟩
    | parallel mode =>
      obtain ⟨hstatuses, hall⟩ := sweep_onward hmem hopen
      refine ⟨?_, hall.composite hl⟩
      simp only [work, workParallel, hstatuses, List.isEmpty_map]
  | decorator tag life kind memory child =>
    cases child with
    | none =>
      obtain ⟨life', memory', rfl, -⟩ := h.head.decorator_none_left
      exact ⟨rfl, r, Link.Extends.refl r, h⟩
    | some c =>
      obtain ⟨life', memory', c', rfl, -, -, hcount, -⟩ := h.head.decorator_some_left
      have hsize : c.size < (decorator tag life kind memory (some c)).size :=
        size_lt_of_mem_children (by simp [children])
      exact workDecorator_onward hB (hcount (.inr hs)) (ih c hsize c') h

/-- Runs of twins go side by side. -/
theorem run_onward (hB : B.Blind) (hR : B.Resets part) (n n' : Node σ) :
    RunsOnward B part strict n n' := by
  induction n using size_induction generalizing n' with
  | step n ih =>
    intro r rest env env' h
    obtain ⟨hs, hb⟩ := begin_paired hB hR h
    rw [run_eq, run_eq]
    refine settle_onward hB (work_onward hB hR hs ?_ hb) ?_
    · rw [size_begin]
      exact ih
    · rw [started_work]
      exact hs

end Node

end BehaviorTree
