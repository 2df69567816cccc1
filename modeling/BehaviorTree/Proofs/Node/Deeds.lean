import BehaviorTree.Proofs.Lifecycle.Steady

/-!
# What a composite does to its children

A sequencer and a selector ask some children whether they hold, and then run and abort some. `Hits`
says which child it is that gives the wanted answer, and `Doing` what the children and their
surroundings become by the runs and aborts of a list. The deeds of children that are run in order
are a `Stretch`.
-/

namespace BehaviorTree

variable {ο σ ω : Type}

/-- What a composite does to the child at an index. -/
inductive Deed where
  /-- The child is run, which opens an activation if there is none, and answers. -/
  | run (index : Nat) (opens : Bool) (answer : Status)
  | abort (index : Nat)
  deriving DecidableEq, Repr

namespace Deed

/-- The child it is done to. -/
def index : Deed → Nat
  | run index .. => index
  | abort index => index

/-- The child of which it opens an activation. -/
def opened? : Deed → Option Nat
  | run index true _ => some index
  | _ => none

end Deed

namespace Node

/-- Whether deeds, done to children in order, make of them and of their surroundings others. Only an
activation that is open can be aborted. -/
inductive Doing (B : Behavior ο σ ω) :
    List Deed → List (Node σ) → Env ω → List (Node σ) → Env ω → Prop where
  | done (ns : List (Node σ)) (env : Env ω) : Doing B [] ns env ns env
  | run {index : Nat} {c : Node σ} {deeds : List Deed} {ns ns' : List (Node σ)} {env env' : Env ω}
      (hc : ns[index]? = some c)
      (h : Doing B deeds (ns.set index (c.run B env).node) (c.run B env).env ns' env') :
      Doing B (.run index (!c.started) (c.run B env).status :: deeds) ns env ns' env'
  | abort {index : Nat} {c : Node σ} {deeds : List Deed} {ns ns' : List (Node σ)} {env env' : Env ω}
      (hc : ns[index]? = some c) (hs : c.started = true)
      (h : Doing B deeds (ns.set index (c.abort B env).1) (c.abort B env).2 ns' env') :
      Doing B (.abort index :: deeds) ns env ns' env'

variable {B : Behavior ο σ ω} {ns : List (Node σ)}

/-! ### Children that are asked -/

/-- The world after the nodes that have a flag were asked on a blackboard, one after the other. -/
def askedWorld (B : Behavior ο σ ω) (flag : Flags → Bool) (b : Blackboard) (ns : List (Node σ))
    (w : ω) : ω :=
  ns.foldl (fun w n ↦ if flag n.flags then (n.evaluate B b w).2 else w) w

/-- Whether the node at an index has the flag and, asked after those before it, gives the wanted
answer. -/
def Hits (B : Behavior ο σ ω) (flag : Flags → Bool) (wanted : Status) (ns : List (Node σ))
    (b : Blackboard) (w : ω) (index : Nat) : Prop :=
  ∃ n, ns[index]? = some n ∧ flag n.flags = true ∧
    (n.evaluate B b (askedWorld B flag b (ns.take index) w)).1 = wanted

/-- Whether the node at an index is the first that gives the wanted answer. -/
def FirstHit (B : Behavior ο σ ω) (flag : Flags → Bool) (wanted : Status) (ns : List (Node σ))
    (b : Blackboard) (w : ω) (index : Nat) : Prop :=
  Hits B flag wanted ns b w index ∧ ∀ i < index, ¬ Hits B flag wanted ns b w i

variable {flag : Flags → Bool} {wanted : Status} {b : Blackboard}

/-- At most one node is the first that gives the wanted answer. -/
theorem FirstHit.unique {w : ω} {i j : Nat} (hi : FirstHit B flag wanted ns b w i)
    (hj : FirstHit B flag wanted ns b w j) : i = j := by
  apply Nat.le_antisymm
  · exact Nat.not_lt.mp fun hlt ↦ hi.2 j hlt hj.1
  · exact Nat.not_lt.mp fun hlt ↦ hj.2 i hlt hi.1

private theorem hits_cons_zero {n : Node σ} {w : ω} :
    Hits B flag wanted (n :: ns) b w 0 ↔ flag n.flags = true ∧ (n.evaluate B b w).1 = wanted := by
  simp [Hits, askedWorld]

private theorem hits_cons_succ {n : Node σ} {w : ω} {index : Nat} :
    Hits B flag wanted (n :: ns) b w (index + 1) ↔
      Hits B flag wanted ns b (askedWorld B flag b [n] w) index := by
  simp [Hits, askedWorld]

private theorem probe_cons_of_hit {n : Node σ} {w : ω} (h : Hits B flag wanted (n :: ns) b w 0) :
    probe B flag wanted (n :: ns) b w = (some 0, askedWorld B flag b [n] w) := by
  obtain ⟨hflag, hwanted⟩ := hits_cons_zero.mp h
  simp [probe, askedWorld, hflag, hwanted]

private theorem probe_cons_of_not_hit {n : Node σ} {w : ω}
    (h : ¬ Hits B flag wanted (n :: ns) b w 0) :
    probe B flag wanted (n :: ns) b w =
      let r := probe B flag wanted ns b (askedWorld B flag b [n] w)
      (r.1.map (· + 1), r.2) := by
  rw [hits_cons_zero, not_and] at h
  by_cases hflag : flag n.flags = true
  · simp [probe, askedWorld, hflag, h hflag]
  · simp [probe, askedWorld, hflag]

/-- Whether an answer to a probe is the first hit, or says that there is none. -/
def Finds (B : Behavior ο σ ω) (flag : Flags → Bool) (wanted : Status) (ns : List (Node σ))
    (b : Blackboard) (w : ω) : Option Nat × ω → Prop
  | (some index, w') =>
    FirstHit B flag wanted ns b w index ∧ w' = askedWorld B flag b (ns.take (index + 1)) w
  | (none, w') => (∀ i, ¬ Hits B flag wanted ns b w i) ∧ w' = askedWorld B flag b ns w

/-- A probe finds the first hit, and asks no node behind it. -/
theorem finds_probe (B : Behavior ο σ ω) (flag : Flags → Bool) (wanted : Status)
    (ns : List (Node σ)) (b : Blackboard) (w : ω) :
    Finds B flag wanted ns b w (probe B flag wanted ns b w) := by
  induction ns generalizing w with
  | nil => exact ⟨fun i h ↦ by simp [Hits] at h, rfl⟩
  | cons n rest ih =>
    by_cases hzero : Hits B flag wanted (n :: rest) b w 0
    · rw [probe_cons_of_hit hzero]
      exact ⟨⟨hzero, fun i hi ↦ absurd hi (Nat.not_lt_zero i)⟩, by simp⟩
    · have hrest := ih (askedWorld B flag b [n] w)
      rw [probe_cons_of_not_hit hzero]
      generalize probe B flag wanted rest b (askedWorld B flag b [n] w) = r at hrest
      obtain ⟨found, w'⟩ := r
      cases found with
      | none =>
        obtain ⟨hnone, rfl⟩ := hrest
        refine ⟨fun i ↦ ?_, rfl⟩
        cases i with
        | zero => exact hzero
        | succ i => exact mt hits_cons_succ.mp (hnone i)
      | some index =>
        obtain ⟨⟨hhit, hfirst⟩, rfl⟩ := hrest
        refine ⟨⟨hits_cons_succ.mpr hhit, fun i hi ↦ ?_⟩, rfl⟩
        cases i with
        | zero => exact hzero
        | succ i => exact mt hits_cons_succ.mp (hfirst i (Nat.lt_of_succ_lt_succ hi))

/-- Before an index there are the hits that lie there. -/
theorem hits_take {w : ω} {k i : Nat} :
    Hits B flag wanted (ns.take k) b w i ↔ i < k ∧ Hits B flag wanted ns b w i := by
  unfold Hits
  by_cases hi : i < k
  · rw [List.getElem?_take_of_lt hi, List.take_take, Nat.min_eq_left (Nat.le_of_lt hi)]
    simp [hi]
  · rw [List.getElem?_take_eq_none (Nat.not_lt.mp hi)]
    simp [hi]

/-- The surroundings once the first children of a composite were asked. -/
def asked (B : Behavior ο σ ω) (flag : Flags → Bool) (ns : List (Node σ)) (count : Nat)
    (env : Env ω) : Env ω :=
  { env with world := askedWorld B flag env.board (ns.take count) env.world }

private theorem probeBefore_eq {env : Env ω} {k : Nat} (hk : k ≤ ns.length) :
    probeBefore B flag wanted k ns env =
      let r := probe B flag wanted (ns.take k) env.board env.world
      (r.1, { env with world := r.2 }) := by
  rw [probeBefore, Nat.min_eq_left hk]

/-- The first hit before the child to resume at is found. -/
theorem probeBefore_of_firstHit {env : Env ω} {k index : Nat} (hk : k ≤ ns.length)
    (hi : index < k) (h : FirstHit B flag wanted ns env.board env.world index) :
    probeBefore B flag wanted k ns env = (some index, asked B flag ns (index + 1) env) := by
  have hfinds := finds_probe B flag wanted (ns.take k) env.board env.world
  rw [probeBefore_eq hk]
  generalize probe B flag wanted (ns.take k) env.board env.world = r at hfinds
  obtain ⟨found, w'⟩ := r
  cases found with
  | none => exact absurd (hits_take.mpr ⟨hi, h.1⟩) (hfinds.1 index)
  | some j =>
    obtain ⟨⟨hj, hfirst⟩, rfl⟩ := hfinds
    obtain ⟨hjk, hj⟩ := hits_take.mp hj
    obtain rfl : j = index := by
      refine FirstHit.unique ⟨hj, fun i hij hhits ↦ hfirst i hij ?_⟩ h
      exact hits_take.mpr ⟨Nat.lt_trans hij hjk, hhits⟩
    rw [List.take_take, Nat.min_eq_left hjk]
    rfl

/-- Where there is no hit before the child to resume at, all were asked. -/
theorem probeBefore_of_not_hits {env : Env ω} {k : Nat} (hk : k ≤ ns.length)
    (h : ∀ i < k, ¬ Hits B flag wanted ns env.board env.world i) :
    probeBefore B flag wanted k ns env = (none, asked B flag ns k env) := by
  have hfinds := finds_probe B flag wanted (ns.take k) env.board env.world
  rw [probeBefore_eq hk]
  generalize probe B flag wanted (ns.take k) env.board env.world = r at hfinds
  obtain ⟨found, w'⟩ := r
  cases found with
  | none => rw [hfinds.2, asked]
  | some j =>
    obtain ⟨hjk, hj⟩ := hits_take.mp hfinds.1.1
    exact absurd hj (h j hjk)

/-- Of several hits there is a first. -/
theorem exists_firstHit {w : ω} {i : Nat} (h : Hits B flag wanted ns b w i) :
    ∃ index ≤ i, FirstHit B flag wanted ns b w index := by
  induction i using Nat.strongRecOn with
  | ind i ih =>
    by_cases hbelow : ∃ j < i, Hits B flag wanted ns b w j
    · obtain ⟨j, hji, hj⟩ := hbelow
      obtain ⟨index, hle, hfirst⟩ := ih j hji hj
      exact ⟨index, by omega, hfirst⟩
    · exact ⟨i, Nat.le_refl i, h, fun j hji hj ↦ hbelow ⟨j, hji, hj⟩⟩

/-! ### Children that are run in order -/

/-- What is done to children that are run in order as long as they pass. -/
def scanDeeds (B : Behavior ο σ ω) (pass : Status) : Nat → List (Node σ) → Env ω → List Deed
  | _, [], _ => []
  | index, c :: rest, env =>
    let s := c.run B env
    .run index (!c.started) s.status ::
      if s.status = pass then scanDeeds B pass (index + 1) rest s.env else []

private theorem doing_scan (B : Behavior ο σ ω) (pass : Status) (before ns : List (Node σ))
    (env : Env ω) :
    let r := scan (run B) pass ns env
    Doing B (scanDeeds B pass before.length ns env) (before ++ ns) env (before ++ r.children)
      r.env := by
  induction ns generalizing before env with
  | nil => exact .done _ _
  | cons c rest ih =>
    have hc : (before ++ c :: rest)[before.length]? = some c := by simp
    have hset : (before ++ c :: rest).set before.length (c.run B env).node =
        before ++ (c.run B env).node :: rest := by simp
    simp only [scanDeeds]
    refine .run hc ?_
    rw [hset]
    by_cases hs : (c.run B env).status = pass
    · have hrest := ih (before ++ [(c.run B env).node]) (c.run B env).env
      rw [scan_cons_of_pass hs, if_pos hs]
      simpa using hrest
    · rw [scan_cons_of_ne hs, if_neg hs]
      exact .done _ _

/-- A scan does its deeds to the children. -/
theorem doing_scanFrom (B : Behavior ο σ ω) (pass : Status) {index : Nat} (hi : index ≤ ns.length)
    (env : Env ω) :
    let r := scanFrom (run B) pass index ns env
    Doing B (scanDeeds B pass index (ns.drop index) env) ns env r.children r.env := by
  have h := doing_scan B pass (ns.take index) (ns.drop index) env
  rwa [List.take_append_drop, List.length_take_of_le hi] at h

/-- Deeds on children, `size` of them, that run them in order from an index on, up to the first
whose answer does not pass. Each run opens an activation, except the first if that child is resumed.
The answer of all is the one that does not pass, at the index `last`, or else the one that passes.
-/
inductive Stretch (pass : Status) (size : Nat) :
    Bool → Nat → List Deed → Status → Nat → Prop where
  | done (resumed : Bool) : Stretch pass size resumed size [] pass size
  | halt (resumed : Bool) {index : Nat} (hi : index < size) {answer : Status} (h : answer ≠ pass) :
      Stretch pass size resumed index [.run index (!resumed) answer] answer index
  | pass (resumed : Bool) {index : Nat} (hi : index < size) {deeds : List Deed} {answer : Status}
      {last : Nat} (h : Stretch pass size false (index + 1) deeds answer last) :
      Stretch pass size resumed index (.run index (!resumed) pass :: deeds) answer last

/-- The deeds of a scan are a stretch, if at most its first child is started. -/
theorem stretch_scan (B : Behavior ο σ ω) (pass : Status) (index : Nat) (resumed : Bool)
    (hfirst : ∀ c ∈ ns.head?, c.started = resumed) (hrest : ∀ c ∈ ns.tail, c.started = false)
    (env : Env ω) :
    let r := scan (run B) pass ns env
    Stretch pass (index + ns.length) resumed index (scanDeeds B pass index ns env) r.status
      (index + r.passed) := by
  induction ns generalizing index resumed env with
  | nil => exact .done resumed
  | cons c rest ih =>
    obtain rfl : c.started = resumed := hfirst c rfl
    simp only [scanDeeds]
    by_cases hs : (c.run B env).status = pass
    · have htail := ih (index + 1) false
        (fun d hd ↦ hrest d (List.mem_of_mem_head? hd))
        (fun d hd ↦ hrest d (List.mem_of_mem_tail hd)) (c.run B env).env
      rw [scan_cons_of_pass hs, if_pos hs, hs]
      refine .pass _ ?_ ?_
      · simp
      · simpa only [List.length_cons, Nat.add_assoc, Nat.add_comm 1] using htail
    · rw [scan_cons_of_ne hs, if_neg hs]
      exact .halt _ (by simp) hs

/-- The deeds of a scan run children in order, up to the first whose answer does not pass. -/
theorem stretch_scanFrom (B : Behavior ο σ ω) (pass : Status) {index : Nat}
    (hi : index ≤ ns.length) (resumed : Bool) (hfirst : ∀ c ∈ ns[index]?, c.started = resumed)
    (hrest : ∀ c ∈ ns.drop (index + 1), c.started = false) (env : Env ω) :
    let r := scanFrom (run B) pass index ns env
    Stretch pass ns.length resumed index (scanDeeds B pass index (ns.drop index) env) r.status
      r.passed := by
  have h := stretch_scan B pass index resumed
    (by rwa [List.head?_drop]) (by rwa [List.tail_drop]) env
  rwa [List.length_drop, Nat.add_sub_cancel' hi] at h

variable {pass : Status} {size : Nat} {resumed : Bool} {index last : Nat} {deeds : List Deed}
  {answer : Status}

namespace Stretch

/-- If the answer is the one that passes, all runs passed. -/
theorem passed (h : Stretch pass size resumed index deeds answer last) (ha : answer = pass)
    {d : Deed} (hd : d ∈ deeds) : ∃ i opens, d = .run i opens pass := by
  induction h with
  | done => cases hd
  | halt _ _ hne => exact absurd ha hne
  | @pass resumed index _ _ _ _ _ ih =>
    rcases List.mem_cons.mp hd with rfl | hd
    · exact ⟨index, !resumed, rfl⟩
    · exact ih ha hd

/-- If the answer is the one that passes, all children from the index on did. -/
theorem all_passed (h : Stretch pass size resumed index deeds answer last) (ha : answer = pass)
    {i : Nat} (hle : index ≤ i) (hlt : i < size) : ∃ opens, .run i opens pass ∈ deeds := by
  induction h with
  | done => exact absurd hlt (Nat.not_lt.mpr hle)
  | halt _ _ hne => exact absurd ha hne
  | pass _ _ _ ih =>
    rcases Nat.eq_or_lt_of_le hle with rfl | hle
    · exact ⟨_, List.mem_cons_self⟩
    · obtain ⟨opens, hmem⟩ := ih ha hle
      exact ⟨opens, List.mem_cons_of_mem _ hmem⟩

/-- Otherwise the last deed is the run that did not pass. -/
theorem getLast? (h : Stretch pass size resumed index deeds answer last) (ha : answer ≠ pass) :
    last < size ∧ ∃ opens, deeds.getLast? = some (.run last opens answer) := by
  induction h with
  | done => exact absurd rfl ha
  | halt _ hi => exact ⟨hi, _, rfl⟩
  | pass _ _ _ ih =>
    obtain ⟨hlt, opens, hlast⟩ := ih ha
    refine ⟨hlt, opens, ?_⟩
    rw [List.getLast?_cons, hlast]
    rfl

/-- An answer that does not pass is the one of the last deed. -/
theorem answers (h : Stretch pass size resumed index deeds answer last) {other : Status}
    (hother : other ≠ pass) :
    answer = other ↔ ∃ i opens, deeds.getLast? = some (.run i opens other) := by
  by_cases ha : answer = pass
  · refine ⟨fun heq ↦ absurd (heq.symm.trans ha) hother, ?_⟩
    rintro ⟨i, opens, hlast⟩
    obtain ⟨j, opens', hrun⟩ := h.passed ha (List.mem_of_getLast? hlast)
    cases hrun
    exact ha
  · obtain ⟨-, opens, hlast⟩ := h.getLast? ha
    rw [hlast]
    constructor
    · rintro rfl
      exact ⟨last, opens, rfl⟩
    · rintro ⟨i, opens', hrun⟩
      cases hrun
      rfl

end Stretch

/-! ### A child that is aborted -/

/-- Aborting the node at an index puts the aborted one in its place. -/
theorem abortAt_eq_set {k : Nat} {c : Node σ} (hc : ns[k]? = some c) (env : Env ω) :
    abortAt B ns k env = (ns.set k (c.abort B env).1, (c.abort B env).2) := by
  induction ns generalizing k with
  | nil => cases hc
  | cons d rest ih =>
    cases k with
    | zero =>
      obtain rfl := Option.some.inj hc
      rfl
    | succ k =>
      have hrest := ih (k := k) hc
      simp only [abortAt, hrest, List.set_cons_succ]

/-- A running child is stopped by an abort. -/
theorem stopRunningAt_eq_set {k : Nat} {c : Node σ} (hc : ns[k]? = some c)
    (hs : c.state = .running) (env : Env ω) :
    stopRunningAt B ns k env = (ns.set k (c.abort B env).1, (c.abort B env).2) := by
  induction ns generalizing k with
  | nil => cases hc
  | cons d rest ih =>
    cases k with
    | zero =>
      obtain rfl := Option.some.inj hc
      rw [stopRunningAt_zero, if_pos hs]
      rfl
    | succ k =>
      have hrest := ih (k := k) hc
      simp only [stopRunningAt_succ, hrest, List.set_cons_succ]

/-! ### Steady composites -/

variable {L : Phase → σ → Prop} {tag : Tag} {life : Life} {kind : CompositeKind} {k : Nat}

/-- The children of a steady sequencer or selector. -/
theorem steady_place (hkind : kind = .sequencer ∨ kind = .selector)
    (h : (composite tag life kind k ns).Steady L) :
    (life.started = true → ∃ c, ns[k]? = some c ∧ c.started = true) ∧
      (life.started = false → k = 0 ∧ ∀ c ∈ ns, c.started = false) ∧
      k ≤ ns.length ∧ OnlyAt k ns := by
  have hresting (hs : life.started = false) : k = 0 ∧ ∀ c ∈ ns, c.started = false := h.resting hs
  have hactive (hs : life.started = true) :
      OnlyAt k ns ∧ ∃ c, ns[k]? = some c ∧ c.started = true := by
    rcases hkind with rfl | rfl
    · exact h.active hs
    · exact h.active hs
  refine ⟨fun hs ↦ (hactive hs).2, hresting, ?_⟩
  cases hs : life.started with
  | true =>
    obtain ⟨honly, c, hc, -⟩ := hactive hs
    exact ⟨Nat.le_of_lt (List.getElem?_eq_some_iff.mp hc).1, honly⟩
  | false =>
    obtain ⟨rfl, hnone⟩ := hresting hs
    exact ⟨Nat.zero_le _, onlyAt_of_none hnone⟩

/-- The child at which a steady sequencer or selector resumes is the only one that is started. -/
theorem started_iff_eq (hkind : kind = .sequencer ∨ kind = .selector)
    (h : (composite tag life kind k ns).Steady L) (hs : life.started = true) {j : Nat} {c : Node σ}
    (hc : ns[j]? = some c) : c.started = true ↔ j = k := by
  obtain ⟨hsuspended, -, -, honly⟩ := steady_place hkind h
  obtain ⟨d, hd, hds⟩ := hsuspended hs
  constructor
  · intro hcs
    by_cases hne : j = k
    · exact hne
    · simp [honly j c hc hne] at hcs
  · rintro rfl
    obtain rfl : c = d := Option.some.inj (hc.symm.trans hd)
    exact hds

/-- In a steady sequencer or selector, at most the first of the children that run is resumed. -/
theorem stretch_of_steady (B : Behavior ο σ ω) (pass : Status)
    (hkind : kind = .sequencer ∨ kind = .selector) (h : (composite tag life kind k ns).Steady L)
    (env : Env ω) :
    let r := scanFrom (Node.run B) pass k ns env
    Stretch pass ns.length life.started k (scanDeeds B pass k (ns.drop k) env) r.status
      r.passed := by
  obtain ⟨hsuspended, hbegins, hk, honly⟩ := steady_place hkind h
  refine stretch_scanFrom B pass hk life.started (fun c hc ↦ ?_) honly.behind env
  cases hs : life.started with
  | true =>
    obtain ⟨d, hd, hds⟩ := hsuspended hs
    rw [hd] at hc
    exact Option.some.inj hc ▸ hds
  | false => exact (hbegins hs).2 c (List.mem_of_getElem? hc)

end Node

end BehaviorTree
