import BehaviorTree.Proofs.Twin.Basic

/-!
# Runs side by side

Two runs go side by side when the nodes at hand are twins, and the surroundings are alike. All nodes
that the runs may still touch are at hand, so that a scope without a partner is known to be stored
in one place only: stepping into it gives it a partner and disturbs no other pair.
-/

namespace BehaviorTree

variable {ο σ κ ω : Type}

namespace Node

/-- Whether two runs go side by side, with pairs of nodes at hand. -/
structure Paired (part : σ → κ) (strict : Prop) (r : Link) (pairs : List (Node σ × Node σ))
    (env env' : Env ω) : Prop where
  matching : r.Matching
  used : r.Used env.fresh env'.fresh
  board : env.board.Alike r env'.board
  world : env.world = env'.world
  twins : ∀ p ∈ pairs, Twins part strict r p.1 p.2
  left : Distinct env.fresh (storesAll (pairs.map Prod.fst))
  right : Distinct env'.fresh (storesAll (pairs.map Prod.snd))

/-- Whether a node in each of two runs comes out such that they go on side by side. -/
def Onward (part : σ → κ) (strict : Prop) (r : Link) (rest : List (Node σ × Node σ))
    (x x' : Node σ × Env ω) : Prop :=
  ∃ r₁ : Link, r₁.Extends r ∧ Paired part strict r₁ ((x.1, x'.1) :: rest) x.2 x'.2

/-- Whether some nodes in each of two runs come out such that they go on side by side. -/
def OnwardAll (part : σ → κ) (strict : Prop) (r : Link) (rest : List (Node σ × Node σ))
    (xs xs' : List (Node σ) × Env ω) : Prop :=
  ∃ (r₁ : Link) (pairs : List (Node σ × Node σ)), r₁.Extends r ∧ xs.1 = pairs.map Prod.fst ∧
    xs'.1 = pairs.map Prod.snd ∧ Paired part strict r₁ (pairs ++ rest) xs.2 xs'.2

variable {part : σ → κ} {strict : Prop} {r : Link} {pairs rest : List (Node σ × Node σ)}
  {env env' : Env ω} {n n' : Node σ}

namespace Paired

/-- The first pair at hand are twins. -/
theorem head (h : Paired part strict r ((n, n') :: rest) env env') :
    Twins part strict r n n' := h.twins (n, n') (by simp)

/-- Other pairs can be at hand if they are twins and store no scope that was not at hand. -/
theorem regroup (h : Paired part strict r pairs env env') {qs : List (Node σ × Node σ)}
    (ht : ∀ q ∈ qs, Twins part strict r q.1 q.2)
    (hl : ∀ i, storesAll (qs.map Prod.fst) i ≤ storesAll (pairs.map Prod.fst) i)
    (hr : ∀ i, storesAll (qs.map Prod.snd) i ≤ storesAll (pairs.map Prod.snd) i) :
    Paired part strict r qs env env' :=
  { h with twins := ht, left := h.left.of_le hl, right := h.right.of_le hr }

/-- The order of the pairs does not matter. -/
theorem perm (h : Paired part strict r pairs env env') {qs : List (Node σ × Node σ)}
    (hp : qs.Perm pairs) : Paired part strict r qs env env' := by
  refine h.regroup (fun q hq ↦ h.twins q (hp.mem_iff.mp hq)) (fun i ↦ ?_) (fun i ↦ ?_)
  · exact Nat.le_of_eq ((hp.map Prod.fst).map _).sum_nat
  · exact Nat.le_of_eq ((hp.map Prod.snd).map _).sum_nat

/-- The first pair is replaced by another pair that stores no more. -/
theorem replace {m m' : Node σ} (h : Paired part strict r ((n, n') :: rest) env env')
    (ht : Twins part strict r m m') (hl : ∀ i, m.stores i ≤ n.stores i)
    (hr : ∀ i, m'.stores i ≤ n'.stores i) :
    Paired part strict r ((m, m') :: rest) env env' := by
  refine h.regroup ?_ (fun i ↦ ?_) (fun i ↦ ?_)
  · intro q hq
    rcases List.mem_cons.mp hq with rfl | hq
    · exact ht
    · exact h.twins q (by simp [hq])
  · simpa using hl i
  · simpa using hr i

/-- The same effect on both surroundings keeps them alike. -/
theorem after (h : Paired part strict r pairs env env') (e : Effect σ ω) :
    Paired part strict r pairs (env.after e) (env'.after e) :=
  { h with board := h.board.withEntries e.entries, world := rfl }

/-- The same world on both sides keeps surroundings alike. -/
theorem withWorld (h : Paired part strict r pairs env env') (w : ω) :
    Paired part strict r pairs { env with world := w } { env' with world := w } :=
  { h with world := rfl }

/-- What is in the scopes is the same on both sides. -/
theorem contents (h : Paired part strict r pairs env env') :
    env.board.contents = env'.board.contents := h.board.contents

/-- Both nodes are given one life, unless it opens an activation. -/
theorem withLife {life : Life} (h : Paired part strict r ((n, n') :: rest) env env')
    (hs : life.started = true → n.started = true) :
    Paired part strict r ((n.withLife life, n'.withLife life) :: rest) env env' :=
  h.replace (h.head.withLife hs) (by simp) (by simp)

/-! ### Children at hand -/

/-- Instead of two composites, the pairs of their children can be at hand. -/
theorem openComposite {tag : Tag} {life life' : Life} {kind : CompositeKind} {resume : Nat}
    (h : Paired part strict r
      ((composite tag life kind resume (pairs.map Prod.fst),
        composite tag life' kind resume (pairs.map Prod.snd)) :: rest) env env')
    (hp : ∀ p ∈ pairs, Twins part strict r p.1 p.2) :
    Paired part strict r (pairs ++ rest) env env' := by
  refine h.regroup ?_ (fun i ↦ by simp) (fun i ↦ by simp)
  intro q hq
  rcases List.mem_append.mp hq with hq | hq
  · exact hp q hq
  · exact h.twins q (by simp [hq])

/-- Instead of pairs of children, two composites of them can be at hand. -/
theorem closeComposite {tag : Tag} {life life' : Life} {kind : CompositeKind} {resume : Nat}
    (h : Paired part strict r (pairs ++ rest) env env') (hl : life.Alike strict life') :
    Paired part strict r
      ((composite tag life kind resume (pairs.map Prod.fst),
        composite tag life' kind resume (pairs.map Prod.snd)) :: rest) env env' := by
  refine h.regroup ?_ (fun i ↦ by simp) (fun i ↦ by simp)
  intro q hq
  rcases List.mem_cons.mp hq with rfl | hq
  · exact .composite hl fun p hp ↦ h.twins p (by simp [hp])
  · exact h.twins q (by simp [hq])

/-- The children of two decorators can be at hand beside them. -/
theorem openDecorator {tag : Tag} {life life' : Life} {kind : DecoratorKind}
    {memory memory' : Memory} {c c' : Node σ}
    (h : Paired part strict r
      ((decorator tag life kind memory (some c), decorator tag life' kind memory' (some c')) ::
        rest) env env') :
    Paired part strict r
      ((c, c') :: (decorator tag life kind memory none, decorator tag life' kind memory' none) ::
        rest) env env' := by
  refine h.regroup ?_ (fun i ↦ ?_) (fun i ↦ ?_)
  · obtain ⟨_, _, _, hn, hl, hm, hc, hchild⟩ := h.head.decorator_some_left
    cases hn
    intro q hq
    rcases List.mem_cons.mp hq with rfl | hq
    · exact hchild
    rcases List.mem_cons.mp hq with rfl | hq
    · exact .decorator_none hl hm hc
    · exact h.twins q (by simp [hq])
  · simp only [List.map_cons, storesAll_cons, stores_decorator_some, stores_decorator_none]
    omega
  · simp only [List.map_cons, storesAll_cons, stores_decorator_some, stores_decorator_none]
    omega

/-- The children at hand can be put back into their decorators. -/
theorem closeDecorator {tag : Tag} {life life' : Life} {kind : DecoratorKind}
    {memory memory' : Memory} {c c' : Node σ}
    (h : Paired part strict r
      ((c, c') :: (decorator tag life kind memory none, decorator tag life' kind memory' none) ::
        rest) env env') :
    Paired part strict r
      ((decorator tag life kind memory (some c), decorator tag life' kind memory' (some c')) ::
        rest) env env' := by
  refine h.regroup ?_ (fun i ↦ ?_) (fun i ↦ ?_)
  · obtain ⟨_, _, hn, hl, hm, hc⟩ :=
      (h.twins (decorator tag life kind memory none, decorator tag life' kind memory' none)
        (by simp)).decorator_none_left
    cases hn
    intro q hq
    rcases List.mem_cons.mp hq with rfl | hq
    · exact .decorator_some hl hm hc h.head
    · exact h.twins q (by simp [hq])
  · simp only [List.map_cons, storesAll_cons, stores_decorator_some, stores_decorator_none]
    omega
  · simp only [List.map_cons, storesAll_cons, stores_decorator_some, stores_decorator_none]
    omega

/-! ### Scopes -/

/-- Stepping into the scope of a decorator trades the scope it stores for the one in use. -/
theorem distinct_enter {tag : Tag} {life : Life} {kind : DecoratorKind} {memory : Memory}
    {c : Node σ} {ns : List (Node σ)}
    (h : Distinct env.fresh (storesAll (decorator tag life kind memory (some c) :: ns))) :
    Distinct (env.enter memory).fresh fun i ↦
      (if (env.enter memory).board.id = i then 1 else 0) + (c.stores i + storesAll ns i) :=
  Distinct.enter (h.of_le fun i ↦ by
    rw [storesAll_cons, stores_decorator_some]
    omega)

/-- A decorator without its child stores the scope in use. -/
theorem distinct_keep {tag : Tag} {life : Life} {kind : DecoratorKind} {memory : Memory}
    {c : Node σ} {ns : List (Node σ)} {fresh enclosing : ScopeId} {b : Blackboard}
    (h : Distinct fresh fun i ↦ (if b.id = i then 1 else 0) + (c.stores i + storesAll ns i)) :
    Distinct fresh (storesAll
      (c :: decorator tag life kind (memory.keep enclosing b.scope) none :: ns)) := by
  refine h.of_le fun i ↦ ?_
  simp only [storesAll_cons, stores_decorator_none, Memory.stores_keep]
  show _ ≤ (if b.scope.id = i then 1 else 0) + _
  omega

/-- Two scopes that are partners already, or have none, are partners in a larger link. Twins that
store neither of them do not mind. -/
theorem exists_partners (part : σ → κ) (strict : Prop) {fresh fresh' a b : ScopeId}
    (hr : r.Matching) (hu : r.Used fresh fresh') (hab : r a b ∨ r.Open a b)
    (ha : a.number < fresh.number) (hb : b.number < fresh'.number) :
    ∃ r₁ : Link, r₁.Extends r ∧ r₁.Matching ∧ r₁.Used fresh fresh' ∧ r₁ a b ∧
      ∀ {m m' : Node σ}, Twins part strict r m m' → m.stores a = 0 → m'.stores b = 0 →
        Twins part strict r₁ m m' := by
  rcases hab with hlinked | hopen
  · exact ⟨r, Link.Extends.refl r, hr, hu, hlinked, fun ht _ _ ↦ ht⟩
  · exact ⟨r.insert a b, r.extends_insert a b, hr.insert hopen, hu.insert ha hb, r.insert_self a b,
      .insert⟩

/-- Both runs step into the scope of a decorator. From then on the two scopes stand for each
other, and the decorators remember them. -/
theorem enter {tag : Tag} {life life' : Life} {kind : DecoratorKind} {memory memory' : Memory}
    {c c' : Node σ}
    (h : Paired part strict r
      ((decorator tag life kind memory (some c), decorator tag life' kind memory' (some c')) ::
        rest) env env') :
    let inner := env.enter memory
    let inner' := env'.enter memory'
    ∃ r₁ : Link, r₁.Extends r ∧ Paired part strict r₁
      ((c, c') ::
        (decorator tag life kind (memory.keep env.board.id inner.board.scope) none,
          decorator tag life' kind (memory'.keep env'.board.id inner'.board.scope) none) :: rest)
      inner inner' := by
  intro inner inner'
  obtain ⟨_, _, _, hn, hl, hm, hc, hchild⟩ := h.head.decorator_some_left
  cases hn
  obtain ⟨hentries, hlinked⟩ := hm.enter h.matching h.used h.board
  have hleft : Distinct inner.fresh fun i ↦
      (if inner.board.id = i then 1 else 0) + (c.stores i + storesAll (rest.map Prod.fst) i) :=
    distinct_enter h.left
  have hright : Distinct inner'.fresh fun i ↦
      (if inner'.board.id = i then 1 else 0) + (c'.stores i + storesAll (rest.map Prod.snd) i) :=
    distinct_enter h.right
  have hzero : c.stores inner.board.id + storesAll (rest.map Prod.fst) inner.board.id = 0 :=
    hleft.eq_zero.2
  have hzero' : c'.stores inner'.board.id + storesAll (rest.map Prod.snd) inner'.board.id = 0 :=
    hright.eq_zero.2
  have hused : r.Used inner.fresh inner'.fresh :=
    Link.Used.mono h.used (env.fresh_le_enter memory) (env'.fresh_le_enter memory')
  obtain ⟨r₁, hext, hmatching, hused, hlink, hkeep⟩ :=
    exists_partners part strict (a := inner.board.id) (b := inner'.board.id) h.matching hused
      hlinked hleft.eq_zero.1 hright.eq_zero.1
  refine ⟨r₁, hext, hmatching, hused, ?_, ?_, ?_, distinct_keep hleft, distinct_keep hright⟩
  · rw [env.enclosing_enter, env'.enclosing_enter]
    exact (h.board.mono hext).under ⟨hlink, hentries⟩
  · rw [env.world_enter, env'.world_enter]
    exact h.world
  · intro q hq
    rcases List.mem_cons.mp hq with rfl | hq
    · exact hkeep hchild (Nat.eq_zero_of_add_eq_zero_right hzero)
        (Nat.eq_zero_of_add_eq_zero_right hzero')
    rcases List.mem_cons.mp hq with rfl | hq
    · exact .decorator_none hl (.stored rfl rfl ⟨hlink, hentries⟩ rfl rfl (hext h.board.scope.1)) hc
    · have hq₁ := stores_le_storesAll (List.mem_map_of_mem (f := Prod.fst) hq) inner.board.id
      have hq₂ := stores_le_storesAll (List.mem_map_of_mem (f := Prod.snd) hq) inner'.board.id
      exact hkeep (h.twins q (by simp [hq])) (by omega) (by omega)

/-- Both runs step back out of the scope of a decorator, which keeps the scope as it is now. -/
theorem leave {tag : Tag} {life life' : Life} {kind : DecoratorKind} {memory memory' : Memory}
    {c c' : Node σ} {s s' : Scope} {outer outer' inner inner' : Env ω}
    (h : Paired part strict r
      ((c, c') ::
        (decorator tag life kind (memory.keep outer.board.id s) none,
          decorator tag life' kind (memory'.keep outer'.board.id s') none) :: rest)
      inner inner')
    (hs : inner.board.id = s.id) (hs' : inner'.board.id = s'.id)
    (hb : outer.board.Alike r outer'.board) :
    Paired part strict r
      ((decorator tag life kind (memory.keep outer.board.id inner.board.scope) (some c),
        decorator tag life' kind (memory'.keep outer'.board.id inner'.board.scope) (some c')) ::
        rest)
      (outer.leave inner) (outer'.leave inner') := by
  obtain ⟨_, _, hn, hl, -, hc⟩ :=
    (h.twins (decorator tag life kind (memory.keep outer.board.id s) none,
      decorator tag life' kind (memory'.keep outer'.board.id s') none)
      (by simp)).decorator_none_left
  cases hn
  have hleave : Paired part strict r _ (outer.leave inner) (outer'.leave inner') :=
    { h with board := hb }
  refine hleave.regroup ?_ (fun i ↦ ?_) (fun i ↦ ?_)
  · intro q hq
    rcases List.mem_cons.mp hq with rfl | hq
    · exact .decorator_some hl (.stored rfl rfl h.board.scope rfl rfl hb.scope.1) hc h.head
    · exact h.twins q (by simp [hq])
  · simp only [List.map_cons, storesAll_cons, stores_decorator_some, stores_decorator_none,
      Memory.stores_keep, ← hs]
    show (if inner.board.id = i then 1 else 0) + _ + _ ≤ _
    omega
  · simp only [List.map_cons, storesAll_cons, stores_decorator_some, stores_decorator_none,
      Memory.stores_keep, ← hs']
    show (if inner'.board.id = i then 1 else 0) + _ + _ ≤ _
    omega

/-- Both decorators clear the scopes they keep. -/
theorem cleared {tag : Tag} {life life' : Life} {kind : DecoratorKind} {memory memory' : Memory}
    {c c' : Node σ}
    (h : Paired part strict r
      ((decorator tag life kind memory (some c), decorator tag life' kind memory' (some c')) ::
        rest) env env') :
    Paired part strict r
      ((decorator tag life kind { memory with scope := memory.scope.map Scope.cleared } (some c),
        decorator tag life' kind { memory' with scope := memory'.scope.map Scope.cleared }
          (some c')) :: rest) env env' := by
  obtain ⟨_, _, _, hn, hl, hm, hc, hchild⟩ := h.head.decorator_some_left
  cases hn
  refine h.replace (.decorator_some hl hm.cleared hc hchild) (fun i ↦ ?_) (fun i ↦ ?_)
  · exact Nat.le_of_eq (by rw [stores_decorator_some, stores_decorator_some, Memory.stores_cleared])
  · exact Nat.le_of_eq (by rw [stores_decorator_some, stores_decorator_some, Memory.stores_cleared])

end Paired

end Node

end BehaviorTree
