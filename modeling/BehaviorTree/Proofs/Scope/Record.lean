import BehaviorTree.Proofs.Scope.Tracked

/-!
# Keeping a record

Something that happens to nodes below some scopes is on record when it leaves the log faithful, the
blackboard as the ledger has it and the nodes tracked, and when it touches no scope further out than
the innermost one. The laws of `Records` follow the ways in which nodes are made of others; the one
that is not about bookkeeping is `Records.inScope`, for what happens inside a stored scope.
-/

namespace BehaviorTree

variable {ο σ ω : Type}

/-- What may differ afterwards: the scopes of some decorators, and the innermost scope around. -/
structure Env.Touches (env env' : Env (ω × List Notice)) (scopes ids : List NodeId) : Prop where
  id : env'.board.id = env.board.id
  scope : ∀ k ∉ ids, scopes.head? ≠ some k → env'.ledger.scope k = env.ledger.scope k
  root : scopes ≠ [] → env'.ledger.root = env.ledger.root

private theorem Env.Touches.trans {env env' env'' : Env (ω × List Notice)}
    {scopes ids : List NodeId} (h : env.Touches env' scopes ids)
    (h' : env'.Touches env'' scopes ids) :
    env.Touches env'' scopes ids where
  id := h'.id.trans h.id
  scope k hk hs := (h'.scope k hk hs).trans (h.scope k hk hs)
  root hs := (h'.root hs).trans (h.root hs)

private theorem Env.Touches.mono {env env' : Env (ω × List Notice)} {scopes ids ids' : List NodeId}
    (h : env.Touches env' scopes ids) (hs : ids ⊆ ids') : env.Touches env' scopes ids' where
  id := h.id
  scope k hk := h.scope k fun hmem ↦ hk (hs hmem)
  root := h.root

/-- What happens inside a scope touches nothing else outside. -/
theorem Env.Touches.outside {env inner : Env (ω × List Notice)} {m : Memory} {id : NodeId}
    {scopes ids : List NodeId} (h : (env.enter m).Touches inner (id :: scopes) ids) :
    (∀ k ∉ id :: ids, inner.ledger.scope k = env.ledger.scope k) ∧
      inner.ledger.root = env.ledger.root := by
  constructor
  · intro k hk
    rw [← env.ledger_enter m]
    apply h.scope k
    · exact fun hmem ↦ hk (List.mem_cons_of_mem _ hmem)
    · exact fun he ↦ hk (by rw [Option.some.inj he]; exact .head _)
  · rw [h.root (List.cons_ne_nil _ _), env.ledger_enter]

namespace Node

/-- Whether the log is faithful, the blackboard shows what the ledger has for a leaf below some
scopes, and the nodes there are tracked. -/
structure Current (scopes : List NodeId) (ns : List (Node (Site × σ)))
    (env : Env (ω × List Notice)) : Prop where
  faithful : Faithful env.world.2
  board : env.board.contents = env.ledger.view scopes
  nodes : ∀ c ∈ ns, c.Tracked env.ledger scopes env.board.id

/-- Whether something that happens to nodes below some scopes is on record. -/
structure Records (scopes : List NodeId) (ns : List (Node (Site × σ))) (env : Env (ω × List Notice))
    (ns' : List (Node (Site × σ))) (env' : Env (ω × List Notice)) : Prop where
  ids : ns'.flatMap ids = ns.flatMap ids
  kept : (scopes ++ ns.flatMap Node.ids).Nodup → Current scopes ns env →
    Current scopes ns' env' ∧ env.Touches env' scopes (ns.flatMap Node.ids)

variable {scopes : List NodeId} {env env' env'' : Env (ω × List Notice)}
  {ns ns' ns'' : List (Node (Site × σ))}

/-- Inside the scope of a started decorator, the stored scope is the first that a leaf sees. -/
theorem Current.enter {scopes : List NodeId} {env : Env (ω × List Notice)} {tag : Tag} {life : Life}
    {memory : Memory} {c : Node (Site × σ)}
    (h : Current scopes [.decorator tag life .scoped memory (some c)] env)
    (hl : life.started = true) : Current (tag.id :: scopes) [c] (env.enter memory) := by
  obtain ⟨hentries, henclosing, hchild⟩ := h.nodes _ (List.mem_singleton_self _)
  obtain ⟨hcontents, hids⟩ := Env.contents_enter henclosing
  rw [if_pos hl] at hentries
  constructor
  · rw [env.world_enter]
    exact h.faithful
  · rw [hcontents, env.ledger_enter, hentries, h.board]
    rfl
  · intro d hd
    rw [List.mem_singleton.mp hd, env.ledger_enter]
    exact hchild _ hids

/-- That nothing happens is on record. -/
theorem Records.refl (scopes : List NodeId) (ns : List (Node (Site × σ)))
    (env : Env (ω × List Notice)) : Records scopes ns env ns env :=
  ⟨rfl, fun _ h ↦ ⟨h, rfl, fun _ _ _ ↦ rfl, fun _ ↦ rfl⟩⟩

/-- Where one thing and then another are on record, both together are. -/
theorem Records.trans (h : Records scopes ns env ns' env')
    (h' : Records scopes ns' env' ns'' env'') : Records scopes ns env ns'' env'' where
  ids := h'.ids.trans h.ids
  kept hn hc := by
    obtain ⟨hc', ht⟩ := h.kept hn hc
    rw [← h.ids] at hn ht ⊢
    obtain ⟨hc'', ht'⟩ := h'.kept hn hc'
    exact ⟨hc'', ht.trans ht'⟩

/-- Nodes beside others: the scopes of the others are not touched. -/
theorem Records.among (h : Records scopes ns env ns' env') (front back : List (Node (Site × σ))) :
    Records scopes (front ++ ns ++ back) env (front ++ ns' ++ back) env' where
  ids := by simp [h.ids]
  kept hn hc := by
    have hperm : (scopes ++ ns.flatMap Node.ids ++ (front ++ back).flatMap Node.ids).Nodup := by
      simp only [List.flatMap_append, List.append_assoc] at hn ⊢
      exact ((List.perm_append_comm_assoc _ _ _).append_left scopes).nodup_iff.mp hn
    obtain ⟨hown, -, hapart⟩ := List.nodup_append.mp hperm
    have hmem (c : Node (Site × σ)) (hc : c ∈ ns) : c ∈ front ++ ns ++ back := by simp [hc]
    have hids : ns.flatMap Node.ids ⊆ (front ++ ns ++ back).flatMap Node.ids := by
      simp only [List.flatMap_append, List.append_assoc]
      exact fun k hk ↦ List.mem_append_right _ (List.mem_append_left _ hk)
    obtain ⟨hc', ht⟩ := h.kept hown ⟨hc.faithful, hc.board, fun c hcm ↦ hc.nodes c (hmem c hcm)⟩
    refine ⟨⟨hc'.faithful, hc'.board, fun c hcm ↦ ?_⟩, ht.mono hids⟩
    by_cases hcn : c ∈ ns'
    · exact hc'.nodes c hcn
    · have hbeside : c ∈ front ++ back := by
        simp only [List.mem_append] at hcm ⊢
        tauto
      have hold := hc.nodes c (by simp only [List.mem_append] at hbeside ⊢; tauto)
      rw [ht.id]
      refine hold.congr fun k hk ↦ ?_
      have hother := fun other ho ↦ hapart other ho k (List.mem_flatMap_of_mem hbeside hk)
      apply ht.scope k
      · exact fun hkn ↦ hother k (List.mem_append_right _ hkn) rfl
      · exact fun hks ↦ hother k (List.mem_append_left _ (List.mem_of_head? hks)) rfl

/-- What happens to nodes happens to their parent, if it has no scope of its own. -/
theorem Records.parent {n n' : Node (Site × σ)} (h : Records scopes ns env ns' env')
    (hids : n.ids = n.id :: ns.flatMap Node.ids) (hids' : n'.ids = n.id :: ns'.flatMap Node.ids)
    (hn : ∀ {l i}, n.Tracked l scopes i → ∀ c ∈ ns, c.Tracked l scopes i)
    (hn' : ∀ {l i}, (∀ c ∈ ns', c.Tracked l scopes i) → n'.Tracked l scopes i) :
    Records scopes [n] env [n'] env' where
  ids := by simp [hids, hids', h.ids]
  kept hnodup hc := by
    rw [List.flatMap_singleton, hids] at hnodup ⊢
    have hown : (scopes ++ ns.flatMap Node.ids).Nodup :=
      hnodup.sublist ((List.sublist_cons_self _ _).append_left scopes)
    obtain ⟨hc', ht⟩ := h.kept hown
      ⟨hc.faithful, hc.board, hn (hc.nodes n (List.mem_singleton_self n))⟩
    refine ⟨⟨hc'.faithful, hc'.board, fun c hcm ↦ ?_⟩, ht.mono (List.subset_cons_self _ _)⟩
    rw [List.mem_singleton.mp hcm]
    exact hn' hc'.nodes

/-- The children of a composite, whatever becomes of the composite itself. -/
theorem Records.composite (h : Records scopes ns env ns' env') (tag : Tag) (life life' : Life)
    (kind : CompositeKind) (resume resume' : Nat) :
    Records scopes [.composite tag life kind resume ns] env
      [.composite tag life' kind resume' ns'] env' :=
  h.parent (ids_composite ..) (ids_composite ..) tracked_composite.mp tracked_composite.mpr

/-- The child of a decorator that has no scope, whatever becomes of the decorator itself. -/
theorem Records.decorator {c c' : Node (Site × σ)} (h : Records scopes [c] env [c'] env')
    (tag : Tag) (life life' : Life) {kind : DecoratorKind} (hk : kind ≠ .scoped)
    (memory memory' : Memory) :
    Records scopes [.decorator tag life kind memory (some c)] env
      [.decorator tag life' kind memory' (some c')] env' := by
  refine h.parent (ids_decorator ..) (ids_decorator ..) (fun ht d hd ↦ ?_) fun ht ↦ ?_
  · rw [List.mem_singleton.mp hd]
    exact (tracked_decorator_of_ne hk).mp ht
  · exact (tracked_decorator_of_ne hk).mpr (ht c' (List.mem_singleton_self c'))

/-- A decorator without a child uses no scope. -/
theorem Records.childless (env : Env (ω × List Notice)) (tag : Tag) (life life' : Life)
    (kind : DecoratorKind) (memory memory' : Memory) :
    Records (σ := σ) scopes [.decorator tag life kind memory none] env
      [.decorator tag life' kind memory' none] env :=
  (Records.refl scopes [] env).parent (ids_decorator ..) (ids_decorator ..)
    (fun _ _ hc ↦ by cases hc) fun _ ↦ trivial

/-- A life that leaves whether a node is started needs no record. -/
theorem Records.withLife (n : Node (Site × σ)) (env : Env (ω × List Notice)) {life : Life}
    (hl : life.started = n.started) : Records scopes [n] env [n.withLife life] env where
  ids := by simp [ids_eq, Node.id]
  kept hn hc := by
    refine ⟨⟨hc.faithful, hc.board, fun c hcm ↦ ?_⟩, rfl, fun _ _ _ ↦ rfl, fun _ ↦ rfl⟩
    rw [List.mem_singleton.mp hcm]
    exact (hc.nodes n (List.mem_singleton_self n)).withLife hl

/-- Whatever happens to the world, the log does not mind. -/
theorem Records.world (ns : List (Node (Site × σ))) (env : Env (ω × List Notice))
    {w : ω × List Notice} (hw : w.2 = env.world.2) :
    Records scopes ns env ns { env with world := w } where
  ids := rfl
  kept hn hc := by
    have hl : Env.ledger { env with world := w } = env.ledger := congrArg Ledger.of hw
    refine ⟨⟨hw ▸ hc.faithful, ?_, ?_⟩, rfl, fun _ _ _ ↦ by rw [hl], fun _ ↦ by rw [hl]⟩
    · rw [hl]
      exact hc.board
    · rw [hl]
      exact hc.nodes

/-- A hook of a leaf touches the local scope alone, and leaves in it what is logged. -/
theorem Records.hook (tag : Tag) (life life' : Life) (site : Site) (state : σ) (hook : Hook)
    (e : Effect σ ω) (env : Env (ω × List Notice)) :
    Records scopes [leaf tag life (site, state)] env [leaf tag life' (site, e.state)]
      (env.after (e.logged site hook env.board env.world.2)) where
  ids := rfl
  kept hn hc := by
    obtain rfl : site.scopes = scopes := hc.nodes _ (List.mem_singleton_self _)
    have hl : (env.after (e.logged site hook env.board env.world.2)).ledger =
        env.ledger.write site.scopes e.entries := Ledger.of_append _ _
    refine ⟨⟨hc.faithful.append hc.board, ?_, fun c hcm ↦ ?_⟩, rfl, fun k _ hk ↦ ?_, fun hs ↦ ?_⟩
    · rw [hl, Ledger.view_write (List.nodup_append.mp hn).1, ← hc.board]
      rfl
    · rw [List.mem_singleton.mp hcm]
      rfl
    · rw [hl, Ledger.scope_write_of_ne hk]
    · rw [hl, Ledger.root_write hs]

/-- A scope is empty when an activation of its decorator begins. -/
theorem Records.opened (tag : Tag) {life life' : Life} (memory : Memory) (count : UInt32)
    (child : Option (Node (Site × σ))) (env : Env (ω × List Notice)) (hl : life.started = false)
    (hl' : life'.started = true) :
    Records scopes [.decorator tag life .scoped memory child] env
      [.decorator tag life' .scoped { memory with count } child] (env.note (.opened tag.id)) where
  ids := by simp
  kept hn hc := by
    have hledger : (env.note (.opened tag.id)).ledger = env.ledger.write [tag.id] ∅ :=
      Ledger.of_append _ _
    have hscope (k : NodeId) (hk : k ≠ tag.id) :
        (env.ledger.write [tag.id] ∅).scope k = env.ledger.scope k := if_neg hk
    rw [List.flatMap_singleton, ids_decorator] at hn ⊢
    obtain ⟨-, hown, hapart⟩ := List.nodup_append.mp hn
    refine ⟨⟨hc.faithful.append trivial, ?_, fun c hcm ↦ ?_⟩, rfl, fun k hk _ ↦ ?_, fun _ ↦ ?_⟩
    · rw [hledger, Ledger.view_congr (fun k hk ↦ hscope k ?_) rfl]
      · exact hc.board
      · exact hapart k hk tag.id (.head _)
    · have htracked := hc.nodes _ (List.mem_singleton_self _)
      rw [List.mem_singleton.mp hcm, hledger]
      cases child with
      | none => trivial
      | some child =>
        obtain ⟨hentries, henclosing, hchild⟩ := htracked
        refine ⟨?_, henclosing, fun j hj ↦ (hchild j hj).congr fun k hk ↦ hscope k ?_⟩
        · rw [if_neg (by simp [hl])] at hentries
          rw [if_pos hl']
          exact hentries.trans (if_pos rfl).symm
        · rintro rfl
          exact (List.nodup_cons.mp hown).1 (by simpa using hk)
    · rw [hledger]
      exact hscope k fun he ↦ hk (by rw [he]; exact .head _)
    · rw [hledger]
      rfl

/-- What happens to a child inside the scope of a started decorator: the scope comes back as it was
left, and goes into the memory again, or is cleared when the activation ends. -/
theorem Records.inScope {c c' : Node (Site × σ)} {tag : Tag} {life : Life} {memory : Memory}
    {inner : Env (ω × List Notice)}
    (h : Records (tag.id :: scopes) [c] (env.enter memory) [c'] inner) (hl : life.started = true)
    (life' : Life) {s : Scope} (hid : s.id = inner.board.id)
    (hs : s.entries = if life'.started then inner.board.entries else ∅) :
    Records scopes [.decorator tag life .scoped memory (some c)] env
      [.decorator tag life' .scoped (memory.keep env.board.id s) (some c')] (env.leave inner) where
  ids := by
    have hids := h.ids
    simp only [List.flatMap_singleton] at hids
    simp [hids]
  kept hn hc := by
    rw [List.flatMap_singleton, ids_decorator] at hn ⊢
    have hinside : (tag.id :: scopes ++ [c].flatMap Node.ids).Nodup :=
      List.perm_middle.nodup_iff.mp hn
    obtain ⟨hc', ht⟩ := h.kept hinside (hc.enter hl)
    obtain ⟨hscope, hroot⟩ := ht.outside
    have hleave : (env.leave inner).ledger = inner.ledger := rfl
    have hleft : inner.board.entries = inner.ledger.scope tag.id := (List.cons.inj hc'.board).1
    refine ⟨⟨hc'.faithful, ?_, fun d hd ↦ ?_⟩, rfl, fun k hk _ ↦ hscope k hk, fun _ ↦ hroot⟩
    · rw [hleave, Ledger.view_congr (fun k hk ↦ hscope k ?_) hroot]
      · exact hc.board
      · exact fun hmem ↦ (List.nodup_append.mp hn).2.2 k hk k hmem rfl
    · rw [List.mem_singleton.mp hd, hleave]
      refine ⟨?_, fun j hj ↦ (Option.some.inj hj).symm, fun j hj ↦ ?_⟩
      · rw [← hleft]
        exact hs
      · rw [← hj s rfl, hid]
        exact hc'.nodes c' (List.mem_singleton_self c')

end Node

end BehaviorTree
