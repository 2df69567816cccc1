import BehaviorTree.Leaf.Basic
import BehaviorTree.Proofs.Host.Play
import BehaviorTree.Proofs.Scope.Probing

/-!
# Probes of a host

A host plays with a tree of unused nodes and its desk, and probes a node in between. The leaf below
decorators sees then what it would see first if the node were run instead
(`probes_see_what_runs_see`), unless a stored scope that has entries lies below one that is empty:
the probe passes the empty one, and does not find the other (`probe_misses_nested_scope`).
-/

namespace BehaviorTree

variable {ο σ ν ω : Type}

namespace Leaf

/-- A leaf that raises a flag whenever it runs, and holds where the flag is visible. -/
def flagging : Node (String × Leaf) :=
  .newLeaf (.plain (.ofNat 3) "Script") ("a", .script ⟨"a", [.running], false,
    .test (.flag "flag" false), .none, [], [.set "flag" (.fixed (.bool true))], [], 0, ""⟩)

private theorem allUnused_flagging : flagging.AllUnused := Node.allUnused_newLeaf _ _

/-- The leaf below an inverter, in a scope. -/
def flagged : Tree Owner (String × Leaf) :=
  ⟨.newDecorator (.plain (.ofNat 1) "BlackboardScope") .scoped
    (some (.newDecorator (.plain (.ofNat 2) "Invert") .invert (some flagging))), [], none, false,
    none⟩

/-- The leaf in a scope in a scope. -/
def nested : Tree Owner (String × Leaf) :=
  ⟨.newDecorator (.plain (.ofNat 1) "BlackboardScope") .scoped
    (some (.newDecorator (.plain (.ofNat 2) "BlackboardScope") .scoped (some flagging))), [], none,
    false, none⟩

private theorem allUnused_within {tag tag' : Tag} {kind kind' : DecoratorKind} :
    (Node.newDecorator tag kind (some (.newDecorator tag' kind' (some flagging)))).AllUnused := by
  refine Node.allUnused_newDecorator fun c hc ↦ ?_
  obtain rfl := Option.some.inj hc
  refine Node.allUnused_newDecorator fun c hc ↦ ?_
  obtain rfl := Option.some.inj hc
  exact allUnused_flagging

/-- A desk with one empty scope. -/
def desk : Desk (World × List (HookEvent String)) := ⟨⟨(.initial, []), ⟨1⟩⟩, [.empty ⟨0⟩]⟩

/-- The blackboard of that desk. -/
def board : Blackboard := (Scope.empty ⟨0⟩).alone

/-- A tree and the desk after one tick. -/
def ticked (t : Tree Owner (String × Leaf)) :
    Game Owner (String × Leaf) (World × List (HookEvent String)) :=
  t.playAll behavior.traced [.serve .tick ⟨0, []⟩] desk

/-- The desk stores its scope once, and the trees none. -/
theorem distinct_within {tag tag' : Tag} {kind kind' : DecoratorKind} :
    Distinct desk.fresh fun i ↦
      (Node.newDecorator tag kind (some (.newDecorator tag' kind' (some flagging)))).stores i +
        desk.stores i := by
  intro i
  have hnone : (Node.newDecorator tag kind
      (some (.newDecorator tag' kind' (some flagging)))).stores i = 0 := by
    simp [Node.newDecorator, flagging, Node.newLeaf, Memory.stores, Memory.fresh]
  have hone : desk.stores i = if (⟨0⟩ : ScopeId) = i then 1 else 0 := by
    simp [Desk.stores, desk, Scope.empty, List.count_singleton]
  simp only [hnone, hone]
  split
  · next hi =>
    subst hi
    exact Nat.le_refl _
  · exact Nat.zero_le _

end Leaf

/-- The identities of the scopes on the desk. -/
def Desk.ids (d : Desk ω) : Set ScopeId := {i | 0 < d.stores i}

/-- The scope of a blackboard at a place of the desk is one of the desk. -/
theorem Desk.id_of_board? {d : Desk ω} {p : Place} {b : Blackboard} (h : d.board? p = some b) :
    b.id ∈ d.ids :=
  List.count_pos_iff.mpr (List.mem_map_of_mem (List.mem_of_getElem? (scope_of_board? h)))

namespace Tree

variable {B : Behavior ο σ ω} {t : Tree ο σ} {d : Desk ω}

/-- Whether a tree is moored with the scopes of a desk around. -/
structure Moored (t : Tree ο σ) (d : Desk ω) : Prop where
  desk : ∀ i ∈ d.ids, i.number < d.fresh.number
  root : t.root.Moored d.fresh d.ids ∅

/-- An unused tree is moored if no scope is stored twice. -/
theorem moored_of_unused (hu : t.root.AllUnused)
    (hd : Distinct d.fresh fun i ↦ t.root.stores i + d.stores i) : t.Moored d where
  desk i hi := by
    have hcount : t.root.stores i + d.stores i ≤ _ := hd i
    have hpos : 0 < d.stores i := hi
    split at hcount
    · assumption
    · omega
  root := Node.moored_of_unused hu hd fun _ hi ↦ hi

/-- What keeps the root moored on a blackboard of the desk keeps the tree moored. -/
theorem Moored.after (h : t.Moored d) {p : Place} {b board : Blackboard} (hb : d.board? p = some b)
    (hid : board.id = b.id) {n : Node σ} {env : Env ω}
    (hk : Node.KeepsMoored t.root { d.env b with board } n env) (last : Option Status) :
    Moored { t with root := n, lastStatus := last } (d.after p.scope env) := by
  have hids : (d.after p.scope env).ids = d.ids := by
    ext i
    exact (congrArg (0 < ·) (Desk.stores_after hb (hk.id.trans hid) i)).to_iff
  have hboard : board.id ∈ d.ids := hid ▸ Desk.id_of_board? hb
  constructor
  · rw [hids]
    exact fun i hi ↦ (h.desk i hi).trans_le hk.fresh
  · rw [hids]
    exact hk.moored h.desk (h.desk _ hboard) (Set.notMem_empty _) h.root

private theorem Moored.serve (h : t.Moored d) (B : Behavior ο σ ω) (request : Request) {p : Place}
    {b : Blackboard} (hb : d.board? p = some b) :
    let r := t.serve B request (d.env b)
    r.tree.Moored (d.after p.scope r.env) := by
  cases request with
  | tick => exact h.after hb rfl (Node.keepsMoored_run B _ _) _
  | tickWith clock =>
    have hid : (clock.publish b).id = b.id := rfl
    exact h.after hb hid (Node.keepsMoored_run B _ _) _
  | stop => exact h.after hb rfl (Node.keepsMoored_abort B _ _) _

/-- Moves keep a tree moored. -/
theorem Moored.play (h : t.Moored d) (B : Behavior ο σ ω) (m : Move ω) :
    let r := t.play B m d
    r.tree.Moored r.desk := by
  cases m with
  | create =>
    have hids : ∀ i ∈ d.create.ids, i ∈ d.ids ∨ i = d.fresh := by
      intro i hi
      have hpos : 0 < d.create.stores i := hi
      rw [Desk.stores_create] at hpos
      split at hpos
      · exact .inr (by symm; assumption)
      · exact .inl (by simpa [Desk.ids] using hpos)
    refine ⟨fun i hi ↦ ?_, h.root.refit (Nat.le_succ _) (fun i hi ↦ ?_) fun _ ↦ .inl⟩
    · rcases hids i hi with hold | rfl
      · exact Nat.lt_succ_of_lt (h.desk i hold)
      · exact Nat.lt_succ_self _
    · exact (hids i hi).imp_right fun heq ↦ Nat.le_of_eq (congrArg ScopeId.number heq.symm)
  | write index f =>
    have hids : (d.write index f).ids = d.ids := by
      ext i
      simp [Desk.ids]
    constructor
    · show ∀ i ∈ (d.write index f).ids, _
      rw [hids]
      exact h.desk
    · show t.root.Moored d.fresh (d.write index f).ids ∅
      rw [hids]
      exact h.root
  | meanwhile f => exact ⟨h.desk, h.root⟩
  | serve request p =>
    simp only [Tree.play]
    cases hb : d.board? p with
    | none => exact h
    | some b => exact h.serve B request hb
  | evaluate p =>
    simp only [Tree.play]
    cases hb : d.board? p with
    | none => exact h
    | some b =>
      have hk : Node.KeepsMoored t.root (d.env b) t.root (t.evaluate B (d.env b)).2 :=
        .of_imp rfl rfl fun hn ↦ hn
      exact h.after hb rfl hk t.lastStatus

private theorem Moored.playAll (h : t.Moored d) (B : Behavior ο σ ω) (moves : List (Move ω)) :
    let g := t.playAll B moves d
    g.tree.Moored g.desk := by
  induction moves generalizing t d with
  | nil => exact h
  | cons m rest ih => exact ih (h.play B m)

/-- Take a tree of unused nodes, whatever a host has done with it and its desk, and a node of it
below which there are decorators alone on the way to a leaf. If the host probes the node on a
blackboard of its desk, the leaf is asked, and it sees of each key the value that it would see in
the first call of a hook if the node were run on this blackboard and the run reached it; provided
that no scope with entries is stored below an empty one on the way. -/
theorem probes_see_what_runs_see (B : Behavior ο σ ω) {t : Tree ο (ν × σ)} (hu : t.root.AllUnused)
    {d : Desk (ω × List (HookEvent ν))} (hd : Distinct d.fresh fun i ↦ t.root.stores i + d.stores i)
    (moves : List (Move (ω × List (HookEvent ν)))) :
    let g := t.playAll B.traced moves d
    ∀ n ∈ g.tree.root.preorder, n.leafBelow?.isSome → Unblocked n.wayDown →
      ∀ place b, g.desk.board? place = some b →
        ∃ probe events,
          (n.evaluate B.traced b g.desk.world).2.2 = g.desk.world.2 ++ [probe] ∧
          (n.run B.traced (g.desk.env b)).env.world.2 = g.desk.world.2 ++ events ∧
          (ranLeaves events ≠ [] → ∃ first, events.head? = some first ∧
            ∀ key, probe.value? key = first.value? key) := by
  intro g n hn hleaf hunblocked place b hb
  have hmoored : g.tree.Moored g.desk := (moored_of_unused hu hd).playAll B.traced moves
  obtain ⟨near, far, hnear, hnode⟩ := hmoored.root.at_mem hn
  obtain ⟨s, hs⟩ := Option.isSome_iff_exists.mp hleaf
  obtain ⟨events, hlog, hfirst⟩ := Node.firstSees_run (B := B) hleaf (g.desk.env b)
  refine ⟨⟨s.1, .evaluate, (Memory.probeBoards n.wayDown b).contents⟩, events, ?_, hlog,
    fun hran ↦ ?_⟩
  · rw [Node.evaluate_of_leafBelow B.traced hs]
    rfl
  · obtain ⟨first, rest, rfl⟩ : ∃ first rest, events = first :: rest := by
      refine List.exists_cons_of_ne_nil ?_
      rintro rfl
      exact hran rfl
    refine ⟨first, rfl, fun key ↦ ?_⟩
    have hseen : first.seen = _ := hfirst hran first rfl
    rw [HookEvent.value?, HookEvent.value?, hseen, Blackboard.findSome?_contents,
      Blackboard.findSome?_contents]
    exact Memory.value?_probeBoards (g.desk.env b) hnode.wayDown
      (hnear (Desk.id_of_board? hb)) (Nat.le_refl _) hunblocked key

open Leaf in
/-- After a tick the leaf below the inverter sees its flag, in a probe as in a run. -/
theorem probes_see_what_runs_see_flagged :
    flagged.root.AllUnused ∧ (Distinct desk.fresh fun i ↦ flagged.root.stores i + desk.stores i) ∧
      (ticked flagged).tree.root ∈ (ticked flagged).tree.root.preorder ∧
      (ticked flagged).tree.root.leafBelow?.isSome ∧
      Unblocked (ticked flagged).tree.root.wayDown ∧
      (ticked flagged).desk.board? ⟨0, []⟩ = some board ∧
      ∃ probe events,
        ((ticked flagged).tree.root.evaluate behavior.traced board
            (ticked flagged).desk.world).2.2 =
          (ticked flagged).desk.world.2 ++ [probe] ∧
        ((ticked flagged).tree.root.run behavior.traced
          ((ticked flagged).desk.env board)).env.world.2 = (ticked flagged).desk.world.2 ++ events ∧
        (ranLeaves events ≠ [] → ∃ first, events.head? = some first ∧
          ∀ key, probe.value? key = first.value? key) := by
  have hn : (ticked flagged).tree.root ∈ (ticked flagged).tree.root.preorder := by
    rw [Node.preorder_eq]
    exact List.mem_cons_self
  have hunblocked : Unblocked (ticked flagged).tree.root.wayDown := List.pairwise_singleton _ _
  exact ⟨allUnused_within, distinct_within, hn, rfl, hunblocked, rfl,
    probes_see_what_runs_see behavior allUnused_within distinct_within [.serve .tick ⟨0, []⟩] _ hn
      rfl hunblocked ⟨0, []⟩ board rfl⟩

open Leaf in
/-- In a scope in a scope the leaf does not see its flag in a probe, though it would in a run. -/
theorem probe_misses_nested_scope :
    nested.root.AllUnused ∧ (Distinct desk.fresh fun i ↦ nested.root.stores i + desk.stores i) ∧
      (ticked nested).desk.board? ⟨0, []⟩ = some board ∧
      ∃ probe first,
        (ticked nested).tree.root.evaluate behavior.traced board (ticked nested).desk.world =
          (.failure, (ticked nested).desk.world.1.note (.hook "a" .evaluate),
            (ticked nested).desk.world.2 ++ [probe]) ∧
        ((ticked nested).tree.root.run behavior.traced
            ((ticked nested).desk.env board)).env.world.2 =
          (ticked nested).desk.world.2 ++ [first] ∧ first.hook = .run ∧
        probe.value? "flag" = none ∧ first.value? "flag" = some (.bool true) := by
  refine ⟨allUnused_within, distinct_within, rfl, _, _, rfl, rfl, rfl, ?_, ?_⟩
  · rfl
  · rfl

end Tree

end BehaviorTree
