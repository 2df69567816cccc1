import BehaviorTree.Proofs.Host.Desk
import BehaviorTree.Proofs.Node.Preserved
import BehaviorTree.Proofs.Tree.Calls
import BehaviorTree.Proofs.Tree.Copy

/-!
# Sessions of a host

In a session a host lays out scopes, builds trees and serves them, and trades nodes with a pool in
whatever order. It owns its nodes: each is in one tree, loose, or in the pool. Nothing that a host
does makes up a scope or stores one twice, nor does it put a node in the wrong stack of the pool
(`tidy_step`).
-/

namespace BehaviorTree

variable {ο σ κ ω : Type}

/-- What a host holds: its desk, a pool, and nodes, roots of trees as well as loose ones. -/
structure Session (σ ω : Type) extends Desk ω where
  pool : Pool σ
  nodes : List (Node σ)

namespace Session

/-- Where trees are made in the session. -/
def host (s : Session σ ω) : Host σ ω := ⟨s.toOutside, s.pool⟩

/-- The session with another desk. -/
def withDesk (s : Session σ ω) (d : Desk ω) : Session σ ω := ⟨d, s.pool, s.nodes⟩

/-- The session after a tree was made. -/
def withHost (s : Session σ ω) (h : Host σ ω) : Session σ ω :=
  ⟨⟨h.toOutside, s.scopes⟩, h.pool, s.nodes⟩

/-- The session with another pool and other nodes. -/
def trade (s : Session σ ω) (pool : Pool σ) (nodes : List (Node σ)) : Session σ ω :=
  ⟨s.toDesk, pool, nodes⟩

/-- A session in which nothing has happened yet. -/
def start (out : Outside ω) (maxFree : Nat) : Session σ ω := ⟨⟨out, []⟩, .empty maxFree, []⟩

/-- Takes a shell of a node from the pool. -/
def acquire (s : Session σ ω) (model : Node σ) : Session σ ω :=
  let r := s.pool.acquire model
  s.trade r.2 (r.1.toOption.toList ++ s.nodes)

/-- Serves a tree at a place where there is a blackboard; the other nodes stay. -/
def serve (B : Behavior ο σ ω) (s : Session σ ω) (t : Tree ο σ) (rest : List (Node σ))
    (request : Request) (p : Place) (b : Blackboard) : Session σ ω :=
  let r := t.serve B request (s.toDesk.env b)
  ⟨s.toDesk.after p.scope r.env, s.pool, r.tree.root :: rest⟩

/-- Hands back the first tree, whether it is running or not. -/
def release (s : Session σ ω) : Session σ ω :=
  match s.nodes with
  | [] => s
  | n :: rest => s.trade (s.pool.release n) rest

/-- Makes an instance of a prototype, or fails to. -/
def instantiate (B : Behavior ο σ ω) (s : Session σ ω) (t : Tree ο σ) (owner : ο) : Session σ ω :=
  let r := t.instantiate B owner s.host
  (s.withHost r.2).trade r.2.pool ((r.1.map Tree.root).toOption.toList ++ s.nodes)

/-- Whether a host can go from one state of its session to another. -/
inductive Step (B : Behavior ο σ ω) (s : Session σ ω) : Session σ ω → Prop where
  /-- The world goes on, and others may take identities of scopes. -/
  | meanwhile (w : ω) (fresh : ScopeId) (h : s.fresh.number ≤ fresh.number) :
      Step B s (s.withDesk ⟨⟨w, fresh⟩, s.scopes⟩)
  | create : Step B s (s.withDesk s.toDesk.create)
  | write (index : Nat) (f : Entries → Entries) : Step B s (s.withDesk (s.toDesk.write index f))
  /-- Builds, joins, parts and drops nodes, in any way that makes up no scope. -/
  | arrange (nodes : List (Node σ))
      (h : ∀ i, Node.storesAll nodes i ≤ Node.storesAll s.nodes i) : Step B s (s.trade s.pool nodes)
  /-- Ticks or stops the first tree. -/
  | serve (t : Tree ο σ) (rest : List (Node σ)) (hn : s.nodes = t.root :: rest)
      (request : Request) (p : Place) (b : Blackboard) (hb : s.toDesk.board? p = some b) :
      Step B s (s.serve B t rest request p b)
  | acquire (model : Node σ) : Step B s (s.acquire model)
  | release : Step B s s.release
  | prewarm (root : Node σ) (copies : Nat) : Step B s (s.trade (s.pool.prewarm root copies) s.nodes)
  | clear : Step B s (s.trade s.pool.clear s.nodes)
  | instantiate (t : Tree ο σ) (owner : ο) : Step B s (s.instantiate B t owner)

/-- Whether a session can come to a state. -/
inductive Reachable (B : Behavior ο σ ω) : Session σ ω → Prop where
  | start (out : Outside ω) (maxFree : Nat) : Reachable B (start out maxFree)
  | step {s s' : Session σ ω} (h : Reachable B s) (hs : Step B s s') : Reachable B s'

/-! ### Scopes in a session -/

/-- How many scopes of the session have an identity. -/
def stores (s : Session σ ω) (i : ScopeId) : Nat :=
  s.toDesk.stores i + s.pool.stores i + Node.storesAll s.nodes i

/-- Whether each free node lies in its stack, and no scope is stored twice, be it in the session or
elsewhere. -/
structure Tidy (s : Session σ ω) (elsewhere : ScopeId → Nat) : Prop where
  keyed : s.pool.Keyed
  distinct : Distinct s.fresh fun i ↦ s.stores i + elsewhere i

variable {B : Behavior ο σ ω} {s s' : Session σ ω} {elsewhere : ScopeId → Nat}

/-- Nodes that are traded with the pool bring no scopes with them. -/
theorem Tidy.trade {pool : Pool σ} {nodes : List (Node σ)} (h : s.Tidy elsewhere)
    (hk : pool.Keyed)
    (hs : ∀ i,
      pool.stores i + Node.storesAll nodes i ≤ s.pool.stores i + Node.storesAll s.nodes i) :
    (s.trade pool nodes).Tidy elsewhere := by
  refine ⟨hk, h.distinct.of_le fun i ↦ ?_⟩
  have hi := hs i
  simp only [stores, Session.trade]
  omega

end Session

/-- A tree that is served at a place of a desk and the scopes around share no scope afterwards if
they shared none before. -/
theorem Desk.distinct_serve {B : Behavior ο σ ω} {d : Desk ω} {p : Place} {b : Blackboard}
    (hb : d.board? p = some b) (t : Tree ο σ) (request : Request) {stores : ScopeId → Nat}
    (hd : Distinct d.fresh fun i ↦ t.root.stores i + (d.stores i + stores i)) :
    let r := t.serve B request (d.env b)
    let d' := d.after p.scope r.env
    Distinct d'.fresh fun i ↦ r.tree.root.stores i + (d'.stores i + stores i) := by
  obtain ⟨board, hid, hevolves⟩ := t.evolves_serve B request (d.env b)
  refine (hevolves.distinct _ hd).of_le fun i ↦ Nat.le_of_eq ?_
  rw [Desk.stores_after hb (hevolves.board.1.trans hid)]

namespace Session

variable {B : Behavior ο σ ω} {s s' : Session σ ω} {elsewhere : ScopeId → Nat}

private theorem tidy_start (out : Outside ω) (maxFree : Nat) :
    (start out maxFree : Session σ ω).Tidy fun _ ↦ 0 := by
  refine ⟨Pool.keyed_empty maxFree, fun i ↦ ?_⟩
  simp [stores, start, Desk.stores]

/-- Making a tree keeps a session tidy; the scopes in the tree are scopes of the pool no more. -/
theorem Tidy.instantiate (h : s.Tidy elsewhere) (t : Tree ο σ) (owner : ο) :
    let r := t.instantiate B owner s.host
    (s.withHost r.2).Tidy fun i ↦ Node.storesOk (r.1.map Tree.root) i + elsewhere i := by
  intro r
  have hi : t.Instantiated _ _ s.host r := t.framed_instantiate B owner s.host
  refine ⟨hi.keyed h.keyed, ?_⟩
  have hfresh : (s.withHost r.2).fresh = s.fresh := hi.fresh
  rw [hfresh]
  refine h.distinct.of_le fun i ↦ ?_
  have hstores : _ ≤ s.pool.stores i := hi.stores i
  have hdesk : (s.withHost r.2).toDesk.stores i = s.toDesk.stores i := rfl
  simp only [stores, hdesk]
  show _ + r.2.pool.stores i + Node.storesAll s.nodes i + _ ≤ _
  omega

/-- Nothing that a host does makes a session untidy. -/
theorem tidy_step (h : s.Tidy elsewhere) (hs : s.Step B s') : s'.Tidy elsewhere := by
  cases hs with
  | meanwhile w fresh hf => exact ⟨h.keyed, h.distinct.mono hf⟩
  | create =>
    refine ⟨h.keyed, h.distinct.next.of_le fun i ↦ ?_⟩
    simp only [stores, withDesk, Desk.stores_create]
    omega
  | write index f =>
    refine ⟨h.keyed, h.distinct.of_le fun i ↦ ?_⟩
    simp only [stores, withDesk, Desk.stores_write, Nat.le_refl]
  | arrange nodes hn => exact h.trade h.keyed fun i ↦ Nat.add_le_add_left (hn i) _
  | serve t rest hn request p b hb =>
    refine ⟨h.keyed, ?_⟩
    have hd : Distinct s.fresh fun i ↦ t.root.stores i +
        (s.toDesk.stores i + (s.pool.stores i + Node.storesAll rest i + elsewhere i)) := by
      refine h.distinct.of_le fun i ↦ ?_
      simp only [stores, hn, Node.storesAll_cons]
      omega
    refine (Desk.distinct_serve hb t request hd).of_le fun i ↦ ?_
    simp only [stores, serve, Node.storesAll_cons]
    omega
  | acquire model =>
    have ha := s.pool.supplied_acquire model
    refine h.trade (ha.keyed h.keyed).2 fun i ↦ ?_
    have hi := ha.stores i
    rw [Node.storesAll_append, Node.storesAll_toOption]
    omega
  | release =>
    unfold release
    split
    · exact h
    · next n rest hn =>
      refine h.trade (h.keyed.release n) fun i ↦ ?_
      have hi := s.pool.stores_release_le n i
      rw [hn, Node.storesAll_cons]
      omega
  | prewarm root copies =>
    refine h.trade (h.keyed.prewarm root copies) fun i ↦ ?_
    exact Nat.le_of_eq (by rw [Pool.stores_prewarm])
  | clear =>
    refine h.trade (Pool.Keyed.clear s.pool) fun i ↦ ?_
    rw [Pool.stores_clear]
    omega
  | instantiate t owner =>
    have hi := h.instantiate (B := B) t owner
    refine ⟨hi.keyed, hi.distinct.of_le fun i ↦ ?_⟩
    simp only [stores, instantiate, Session.trade, withHost, Node.storesAll_append,
      Node.storesAll_toOption]
    omega

/-- A session stays tidy. -/
theorem Reachable.tidy (h : Reachable B s) : s.Tidy fun _ ↦ 0 := by
  induction h with
  | start out maxFree => exact tidy_start out maxFree
  | step _ hs ih => exact tidy_step ih hs

end Session

end BehaviorTree
