import BehaviorTree.Proofs.Host.Desk
import BehaviorTree.Proofs.Tree.Calls
import BehaviorTree.Proofs.Twin.Run

/-!
# Playing with a tree

A host makes moves: it lays out scopes, writes to them, lets the world go on, and serves or probes
a tree at a place of its desk. Over twins the same moves give the same replies and leave twins, as
long as the desks are alike (`playAll_alike`).
-/

namespace BehaviorTree

variable {ο σ κ ω : Type}

/-- What a host does with a tree and its desk. -/
inductive Move (ω : Type) where
  /-- Lays a new scope on the desk. -/
  | create
  /-- Changes the entries of a scope. -/
  | write (index : Nat) (f : Entries → Entries)
  /-- Lets the world go on. -/
  | meanwhile (f : ω → ω)
  | serve (request : Request) (place : Place)
  /-- Asks whether the root holds. -/
  | evaluate (place : Place)

/-- The result of a move: the status that was answered, the tree and the desk. -/
structure Played (ο σ ω : Type) where
  reply : Option Status
  tree : Tree ο σ
  desk : Desk ω

/-- The result of several moves: their replies in order, the tree and the desk. -/
structure Game (ο σ ω : Type) where
  replies : List (Option Status)
  tree : Tree ο σ
  desk : Desk ω

/-- Publishing a clock keeps blackboards alike. -/
theorem Blackboard.Alike.publish {r : Link} {b b' : Blackboard} (h : b.Alike r b') (clock : Clock) :
    (clock.publish b).Alike r (clock.publish b') := by
  have he : b.entries = b'.entries := h.scope.2
  simp only [Clock.publish, Blackboard.set, Blackboard.withEntries_withEntries,
    Blackboard.entries_withEntries, he]
  exact h.withEntries _

namespace Tree

/-- Makes a move; where the desk has no scope, a tree is not asked. -/
def play (B : Behavior ο σ ω) (t : Tree ο σ) (m : Move ω) (d : Desk ω) : Played ο σ ω :=
  match m with
  | .create => ⟨none, t, d.create⟩
  | .write index f => ⟨none, t, d.write index f⟩
  | .meanwhile f => ⟨none, t, d.withWorld (f d.world)⟩
  | .serve request p =>
    match d.board? p with
    | none => ⟨none, t, d⟩
    | some b => let r := t.serve B request (d.env b); ⟨r.reply, r.tree, d.after p.scope r.env⟩
  | .evaluate p =>
    match d.board? p with
    | none => ⟨none, t, d⟩
    | some b => let r := t.evaluate B (d.env b); ⟨some r.1, t, d.after p.scope r.2⟩

/-- Makes moves in order. -/
def playAll (B : Behavior ο σ ω) : List (Move ω) → Tree ο σ → Desk ω → Game ο σ ω
  | [], t, d => ⟨[], t, d⟩
  | m :: rest, t, d =>
    let r := t.play B m d
    let g := playAll B rest r.tree r.desk
    { g with replies := r.reply :: g.replies }

/-! ### Twins at their desks -/

/-- Whether two trees are twins at desks that are alike. -/
structure Paired (part : σ → κ) (strict : Prop) (r : Link) (t t' : Tree ο σ) (d d' : Desk ω) :
    Prop where
  desks : d.Alike r d'
  twins : Node.Twins part strict r t.root t'.root
  left : Distinct d.fresh t.root.stores
  right : Distinct d'.fresh t'.root.stores

/-- Whether two moves give the same reply and leave twins at desks that are alike. -/
def Onward (part : σ → κ) (strict : Prop) (r : Link) (x x' : Played ο σ ω) : Prop :=
  x.reply = x'.reply ∧
    ∃ r₁ : Link, r₁.Extends r ∧ Paired part strict r₁ x.tree x'.tree x.desk x'.desk

variable {B : Behavior ο σ ω} {part : σ → κ} {strict : Prop} {r : Link} {t t' : Tree ο σ}
  {d d' : Desk ω}

/-- At blackboards that are alike the runs of twins go side by side. -/
theorem Paired.nodes (h : Paired part strict r t t' d d') {b b' : Blackboard}
    (hb : b.Alike r b') :
    Node.Paired part strict r [(t.root, t'.root)] (d.env b) (d'.env b') where
  matching := h.desks.matching
  used := h.desks.used
  board := hb
  world := h.desks.world
  twins p hp := by
    rw [List.mem_singleton.mp hp]
    exact h.twins
  left := h.left
  right := h.right

/-- Both desks get a new scope. -/
theorem Paired.create (h : Paired part strict r t t' d d') :
    Paired part strict (r.insert d.fresh d'.fresh) t t' d.create d'.create := by
  have hleft : t.root.stores d.fresh = 0 := by
    simpa using h.left d.fresh
  have hright : t'.root.stores d'.fresh = 0 := by
    simpa using h.right d'.fresh
  exact ⟨h.desks.create, h.twins.insert hleft hright, h.left.mono (Nat.le_succ _),
    h.right.mono (Nat.le_succ _)⟩

/-- Others may take identities of scopes. -/
theorem Paired.later (h : Paired part strict r t t' d d') {fresh fresh' : ScopeId}
    (hl : d.fresh.number ≤ fresh.number) (hl' : d'.fresh.number ≤ fresh'.number) :
    Paired part strict r t t' { d with fresh } { d' with fresh := fresh' } := by
  refine ⟨{ h.desks with used := fun hij ↦ ?_ }, h.twins, h.left.mono hl, h.right.mono hl'⟩
  have hused := h.desks.used hij
  exact ⟨Nat.lt_of_lt_of_le hused.1 hl, Nat.lt_of_lt_of_le hused.2 hl'⟩

/-- After runs of twins went side by side, the desks take back their scopes. -/
theorem Paired.after (h : Paired part strict r t t' d d') {x x' : Node σ × Env ω}
    (hx : Node.Onward part strict r [] x x') (last last' : Option Status) (index : Nat) :
    ∃ r₁ : Link, r₁.Extends r ∧ Paired part strict r₁
      { t with root := x.1, lastStatus := last } { t' with root := x'.1, lastStatus := last' }
      (d.after index x.2) (d'.after index x'.2) := by
  obtain ⟨r₁, hext, hp⟩ := hx
  refine ⟨r₁, hext, ?_, hp.head, hp.left, hp.right⟩
  exact h.desks.after hext hp.matching hp.used hp.board.scope hp.world index

private theorem tick_alike (hB : B.Blind) (hR : B.Resets part) (h : Paired part strict r t t' d d')
    {b b' : Blackboard} (hb : b.Alike r b') (index : Nat) :
    let x := t.tick B (d.env b)
    let x' := t'.tick B (d'.env b')
    Onward part strict r ⟨some x.status, x.tree, d.after index x.env⟩
      ⟨some x'.status, x'.tree, d'.after index x'.env⟩ := by
  obtain ⟨hstatus, hx⟩ := Node.run_onward hB hR t.root t'.root (h.nodes hb)
  exact ⟨congrArg some hstatus, h.after hx _ _ index⟩

/-- The same request to twins at desks that are alike gets the same reply and leaves twins. -/
theorem serve_alike (hB : B.Blind) (hR : B.Resets part) (h : Paired part strict r t t' d d')
    {b b' : Blackboard} (hb : b.Alike r b') (request : Request) (index : Nat) :
    let x := t.serve B request (d.env b)
    let x' := t'.serve B request (d'.env b')
    Onward part strict r ⟨x.reply, x.tree, d.after index x.env⟩
      ⟨x'.reply, x'.tree, d'.after index x'.env⟩ := by
  cases request with
  | tick => exact tick_alike hB hR h hb index
  | tickWith clock => exact tick_alike hB hR h (hb.publish clock) index
  | stop =>
    have hx := Node.abort_onward hB t.root t'.root (h.nodes hb)
    exact ⟨rfl, h.after hx t.lastStatus t'.lastStatus index⟩

/-- Probes of twins answer the same and leave them as they are. -/
theorem evaluate_alike (hB : B.Blind) (hR : B.Resets part) (h : Paired part strict r t t' d d')
    {b b' : Blackboard} (hb : b.Alike r b') (index : Nat) :
    let x := t.evaluate B (d.env b)
    let x' := t'.evaluate B (d'.env b')
    Onward part strict r ⟨some x.1, t, d.after index x.2⟩ ⟨some x'.1, t', d'.after index x'.2⟩ := by
  have he : t.root.evaluate B b d.world = t'.root.evaluate B b' d'.world := by
    rw [h.twins.evaluate_eq hB hR h.desks.matching hb, h.desks.world]
  refine ⟨congrArg (some ·.1) he, r, Link.Extends.refl r, ?_⟩
  refine { h with desks := ?_ }
  exact h.desks.after (Link.Extends.refl r) h.desks.matching h.desks.used hb.scope
    (congrArg (·.2) he) index

/-- One move with each of two twins. -/
theorem play_alike (hB : B.Blind) (hR : B.Resets part) (h : Paired part strict r t t' d d')
    (m : Move ω) : Onward part strict r (t.play B m d) (t'.play B m d') := by
  have hstay : Onward part strict r ⟨none, t, d⟩ ⟨none, t', d'⟩ :=
    ⟨rfl, r, Link.Extends.refl r, h⟩
  cases m with
  | create => exact ⟨rfl, _, r.extends_insert _ _, h.create⟩
  | write index f => exact ⟨rfl, r, Link.Extends.refl r, { h with desks := h.desks.write index f }⟩
  | meanwhile f =>
    simp only [play, ← h.desks.world]
    exact ⟨rfl, r, Link.Extends.refl r, { h with desks := h.desks.withWorld (f d.world) }⟩
  | serve request p =>
    have hb := h.desks.board? p
    simp only [play]
    generalize d.board? p = x, d'.board? p = x' at hb
    cases hb with
    | none => exact hstay
    | some hb => exact serve_alike hB hR h hb request p.scope
  | evaluate p =>
    have hb := h.desks.board? p
    simp only [play]
    generalize d.board? p = x, d'.board? p = x' at hb
    cases hb with
    | none => exact hstay
    | some hb => exact evaluate_alike hB hR h hb p.scope

/-- The same moves with each of two twins give the same replies and leave twins. -/
theorem playAll_alike (hB : B.Blind) (hR : B.Resets part) (moves : List (Move ω))
    (h : Paired part strict r t t' d d') :
    let g := t.playAll B moves d
    let g' := t'.playAll B moves d'
    g.replies = g'.replies ∧ ∃ r₁ : Link, Paired part strict r₁ g.tree g'.tree g.desk g'.desk := by
  induction moves generalizing r t t' d d' with
  | nil => exact ⟨rfl, r, h⟩
  | cons m rest ih =>
    obtain ⟨hreply, r₁, -, hp⟩ := play_alike hB hR h m
    obtain ⟨hreplies, hg⟩ := ih hp
    exact ⟨congrArg₂ List.cons hreply hreplies, hg⟩

end Tree

end BehaviorTree
