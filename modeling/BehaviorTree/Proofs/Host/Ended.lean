import BehaviorTree.Proofs.Host.Pooling

/-!
# Ended activations leave nothing behind

An instance whose root is not started may hold resume indices, counts, scopes and leaf states of
former activations, but none of it can be told from outside: the instance and a new one of the same
prototype are twins.
-/

namespace BehaviorTree

variable {ο σ κ ν ω : Type}

/-! ### What calls keep of a tree -/

namespace Tree

variable {B : Behavior ο σ ω} {part : σ → κ}

private theorem frame_serve (hK : B.Keeps part) (t : Tree ο σ) (request : Request) (env : Env ω) :
    (t.serve B request env).tree.root.frame part = t.root.frame part := by
  obtain ⟨board, -, h⟩ := t.evolves_serve B request env
  exact h.frame hK

private theorem frame_serveAll (hK : B.Keeps part) (calls : List (Call ω)) (t : Tree ο σ) :
    (t.serveAll B calls).tree.root.frame part = t.root.frame part := by
  induction calls generalizing t with
  | nil => rfl
  | cons call rest ih => exact (ih _).trans (frame_serve hK t call.request call.env)

/-- A stopped tree is not started. -/
theorem started_stop (B : Behavior ο σ ω) (t : Tree ο σ) (env : Env ω) :
    (t.serve B .stop env).tree.root.started = false := Node.started_abort B t.root env

end Tree

namespace Session

/-- Whether a session can come to a state in which it has, besides its nodes, an instance of a
prototype for an owner. -/
inductive Tends (B : Behavior ο σ ω) (t : Tree ο σ) (owner : ο) : Session σ ω → Tree ο σ → Prop
  | made {s : Session σ ω} {x : Tree ο σ} (hs : s.Reachable B)
      (hx : (t.instantiate B owner s.host).1 = .ok x) :
      Tends B t owner (s.withHost (t.instantiate B owner s.host).2) x
  /-- The host does something else, or probes the instance, which changes the world alone. -/
  | step {s s' : Session σ ω} {x : Tree ο σ} (h : Tends B t owner s x) (hs : s.Step B s') :
      Tends B t owner s' x
  | serve {s : Session σ ω} {x : Tree ο σ} (h : Tends B t owner s x) (request : Request)
      (p : Place) (b : Blackboard) (hb : s.toDesk.board? p = some b) :
      Tends B t owner
        (s.withDesk (s.toDesk.after p.scope (x.serve B request (s.toDesk.env b)).env))
        (x.serve B request (s.toDesk.env b)).tree

/-- What a session keeps of an instance: it shares no scope with the rest, it is steady, and it is
what the author made, bound to the owner. -/
structure Minds (s : Session σ ω) (part : σ → κ) (bound : κ → κ) (t x : Tree ο σ) : Prop where
  tidy : s.Tidy x.root.stores
  steady : x.root.AllSteady fun _ _ ↦ True
  frame : x.root.frame part = (t.root.frame part).map bound

variable {B : Behavior ο σ ω} {part : σ → κ} {bound : ο → κ → κ} {t : Tree ο σ} {owner : ο}
  {s s' : Session σ ω} {x : Tree ο σ}

private theorem Tends.minds (h : Tends B t owner s x) (hK : B.Keeps part)
    (hA : B.Binds part bound) : s.Minds part (bound owner) t x := by
  induction h with
  | @made s x hs hx =>
    have hi := t.instantiated (hA owner) s.host
    refine ⟨⟨hi.keyed hs.tidy.keyed, ?_⟩, ?_, hi.frame x hx⟩
    · refine (hs.tidy.instantiate (B := B) t owner).distinct.of_le fun i ↦ ?_
      rw [hx]
      exact Nat.le_refl _
    · exact Node.allSteady_of_allUnused (hi.unused x hx) fun _ _ _ _ ↦ trivial
  | step _ hs ih => exact { ih with tidy := tidy_step ih.tidy hs }
  | @serve s x _ request p b hb ih =>
    refine ⟨⟨ih.tidy.keyed, ?_⟩, ?_, (Tree.frame_serve hK x request _).trans ih.frame⟩
    · have hd : Distinct s.fresh fun i ↦ x.root.stores i +
          (s.toDesk.stores i + (s.pool.stores i + Node.storesAll s.nodes i)) := by
        refine ih.tidy.distinct.of_le fun i ↦ ?_
        simp only [stores]
        omega
      refine (Desk.distinct_serve hb x request hd).of_le fun i ↦ ?_
      simp only [stores, withDesk]
      omega
    · exact (Tree.serve_steady B.respects_true ih.steady request _).1

/-- Games with an instance whose root is not started go as games with a new instance. -/
theorem Minds.games_agree (hB : B.Blind) (hR : B.Resets part) (hA : B.Binds part bound)
    (h : s.Minds part (bound owner) t x) (hend : x.root.started = false) {t' : Tree ο σ}
    (ht : t'.root.frame part = t.root.frame part) {z : Tree ο σ}
    (hz : (t'.instantiate B owner s.host).1 = .ok z) (moves : List (Move ω)) :
    let d := (s.withHost (t'.instantiate B owner s.host).2).toDesk
    let g := x.playAll B moves d
    let g' := z.playAll B moves d
    g.replies = g'.replies ∧ g.desk.contents = g'.desk.contents ∧ g.desk.world = g'.desk.world := by
  intro d g g'
  have hi := t'.instantiated (hA owner) s.host
  have hframe : x.root.frame part = z.root.frame part := by
    rw [h.frame, hi.frame z hz, ht]
  obtain ⟨hdz, hdx⟩ := h.tidy.apart hz
  have hp : Tree.Paired part False d.same x z d d :=
    Tree.paired_of_quiet hframe (Node.quiet_of_allSteady h.steady hend)
      (Node.quiet_of_allUnused (hi.unused z hz)) False.elim hdx hdz
  obtain ⟨hreplies, r, hr⟩ := Tree.playAll_alike hB hR moves hp
  exact ⟨hreplies, hr.desks.contents, hr.desks.world⟩

/-- An instance whose root is not started, whatever was done with it before, and a new instance of
the same prototype for the same owner agree for ever: whatever moves are made with them, the
replies, the calls of hooks with what they saw, and the entries on the desk are the same. Leaves
are asked to see of blackboards no more than the entries, since identities are given out anew; to
begin an activation with no regard to what they hold beyond a constant part, to answer probes from
that part, and to bind it to owners in one way. -/
theorem agrees_with_new_instance (hB : B.Blind) (hR : B.Resets part) (hK : B.Keeps part)
    (hA : B.Binds part bound) {t : Tree ο (ν × σ)} {s : Session (ν × σ) (ω × List (HookEvent ν))}
    {x : Tree ο (ν × σ)} (hx : Tends B.traced t owner s x) (hend : x.root.started = false)
    (calls : List (Call (ω × List (HookEvent ν)))) {z : Tree ο (ν × σ)}
    (hz : ((t.serveAll B.traced calls).tree.instantiate B.traced owner s.host).1 = .ok z)
    (moves : List (Move (ω × List (HookEvent ν)))) :
    let t' := (t.serveAll B.traced calls).tree
    let d := (s.withHost (t'.instantiate B.traced owner s.host).2).toDesk
    let g := x.playAll B.traced moves d
    let g' := z.playAll B.traced moves d
    g.replies = g'.replies ∧ g.desk.contents = g'.desk.contents ∧ g.desk.world = g'.desk.world :=
  (hx.minds hK.traced hA.traced).games_agree hB.traced hR.traced hA.traced hend
    (Tree.frame_serveAll hK.traced calls t) hz moves

/-- An instance that was ticked once and then stopped at another blackboard. -/
theorem agrees_with_new_pause :
    let B : Behavior Owner (String × Wait) (World × List (HookEvent String)) :=
      Wait.behavior.traced
    let owner : Owner := ⟨0, .unit⟩
    let moves := [.evaluate ⟨0, []⟩, .serve (.tickWith ⟨1, 0.5⟩) ⟨0, []⟩, .serve .stop ⟨1, [0]⟩]
    ∃ s x z, Tends B Wait.pause owner s x ∧ x.root.started = false ∧
      (Wait.pause.instantiate B owner s.host).1 = .ok z ∧
      let d := (s.withHost (Wait.pause.instantiate B owner s.host).2).toDesk
      let g := x.playAll B moves d
      let g' := z.playAll B moves d
      g.replies = g'.replies ∧ g.desk.contents = g'.desk.contents ∧
        g.desk.world = g'.desk.world := by
  intro B owner moves
  let s₀ : Session (String × Wait) (World × List (HookEvent String)) :=
    ⟨Desk.create (Desk.create ⟨⟨(.initial, []), ⟨0⟩⟩, []⟩), .empty 64, []⟩
  have hs₀ : s₀.Reachable B :=
    ((Reachable.start ⟨(.initial, []), ⟨0⟩⟩ 64).step .create).step .create
  let x : Tree Owner (String × Wait) := { Wait.pause with owner := some owner, isInstance := true }
  have hx : (Wait.pause.instantiate B owner s₀.host).1 = .ok x := rfl
  have hticked := (Tends.made hs₀ hx).serve .tick ⟨0, []⟩ _ rfl
  have hstopped := hticked.serve .stop ⟨1, []⟩ _ rfl
  obtain ⟨s, y, hy, hend, hz⟩ : ∃ s y, Tends B Wait.pause owner s y ∧ y.root.started = false ∧
      (Wait.pause.instantiate B owner s.host).1 = .ok x :=
    ⟨_, _, hstopped, Tree.started_stop B _ _, rfl⟩
  exact ⟨s, y, x, hy, hend, hz, agrees_with_new_instance Wait.blind_behavior Wait.resets_behavior
    Wait.keeps_behavior Wait.binds_behavior hy hend [] hz moves⟩

end Session

end BehaviorTree
