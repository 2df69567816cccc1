import BehaviorTree.Proofs.Scope.Record

/-!
# Scopes from activation to activation

Whatever the engine does to a node is on record (`records_runLogged`, `records_abort`): a hook below
scopes sees what the hooks before it left in the current activation of each of them, and changes no
more than the innermost one.
-/

namespace BehaviorTree

variable {ο σ ω : Type}

namespace Node

variable {B : Behavior ο σ ω} {scopes : List NodeId}

/-- Probing logs nothing. -/
theorem evaluate_logged (n : Node (Site × σ)) (b : Blackboard) (w : ω × List Notice) :
    (n.evaluate B.logged b w).2.2 = w.2 := by
  induction n using child_induction generalizing b with
  | step n ih =>
    cases n with
    | leaf => rfl
    | composite => rfl
    | decorator tag life kind memory child =>
      cases child with
      | none => rfl
      | some child =>
        have hc := ih child (by simp [children])
        cases kind with
        | invert => exact hc b
        | succeeder => exact hc b
        | loop limit => exact hc b
        | «scoped» => exact hc (memory.probeBoard b)

/-- A node that begins an activation is noted if it has a scope, which is empty then. -/
theorem records_begin (n : Node (Site × σ)) (env : Env (ω × List Notice)) :
    let r := n.begin B.logged (n.noteOpening env)
    Records scopes [n] env [r.1] r.2 := by
  cases hs : n.started with
  | true =>
    rw [noteOpening_of_started hs, begin_of_started hs]
    exact .refl _ _ _
  | false =>
    unfold begin
    rw [if_neg (by simp [hs])]
    cases n with
    | leaf tag life state => exact .hook tag life _ state.1 state.2 .start _ env
    | composite tag life kind resume children =>
      exact (Records.refl scopes children env).composite tag life _ kind resume 0
    | decorator tag life kind memory child =>
      by_cases hk : kind = .scoped
      · subst hk
        have hl : life.started = false := hs
        have hopen : noteOpening (decorator tag life .scoped memory child) env =
            env.note (.opened tag.id) := if_pos (by simp [opensScope, hl])
        rw [hopen]
        exact .opened tag memory 0 child env hs rfl
      · rw [noteOpening_of_ne hk]
        cases child with
        | none => exact .childless env ..
        | some child => exact (Records.refl scopes [child] env).decorator tag life _ hk memory _

/-- Whatever the engine does is on record, below any scopes. -/
theorem law_records (B : Behavior ο σ ω) :
    Law B.logged noteOpening (fun scopes id ↦ id :: scopes) fun scopes n env n' env' ↦
      Records scopes [n] env [n'] env' where
  refl scopes n := .refl scopes [n]
  trans := .trans
  probe scopes n m _ env := .world [n] env (evaluate_logged m env.board env.world)
  begin scopes := records_begin
  life scopes := .withLife
  run scopes tag life state env := .hook tag life life state.1 state.2 .run _ env
  stop scopes tag life life' state env := .hook tag life life' state.1 state.2 .stop _ env
  composite scopes tag life life' kind i j children env :=
    (Records.refl scopes children env).composite tag life life' kind i j
  child tag life kind i front back c c' env env' h := by
    have hall := h.among front back
    simp only [List.append_assoc, List.singleton_append] at hall
    exact hall.composite tag life life kind i i
  childless scopes tag life life' kind memory env :=
    .childless env tag life life' kind memory memory
  only tag life life' kind hk memory count c c' env env' h :=
    h.decorator tag life life' hk memory _
  inScope memory c c' env inner h hl := h.inScope hl _ rfl (by rw [hl]; rfl)
  endScope memory c c' env inner h hl hl' := h.inScope hl _ rfl (by rw [hl']; rfl)

/-- An abort is on record. -/
theorem records_abort (n : Node (Site × σ)) (scopes : List NodeId) (env : Env (ω × List Notice)) :
    Records scopes [n] env [(n.abort B.logged env).1] (n.abort B.logged env).2 :=
  (law_records B).abort n env

/-- A run is on record. -/
theorem records_runLogged (n : Node (Site × σ)) (scopes : List NodeId)
    (env : Env (ω × List Notice)) :
    Records scopes [n] env [(n.runLogged B env).node] (n.runLogged B env).env :=
  (law_records B).runs (runLogged_eq B) n scopes env

end Node

end BehaviorTree
