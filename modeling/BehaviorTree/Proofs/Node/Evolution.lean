import BehaviorTree.Proofs.Node.Law

/-!
# What the engine can do to a node

Whatever happens to a node and its surroundings in a run or an abort is made of a few small steps:
a hook of a leaf, a change of what a node remembers, a step of one child, and a step of a child
inside the scope of its parent. `evolves_run` and `evolves_abort` say so once for the engine; what
every small step preserves, a run and an abort preserve.
-/

namespace BehaviorTree

variable {ο σ ω : Type}

namespace Node

/-- Whether a node and its surroundings can become others by small steps of the engine. -/
inductive Evolves (B : Behavior ο σ ω) : Node σ → Env ω → Node σ → Env ω → Prop where
  | refl (n : Node σ) (env : Env ω) : Evolves B n env n env
  | trans {n m k : Node σ} {env env' env'' : Env ω} (h : Evolves B n env m env')
      (h' : Evolves B m env' k env'') : Evolves B n env k env''
  /-- A leaf elsewhere may be probed, which may change the world. -/
  | probe (n : Node σ) (state : σ) (b : Blackboard) (env : Env ω) :
      Evolves B n env n { env with world := (B.evaluate state b env.world).2 }
  | life (n : Node σ) (env : Env ω) (life : Life) : Evolves B n env (n.withLife life) env
  | resume (tag : Tag) (life : Life) (kind : CompositeKind) (i j : Nat) (children : List (Node σ))
      (env : Env ω) :
      Evolves B (composite tag life kind i children) env (composite tag life kind j children) env
  | count (tag : Tag) (life : Life) (kind : DecoratorKind) (memory : Memory) (count : UInt32)
      (child : Option (Node σ)) (env : Env ω) :
      Evolves B (decorator tag life kind memory child) env
        (decorator tag life kind { memory with count } child) env
  | cleared (tag : Tag) (life : Life) (kind : DecoratorKind) (memory : Memory)
      (child : Option (Node σ)) (env : Env ω) :
      Evolves B (decorator tag life kind memory child) env
        (decorator tag life kind { memory with scope := memory.scope.map Scope.cleared } child) env
  | start (tag : Tag) (life : Life) (state : σ) (env : Env ω) :
      Evolves B (leaf tag life state) env (leaf tag life (B.start state env.board env.world).state)
        (env.after (B.start state env.board env.world))
  | run (tag : Tag) (life : Life) (state : σ) (env : Env ω) :
      Evolves B (leaf tag life state) env (leaf tag life (B.run state env.board env.world).2.state)
        (env.after (B.run state env.board env.world).2)
  | stop (tag : Tag) (life : Life) (state : σ) (env : Env ω) :
      Evolves B (leaf tag life state) env (leaf tag life (B.stop state env.board env.world).state)
        (env.after (B.stop state env.board env.world))
  | child (tag : Tag) (life : Life) (kind : CompositeKind) (resume : Nat)
      (before after : List (Node σ)) {c c' : Node σ} {env env' : Env ω}
      (h : Evolves B c env c' env') :
      Evolves B (composite tag life kind resume (before ++ c :: after)) env
        (composite tag life kind resume (before ++ c' :: after)) env'
  | only (tag : Tag) (life : Life) (kind : DecoratorKind) (memory : Memory) {c c' : Node σ}
      {env env' : Env ω} (h : Evolves B c env c' env') :
      Evolves B (decorator tag life kind memory (some c)) env
        (decorator tag life kind memory (some c')) env'
  /-- A child works inside the scope of its parent, which keeps the scope. -/
  | inScope (tag : Tag) (life : Life) (kind : DecoratorKind) (memory : Memory) {c c' : Node σ}
      {env inner : Env ω} (h : Evolves B c (env.enter memory) c' inner) :
      Evolves B (decorator tag life kind memory (some c)) env
        (decorator tag life kind (memory.keep env.board.id inner.board.scope) (some c'))
        (env.leave inner)

/-- Whether some children of any composite, with their surroundings, can become others. -/
def EvolvesAll (B : Behavior ο σ ω) (ns : List (Node σ)) (env : Env ω) (ns' : List (Node σ))
    (env' : Env ω) : Prop :=
  ∀ (tag : Tag) (life : Life) (kind : CompositeKind) (resume : Nat) (before after : List (Node σ)),
    Evolves B (composite tag life kind resume (before ++ ns ++ after)) env
      (composite tag life kind resume (before ++ ns' ++ after)) env'

variable {B : Behavior ο σ ω}

/-- All children of a composite change. -/
theorem EvolvesAll.composite {ns ns' : List (Node σ)} {env env' : Env ω}
    (h : EvolvesAll B ns env ns' env') (tag : Tag) (life : Life) (kind : CompositeKind)
    (resume : Nat) : Evolves B (composite tag life kind resume ns) env
      (Node.composite tag life kind resume ns') env' := by
  have hc := h tag life kind resume [] []
  simpa using hc

/-- Probing a node elsewhere asks at most one leaf. -/
theorem evolves_evaluate (n m : Node σ) (b : Blackboard) (env : Env ω) :
    Evolves B n env n { env with world := (m.evaluate B b env.world).2 } := by
  induction m using child_induction generalizing b with
  | step m ih =>
    cases m with
    | leaf tag life state => exact .probe n state b env
    | composite => exact .refl n env
    | decorator tag life kind memory child =>
      cases child with
      | none => exact .refl n env
      | some child =>
        have hc := ih child (by simp [children])
        cases kind with
        | invert => exact hc b
        | succeeder => exact hc b
        | loop limit => exact hc b
        | «scoped» => exact hc (memory.probeBoard b)

/-- The beginning of a run is made of small steps. -/
theorem evolves_begin (n : Node σ) (env : Env ω) :
    Evolves B n env (n.begin B env).1 (n.begin B env).2 := by
  unfold begin
  split
  · exact .refl _ _
  · cases n with
    | leaf => exact (Evolves.start _ _ _ _).trans (.life _ _ _)
    | composite => exact (Evolves.resume _ _ _ _ 0 _ _).trans (.life _ _ _)
    | decorator => exact (Evolves.count _ _ _ _ 0 _ _).trans (.life _ _ _)

/-- The engine takes small steps, wherever a node stands. -/
theorem law_evolves (B : Behavior ο σ ω) :
    Law B (fun _ env ↦ env) (fun (k : Unit) _ ↦ k) fun _ ↦ Evolves B where
  refl _ := .refl
  trans := .trans
  probe _ n m _ env := evolves_evaluate n m env.board env
  begin _ := evolves_begin
  life _ n env life _ := .life n env life
  run _ := .run
  stop _ tag life life' state env := (Evolves.stop tag life state env).trans (.life _ _ life')
  composite _ tag life life' kind i j children env :=
    (Evolves.resume tag life kind i j children env).trans (.life _ _ life')
  child tag life kind i front back _ _ _ _ h := .child tag life kind i front back h
  childless _ _ _ life' _ _ _ := .life _ _ life'
  only tag life life' _ _ memory count _ _ _ _ h :=
    ((Evolves.only tag life _ memory h).trans (.count _ _ _ _ count _ _)).trans (.life _ _ life')
  inScope memory _ _ _ _ h _ := .inScope _ _ _ memory h
  endScope memory _ _ _ _ h _ _ :=
    ((Evolves.inScope _ _ _ memory h).trans (.cleared _ _ _ _ _ _)).trans (.life _ _ _)

/-- Probing earlier children is made of small steps. -/
theorem evolves_probeBefore (flag : Flags → Bool) (wanted : Status) (resume : Nat)
    (ns : List (Node σ)) (env : Env ω) :
    EvolvesAll B ns env ns (probeBefore B flag wanted resume ns env).2 :=
  (law_evolves B).probeBefore (k := ()) flag wanted resume ns env

/-- Aborting a node takes small steps. -/
theorem evolves_abort (n : Node σ) (env : Env ω) :
    Evolves B n env (n.abort B env).1 (n.abort B env).2 := (law_evolves B).abort (k := ()) n env

/-- An abort on a condition is made of small steps if the abort is. -/
theorem evolves_abort_if {c : Node σ} {env : Env ω} (p : Prop) [Decidable p]
    (h : Evolves B c env (c.abort B env).1 (c.abort B env).2) :
    let r := if p then c.abort B env else (c, env)
    Evolves B c env r.1 r.2 := (law_evolves B).abort_if (k := ()) p h

/-- Aborting the child at an index is made of small steps. -/
theorem evolves_abortAt (ns : List (Node σ)) (index : Nat) (env : Env ω) :
    EvolvesAll B ns env (abortAt B ns index env).1 (abortAt B ns index env).2 :=
  (law_evolves B).abortAt (k := ()) ns index env

/-- What follows a tick of work is made of small steps. -/
theorem evolves_settle (s : Step σ ω) (hs : s.node.started = true) :
    Evolves B s.node s.env (settle B s).node (settle B s).env :=
  (law_evolves B).settle (k := ()) s hs

/-- Running a node takes small steps. -/
theorem evolves_run (n : Node σ) (env : Env ω) :
    Evolves B n env (n.run B env).node (n.run B env).env :=
  (law_evolves B).runs (run_eq B) n () env

end Node

end BehaviorTree
