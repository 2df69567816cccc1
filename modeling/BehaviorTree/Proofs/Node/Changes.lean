import BehaviorTree.Proofs.Node.Leaves
import BehaviorTree.Proofs.Node.Moved

/-!
# What hooks change

If every hook changes the local entries in a certain way only, then the engine does. An abort calls
no hooks but those that close an activation, so it is what hooks that do nothing else would do as
well (`stilled`). Where these leave some keys alone, a predicate that reads no other keys says the
same after an abort as before.
-/

namespace BehaviorTree

variable {ο σ ω : Type}

/-- Hooks that change the local entries in a certain way only when they are called on a quiet leaf,
and leave it quiet. -/
structure Behavior.Changes (B : Behavior ο σ ω) (quiet : σ → Prop) (R : Entries → Entries → Prop) :
    Prop where
  start : ∀ s b w, quiet s → quiet (B.start s b w).state ∧ R b.entries (B.start s b w).entries
  run : ∀ s b w, quiet s → quiet (B.run s b w).2.state ∧ R b.entries (B.run s b w).2.entries
  stop : ∀ s b w, quiet s → quiet (B.stop s b w).state ∧ R b.entries (B.stop s b w).entries

/-- The hooks that close an activation; the others do nothing. -/
def Behavior.stilled (B : Behavior ο σ ω) : Behavior ο σ ω :=
  { B with
    start := fun s b w ↦ ⟨s, b.entries, w⟩
    run := fun s b w ↦ (.running, ⟨s, b.entries, w⟩) }

/-- Whether entries have the same values of some keys. -/
def SameAt (keys : String → Prop) (e e' : Entries) : Prop := ∀ key, keys key → e[key]? = e'[key]?

/-- Whether a predicate reads no local entries but those of some keys. -/
def ReadsOnly (keys : String → Prop) (p : Blackboard → Bool) : Prop :=
  ∀ (b : Blackboard) (e e' : Entries), SameAt keys e e' → p (b.withEntries e) = p (b.withEntries e')

/-- Hooks that leave a quiet leaf quiet, and leave the local entries of some keys alone when they
close an activation of it. -/
structure Behavior.StopsSparing (B : Behavior ο σ ω) (quiet : σ → Prop) (keys : String → Prop) :
    Prop where
  start : ∀ s b w, quiet s → quiet (B.start s b w).state
  run : ∀ s b w, quiet s → quiet (B.run s b w).2.state
  stop : ∀ s b w, quiet s →
    quiet (B.stop s b w).state ∧ SameAt keys b.entries (B.stop s b w).entries

namespace Behavior.StopsSparing

variable {B : Behavior ο σ ω} {quiet : σ → Prop} {keys : String → Prop}
  (h : B.StopsSparing quiet keys)

include h

private theorem changes : B.Changes quiet fun _ _ ↦ True where
  start s b w hs := ⟨h.start s b w hs, trivial⟩
  run s b w hs := ⟨h.run s b w hs, trivial⟩
  stop s b w hs := ⟨(h.stop s b w hs).1, trivial⟩

private theorem changes_stilled : B.stilled.Changes quiet (SameAt keys) where
  start _ _ _ hs := ⟨hs, fun _ _ ↦ rfl⟩
  run _ _ _ hs := ⟨hs, fun _ _ ↦ rfl⟩
  stop := h.stop

end Behavior.StopsSparing

namespace Node

variable {B : Behavior ο σ ω} {quiet : σ → Prop} {n n' : Node σ} {env env' : Env ω}

/-- What hooks change at most, whatever happens to a node changes at most. -/
theorem Evolves.changes {R : Entries → Entries → Prop} (hrefl : ∀ e, R e e)
    (htrans : ∀ e e' e'', R e e' → R e' e'' → R e e'') (hB : B.Changes quiet R)
    (h : n.Evolves B env n' env') (hn : ∀ s ∈ n.states, quiet s) :
    (∀ s ∈ n'.states, quiet s) ∧ R env.board.entries env'.board.entries := by
  induction h with
  | refl => exact ⟨hn, hrefl _⟩
  | probe => exact ⟨hn, hrefl _⟩
  | trans h h' ih ih' =>
    obtain ⟨hm, hr⟩ := ih hn
    obtain ⟨hk, hr'⟩ := ih' hm
    exact ⟨hk, htrans _ _ _ hr hr'⟩
  | life => exact ⟨by rwa [states_withLife], hrefl _⟩
  | resume => exact ⟨by rwa [states_composite] at hn ⊢, hrefl _⟩
  | count => exact ⟨by rwa [states_decorator] at hn ⊢, hrefl _⟩
  | cleared => exact ⟨by rwa [states_decorator] at hn ⊢, hrefl _⟩
  | start tag life s env =>
    obtain ⟨hs, hr⟩ := hB.start s env.board env.world (hn s (by simp))
    exact ⟨by simpa using hs, hr⟩
  | run tag life s env =>
    obtain ⟨hs, hr⟩ := hB.run s env.board env.world (hn s (by simp))
    exact ⟨by simpa using hs, hr⟩
  | stop tag life s env =>
    obtain ⟨hs, hr⟩ := hB.stop s env.board env.world (hn s (by simp))
    exact ⟨by simpa using hs, hr⟩
  | child tag life kind resume before after h ih =>
    simp only [states_composite, List.flatMap_append, List.flatMap_cons, List.forall_mem_append]
      at hn ⊢
    obtain ⟨hbefore, hc, hafter⟩ := hn
    obtain ⟨hc', hr⟩ := ih hc
    exact ⟨⟨hbefore, hc', hafter⟩, hr⟩
  | only tag life kind memory h ih => simpa using ih (by simpa using hn)
  | inScope tag life kind memory h ih =>
    obtain ⟨hc, -⟩ := ih (by simpa using hn)
    exact ⟨by simpa using hc, hrefl _⟩

/-- Stopping calls only hooks that close activations. -/
theorem stop_stilled (B : Behavior ο σ ω) (n : Node σ) : n.stop B.stilled = n.stop B := by
  delta stop
  rfl

private theorem abort_stilled (B : Behavior ο σ ω) (n : Node σ) :
    n.abort B.stilled = n.abort B := by
  funext env
  rw [abort, abort, stop_stilled]

variable {keys : String → Prop}

/-- Quiet leaves stay quiet. -/
theorem Moved.states_quiet (hB : B.StopsSparing quiet keys) (h : n.Moved B n')
    (hn : ∀ s ∈ n.states, quiet s) : ∀ s ∈ n'.states, quiet s := by
  have hstep {m m' : Node σ} {env env' : Env ω} (he : m.Evolves B env m' env')
      (hm : ∀ s ∈ m.states, quiet s) : ∀ s ∈ m'.states, quiet s :=
    (he.changes (fun _ ↦ trivial) (fun _ _ _ _ _ ↦ trivial) hB.changes hm).1
  induction h with
  | refl => exact hn
  | run _ env ih => exact hstep (evolves_run _ env) ih
  | abort _ env ih => exact hstep (evolves_abort _ env) ih

/-- An abort leaves alone what the hooks that close activations leave alone. -/
theorem sameAt_abort (hB : B.StopsSparing quiet keys) (hn : ∀ s ∈ n.states, quiet s)
    (env : Env ω) : SameAt keys env.board.entries (n.abort B env).2.board.entries := by
  have h := evolves_abort (B := B.stilled) n env
  rw [abort_stilled] at h
  refine (h.changes (fun _ _ _ ↦ rfl) (fun _ _ _ he he' key hk ↦ ?_) hB.changes_stilled hn).2
  exact (he key hk).trans (he' key hk)

/-- A predicate that reads nothing else says the same after an abort. -/
theorem holds_abort (hB : B.StopsSparing quiet keys) (hn : ∀ s ∈ n.states, quiet s)
    {p : Blackboard → Bool} (hp : ReadsOnly keys p) (env : Env ω) :
    p (n.abort B env).2.board = p env.board := by
  have hsame := hp env.board _ _ (sameAt_abort hB hn env)
  obtain ⟨hid, henclosing⟩ := (evolves_abort (B := B) n env).board
  generalize (n.abort B env).2.board = b at *
  obtain ⟨⟨id, entries⟩, enclosing⟩ := b
  obtain rfl : id = env.board.id := hid
  obtain rfl : enclosing = env.board.enclosing := henclosing
  exact hsame.symm

end Node

end BehaviorTree
