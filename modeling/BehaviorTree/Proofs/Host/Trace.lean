import BehaviorTree.Leaf.World
import BehaviorTree.Proofs.Node.Preserved
import BehaviorTree.Proofs.Node.Projection
import BehaviorTree.Proofs.Twin.Basic

/-!
# Traces of hooks

Leaves get names, and the world gets a trace: each call of a hook is noted with the name of the
leaf and with what the hook could see of the blackboard. Tracing changes nothing else, and hooks
stay blind, keep what they kept and reset what they reset.
-/

namespace BehaviorTree

variable {ο σ κ ν ω : Type}

/-- A call of a hook: which leaf, which hook, and the entries of the scopes it could see. -/
structure HookEvent (ν : Type) where
  leaf : ν
  hook : Hook
  seen : List Entries

/-- An effect on a named leaf, with a call noted in the trace. -/
def Effect.noted (e : Effect σ ω) (trace : List (HookEvent ν)) (event : HookEvent ν) :
    Effect (ν × σ) (ω × List (HookEvent ν)) :=
  ⟨(event.leaf, e.state), e.entries, (e.world, trace ++ [event])⟩

namespace Behavior

/-- The hooks of named leaves, with each call noted in a trace beside the world. -/
def traced (B : Behavior ο σ ω) : Behavior ο (ν × σ) (ω × List (HookEvent ν)) where
  awake owner s w :=
    let r := B.awake owner s.2 w.1
    (r.1.map fun state ↦ (s.1, state), (r.2, w.2 ++ [⟨s.1, .awake, []⟩]))
  start s b w := (B.start s.2 b w.1).noted w.2 ⟨s.1, .start, b.contents⟩
  run s b w :=
    let r := B.run s.2 b w.1
    (r.1, r.2.noted w.2 ⟨s.1, .run, b.contents⟩)
  stop s b w := (B.stop s.2 b w.1).noted w.2 ⟨s.1, .stop, b.contents⟩
  evaluate s b w :=
    let r := B.evaluate s.2 b w.1
    (r.1, (r.2, w.2 ++ [⟨s.1, .evaluate, b.contents⟩]))

/-- Tracing changes nothing else. -/
theorem projects_traced (B : Behavior ο σ ω) :
    (B.traced : Behavior ο (ν × σ) (ω × List (HookEvent ν))).Projects B Prod.snd Prod.fst where
  awake owner s w := by
    simp only [traced]
    obtain ⟨r, w'⟩ := B.awake owner s.2 w.1
    cases r <;> rfl
  start _ _ _ := rfl
  run _ _ _ := rfl
  stop _ _ _ := rfl
  evaluate _ _ _ := rfl

variable {B : Behavior ο σ ω} {part : σ → κ}

/-- A trace tells no more of a blackboard than what is in its scopes. -/
theorem Blind.traced (h : B.Blind) : (B.traced : Behavior ο (ν × σ) _).Blind where
  start s b b' w hb := by simp only [Behavior.traced, h.start s.2 w.1 hb, hb]
  run s b b' w hb := by simp only [Behavior.traced, h.run s.2 w.1 hb, hb]
  stop s b b' w hb := by simp only [Behavior.traced, h.stop s.2 w.1 hb, hb]
  evaluate s b b' w hb := by simp only [Behavior.traced, h.evaluate s.2 w.1 hb, hb]

/-- Starts and probes of named leaves depend on the names besides. -/
theorem Resets.traced (h : B.Resets part) :
    (B.traced : Behavior ο (ν × σ) _).Resets fun s ↦ (s.1, part s.2) where
  start {s s'} b w hs := by
    obtain ⟨hname, hpart⟩ := Prod.mk.inj hs
    simp only [Behavior.traced, h.start b w.1 hpart, hname]
  evaluate {s s'} b w hs := by
    obtain ⟨hname, hpart⟩ := Prod.mk.inj hs
    simp only [Behavior.traced, h.evaluate b w.1 hpart, hname]

/-- Names never change. -/
theorem Keeps.traced (h : B.Keeps part) :
    (B.traced : Behavior ο (ν × σ) _).Keeps fun s ↦ (s.1, part s.2) where
  start s b w := congrArg (Prod.mk s.1) (h.start s.2 b w.1)
  run s b w := congrArg (Prod.mk s.1) (h.run s.2 b w.1)
  stop s b w := congrArg (Prod.mk s.1) (h.stop s.2 b w.1)

/-- Hooks that bind a part of the leaf's state to the owner, whatever the world. -/
def Binds (B : Behavior ο σ ω) (part : σ → κ) (bound : ο → κ → κ) : Prop :=
  ∀ (owner : ο) (s : σ) (w : ω) (s' : σ),
    (B.awake owner s w).1 = .ok s' → part s' = bound owner (part s)

/-- Binding leaves the names as they are. -/
theorem Binds.traced {bound : ο → κ → κ} (h : B.Binds part bound) :
    (B.traced : Behavior ο (ν × σ) (ω × List (HookEvent ν))).Binds (fun s ↦ (s.1, part s.2))
      fun owner k ↦ (k.1, bound owner k.2) := by
  intro owner s w s' hs
  simp only [Behavior.traced] at hs
  have ha := h owner s.2 w.1
  generalize B.awake owner s.2 w.1 = r at ha hs
  obtain ⟨r, w'⟩ := r
  cases r with
  | error e => cases hs
  | ok state =>
    cases hs
    exact congrArg (Prod.mk s.1) (ha state rfl)

end Behavior

end BehaviorTree
