import BehaviorTree.Proofs.Lifecycle.Protocol
import BehaviorTree.Proofs.Scope.Link
import BehaviorTree.Proofs.Tree.Binding

/-!
# A registry of leaves

Each leaf that is bound to an owner gets a number of its own, and the world keeps a record for each
number: which hooks were called on this leaf, in whatever tree and for how long it is there. As long
as a tree is in use, its leaves follow the protocol of hooks, and once it has been stopped the
records of its leaves are balanced.
-/

namespace BehaviorTree

variable {ο σ ω : Type}

/-- The number of the next leaf to be bound, and the calls of hooks on each leaf. -/
structure Registry where
  next : Nat
  record : Nat → List HookCall

namespace Registry

/-- A registry without leaves. -/
def blank : Registry := ⟨0, fun _ ↦ []⟩

/-- Notes a call of a hook on a leaf. -/
def note (r : Registry) (number : Nat) (call : HookCall) : Registry :=
  { r with record := fun k ↦ if k = number then r.record k ++ [call] else r.record k }

/-- Gives out a number. -/
def enrol (r : Registry) : Registry := { r with next := r.next + 1 }

private theorem record_note_self (r : Registry) (number : Nat) (call : HookCall) :
    (r.note number call).record number = r.record number ++ [call] := if_pos rfl

private theorem record_note_of_ne (r : Registry) {number k : Nat} (call : HookCall)
    (h : k ≠ number) : (r.note number call).record k = r.record k := if_neg h

/-- Whether a registry differs from another at most in the records of some numbers. -/
structure SameBut (r r' : Registry) (numbers : List Nat) : Prop where
  next : r'.next = r.next
  record : ∀ k ∉ numbers, r'.record k = r.record k

private theorem SameBut.refl (r : Registry) (numbers : List Nat) : r.SameBut r numbers :=
  ⟨rfl, fun _ _ ↦ rfl⟩

private theorem SameBut.trans {r r' r'' : Registry} {numbers : List Nat} (h : r.SameBut r' numbers)
    (h' : r'.SameBut r'' numbers) : r.SameBut r'' numbers :=
  ⟨h'.next.trans h.next, fun k hk ↦ (h'.record k hk).trans (h.record k hk)⟩

end Registry

/-- An effect on a numbered leaf, with a call noted in the registry. -/
def Effect.registered (e : Effect σ ω) (number : Nat) (r : Registry) (call : HookCall) :
    Effect (Nat × σ) (ω × Registry) :=
  ⟨(number, e.state), e.entries, (e.world, r.note number call)⟩

/-- The hooks of numbered leaves, with a registry beside the world. A leaf is numbered when it is
bound. -/
def Behavior.registered (B : Behavior ο σ ω) : Behavior ο (Nat × σ) (ω × Registry) where
  awake owner s w :=
    match B.awake owner s.2 w.1 with
    | (.ok state, v) => (.ok (w.2.next, state), (v, w.2.enrol))
    | (.error e, v) => (.error e, (v, w.2))
  start s b w := (B.start s.2 b w.1).registered s.1 w.2 .start
  run s b w :=
    let r := B.run s.2 b w.1
    (r.1, r.2.registered s.1 w.2 (.run r.1))
  stop s b w := (B.stop s.2 b w.1).registered s.1 w.2 .stop
  evaluate s b w :=
    let r := B.evaluate s.2 b w.1
    (r.1, (r.2, w.2))

/-- No hook changes the number of a leaf. -/
theorem Behavior.keeps_number (B : Behavior ο σ ω) :
    B.registered.recorded.Keeps fun x ↦ x.1.1 where
  start _ _ _ := rfl
  run _ _ _ := rfl
  stop _ _ _ := rfl

namespace Node

/-- The numbers of the leaves of a subtree. -/
def numbers (n : Node (Nat × σ)) : List Nat := n.states.map Prod.fst

/-- The numbers of leaves that keep their records themselves. -/
def numbersOf (m : Node ((Nat × σ) × List HookCall)) : List Nat := m.states.map fun x ↦ x.1.1

private theorem numbers_map_fst (m : Node ((Nat × σ) × List HookCall)) :
    (m.map Prod.fst).numbers = m.numbersOf := by
  rw [numbers, states_map, List.map_map]
  rfl

/-- Whether the leaves of a subtree keep the records that the registry has for them. -/
def Filed (r : Registry) (m : Node ((Nat × σ) × List HookCall)) : Prop :=
  ∀ x ∈ m.states, r.record x.1.1 = x.2

/-- A leaf and the registry note the same call. -/
theorem filed_note {tag : Tag} {life : Life} {number : Nat} {state : σ} {history : List HookCall}
    {r : Registry} (hf : (leaf tag life ((number, state), history)).Filed r) (state' : σ)
    (call : HookCall) :
    (leaf tag life ((number, state'), history ++ [call])).Filed (r.note number call) ∧
      r.SameBut (r.note number call) [number] := by
  have hrecord : r.record number = history :=
    hf ((number, state), history) (by simp)
  refine ⟨fun x hx ↦ ?_, rfl, fun k hk ↦ ?_⟩
  · obtain rfl : x = ((number, state'), history ++ [call]) := by simpa using hx
    rw [Registry.record_note_self, hrecord]
  · exact r.record_note_of_ne call (by simpa using hk)

/-- What happens to one child leaves the records of the others alone. -/
theorem filed_siblings {c c' : Node ((Nat × σ) × List HookCall)}
    {xs ys : List ((Nat × σ) × List HookCall)} {r r' : Registry}
    (hn : ((xs ++ (c.states ++ ys)).map fun x ↦ x.1.1).Nodup)
    (hf : ∀ x ∈ xs ++ (c.states ++ ys), r.record x.1.1 = x.2) (hc : c'.Filed r')
    (hs : r.SameBut r' c.numbersOf) :
    (∀ x ∈ xs ++ (c'.states ++ ys), r'.record x.1.1 = x.2) ∧
      r.SameBut r' ((xs ++ (c.states ++ ys)).map fun x ↦ x.1.1) := by
  have hother : ∀ x ∈ xs ++ ys, x.1.1 ∉ c.numbersOf := by
    rw [List.map_append, List.map_append, List.nodup_append, List.nodup_append] at hn
    obtain ⟨-, ⟨-, -, hright⟩, hleft⟩ := hn
    intro x hx hmem
    rcases List.mem_append.mp hx with hx | hx
    · exact hleft _ (List.mem_map_of_mem hx) _ (List.mem_append_left _ hmem) rfl
    · exact hright _ hmem _ (List.mem_map_of_mem hx) rfl
  have hkept : ∀ x ∈ xs ++ ys, r'.record x.1.1 = x.2 := by
    intro x hx
    rw [hs.record _ (hother x hx)]
    rcases List.mem_append.mp hx with hx | hx
    · exact hf x (List.mem_append_left _ hx)
    · exact hf x (List.mem_append_right _ (List.mem_append_right _ hx))
  refine ⟨fun x hx ↦ ?_, hs.next, fun k hk ↦ hs.record k fun hmem ↦ hk ?_⟩
  · rcases List.mem_append.mp hx with hx | hx
    · exact hkept x (List.mem_append_left _ hx)
    · rcases List.mem_append.mp hx with hx | hx
      · exact hc x hx
      · exact hkept x (List.mem_append_right _ hx)
  · rw [List.map_append, List.map_append]
    exact List.mem_append_right _ (List.mem_append_left _ hmem)

/-- Runs and aborts of a subtree of different leaves note each call twice, in the leaf and in the
registry, and leave the records of other leaves alone. -/
theorem Evolves.filed {B : Behavior ο σ ω} {m m' : Node ((Nat × σ) × List HookCall)}
    {env env' : Env (ω × Registry)} (h : m.Evolves B.registered.recorded env m' env')
    (hn : m.numbersOf.Nodup) (hf : m.Filed env.world.2) :
    m'.Filed env'.world.2 ∧ env.world.2.SameBut env'.world.2 m.numbersOf := by
  induction h with
  | refl => exact ⟨hf, Registry.SameBut.refl _ _⟩
  | probe => exact ⟨hf, Registry.SameBut.refl _ _⟩
  | @trans n m k env env' env'' h h' ih ih' =>
    have hnumbers : m.numbersOf = n.numbersOf := h.states_eq B.keeps_number
    obtain ⟨hm, hs⟩ := ih hn hf
    obtain ⟨hk, hs'⟩ := ih' (hnumbers ▸ hn) hm
    exact ⟨hk, hs.trans (hnumbers ▸ hs')⟩
  | life n env life =>
    refine ⟨?_, Registry.SameBut.refl _ _⟩
    rw [Filed, states_withLife]
    exact hf
  | resume =>
    refine ⟨?_, Registry.SameBut.refl _ _⟩
    rw [Filed, states_composite] at hf ⊢
    exact hf
  | count =>
    refine ⟨?_, Registry.SameBut.refl _ _⟩
    rw [Filed, states_decorator] at hf ⊢
    exact hf
  | cleared =>
    refine ⟨?_, Registry.SameBut.refl _ _⟩
    rw [Filed, states_decorator] at hf ⊢
    exact hf
  | start => exact filed_note hf _ _
  | run => exact filed_note hf _ _
  | stop => exact filed_note hf _ _
  | child tag life kind resume before after h ih =>
    simp only [numbersOf, Filed, states_composite, List.flatMap_append,
      List.flatMap_cons] at hn hf ⊢
    have hsub {c : Node ((Nat × σ) × List HookCall)} {xs ys} :
        c.states.Sublist (xs ++ (c.states ++ ys)) :=
      (List.sublist_append_left _ ys).trans (List.sublist_append_right xs _)
    obtain ⟨hc, hs⟩ := ih (hn.sublist (hsub.map _)) fun x hx ↦ hf x (hsub.subset hx)
    exact filed_siblings hn hf hc hs
  | only tag life kind memory h ih =>
    simp only [numbersOf, Filed, states_decorator, Option.toList_some, List.flatMap_cons,
      List.flatMap_nil, List.append_nil] at hn hf ⊢
    exact ih hn hf
  | @inScope tag life kind memory c c' env inner h ih =>
    simp only [numbersOf, Filed, states_decorator, Option.toList_some, List.flatMap_cons,
      List.flatMap_nil, List.append_nil] at hn hf ⊢
    have hworld : (env.enter memory).world = env.world := env.world_enter memory
    have hc := ih hn (by rw [hworld]; exact hf)
    rw [hworld] at hc
    exact hc

/-! ### Binding -/

variable {B : Behavior ο σ ω} {owner : ο}

private theorem registered_awake (tag : Tag) (life : Life) (state : Nat × σ) (w : ω × Registry) :
    (leaf tag life state).awake B.registered owner w =
      match B.awake owner state.2 w.1 with
      | (.ok s, v) => (.ok (leaf tag life (w.2.next, s)), (v, w.2.enrol))
      | (.error e, v) => (.error e, (v, w.2)) := by
  simp only [awake, Behavior.registered]
  cases B.awake owner state.2 w.1 with
  | mk r v => cases r <;> rfl

/-- The leaves that were bound got the next numbers in order, and nothing was noted. -/
theorem registered_bindEach (B : Behavior ο σ ω) (owner : ο) (ns : List (Node (Nat × σ)))
    (w : ω × Registry) :
    let b := bindEach B.registered owner ns w
    b.world.2.record = w.2.record ∧
      b.world.2.next = w.2.next + (leafStates b.bound).length ∧
      (leafStates b.bound).map Prod.fst = List.range' w.2.next (leafStates b.bound).length := by
  induction ns generalizing w with
  | nil => exact ⟨rfl, rfl, rfl⟩
  | cons n rest ih =>
    simp only [bindEach]
    cases n with
    | leaf tag life state =>
      rw [registered_awake]
      cases B.awake owner state.2 w.1 with
      | mk r v =>
        cases r with
        | error e => exact ⟨rfl, rfl, rfl⟩
        | ok s =>
          obtain ⟨hrecord, hnext, hnumbers⟩ := ih (v, w.2.enrol)
          refine ⟨hrecord, ?_, congrArg (w.2.next :: ·) hnumbers⟩
          exact hnext.trans (Nat.add_right_comm w.2.next 1 _)
    | composite => exact ih w
    | decorator => exact ih w

end Node

/-! ### Trees of numbered leaves -/

namespace Tree

/-- Whether the leaves of a tree follow the protocol of hooks, by the records that the registry has
for them. -/
def Enrolled (r : Registry) (t : Tree ο (Nat × σ)) : Prop :=
  ∃ m : Node ((Nat × σ) × List HookCall), m.map Prod.fst = t.root ∧
    m.AllSteady (fun p s ↦ p.Protocol s.2) ∧ m.Filed r

variable {B : Behavior ο σ ω} {t : Tree ο (Nat × σ)} {r r' : Registry}

/-- A tree does not mind what is noted for leaves of others. -/
theorem Enrolled.of_sameBut (h : t.Enrolled r) {numbers : List Nat} (hs : r.SameBut r' numbers)
    (hd : ∀ k ∈ t.root.numbers, k ∉ numbers) : t.Enrolled r' := by
  obtain ⟨m, hm, hsteady, hfiled⟩ := h
  refine ⟨m, hm, hsteady, fun x hx ↦ ?_⟩
  rw [hs.record, hfiled x hx]
  refine hd _ ?_
  rw [← hm, Node.numbers_map_fst]
  exact List.mem_map_of_mem hx

/-- Serving a tree keeps its leaves in order, and concerns no other leaves. -/
theorem Enrolled.serve {env : Env (ω × Registry)} (h : t.Enrolled env.world.2)
    (hn : t.root.numbers.Nodup) (request : Request) :
    let x := t.serve B.registered request env
    x.tree.Enrolled x.env.world.2 ∧ env.world.2.SameBut x.env.world.2 t.root.numbers ∧
      x.tree.root.numbers = t.root.numbers := by
  obtain ⟨m, hm, hsteady, hfiled⟩ := h
  let t' : Tree ο ((Nat × σ) × List HookCall) :=
    ⟨m, t.registry, t.owner, t.isInstance, t.lastStatus⟩
  have ht : t'.map Prod.fst = t := by simp only [t', Tree.map, hm]
  have hserve := serve_map B.registered.projects_recorded t' request env
  rw [ht] at hserve
  have hnumbers : m.numbersOf = t.root.numbers := by rw [← hm, Node.numbers_map_fst]
  obtain ⟨board, -, hevolves⟩ := t'.evolves_serve B.registered.recorded request env
  obtain ⟨hfiled', hsame⟩ := hevolves.filed (hnumbers ▸ hn) hfiled
  have hsteady' := (serve_steady B.registered.respects_protocol (t := t') hsteady request env).1
  have hroot : (t'.serve B.registered.recorded request env).tree.root.map Prod.fst =
      (t.serve B.registered request env).tree.root := congrArg (fun x ↦ x.tree.root) hserve.symm
  have henv : (t'.serve B.registered.recorded request env).env =
      (t.serve B.registered request env).env := congrArg (fun x ↦ x.env) hserve.symm
  rw [henv] at hfiled' hsame
  refine ⟨⟨_, hroot, hsteady', hfiled'⟩, hnumbers ▸ hsame, ?_⟩
  rw [← hroot, Node.numbers_map_fst, ← hnumbers]
  exact hevolves.states_eq B.keeps_number

/-- When nothing is started, the records of a tree's leaves are balanced. -/
theorem Enrolled.balanced (h : t.Enrolled r) (hs : t.root.started = false) :
    ∀ k ∈ t.root.numbers, Balanced (r.record k) := by
  obtain ⟨m, hm, hsteady, hfiled⟩ := h
  intro k hk
  rw [← hm, Node.numbers_map_fst] at hk
  obtain ⟨⟨numbered, history⟩, hx, rfl⟩ := List.mem_map.mp hk
  rw [hfiled _ hx]
  obtain ⟨n, hn, hleaf⟩ := List.mem_filterMap.mp hx
  cases n with
  | composite => cases hleaf
  | decorator => cases hleaf
  | leaf tag life state =>
    cases hleaf
    rw [← hm, Node.started_map] at hs
    have hrest := Node.not_started_of_resting hsteady hs _ hn
    have hprotocol := Node.protocol_of_allSteady hsteady hn
    rw [if_neg (by simpa [Node.started, Node.life] using hrest), Phase.protocol_idle] at hprotocol
    exact hprotocol

/-- An unused tree whose leaves have blank records is in order. -/
theorem enrolled_of_allUnused (hu : t.root.AllUnused) (hb : ∀ k ∈ t.root.numbers, r.record k = []) :
    t.Enrolled r := by
  have hempty : (t.root.map fun s ↦ (s, ([] : List HookCall))).Everywhere fun m ↦
      ∀ s ∈ m.leaf?, Phase.Protocol .idle s.2 := by
    intro m hm s hs
    have hmem : s ∈ (t.root.map fun s ↦ (s, ([] : List HookCall))).states :=
      List.mem_filterMap.mpr ⟨m, hm, hs⟩
    rw [Node.states_map] at hmem
    obtain ⟨x, -, rfl⟩ := List.mem_map.mp hmem
    exact Phase.protocol_idle.mpr balanced_nil
  refine ⟨t.root.map fun s ↦ (s, []), ?_,
    Node.allSteady_of_allUnused (Node.allUnused_map hu) hempty, fun x hx ↦ ?_⟩
  · rw [Node.map_map, Node.map_self]
  · rw [Node.states_map] at hx
    obtain ⟨y, hy, rfl⟩ := List.mem_map.mp hx
    exact hb _ (List.mem_map_of_mem hy)

end Tree

end BehaviorTree
