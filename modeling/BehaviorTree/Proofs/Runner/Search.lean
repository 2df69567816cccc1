import BehaviorTree.Proofs.Runner.Places

/-!
# Agents found by a search

Where agents stand in ascending order, one can search for an id and work at the index that is found.
`Ascending.foundBy` says that this comes to the same as going through the agents one by one, for any
search that finds its way among ascending ids.
-/

namespace BehaviorTree

variable {ο σ ω : Type}

/-- Whether a search finds its way among ascending ids: of an id that is there it gives the index,
and of any other an index at which it can be put in and the ids still ascend. -/
def SearchesAscending (search : List UInt64 → UInt64 → Except Nat Nat) : Prop :=
  ∀ (ids : List UInt64) (id : UInt64), ids.Pairwise (· < ·) →
    match search ids id with
    | .ok index => ids[index]? = some id
    | .error index => id ∉ ids ∧ index ≤ ids.length ∧ (ids.insertIdx index id).Pairwise (· < ·)

/-- A search from the first id on, up to one that is not less. -/
def linearSearch : List UInt64 → UInt64 → Except Nat Nat
  | [], _ => .error 0
  | first :: rest, id =>
    if first = id then .ok 0
    else if id < first then .error 0
    else
      match linearSearch rest id with
      | .ok index => .ok (index + 1)
      | .error index => .error (index + 1)

/-- A search in order finds its way among ascending ids. -/
theorem searchesAscending_linearSearch : SearchesAscending linearSearch := by
  intro ids id h
  induction ids with
  | nil => simp [linearSearch]
  | cons first rest ih =>
    obtain ⟨hfirst, hrest⟩ := List.pairwise_cons.mp h
    have hsearch := ih hrest
    simp only [linearSearch]
    by_cases heq : first = id
    · simp [heq]
    · rw [if_neg heq]
      by_cases hlt : id < first
      · have hall : ∀ k ∈ first :: rest, id < k := by
          intro k hk
          rcases List.mem_cons.mp hk with rfl | hk
          · exact hlt
          · exact UInt64.lt_trans hlt (hfirst k hk)
        rw [if_pos hlt]
        refine ⟨fun hmem ↦ UInt64.lt_irrefl _ (hall id hmem), Nat.zero_le _, ?_⟩
        exact List.pairwise_cons.mpr ⟨hall, h⟩
      · rw [if_neg hlt]
        have hgt : first < id := UInt64.lt_of_le_of_ne (UInt64.not_lt.mp hlt) heq
        cases hs : linearSearch rest id with
        | ok index =>
          rw [hs] at hsearch
          simpa using hsearch
        | error index =>
          rw [hs] at hsearch
          obtain ⟨hmem, hle, hput⟩ := hsearch
          refine ⟨by simp [hmem, Ne.symm heq], Nat.succ_le_succ hle, ?_⟩
          rw [List.insertIdx_succ_cons]
          refine List.pairwise_cons.mpr ⟨fun k hk ↦ ?_, hput⟩
          rcases (List.mem_insertIdx hle).mp hk with rfl | hk
          · exact hgt
          · exact hfirst k hk

namespace Runner

variable {search : List UInt64 → UInt64 → Except Nat Nat}

/-- Whether the agent of an id is found at an index, and can be replaced, taken out and written to
there. -/
structure FoundAt (r : Runner ο σ) (id : UInt64) (index : Nat) : Prop where
  find : r.find? id = r.agents[index]?
  insert : ∀ a : Agent ο σ, a.id = id →
    insertAgent a r.agents = (r.agents[index]?, r.agents.set index a)
  erase : eraseAgent id r.agents = (r.agents[index]?, r.agents.eraseIdx index)
  write : ∀ f, (r.mapEntries id f).agents = r.agents.modify index (·.mapEntries f)

/-- Whether there is no agent of an id, and one can be put in at an index. -/
structure MissingAt (r : Runner ο σ) (id : UInt64) (index : Nat) : Prop where
  find : r.find? id = none
  insert : ∀ a : Agent ο σ, a.id = id →
    insertAgent a r.agents = (none, r.agents.insertIdx index a)
  erase : eraseAgent id r.agents = (none, r.agents)
  write : ∀ f, (r.mapEntries id f).agents = r.agents

/-- Whether a search says of every id where one works for it. -/
def FoundBy (search : List UInt64 → UInt64 → Except Nat Nat) (r : Runner ο σ) : Prop :=
  ∀ id, match search r.ids id with
    | .ok index => r.FoundAt id index
    | .error index => r.MissingAt id index

variable {a : Agent ο σ} {agents before after : List (Agent ο σ)} {id : UInt64} {index : Nat}

private theorem insertIdx_append {α : Type} {before : List α} (h : before.length = index)
    (after : List α) (a : α) : (before ++ after).insertIdx index a = before ++ a :: after := by
  subst h
  induction before with
  | nil => rfl
  | cons b before ih =>
    rw [List.cons_append, List.length_cons, List.insertIdx_succ_cons, ih]
    rfl

private theorem modify_append_cons {α : Type} {before : List α} (h : before.length = index) (a : α)
    (after : List α) (f : α → α) :
    (before ++ a :: after).modify index f = before ++ f a :: after := by
  subst h
  induction before with
  | nil => rfl
  | cons b before ih =>
    rw [List.cons_append, List.length_cons, List.modify_succ_cons, ih]
    rfl

/-- A write does not reach agents of other ids. -/
theorem map_mapEntries_of_ne (h : ∀ b ∈ agents, b.id ≠ id) (f : Entries → Entries) :
    (agents.map fun b ↦ if b.id = id then b.mapEntries f else b) = agents := by
  refine (List.map_congr_left fun b hb ↦ ?_).trans (List.map_id agents)
  exact if_neg (h b hb)

/-- The agent of an id stands between those of lesser and those of greater ids. -/
theorem foundAt_of_between {r : Runner ο σ} (hagents : r.agents = before ++ a :: after)
    (hbefore : ∀ b ∈ before, b.id < a.id) (hafter : ∀ b ∈ after, a.id < b.id) :
    r.FoundAt a.id before.length := by
  have hne : ∀ b ∈ before, b.id ≠ a.id := fun b hb ↦ UInt64.ne_of_lt (hbefore b hb)
  have hne' : ∀ b ∈ after, b.id ≠ a.id := fun b hb ↦ (UInt64.ne_of_lt (hafter b hb)).symm
  constructor
  · rw [find?, hagents, find?_append_cons_self hne rfl]
    simp
  · intro b hb
    rw [hagents, insertAgent_append (by rwa [hb])]
    simp [insertAgent, hb]
  · rw [hagents, eraseAgent_append hne, List.eraseIdx_append_of_length_le (Nat.le_refl _)]
    simp [eraseAgent]
  · intro f
    rw [mapEntries, hagents, List.map_append, List.map_cons, map_mapEntries_of_ne hne,
      map_mapEntries_of_ne hne', if_pos rfl, modify_append_cons rfl]

/-- Where no agent has an id, one can come between those of lesser and those of greater ids. -/
theorem missingAt_of_between {r : Runner ο σ} (hagents : r.agents = before ++ after)
    (hbefore : ∀ b ∈ before, b.id < id) (hafter : ∀ b ∈ after, id < b.id) :
    r.MissingAt id before.length := by
  have hne : ∀ b ∈ before ++ after, b.id ≠ id := by
    intro b hb
    rcases List.mem_append.mp hb with hb | hb
    · exact UInt64.ne_of_lt (hbefore b hb)
    · exact (UInt64.ne_of_lt (hafter b hb)).symm
  constructor
  · rw [find?, hagents, List.find?_eq_none]
    intro b hb
    simpa using hne b hb
  · intro b hb
    rw [hagents, insertAgent_append (by rwa [hb]), insertIdx_append rfl]
    cases after with
    | nil => rfl
    | cons c rest => simp [insertAgent, hb, hafter c List.mem_cons_self]
  · rw [hagents]
    simpa [eraseAgent] using eraseAgent_append hne []
  · intro f
    rw [mapEntries, hagents]
    exact map_mapEntries_of_ne hne f

/-- Where an id is among ascending ones, its agent is found. -/
theorem Ascending.foundAt {r : Runner ο σ} (h : Ascending r.agents)
    (hfound : r.ids[index]? = some id) : r.FoundAt id index := by
  rw [ids, List.getElem?_map, Option.map_eq_some_iff] at hfound
  obtain ⟨a, ha, rfl⟩ := hfound
  obtain ⟨hlt, rfl⟩ := List.getElem?_eq_some_iff.mp ha
  have hsplit : r.agents = r.agents.take index ++ r.agents[index] :: r.agents.drop (index + 1) := by
    rw [List.getElem_cons_drop, List.take_append_drop]
  have hasc := h
  rw [hsplit, Ascending, List.map_append, List.map_cons, List.pairwise_append,
    List.pairwise_cons] at hasc
  obtain ⟨-, ⟨hafter, -⟩, hbefore⟩ := hasc
  have hat := foundAt_of_between hsplit
    (fun b hb ↦ hbefore _ (List.mem_map_of_mem hb) _ List.mem_cons_self)
    (fun b hb ↦ hafter _ (List.mem_map_of_mem hb))
  rwa [List.length_take_of_le (Nat.le_of_lt hlt)] at hat

/-- Where an id can be put in among ascending ones, its agent can. -/
theorem missingAt_of_pairwise {r : Runner ο σ} (hle : index ≤ r.ids.length)
    (hput : (r.ids.insertIdx index id).Pairwise (· < ·)) : r.MissingAt id index := by
  rw [ids, List.length_map] at hle
  have hsplit : r.agents = r.agents.take index ++ r.agents.drop index :=
    (List.take_append_drop index r.agents).symm
  have hids : r.ids = (r.agents.take index).map (·.id) ++ (r.agents.drop index).map (·.id) := by
    rw [← List.map_append, ← hsplit]
    rfl
  have hlength : ((r.agents.take index).map (·.id)).length = index := by
    rw [List.length_map, List.length_take_of_le hle]
  rw [hids, insertIdx_append hlength, List.pairwise_append, List.pairwise_cons] at hput
  obtain ⟨-, ⟨hafter, -⟩, hbefore⟩ := hput
  have hat := missingAt_of_between hsplit
    (fun b hb ↦ hbefore _ (List.mem_map_of_mem hb) _ List.mem_cons_self)
    (fun b hb ↦ hafter _ (List.mem_map_of_mem hb))
  rwa [List.length_take_of_le hle] at hat

/-- Among ascending agents, a search finds its way. -/
theorem Ascending.foundBy {r : Runner ο σ} (h : Ascending r.agents)
    (hsearch : SearchesAscending search) : r.FoundBy search := by
  intro id
  have hfound := hsearch r.ids id h
  cases hs : search r.ids id with
  | ok index =>
    rw [hs] at hfound
    exact h.foundAt hfound
  | error index =>
    rw [hs] at hfound
    exact missingAt_of_pairwise hfound.2.1 hfound.2.2

end Runner

end BehaviorTree
