import BehaviorTree.Blackboard.Access
import Mathlib.Data.Set.Card
import Mathlib.Logic.Function.Basic

/-!
# Scopes and their history

Named scopes are written, emptied, moved under one another and copied, in any order. What is
visible at a scope is told by the history of these operations alone: the value last written to the
key in the nearest scope that has one, starting at the scope itself and going outward along the
links that the last moves left.

A scope is lent to those attached under it, and while it is lent it is neither written nor moved.
-/

namespace BehaviorTree

variable {κ : Type}

/-- The ways of writing a value: as it is, through the writer of one type, or at a given type. -/
inductive Writing where
  | value (v : Value)
  | int (number : Int64)
  | float (number : Float32)
  | bool (flag : Bool)
  | vector (point : Vec3)
  | typed (id : ObjectId) (type : ValueType) (v : type.Carrier)

namespace Writing

/-- The value that ends up on the blackboard. -/
def stored : Writing → Value
  | .value v => v
  | .int number => .int number
  | .float number => .float number
  | .bool flag => .bool flag
  | .vector point => .vector point
  | .typed id type v => .store id type v

/-- Writes to a key of a blackboard. -/
def write (b : Blackboard) (key : String) : Writing → Blackboard
  | .value v => b.set key v
  | .int number => b.setInt key number
  | .float number => b.setFloat key number
  | .bool flag => b.setBool key flag
  | .vector point => b.setVector key point
  | .typed id type v => b.write id type key v

private theorem write_eq (w : Writing) (b : Blackboard) (key : String) :
    w.write b key = b.set key w.stored := by
  cases w <;> rfl

end Writing

/-- What can be done to named scopes. -/
inductive Operation (κ : Type) where
  | set (k : κ) (key : String) (w : Writing)
  | remove (k : κ) (key : String)
  | clear (k : κ)
  | attach (k parent : κ)
  | detach (k : κ)
  /-- Makes `copy` a copy of a scope under another one. -/
  | overlay (copy source parent : κ)

namespace Operation

/-- The scope that an operation changes. -/
def subject : Operation κ → κ
  | .set k .. | .remove k _ | .clear k | .attach k _ | .detach k | .overlay k .. => k

/-- The scope that an operation puts its subject under. -/
def parent? : Operation κ → Option κ
  | .attach _ parent | .overlay _ _ parent => some parent
  | _ => none

variable [DecidableEq κ]

/-- The blackboard that an operation makes of its subject. -/
def outcome (boards : κ → Blackboard) : Operation κ → Blackboard
  | .set k key w => w.write (boards k) key
  | .remove k key => ((boards k).take key).2
  | .clear k => (boards k).clear
  | .attach k parent => (boards k).attach (boards parent)
  | .detach k => (boards k).detach
  | .overlay _ source parent => (boards source).overlay (boards parent)

/-- Carries out an operation on the blackboards in use. -/
def perform (o : Operation κ) (boards : κ → Blackboard) : κ → Blackboard :=
  Function.update boards o.subject (o.outcome boards)

end Operation

namespace Blackboard

/-- The size of a blackboard is the number of its local keys. -/
theorem size_eq_ncard (b : Blackboard) : b.size = {key | b.localValue? key ≠ none}.ncard := by
  have hkeys : {key | b.localValue? key ≠ none} = (b.entries.keys.toFinset : Set String) := by
    ext key
    simp only [localValue?, List.coe_toFinset, Set.mem_ofPred_eq, Std.ExtTreeMap.mem_keys,
      Std.ExtTreeMap.mem_iff_isSome_getElem?, Option.isSome_iff_ne_none]
  rw [hkeys, Set.ncard_coe_finset, List.toFinset_card_of_nodup Std.ExtTreeMap.nodup_keys,
    Std.ExtTreeMap.length_keys]
  rfl

private theorem isEmpty_iff (b : Blackboard) :
    b.isEmpty = true ↔ ∀ key, b.localValue? key = none := by
  rw [isEmpty, Std.ExtTreeMap.isEmpty_iff]
  constructor
  · intro h key
    simp [localValue?, h]
  · intro h
    ext key v
    have hnone : b.entries[key]? = none := h key
    simp [hnone]

end Blackboard

/-! ### What the history says

A history lists the latest operation first. -/

namespace History

variable [DecidableEq κ]

/-- The blackboards after a history that began with empty scopes, each on its own. -/
def boards (ids : κ → ScopeId) : List (Operation κ) → κ → Blackboard
  | [], k => (Scope.empty (ids k)).alone
  | o :: earlier, k => o.perform (boards ids earlier) k

/-- The value last written to a key of a scope and not removed since; a copy starts with those of
its source. -/
def written : List (Operation κ) → κ → String → Option Value
  | [], _, _ => none
  | .set j k' w :: earlier, k, key =>
    if j = k ∧ k' = key then some w.stored else written earlier k key
  | .remove j k' :: earlier, k, key => if j = k ∧ k' = key then none else written earlier k key
  | .clear j :: earlier, k, key => if j = k then none else written earlier k key
  | .overlay copy source _ :: earlier, k, key =>
    if copy = k then written earlier source key else written earlier k key
  | .attach .. :: earlier, k, key | .detach _ :: earlier, k, key => written earlier k key

/-- The scope that a scope was last put under and not taken from since. -/
def link : List (Operation κ) → κ → Option κ
  | [], _ => none
  | .attach j parent :: earlier, k | .overlay j _ parent :: earlier, k =>
    if j = k then some parent else link earlier k
  | .detach j :: earlier, k => if j = k then none else link earlier k
  | .set .. :: earlier, k | .remove .. :: earlier, k | .clear _ :: earlier, k => link earlier k

/-- The scopes above a scope, nearest first. -/
def above : List (Operation κ) → κ → List κ
  | [], _ => []
  | .attach j parent :: earlier, k | .overlay j _ parent :: earlier, k =>
    if j = k then parent :: above earlier parent else above earlier k
  | .detach j :: earlier, k => if j = k then [] else above earlier k
  | .set .. :: earlier, k | .remove .. :: earlier, k | .clear _ :: earlier, k => above earlier k

/-- Whether an operation may come next: no scope looks through its subject, and the subject does
not go under itself. -/
def Allows (l : List (Operation κ)) (o : Operation κ) : Prop :=
  (∀ k, o.subject ∉ above l k) ∧ o.parent? ≠ some o.subject

instance [Fintype κ] (l : List (Operation κ)) (o : Operation κ) : Decidable (Allows l o) :=
  inferInstanceAs (Decidable (_ ∧ _))

/-- Whether each operation of a history was allowed when it was done. -/
def Legal : List (Operation κ) → Prop
  | [] => True
  | o :: earlier => Allows earlier o ∧ Legal earlier

/-- Whether a history is legal can be found out operation by operation. -/
instance decidableLegal [Fintype κ] : (l : List (Operation κ)) → Decidable (Legal l)
  | [] => inferInstanceAs (Decidable True)
  | o :: earlier =>
    have := decidableLegal earlier
    inferInstanceAs (Decidable (Allows earlier o ∧ Legal earlier))

variable {ids : κ → ScopeId} {l : List (Operation κ)} {o : Operation κ} {k : κ}

private theorem boards_cons_of_ne (h : k ≠ o.subject) : boards ids (o :: l) k = boards ids l k :=
  Function.update_of_ne h _ _

private theorem boards_cons_subject : boards ids (o :: l) o.subject = o.outcome (boards ids l) :=
  Function.update_self _ _ _

private theorem written_cons_of_ne (h : k ≠ o.subject) (key : String) :
    written (o :: l) k key = written l k key := by
  have h' := Ne.symm h
  cases o with
  | attach | detach => rfl
  | _ => simp_all [written, Operation.subject]

private theorem above_cons_of_ne (h : k ≠ o.subject) : above (o :: l) k = above l k := by
  have h' := Ne.symm h
  cases o with
  | set | remove | clear => rfl
  | _ => exact if_neg h'

/-- What is local to a scope after an operation to it. -/
theorem localValue?_outcome (h : ∀ k key, (boards ids l k).localValue? key = written l k key)
    (key : String) :
    (o.outcome (boards ids l)).localValue? key = written (o :: l) o.subject key := by
  cases o with
  | set k key' w =>
    simp [Operation.outcome, Operation.subject, written, Writing.write_eq,
      Blackboard.localValue?_set, h]
  | remove k key' =>
    simp [Operation.outcome, Operation.subject, written, Blackboard.take,
      Blackboard.localValue?_remove, h]
  | clear k => simp [Operation.outcome, Operation.subject, written, Blackboard.localValue?_clear]
  | attach k parent => exact h k key
  | detach k => exact h k key
  | overlay copy source parent =>
    rw [Operation.subject, written, if_pos rfl]
    exact h source key

/-- What is local to a scope is what was written there. -/
theorem localValue?_boards (ids : κ → ScopeId) (l : List (Operation κ)) (k : κ) (key : String) :
    (boards ids l k).localValue? key = written l k key := by
  induction l generalizing k key with
  | nil => simp [boards, written, Scope.empty, Scope.alone, Blackboard.localValue?,
      Blackboard.entries]
  | cons o earlier ih =>
    by_cases hk : k = o.subject
    · subst hk
      rw [boards_cons_subject, localValue?_outcome ih]
    · rw [boards_cons_of_ne hk, written_cons_of_ne hk, ih]

/-- The scopes that are not the subject of an operation are as before. -/
theorem map_scope_cons {ks : List κ} (h : o.subject ∉ ks) :
    (ks.map fun j ↦ (boards ids (o :: l) j).scope) = ks.map fun j ↦ (boards ids l j).scope := by
  refine List.map_congr_left fun j hj ↦ ?_
  rw [boards_cons_of_ne (ne_of_mem_of_not_mem hj h)]

private theorem notMem_cons_above {parent : κ} (ho : Allows l o) (hp : o.parent? = some parent) :
    o.subject ∉ parent :: above l parent := by
  refine List.not_mem_cons_of_ne_of_not_mem ?_ (ho.1 parent)
  rintro rfl
  exact ho.2 hp

/-- A scope is never above itself. -/
theorem subject_notMem_above (ho : Allows l o) : o.subject ∉ above (o :: l) o.subject := by
  cases o with
  | set | remove | clear => exact ho.1 _
  | detach k => simp [Operation.subject, above]
  | attach k parent =>
    rw [Operation.subject, above, if_pos rfl]
    exact notMem_cons_above ho rfl
  | overlay copy source parent =>
    rw [Operation.subject, above, if_pos rfl]
    exact notMem_cons_above ho rfl

/-- The scopes around the local one after an operation to it. -/
theorem enclosing_outcome
    (h : ∀ k, (boards ids l k).enclosing = (above l k).map fun j ↦ (boards ids l j).scope) :
    (o.outcome (boards ids l)).enclosing =
      (above (o :: l) o.subject).map fun j ↦ (boards ids l j).scope := by
  cases o with
  | set k key' w =>
    rw [Operation.outcome, Writing.write_eq]
    exact h k
  | remove k key' => exact h k
  | clear k => exact h k
  | attach k parent =>
    rw [Operation.subject, above, if_pos rfl, List.map_cons, ← h parent]
    rfl
  | detach k =>
    rw [Operation.subject, above, if_pos rfl]
    rfl
  | overlay copy source parent =>
    rw [Operation.subject, above, if_pos rfl, List.map_cons, ← h parent]
    rfl

/-- A scope looks through those above it, as they are. -/
theorem enclosing_boards (ids : κ → ScopeId) (hl : Legal l) (k : κ) :
    (boards ids l k).enclosing = (above l k).map fun j ↦ (boards ids l j).scope := by
  induction l generalizing k with
  | nil => rfl
  | cons o earlier ih =>
    obtain ⟨ho, hearlier⟩ := hl
    by_cases hk : k = o.subject
    · subst hk
      rw [map_scope_cons (subject_notMem_above ho), boards_cons_subject,
        enclosing_outcome (ih hearlier)]
    · rw [above_cons_of_ne hk, map_scope_cons (ho.1 k), boards_cons_of_ne hk, ih hearlier]

private theorem link_cons_of_ne (h : k ≠ o.subject) : link (o :: l) k = link l k := by
  have h' := Ne.symm h
  cases o with
  | set | remove | clear => rfl
  | _ => exact if_neg h'

/-- The scopes above a scope: the one it is linked to and those above that. -/
theorem above_eq (hl : Legal l) (k : κ) :
    above l k = match link l k with
      | none => []
      | some parent => parent :: above l parent := by
  induction l generalizing k with
  | nil => rfl
  | cons o earlier ih =>
    obtain ⟨ho, hearlier⟩ := hl
    have hlinked : ∀ parent, o.subject ∉ parent :: above earlier parent →
        parent :: above earlier parent = parent :: above (o :: earlier) parent := by
      intro parent hfree
      rw [above_cons_of_ne (List.ne_of_not_mem_cons hfree).symm]
    by_cases hk : k = o.subject
    · subst hk
      cases o with
      | set | remove | clear => exact ih hearlier _
      | detach k => simp [Operation.subject, above, link]
      | attach k parent =>
        have hparent := hlinked parent (notMem_cons_above ho rfl)
        simpa [Operation.subject, link, above] using hparent
      | overlay copy source parent =>
        have hparent := hlinked parent (notMem_cons_above ho rfl)
        simpa [Operation.subject, link, above] using hparent
    · have habove := ih hearlier k
      have hfree := ho.1 k
      rw [above_cons_of_ne hk, link_cons_of_ne hk]
      cases hlink : link earlier k with
      | none => simpa [hlink] using habove
      | some parent =>
        simp only [hlink] at habove ⊢
        rw [habove] at hfree ⊢
        exact hlinked parent hfree

/-- The value that is visible at several scopes, the nearest first. -/
theorem nearest?_boards (ids : κ → ScopeId) (l : List (Operation κ)) (key : String) (ks : List κ) :
    nearest? key (ks.map fun j ↦ (boards ids l j).scope) =
      ks.findSome? fun j ↦ written l j key := by
  induction ks with
  | nil => rfl
  | cons k ks ih =>
    have hlocal : (boards ids l k).scope.entries[key]? = written l k key :=
      localValue?_boards ids l k key
    rw [List.map_cons, nearest?, ih, hlocal, List.findSome?_cons]
    cases written l k key with
    | none => rfl
    | some v => rfl

private theorem value?_under (ids : κ → ScopeId) (hl : Legal l) (k parent : κ) (key : String) :
    (Blackboard.under (boards ids l k).scope (boards ids l parent)).value? key =
      (k :: parent :: above l parent).findSome? fun j ↦ written l j key := by
  rw [← nearest?_boards ids, List.map_cons, List.map_cons, ← enclosing_boards ids hl]
  rfl

/-- Lookups follow the history of the scopes, whatever was done to them. -/
theorem lookups_follow_history (ids : κ → ScopeId) {l : List (Operation κ)} (hl : Legal l) (k : κ) :
    (∀ key, (boards ids l k).value? key =
      (k :: above l k).findSome? fun j ↦ written l j key) ∧
    (∀ key, (boards ids l k).contains key = true ↔
      ∃ j ∈ k :: above l k, written l j key ≠ none) ∧
    (∀ key, (boards ids l k).localValue? key = written l k key) ∧
    (∀ key, (boards ids l k).containsLocal key = true ↔ written l k key ≠ none) ∧
    (boards ids l k).size = {key | written l k key ≠ none}.ncard ∧
    ((boards ids l k).isEmpty = true ↔ ∀ key, written l k key = none) ∧
    (boards ids l k).depth = (above l k).length ∧
    (above l k = match link l k with
      | none => []
      | some parent => parent :: above l parent) ∧
    (∀ key, ((boards ids l k).take key).1 = written l k key) ∧
    (∀ parent key,
      ((boards ids l k).overlay (boards ids l parent)).value? key =
        ((k :: parent :: above l parent).findSome? fun j ↦ written l j key) ∧
      ((boards ids l k).attach (boards ids l parent)).value? key =
        ((boards ids l k).overlay (boards ids l parent)).value? key) ∧
    ∀ o j, j ≠ o.subject → boards ids (o :: l) j = boards ids l j := by
  have hvalue : ∀ key, (boards ids l k).value? key =
      (k :: above l k).findSome? fun j ↦ written l j key := by
    intro key
    rw [← nearest?_boards ids, List.map_cons, ← enclosing_boards ids hl]
    rfl
  have hlocal := localValue?_boards ids l k
  refine ⟨hvalue, fun key ↦ ?_, hlocal, fun key ↦ ?_, ?_, ?_, ?_, above_eq hl k, hlocal,
    fun parent key ↦ ⟨value?_under ids hl k parent key, rfl⟩,
    fun o j hj ↦ boards_cons_of_ne hj⟩
  · rw [Blackboard.contains, hvalue, List.findSome?_isSome_iff]
    simp only [ne_eq, Option.isSome_iff_ne_none]
  · rw [Blackboard.containsLocal, hlocal, Option.isSome_iff_ne_none]
  · simp only [← hlocal]
    exact (boards ids l k).size_eq_ncard
  · simp only [← hlocal]
    exact (boards ids l k).isEmpty_iff
  · rw [Blackboard.depth, enclosing_boards ids hl, List.length_map]

/-- A scope hides a value of the scope above it behind one of its own, removes its own and goes
under a third scope. -/
def unhiding : List (Operation (Fin 3)) :=
  [.attach 1 2, .remove 1 "hp", .set 1 "hp" (.int 5), .attach 1 0, .set 2 "hp" (.bool true),
    .set 0 "hp" (.int 1)]

/-- The scope shows its own value, then that of the scope above, then that of the third scope. -/
theorem lookups_follow_history_unhiding :
    Legal unhiding ∧
    (boards (fun k ↦ ⟨k.val⟩) (unhiding.drop 2) 1).value? "hp" = some (.int 5) ∧
    (boards (fun k ↦ ⟨k.val⟩) (unhiding.drop 1) 1).value? "hp" = some (.int 1) ∧
    (boards (fun k ↦ ⟨k.val⟩) unhiding 1).value? "hp" = some (.bool true) := by
  have hhidden : Legal (unhiding.drop 2) := by decide
  have hremoved : Legal (unhiding.drop 1) := by decide
  have hmoved : Legal unhiding := by decide
  exact ⟨hmoved, (lookups_follow_history _ hhidden 1).1 "hp",
    (lookups_follow_history _ hremoved 1).1 "hp", (lookups_follow_history _ hmoved 1).1 "hp"⟩

end History

end BehaviorTree
