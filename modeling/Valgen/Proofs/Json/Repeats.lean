import Mathlib.Data.List.Nodup
import Valgen.Json.Basic
/-!
# Proofs.Json.Repeats — values that repeat no key

A value read from a text may have a key twice in an object; `Json.mergeRepeats` makes one entry of them.  A value in
which this does not happen at any depth (`Json.keysOnce`) stays as it is.
-/
namespace Valgen

namespace Assoc

variable {α : Type}

theorem insert_of_not_mem {key : String} (value : α) {l : Assoc α} (h : key ∉ keys l) :
    insert key value l = l ++ [(key, value)] := by
  induction l with
  | nil => rfl
  | cons e rest ih =>
    obtain ⟨hne, hrest⟩ := List.ne_and_not_mem_of_not_mem_cons h
    rw [insert, if_neg hne.symm, ih hrest, List.cons_append]

/-- **Entries that have every key once are the list they build.** -/
theorem ofEntries_of_nodup {entries : List (String × α)} (h : (keys entries).Nodup) : ofEntries entries = entries := by
  -- The fold keeps what it has as long as no key of the rest is among its keys.
  have hfold : ∀ (rest : List (String × α)) (acc : Assoc α), (keys (acc ++ rest)).Nodup →
      rest.foldl (fun acc e => insert e.1 e.2 acc) acc = acc ++ rest := by
    intro rest
    induction rest with
    | nil => exact fun acc _ => (List.append_nil acc).symm
    | cons e rest ih =>
      intro acc hacc
      have hsplit : acc ++ e :: rest = acc ++ [e] ++ rest := by rw [List.append_assoc, List.singleton_append]
      have hnew : e.1 ∉ keys acc := by
        rw [keys, List.map_append, List.map_cons] at hacc
        exact fun hmem => (List.disjoint_of_nodup_append hacc) hmem List.mem_cons_self
      rw [hsplit] at hacc ⊢
      rw [List.foldl_cons, insert_of_not_mem e.2 hnew]
      exact ih _ hacc
  exact hfold entries [] h

end Assoc

namespace Json

mutual

/-- **No object of a value has a key twice**, at any depth. -/
def keysOnce : Json → Bool
  | .null => true
  | .bool _ => true
  | .number _ => true
  | .string _ => true
  | .array items => itemsKeysOnce items
  | .object members => decide (Assoc.keys members).Nodup && membersKeysOnce members

def itemsKeysOnce : List Json → Bool
  | [] => true
  | item :: rest => keysOnce item && itemsKeysOnce rest

def membersKeysOnce : List (String × Json) → Bool
  | [] => true
  | (_, value) :: rest => keysOnce value && membersKeysOnce rest

end

mutual

/-- **A value that has every key once stays as it is** when repeated keys are merged. -/
theorem mergeRepeats_of_keysOnce : ∀ value : Json, value.keysOnce = true → value.mergeRepeats = value
  | .null, _ => rfl
  | .bool _, _ => rfl
  | .number _, _ => rfl
  | .string _, _ => rfl
  | .array items, h => by
    rw [keysOnce] at h
    rw [mergeRepeats, mergeItems_of_keysOnce items h]
  | .object members, h => by
    rw [keysOnce, Bool.and_eq_true, decide_eq_true_eq] at h
    rw [mergeRepeats, mergeMembers_of_keysOnce members h.2, Assoc.ofEntries_of_nodup h.1]

theorem mergeItems_of_keysOnce : ∀ items : List Json, itemsKeysOnce items = true → mergeItems items = items
  | [], _ => rfl
  | item :: rest, h => by
    rw [itemsKeysOnce, Bool.and_eq_true] at h
    rw [mergeItems, mergeRepeats_of_keysOnce item h.1, mergeItems_of_keysOnce rest h.2]

theorem mergeMembers_of_keysOnce :
    ∀ members : List (String × Json), membersKeysOnce members = true → mergeMembers members = members
  | [], _ => rfl
  | (key, value) :: rest, h => by
    rw [membersKeysOnce, Bool.and_eq_true] at h
    rw [mergeMembers, mergeRepeats_of_keysOnce value h.1, mergeMembers_of_keysOnce rest h.2]

end

end Json

end Valgen
