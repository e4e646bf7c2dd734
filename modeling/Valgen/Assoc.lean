/-!
# Assoc — texts mapped to values, in the order they came

An association list keyed by strings.  `insert` keeps the place of a key that is already there and gives it the new
value, so that the order of the list is the order in which the keys were first seen.
-/
namespace Valgen

/-- **A list of keys with their values**, in order. -/
abbrev Assoc (α : Type) : Type := List (String × α)

namespace Assoc

variable {α : Type}

/-- **The value of a key**: that of its first entry. -/
def get? (l : Assoc α) (key : String) : Option α := (l.find? (fun e => e.1 == key)).map Prod.snd

def contains (l : Assoc α) (key : String) : Bool := l.any (fun e => e.1 == key)

def keys (l : Assoc α) : List String := l.map Prod.fst

/-- **The list with a value for a key**: in the key's place if it is there, else at the end. -/
def insert (key : String) (value : α) : Assoc α → Assoc α
  | [] => [(key, value)]
  | e :: rest => if e.1 = key then (key, value) :: rest else e :: insert key value rest

/-- **The list that reading the entries one after another builds.** -/
def ofEntries (entries : List (String × α)) : Assoc α := entries.foldl (fun acc e => insert e.1 e.2 acc) []

@[simp] theorem keys_insert_of_mem (key : String) (value : α) :
    ∀ l : Assoc α, key ∈ keys l → keys (insert key value l) = keys l
  | [], h => by simp [keys] at h
  | e :: rest, h => by
    by_cases he : e.1 = key
    · simp [insert, keys, he]
    · have hr : key ∈ keys rest := by
        simp only [keys, List.map_cons, List.mem_cons] at h
        exact h.resolve_left (fun hk => he hk.symm)
      have := keys_insert_of_mem key value rest hr
      simpa [insert, keys, he] using this

@[simp] theorem keys_insert_of_not_mem (key : String) (value : α) :
    ∀ l : Assoc α, key ∉ keys l → keys (insert key value l) = keys l ++ [key]
  | [], _ => rfl
  | e :: rest, h => by
    simp only [keys, List.map_cons, List.mem_cons, not_or] at h
    have := keys_insert_of_not_mem key value rest h.2
    simpa [insert, keys, Ne.symm h.1] using this

theorem get?_insert_self (key : String) (value : α) : ∀ l : Assoc α, get? (insert key value l) key = some value
  | [] => by simp [insert, get?]
  | e :: rest => by
    by_cases he : e.1 = key
    · simp [insert, get?, he]
    · have := get?_insert_self key value rest
      simpa [insert, get?, he] using this

theorem get?_insert_of_ne {key other : String} (value : α) (hne : other ≠ key) :
    ∀ l : Assoc α, get? (insert key value l) other = get? l other
  | [] => by simp [insert, get?, Ne.symm hne]
  | e :: rest => by
    by_cases he : e.1 = key
    · simp [insert, get?, he, Ne.symm hne]
    · have := get?_insert_of_ne value hne rest
      simp only [get?] at this
      rw [insert, if_neg he, get?, get?, List.find?_cons, List.find?_cons]
      split
      · rfl
      · exact this

end Assoc
end Valgen
