import Valgen.Proofs.Name
import Valgen.Proofs.Project.Reached
/-!
# Proofs.Project.Registration — the documents that changes lead to

Documents are registered, updated, removed and cleared in any order, and some of these changes are refused.  Whatever
the history, ids and import names stay distinct, no document has two constants of one name, and every name is an
identifier that a module may declare (`registry_after_changes`); a change is refused for exactly the reasons that
`Refuses` lists, and then leaves the documents as they are.
-/
namespace Valgen

namespace Name

/-- **A name that a module may declare.** -/
def Usable (s : String) : Prop := isIdentifier s = true ∧ isReserved s = false

theorem usable_safeIdentifier (s : String) : Usable (safeIdentifier s) :=
  ⟨isIdentifier_safeIdentifier s, isReserved_safeIdentifier s⟩

theorem isIdentifier_append {s t : String} (hs : isIdentifier s = true) (ht : t.toList.all isContinue = true) :
    isIdentifier (s ++ t) = true := by
  unfold isIdentifier at hs ⊢
  rw [String.toList_append]
  cases hcs : s.toList with
  | nil => simp [hcs] at hs
  | cons c cs =>
    rw [hcs, Bool.and_eq_true_iff] at hs
    rw [List.cons_append, Bool.and_eq_true_iff, List.all_append, Bool.and_eq_true_iff]
    exact ⟨hs.1, hs.2, ht⟩

theorem all_isContinue_toString (n : Nat) : (toString n).toList.all isContinue = true := by
  rw [Nat.toString_eq_ofList_toDigits, String.toList_ofList, List.all_eq_true]
  intro c hc
  have hdigit : c.isDigit = true := Nat.isDigit_of_mem_toDigits (by decide) (by decide) hc
  simp [isContinue, Char.isAlphanum, hdigit]

theorem usable_numbered {s : String} (h : isIdentifier s = true) (n : Nat) : Usable (s ++ "_" ++ toString n) :=
  ⟨isIdentifier_append (isIdentifier_append h (by decide)) (all_isContinue_toString n),
    isReserved_of_mem_underscore (by simp)⟩

end Name

namespace Project

open Schema (Node)

theorem Document.usable_binding (d : Document) (e : Export) : Name.Usable (d.binding e) := by
  cases e with
  | root => exact Name.usable_safeIdentifier _
  | named name => exact Name.usable_safeIdentifier name

theorem Document.clash?_of_nodup (d : Document) : ∀ (es before : List Export),
    ((before ++ es).map d.binding).Nodup → d.clash? before es = none
  | [], before, _ => rfl
  | e :: rest, before, h => by
    have hnew : before.find? (fun other => d.binding other == d.binding e) = none := by
      refine List.find?_eq_none.2 (fun other hother heq => ?_)
      rw [List.map_append, List.map_cons] at h
      exact (List.disjoint_of_nodup_append h) (List.mem_map_of_mem hother)
        (beq_iff_eq.1 heq ▸ List.mem_cons_self)
    rw [clash?, hnew]
    refine clash?_of_nodup d rest (before ++ [e]) ?_
    rwa [List.append_assoc, List.singleton_append]

/-- **A document is accepted exactly if no two of its exports share a constant.** -/
theorem Document.checkBindings_eq_ok_iff {d : Document} :
    d.checkBindings = .ok () ↔ (d.exports.map d.binding).Nodup := by
  refine ⟨nodup_of_checkBindings, fun h => ?_⟩
  rw [checkBindings, d.clash?_of_nodup d.exports [] h]

namespace Registry

/-! ## One change -/

inductive Change where
  | register (id : String) (node : Node) (wishes : Meta)
  | update (id : String) (node : Node) (wishes : Meta)
  | remove (id : String)
  | clear

/-- **The outcome of a change and the documents that it leaves**, also when it is refused. -/
def change (r : Registry) : Change → Except Error Unit × Registry
  | .register id node wishes => r.register id node wishes
  | .update id node wishes => r.update id node wishes
  | .remove id =>
    let (outcome, left) := r.remove id
    (outcome.map (fun _ => ()), left)
  | .clear => (.ok (), [])

/-- **The constants that a document would have.** -/
def constants (id : String) (node : Node) (wishes : Meta) : List String :=
  let d : Document := { id := id, node := node, wishes := wishes, importName := "" }
  d.exports.map d.binding

/-- **The reasons to refuse a change**: an id that is there already, or one that is not there, and two constants of one
name. -/
def Refuses (r : Registry) : Change → Prop
  | .register id node wishes => id ∈ r.map Document.id ∨ ¬ (constants id node wishes).Nodup
  | .update id node wishes => id ∉ r.map Document.id ∨ ¬ (constants id node wishes).Nodup
  | .remove id => id ∉ r.map Document.id
  | .clear => False

section
variable {r : Registry} {c : Change}

theorem checkBindings_refused_iff {d : Document} :
    (∃ e, d.checkBindings = .error e) ↔ ¬ (constants d.id d.node d.wishes).Nodup := by
  have hcheck : d.checkBindings = .ok () ↔ (constants d.id d.node d.wishes).Nodup := Document.checkBindings_eq_ok_iff
  rw [← hcheck]
  cases d.checkBindings <;> simp

/-- **A change is refused for the listed reasons, and for no other.** -/
theorem refused_iff : (∃ e, (r.change c).1 = .error e) ↔ r.Refuses c := by
  cases c with
  | register id node wishes =>
    have hcheck := @checkBindings_refused_iff ⟨id, node, wishes, r.freshAlias id, .registered⟩
    rw [Registry.change, Registry.register, Refuses, ← contains_iff, ← hcheck]
    split_ifs with hid
    · simp [hid]
    · dsimp only
      split <;> simp_all
  | update id node wishes =>
    rw [Registry.change, Registry.update, Refuses, ← isSome_get?_iff]
    cases hd : r.get? id with
    | none => simp
    | some d =>
      obtain rfl : d.id = id := id_of_get? hd
      have hcheck := @checkBindings_refused_iff { d with node := node, wishes := wishes, phase := .registered }
      rw [← hcheck]
      dsimp only
      split <;> simp_all
  | remove id =>
    rw [Registry.change, Registry.remove, Refuses, ← isSome_get?_iff]
    cases r.get? id <;> simp [Except.map]
  | clear => simp [Registry.change, Refuses]

/-- **A change is refused and leaves every document as it is, or it is made.** -/
theorem change_cases (r : Registry) (c : Change) : (∃ e, r.change c = (.error e, r)) ∨ (r.change c).1 = .ok () := by
  cases c with
  | register id node wishes =>
    exact (r.register_cases id node wishes).imp_right (fun ⟨_, _, _, _, _, haccepted⟩ => congrArg Prod.fst haccepted)
  | update id node wishes =>
    exact (r.update_cases id node wishes).imp_right
      (fun ⟨_, _, _, _, _, _, haccepted⟩ => congrArg Prod.fst haccepted)
  | remove id =>
    rw [Registry.change]
    rcases r.remove_cases id with ⟨e, hrefused⟩ | ⟨d, _, haccepted⟩
    · exact .inl ⟨e, by rw [hrefused]; rfl⟩
    · exact .inr (by rw [haccepted]; rfl)
  | clear => exact .inr rfl

theorem change_of_refused {e : Error} (h : (r.change c).1 = .error e) : (r.change c).2 = r := by
  rcases r.change_cases c with ⟨_, hrefused⟩ | haccepted
  · rw [hrefused]
  · rw [haccepted] at h
    cases h

theorem Distinct.change (h : r.Distinct) (c : Change) : (r.change c).2.Distinct := by
  cases c with
  | register id node wishes => exact h.register id node wishes
  | update id node wishes => exact h.update id node wishes
  | remove id => exact h.remove id
  | clear => exact .nil

/-- **Where import names come from**: a document has that of one before the change, or a fresh one. -/
theorem importName_of_change {d : Document} (hd : d ∈ (r.change c).2) :
    (∃ old ∈ r, d.importName = old.importName) ∨ ∃ id, d.importName = r.freshAlias id := by
  cases c with
  | register id node wishes =>
    rcases r.register_cases id node wishes with ⟨e, hrefused⟩ | ⟨_, new, _, hname, _, haccepted⟩
    · rw [Registry.change, hrefused] at hd
      exact .inl ⟨d, hd, rfl⟩
    · rw [Registry.change, haccepted] at hd
      rcases List.mem_append.1 hd with hold | hnew
      · exact .inl ⟨d, hold, rfl⟩
      · exact .inr ⟨id, (congrArg Document.importName (List.mem_singleton.1 hnew)).trans hname⟩
  | update id node wishes =>
    rcases r.update_cases id node wishes with ⟨e, hrefused⟩ | ⟨old, new, hold, _, hname, _, haccepted⟩
    · rw [Registry.change, hrefused] at hd
      exact .inl ⟨d, hd, rfl⟩
    · rw [Registry.change, haccepted] at hd
      obtain ⟨before, hbefore, rfl⟩ := List.mem_map.1 hd
      split
      · exact .inl ⟨old, List.mem_of_find?_eq_some hold, hname⟩
      · exact .inl ⟨before, hbefore, rfl⟩
  | remove id => exact .inl ⟨d, List.mem_of_mem_filter hd, rfl⟩
  | clear => exact absurd hd List.not_mem_nil

end

/-! ## Fresh names -/

theorem freshAlias_mem_aliasCandidates (r : Registry) (id : String) : r.freshAlias id ∈ r.aliasCandidates id := by
  unfold freshAlias
  cases hfind : (r.aliasCandidates id).find? (fun name => !r.aliasTaken name) with
  | none => exact List.mem_cons_self
  | some name => exact List.mem_of_find?_eq_some hfind

theorem usable_freshAlias (r : Registry) (id : String) : Name.Usable (r.freshAlias id) := by
  have hname := Name.usable_safeIdentifier (Name.camelCase id)
  rcases List.mem_cons.1 (r.freshAlias_mem_aliasCandidates id) with heq | hnumbered
  · exact heq ▸ hname
  · obtain ⟨n, _, heq⟩ := List.mem_map.1 hnumbered
    exact heq ▸ Name.usable_numbered hname.1 (n + 2)

/-- **Every document is imported under an identifier that is not reserved.** -/
def Usable (r : Registry) : Prop := ∀ d ∈ r, Name.Usable d.importName

theorem Usable.nil : Usable [] := fun _ hd => absurd hd List.not_mem_nil

theorem Usable.change {r : Registry} (h : r.Usable) (c : Change) : (r.change c).2.Usable := by
  intro d hd
  rcases importName_of_change hd with ⟨old, hold, heq⟩ | ⟨id, heq⟩
  · exact heq ▸ h old hold
  · exact heq ▸ r.usable_freshAlias id

/-! ## Every history -/

/-- **The documents that a history of changes leaves**, some of them refused. -/
def after (r : Registry) (history : List Change) : Registry := history.foldl (fun r c => (r.change c).2) r

theorem after_snoc (r : Registry) (history : List Change) (c : Change) :
    r.after (history ++ [c]) = ((r.after history).change c).2 := by
  rw [after, List.foldl_append]
  rfl

/-- **What every change preserves, a history preserves.** -/
theorem after_induction {P : Registry → Prop} (hstep : ∀ {r} c, P r → P (change r c).2) :
    ∀ {r : Registry} (history : List Change), P r → P (r.after history)
  | _, [], h => h
  | _, c :: history, h => after_induction hstep history (hstep c h)

theorem distinct_after (history : List Change) : (after [] history).Distinct :=
  after_induction (fun c h => h.change c) history .nil

theorem usable_after (history : List Change) : (after [] history).Usable :=
  after_induction (fun c h => h.change c) history .nil

/-- **What holds of the documents after every history of changes**: ids, import names and the constants of each document
are distinct, and every name is an identifier that is not reserved.  The next change is refused for the listed reasons
only, and then leaves every document as it is. -/
theorem registry_after_changes (history : List Change) :
    (after [] history).Distinct ∧
    (∀ d ∈ after [] history, Name.Usable d.importName ∧ ∀ e ∈ d.exports, Name.Usable (d.binding e)) ∧
    ∀ c, ((∃ e, ((after [] history).change c).1 = .error e) ↔ (after [] history).Refuses c) ∧
      ((∃ e, ((after [] history).change c).1 = .error e) →
        ((after [] history).change c).2 = after [] history ∧ after [] (history ++ [c]) = after [] history) := by
  refine ⟨distinct_after history, fun d hd => ⟨usable_after history d hd, fun e _ => d.usable_binding e⟩,
    fun c => ⟨refused_iff, ?_⟩⟩
  rintro ⟨e, he⟩
  exact ⟨change_of_refused he, (after_snoc [] history c).trans (change_of_refused he)⟩

-- The alias of a document that is gone is free again, and a numbered one stays where it is.
example : (after [] [.register "a-b" (.bool true) {}, .register "a_b" (.bool true) {}, .remove "a-b",
    .register "a.b" (.bool true) {}]).map Document.importName = ["aB_2", "aB"] := by decide +kernel

end Registry
end Project
end Valgen
