import Lox.Proofs.History.Growth

/-!
# The scopes that a machine is in

A machine is in a scope and knows those that it goes back to. A step puts it into one of
these, or into a new scope that it makes for a block or a body. The scope that is made for
a receiver is none of them: bodies run in a scope inside it.
-/

namespace Lox

variable {goal : Yield} {limit : Nat} {st : State} {s : Store} {made : Option Event}
  {scopes : List ScopeRef}

/-- Leaving everything around, a machine comes to a scope that it was in or goes back to. -/
theorem Cont.current_unwind {y : Yield} (k : Cont goal y) (st : State) :
    (k.unwind st).current ∈ st.current :: k.saved := by
  induction k generalizing st with
  | halt => exact List.mem_cons_self
  | leaveScope outer k ih => exact List.mem_cons_of_mem _ (ih { st with current := outer })
  | endCall k ih => exact ih { st with calls := st.calls - 1 }
  | _ =>
    rename_i ih
    exact ih st

/-- Whether a step that makes something ends or goes on in some scopes, or in a new one that
is not made for a receiver. -/
def Step.KeepsPlaces (made : Option Event) (s : Store) (scopes : List ScopeRef) : Step goal → Prop
  | .next task st => ∀ scope ∈ st.current :: task.saved, scope ∈ scopes ∨
      (s.scopes.size ≤ scope ∧ scope < st.store.scopes.size ∧
        ∀ m object f, .bound m object f ∈ made → f.scope ≠ scope)
  | .done _ st => st.current ∈ scopes
  | .failed _ st => st.current ∈ scopes

namespace Task

variable {task task' : Task goal}

/-- Leaving everything around, a task comes to a scope that it is in or goes back to. -/
theorem current_unwind (task : Task goal) (st : State) :
    (task.unwind st).current ∈ st.current :: task.saved := by
  cases task <;> exact Cont.current_unwind _ st

theorem Unfolds.saved_eq (h : task.Unfolds st task') : task'.saved = task.saved := by
  cases h <;> rfl

theorem Calls.saved_eq {called : Value} {closing : Token} {arguments : List Value}
    {k : Cont goal .value} (h : task.Calls called closing arguments k) : task.saved = k.saved := by
  cases h <;> rfl

end Task

namespace Machine

theorem next_places {task : Task goal} (h : st.current ∈ scopes)
    (htask : ∀ scope ∈ task.saved, scope ∈ scopes) :
    (Step.next task st).KeepsPlaces made s scopes :=
  fun _ hscope => .inl (List.forall_mem_cons.mpr ⟨h, htask⟩ _ hscope)

/-- A scope is entered that is new, and the one before is gone back to. -/
theorem enter_places {task : Task goal} {bindings : NameMap Value} {enclosing : ScopeRef}
    (h : st.current ∈ scopes) (htask : ∀ scope ∈ task.saved, scope = st.current ∨ scope ∈ scopes)
    (hle : s.scopes.size ≤ st.store.scopes.size)
    (hmade : ∀ m object f, .bound m object f ∈ made → f.scope ≠ st.store.scopes.size) :
    (Step.next task (st.enter bindings enclosing)).KeepsPlaces made s scopes := by
  refine List.forall_mem_cons.mpr ⟨.inr ⟨hle, ?_, hmade⟩, fun scope hscope => ?_⟩
  · exact Nat.lt_of_lt_of_eq (Nat.lt_succ_self _) Store.size_newScope.symm
  · rcases htask scope hscope with rfl | hmem
    · exact .inl h
    · exact .inl hmem

theorem enterBody_places {k : Cont goal .value} (closure : Closure) (arguments : List Value)
    (h : st.current ∈ scopes) (hk : ∀ scope ∈ k.saved, scope ∈ scopes)
    (hle : s.scopes.size ≤ st.store.scopes.size)
    (hmade : ∀ m object f, .bound m object f ∈ made → f.scope ≠ st.store.scopes.size) :
    (enterBody closure arguments k st).KeepsPlaces made s scopes := by
  refine enter_places h (fun scope hscope => ?_) hle hmade
  exact (List.mem_cons.mp hscope).imp_right (hk scope)

theorem Rule.places {task : Task goal} {step : Step goal} (hrule : Rule limit st task step) :
    step.KeepsPlaces (task.event? st) st.store (st.current :: task.saved) := by
  have hcurrent : st.current ∈ st.current :: task.saved := List.mem_cons_self
  have hsaved : ∀ scope ∈ task.saved, scope ∈ st.current :: task.saved :=
    fun _ => List.mem_cons_of_mem _
  cases hrule with
  | halts outcome => exact hcurrent
  | fails h => exact task.current_unwind st
  | failsBase name methods k h => exact k.current_unwind (st.define name .nil)
  | unfolds h => exact next_places hcurrent (h.saved_eq ▸ hsaved)
  | block body k =>
    refine enter_places hcurrent (fun scope hscope => ?_) (Nat.le_refl _) nofun
    exact (List.mem_cons.mp hscope).imp_right (hsaved scope)
  | leaveScope f outer k =>
    obtain ⟨houter, hk⟩ := List.forall_mem_cons.mp hsaved
    exact next_places houter hk
  | function closure arguments k h harity hlt =>
    rw [h.event?_eq]
    exact enterBody_places closure arguments hcurrent (k := .endCall k) (h.saved_eq ▸ hsaved)
      (Nat.le_refl _) nofun
  | newInstance c k h hlt hm => exact next_places hcurrent (h.saved_eq ▸ hsaved)
  | initializer c m arguments k h harity hlt hm =>
    -- The scope of the receiver is made before that of the body.
    have hsize : ((st.store.newInstance c).2.bindMethod m
        (st.store.newInstance c).1).2.scopes.size = st.store.scopes.size + 1 := Store.size_newScope
    rw [h.event?_eq, Store.construction?_of_initializer hm]
    refine enterBody_places _ arguments hcurrent (k := .construct _ (.endCall k))
      (h.saved_eq ▸ hsaved) ?_ ?_
    · exact Nat.le_of_lt (Nat.lt_of_lt_of_eq (Nat.lt_succ_self _) hsize.symm)
    · rintro m' object f hf
      cases hf
      exact Nat.ne_of_lt (Nat.lt_of_lt_of_eq (Nat.lt_succ_self _) hsize.symm)
  | _ => exact next_places hcurrent hsaved

/-- A step leads to scopes that the machine was in or would go back to, and to new ones. -/
theorem step_places (limit : Nat) (task : Task goal) (st : State) :
    (step limit task st).KeepsPlaces (task.event? st) st.store (st.current :: task.saved) :=
  (step_rule limit task st).places

end Machine

end Lox
