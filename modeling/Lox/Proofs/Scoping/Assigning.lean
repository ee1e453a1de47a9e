import Lox.Proofs.Scoping.Safety

/-!
# Assignments to local variables

An assignment that is bound to a scope writes there, save in one case. A variable
is bound from its declaration on but has no value before its initializer ends,
and while reading it there is rejected before the program runs, assigning to it
is not. Such an assignment fails.
-/

namespace Lox

/-- Whether an assignment stands in the initializer of the variable to which it is
bound. -/
def Cont.InOwnInitializer {goal y : Yield} (k : Cont goal y) (name : String) (distance : Nat) :
    Prop :=
  distance = 0 ∧ ∃ t ∈ k.initializing?, t.lexeme = name

instance {goal y : Yield} (k : Cont goal y) (name : String) (distance : Nat) :
    Decidable (k.InOwnInitializer name distance) :=
  inferInstanceAs (Decidable (_ ∧ _))

namespace Session

/-- An assignment that is bound finds the scope that the table names. It writes
there, unless it stands in the initializer of its own variable, where it fails. -/
theorem bound_assignment_writes_unless_initializing {s : Session} {limit : Nat} {source : String}
    {v : Value} {target : Reference} {k : Cont .flow .value} {st : State} {d : Nat}
    (h : Reachable s) (hm : s.Moment limit source (.value v (.assign target k)) st)
    (hd : st.table.distance? target.id = some d) :
    ∃ scope, st.store.ancestor? st.current d = some scope ∧
      if k.InOwnInitializer target.name.lexeme d then
        st.store.local? scope target.name.lexeme = none ∧
          Machine.step limit (.value v (.assign target k)) st =
            .failed (.undefined target.name) (k.unwind st)
      else
        (st.store.local? scope target.name.lexeme).isSome ∧
          Machine.step limit (.value v (.assign target k)) st =
            .next (.value v k) (st.write scope target.name v) := by
  obtain ⟨known, hknown, p, hplace, -, hk⟩ := h.sound_moment hm
  obtain ⟨hfound, -, hk⟩ := hk
  rw [Machine.distance?_of_found hknown hfound] at hd
  obtain ⟨scope, hscope, hlocal⟩ := hplace.stands.find hd
  rw [hplace.scope] at hscope
  rw [hk.pending_eq.1] at hlocal
  refine ⟨scope, hscope, ?_⟩
  have howner : st.owner? target =
      if (st.store.local? scope target.name.lexeme).isSome then some scope else none := by
    rw [State.owner?, Machine.distance?_of_found hknown hfound, hd]
    exact Store.ownerAt?_of_ancestor? hscope
  rw [Machine.step, Machine.resume, howner]
  split
  next hown =>
    have hnone : st.store.local? scope target.name.lexeme = none := by
      simpa using fun hsome => hlocal.mp hsome hown
    rw [hnone]
    exact ⟨rfl, rfl⟩
  next hown =>
    have hsome := hlocal.mpr hown
    rw [if_pos hsome]
    exact ⟨hsome, rfl⟩

/-- A variable that is assigned to in its own initializer has no value there. -/
theorem bound_assignment_fails_initializing : ∃ v target k st,
    Reachable fresh ∧
      fresh.Moment 1 "\x7b var a = (a = nil); \x7d" (.value v (.assign target k)) st ∧
      st.table.distance? target.id = some 0 ∧
      Machine.step 1 (.value v (.assign target k)) st =
        .failed (.undefined target.name) (k.unwind st) := by
  obtain ⟨v, target, k, st, hm, hd, hown⟩ : ∃ v target k st,
      fresh.Moment 1 "\x7b var a = (a = nil); \x7d" (.value v (.assign target k)) st ∧
        st.table.distance? target.id = some 0 ∧ k.InOwnInitializer target.name.lexeme 0 :=
    ⟨_, _, _, _, ⟨_, _, _, ⟨⟨_, by cbv, by cbv⟩, rfl⟩, .of_stepFor (n := 7) rfl⟩, by decide,
      by decide⟩
  obtain ⟨scope, -, hstep⟩ := bound_assignment_writes_unless_initializing .fresh hm hd
  rw [if_pos hown] at hstep
  exact ⟨v, target, k, st, .fresh, hm, hd, hstep.2⟩

end Session

end Lox
