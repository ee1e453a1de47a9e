import Lox.Proofs.Guise.Stores

/-!
# Operations on stores that are alike

What one machine does to its store the other does to a store that is alike, and the
stores are alike again. A name is set under what the scope tells it by, and a new scope
is marked as it is opened.
-/

namespace Lox

variable {G : Guise}

/-- What a scope holds that holds nothing but a word of the language. -/
theorem Value.Alike.given {s : Store} {M : Marks} {v v' : Value} (hv : v.Alike G s M v')
    (k : Keyword) (b : Bool) (name : String) :
    Option.Rel (Value.Alike G s M) ((NameMap.empty.insert k.text v).get? name)
      ((NameMap.empty.insert k.text v').get? (G.name b name)) := by
  rw [NameMap.get?_insert, NameMap.get?_insert]
  by_cases hname : k.text = name
  · subst hname
    rw [if_pos rfl, if_pos (Guise.name_keyword k).symm]
    exact .some hv
  · rw [if_neg hname, if_neg]
    · exact .none
    · intro heq
      exact hname (Guise.name_injective b ((Guise.name_keyword k).trans heq))

namespace Store.Alike

variable {s s' : Store} {M : Marks} {scope : ScopeRef}

/-- What holds of the contents of a store holds as well of a later one that links the same
scopes, holds what it did or something alike, and counts on. -/
theorem of_eq {t t' : Store} (h : s.Alike G M s') (hscopes : t.scopes = s.scopes)
    (hscopes' : t'.scopes = s'.scopes) (hinstances : t.instances = s.instances)
    (hinstances' : t'.instances = s'.instances) (hidentity : t'.nextIdentity = t.nextIdentity) :
    t.Alike G M t' := by
  have hs : s.Prolongs M t M := .of_scopes_eq hscopes
  constructor
  · rw [hscopes, hscopes']
    exact h.size
  · intro scope
    rw [hscopes, hscopes']
    exact optionRel_imp (h.scope scope) fun _ _ hsc => hsc.prolong hs
  · intro object
    rw [hinstances, hinstances']
    exact optionRel_imp (h.instances object) fun _ _ hi => hi.prolong hs
  · rw [hinstances, hinstances']
    exact h.count
  · exact hidentity
  · rw [hscopes]
    exact h.pos
  · exact h.plain
  · have htop := h.top
    unfold Store.enclosing? at htop ⊢
    rwa [hscopes]
  · intro hwrapped
    have htop := h.top' hwrapped
    unfold Store.enclosing? at htop ⊢
    rwa [hscopes']

/-- A name is given values that are alike. -/
theorem define (h : s.Alike G M s') (scope : ScopeRef) (name : String) {v v' : Value}
    (hv : v.Alike G s M v') :
    (s.define scope name v).Alike G M
      (s'.define (scope + G.shift) (G.name (M scope) name) v') := by
  have hs : s.Prolongs M (s.define scope name v) M := .define
  constructor
  · rw [size_define, size_define]
    exact h.size
  · intro target
    have htarget := h.scope target
    rw [Store.define, Store.define, Array.getElem?_modify, Array.getElem?_modify]
    simp only [Nat.add_right_cancel_iff]
    by_cases heq : scope = target
    · subst heq
      rw [if_pos rfl, if_pos rfl]
      generalize s.scopes[scope]? = sc at htarget ⊢
      generalize s'.scopes[scope + G.shift]? = sc' at htarget ⊢
      cases htarget with
      | none => exact .none
      | some hsc =>
        refine .some ⟨fun other => ?_, hsc.enclosing⟩
        rw [NameMap.get?_insert, NameMap.get?_insert]
        by_cases hname : name = other
        · rw [if_pos hname, if_pos (congrArg _ hname)]
          exact .some (hv.prolong hs)
        · rw [if_neg hname, if_neg fun heq => hname (Guise.name_injective _ heq)]
          exact optionRel_imp (hsc.bindings other) fun _ _ hw => hw.prolong hs
    · rw [if_neg heq, if_neg heq]
      exact optionRel_imp htarget fun _ _ hsc => hsc.prolong hs
  · intro object
    exact optionRel_imp (h.instances object) fun _ _ hi => hi.prolong hs
  · exact h.count
  · exact h.identity
  · rw [size_define]
    exact h.pos
  · exact h.plain
  · rw [enclosing?_define]
    exact h.top
  · intro hwrapped
    rw [enclosing?_define]
    exact h.top' hwrapped

/-- A new scope is opened with values that are alike. -/
theorem newScope (h : s.Alike G M s') (scope : ScopeRef) (b : Bool)
    {bindings bindings' : NameMap Value}
    (hvalue : ∀ name, Option.Rel (Value.Alike G s M) (bindings.get? name)
      (bindings'.get? (G.name b name))) :
    (s.newScope bindings (some scope)).2.Alike G (Function.update M s.scopes.size b)
      (s'.newScope bindings' (some (scope + G.shift))).2 := by
  have hs : s.Prolongs M (s.newScope bindings (some scope)).2 (Function.update M s.scopes.size b) :=
    .newScope _ _ _
  constructor
  · rw [size_newScope, size_newScope, h.size, Nat.add_right_comm]
  · intro target
    rw [Store.newScope, Store.newScope, Array.getElem?_push, Array.getElem?_push, h.size]
    simp only [Nat.add_right_cancel_iff]
    by_cases heq : target = s.scopes.size
    · subst heq
      rw [if_pos rfl, if_pos rfl, Function.update_self]
      refine .some ⟨fun name => optionRel_imp (hvalue name) fun _ _ hv => hv.prolong hs, ?_⟩
      intro outer houter
      obtain rfl := Option.some.inj houter
      rfl
    · rw [if_neg heq, if_neg heq, Function.update_of_ne heq]
      exact optionRel_imp (h.scope target) fun _ _ hsc => hsc.prolong hs
  · intro object
    exact optionRel_imp (h.instances object) fun _ _ hi => hi.prolong hs
  · exact h.count
  · exact h.identity
  · rw [size_newScope]
    exact Nat.lt_succ_of_lt h.pos
  · rw [Function.update_of_ne (Nat.ne_of_lt h.pos)]
    exact h.plain
  · rw [enclosing?_newScope, if_neg (Nat.ne_of_lt h.pos)]
    exact h.top
  · intro hwrapped
    rw [enclosing?_newScope, if_neg]
    · exact h.top' hwrapped
    · rw [h.size]
      exact Nat.ne_of_lt (Nat.lt_add_right _ h.pos)

theorem newInstance (h : s.Alike G M s') {c c' : Class} (hc : c.Alike G s M c') :
    (s.newInstance c).2.Alike G M (s'.newInstance c').2 := by
  have hs : s.Prolongs M (s.newInstance c).2 M := .of_scopes_eq rfl
  constructor
  · exact h.size
  · intro scope
    exact optionRel_imp (h.scope scope) fun _ _ hsc => hsc.prolong hs
  · intro object
    rw [Store.newInstance, Store.newInstance, Array.getElem?_push, Array.getElem?_push, h.count]
    by_cases heq : object = s.instances.size
    · rw [if_pos heq, if_pos heq]
      exact .some ⟨hc.prolong hs, fun _ => .none⟩
    · rw [if_neg heq, if_neg heq]
      exact optionRel_imp (h.instances object) fun _ _ hi => hi.prolong hs
  · rw [Store.newInstance, Store.newInstance, Array.size_push, Array.size_push, h.count]
  · exact h.identity
  · exact h.pos
  · exact h.plain
  · exact h.top
  · exact h.top'

theorem setField (h : s.Alike G M s') (object : InstanceRef) (name : String) {v v' : Value}
    (hv : v.Alike G s M v') : (s.setField object name v).Alike G M (s'.setField object name v') := by
  have hs : s.Prolongs M (s.setField object name v) M := .of_scopes_eq rfl
  constructor
  · exact h.size
  · intro scope
    exact optionRel_imp (h.scope scope) fun _ _ hsc => hsc.prolong hs
  · intro other
    have hother := h.instances other
    rw [Store.setField, Store.setField, Array.getElem?_modify, Array.getElem?_modify]
    by_cases heq : object = other
    · subst heq
      rw [if_pos rfl, if_pos rfl]
      generalize s.instances[object]? = i at hother ⊢
      generalize s'.instances[object]? = i' at hother ⊢
      cases hother with
      | none => exact .none
      | some hi =>
        refine .some ⟨hi.cls.prolong hs, fun field => ?_⟩
        rw [NameMap.get?_insert, NameMap.get?_insert]
        split
        · exact .some (hv.prolong hs)
        · exact optionRel_imp (hi.fields field) fun _ _ hw => hw.prolong hs
    · rw [if_neg heq, if_neg heq]
      exact optionRel_imp hother fun _ _ hi => hi.prolong hs
  · rw [Store.setField, Store.setField, Array.size_modify, Array.size_modify]
    exact h.count
  · exact h.identity
  · exact h.pos
  · exact h.plain
  · exact h.top
  · exact h.top'

/-- A function is made in the same place. -/
theorem newClosure (h : s.Alike G M s') (given : List Bool) {K : List Bool} {d d' : FunctionDecl}
    (isInitializer : Bool) (hK : s.Marked M scope K) (hd : d.Alike G (given ++ K) d') :
    (s.newClosure d scope isInitializer).2.Alike G M
        (s'.newClosure d' (scope + G.shift) isInitializer).2 ∧
      (s.newClosure d scope isInitializer).1.Alike G (s.newClosure d scope isInitializer).2 M given
        (s'.newClosure d' (scope + G.shift) isInitializer).1 :=
  ⟨h.of_eq rfl rfl rfl rfl (congrArg Nat.succ h.identity),
    ⟨h.identity, rfl, rfl, K, hK.prolong (.of_scopes_eq rfl), hd⟩⟩

/-- A method is bound to the same instance. -/
theorem bindMethod (h : s.Alike G M s') {m m' : Closure} (hm : m.Alike G s M [false] m')
    (object : InstanceRef) :
    ∃ N, s.Prolongs M (s.bindMethod m object).2 N ∧
      (s.bindMethod m object).2.Alike G N (s'.bindMethod m' object).2 ∧
      (s.bindMethod m object).1.Alike G (s.bindMethod m object).2 N []
        (s'.bindMethod m' object).1 := by
  obtain ⟨K, hK, hdecl⟩ := hm.decl
  have hthis : (Value.object object).Alike G s M (.object object) := .object object
  have hnew : (s.newScope (NameMap.empty.insert Keyword.this.text (.object object))
      (some m.scope)).2.Alike G (Function.update M s.scopes.size false)
      (s'.newScope (NameMap.empty.insert Keyword.this.text (.object object))
        (some (m.scope + G.shift))).2 := h.newScope m.scope false (hthis.given .this false)
  have hmarked := hK.newScope (NameMap.empty.insert Keyword.this.text (.object object)) false
  refine ⟨Function.update M s.scopes.size false, ?_, ?_⟩
  · exact (Prolongs.newScope _ _ _).trans (.of_scopes_eq rfl)
  · have hdecl' : m.decl.Alike G ([] ++ false :: K) m'.decl := hdecl
    have hboth := hnew.newClosure [] m.isInitializer hmarked hdecl'
    rw [← hm.scope, ← h.size] at hboth
    rw [Store.bindMethod, Store.bindMethod, hm.isInitializer]
    exact hboth

end Store.Alike

end Lox
