import Lox.Proofs.Lexical.Actions
import Lox.Proofs.Scoping.Sound

/-!
# Functions and classes in both

Where the machine puts a function into a scope, the evaluator captures the map of
that scope. Methods are made with their class, and made anew around a receiver each
time they are bound.
-/

namespace Lox

namespace Store

variable {s : Store} {bindings : NameMap Value} {enclosing : Option ScopeRef} {name : String}
  {v : Value}

/-- A name may as well be in a new scope from the start. -/
theorem define_newScope :
    (s.newScope bindings enclosing).2.define s.scopes.size name v =
      (s.newScope (bindings.insert name v) enclosing).2 := by
  unfold define newScope
  congr 1
  apply Array.ext_getElem?
  intro i
  rw [Array.getElem?_modify, Array.getElem?_push, Array.getElem?_push]
  by_cases hi : s.scopes.size = i
  · simp [hi]
  · simp [hi, Ne.symm hi]

end Store

namespace State

theorem define_enter (st : State) (bindings : NameMap Value) (enclosing : ScopeRef) (name : Token)
    (v : Value) :
    (st.enter bindings enclosing).define name v =
      st.enter (bindings.insert name.lexeme v) enclosing :=
  congrArg (fun store => { st with store, current := st.store.scopes.size }) Store.define_newScope

theorem foldl_define_enter (st : State) (pairs : List (Token × Value)) (bindings : NameMap Value)
    (enclosing : ScopeRef) :
    pairs.foldl (fun st p => st.define p.1 p.2) (st.enter bindings enclosing) =
      st.enter (pairs.foldl (fun bindings p => bindings.insert p.1.lexeme p.2) bindings)
        enclosing := by
  induction pairs generalizing bindings with
  | nil => rfl
  | cons p pairs ih => rw [List.foldl_cons, List.foldl_cons, define_enter, ih]

end State

namespace Lexical

namespace World

variable {known : Known} {w w' : World} {bound scope : ScopeRef} {Γ : Scopes} {env : Env}

/-! ## Functions -/

/-- Make a function in a scope, capturing its map. -/
def capture (w : World) (decl : FunctionDecl) (scope : ScopeRef) (env : Env)
    (isInitializer : Bool) : World :=
  { w with
    machine :=
      { w.machine with store := (w.machine.store.newClosure decl scope isInitializer).2 }
    lexical := (w.lexical.newClosure decl env isInitializer).2 }

theorem Agrees.nextIdentity (h : w.Agrees known) :
    w.lexical.objects.nextIdentity = w.machine.store.nextIdentity := by
  rw [h.objects]
  rfl

theorem Agrees.grows_capture (h : w.Agrees known) (bound : ScopeRef) {decl : FunctionDecl}
    {isInitializer : Bool} : Grows bound w (w.capture decl scope env isInitializer) := by
  refine .of_eq rfl rfl (Nat.le_succ _) fun id hlt => ?_
  have hne : id ≠ w.lexical.objects.nextIdentity := Nat.ne_of_lt (h.nextIdentity ▸ hlt)
  change List.lookup id ((w.lexical.objects.nextIdentity, env) :: w.lexical.captured) = _
  rw [List.lookup_cons, beq_false_of_ne hne]

theorem Agrees.capture (h : w.Agrees known) (bound : ScopeRef) (decl : FunctionDecl)
    (scope : ScopeRef) (env : Env) (isInitializer : Bool) :
    Acts known bound w (Lexical.capture env decl isInitializer)
      (w.machine.store.newClosure decl scope isInitializer).1.forget
      (w.capture decl scope env isInitializer) := by
  refine ⟨?_, ⟨h.holds.of_eq rfl rfl rfl rfl,
    h.tracks.grow (h.grows_capture 0) (fun _ _ _ hv => .inl hv) (fun _ _ _ hv => .inl hv)
      (fun _ _ hc => .inl hc), ?_, h.output, h.table⟩, h.grows_capture bound, rfl, rfl, rfl⟩
  · have hclosure : (w.lexical.newClosure decl env isInitializer).1 =
        (w.machine.store.newClosure decl scope isInitializer).1.forget :=
      congrArg (Closure.mk · decl 0 isInitializer) h.nextIdentity
    exact congrArg (fun c => some (Except.ok c, (w.lexical.newClosure decl env isInitializer).2))
      hclosure
  · exact congrArg (fun s : Store => { s with nextIdentity := s.nextIdentity + 1 }) h.objects

theorem Agrees.lookup_capture (h : w.Agrees known) (decl : FunctionDecl) (isInitializer : Bool) :
    (w.capture decl scope env isInitializer).lexical.captured.lookup
      w.machine.store.nextIdentity = some env := by
  rw [← h.nextIdentity]
  exact List.lookup_cons_self

theorem Agrees.tracked_capture (h : w.Agrees known) {decl : FunctionDecl} (isInitializer : Bool)
    {context : FunctionContext} (hdecl : decl.Scoped known Γ context) (hfits : w.Fits scope Γ env)
    (hthis : isInitializer → Γ.depth? Keyword.this.text = some 0) :
    (w.machine.store.newClosure decl scope isInitializer).1.Tracked known
      (w.capture decl scope env isInitializer) :=
  ⟨Nat.lt_succ_self _, Γ, context, env, hdecl,
    (h.grows_capture 0).fits hfits, h.lookup_capture decl isInitializer, hthis⟩

theorem Agrees.trackedMethod_capture (h : w.Agrees known) {decl : FunctionDecl}
    (isInitializer : Bool) {context : FunctionContext}
    (hdecl : decl.Scoped known (Γ.given .this) context) (hfits : w.Fits scope Γ env) :
    (w.machine.store.newClosure decl scope isInitializer).1.TrackedMethod known
      (w.capture decl scope env isInitializer) :=
  ⟨Nat.lt_succ_self _, Γ, context, env, hdecl,
    (h.grows_capture 0).fits hfits, h.lookup_capture decl isInitializer⟩

/-- The map that the evaluator finds for a function. -/
theorem envOf_forget {c : Closure} (h : w.lexical.captured.lookup c.identity = some env) :
    w.lexical.envOf c.forget = env := by
  change (w.lexical.captured.lookup c.identity).getD _ = _
  rw [h]
  rfl

/-- A method is bound in a scope that holds its receiver. -/
theorem Agrees.bindMethod (h : w.Agrees known) {m : Closure} (hm : m.TrackedMethod known w)
    (receiver : InstanceRef) :
    ∃ w', Acts known w.size w (Lexical.bindMethod m.forget receiver)
        (w.machine.store.bindMethod m receiver).1.forget w' ∧
      w'.machine = { w.machine with store := (w.machine.store.bindMethod m receiver).2 } ∧
      (w.machine.store.bindMethod m receiver).1.Tracked known w' := by
  obtain ⟨-, Γ, context, env, hdecl, hfits, hcaptured⟩ := hm
  obtain rfl : w.lexical.envOf m.forget = env := envOf_forget hcaptured
  obtain ⟨hgiven, hfits'⟩ := h.given (v := .object receiver) trivial hfits .this
  have hstore : ((w.openScope m.scope).bind w.size Keyword.this.text (.object receiver)).machine.store =
      (w.machine.store.newScope (NameMap.empty.insert Keyword.this.text (.object receiver))
        (some m.scope)).2 := Store.define_newScope
  have hbind := hgiven.bind (f := fun env => Lexical.capture env m.decl m.isInitializer)
    (hgiven.agrees.capture w.size m.decl w.size _ m.isInitializer)
  have htracked := hgiven.agrees.tracked_capture m.isInitializer hdecl hfits'
    fun _ => by rw [Scopes.depth?_given, if_pos rfl]
  exact ⟨_, ⟨hbind.run, hbind.agrees, hbind.after⟩,
    congrArg (fun store : Store =>
      { w.machine with store := { store with nextIdentity := store.nextIdentity + 1 } }) hstore,
    htracked⟩

/-! ## Classes -/

theorem Agrees.captureAll (h : w.Agrees known) (bound : ScopeRef) (hfits : w.Fits scope Γ env)
    {ds : List FunctionDecl} (hds : FunctionDecl.AreScoped known (Γ.given .this) ds) :
    ∃ w', Acts known bound w (Lexical.captureAll env ds)
        ((Lox.State.newMethods w.machine.store scope ds).1.map Closure.forget) w' ∧
      w'.machine =
        { w.machine with store := (Lox.State.newMethods w.machine.store scope ds).2 } ∧
      ∀ m ∈ (Lox.State.newMethods w.machine.store scope ds).1, m.TrackedMethod known w' := by
  induction ds generalizing w with
  | nil => exact ⟨w, .pure h [], rfl, by simp [Lox.State.newMethods]⟩
  | cons d ds ih =>
      have hcapture := h.capture bound d scope env (d.name.lexeme == initializerName)
      have htracked := h.trackedMethod_capture (d.name.lexeme == initializerName) hds.1 hfits
      obtain ⟨w', hrest, hmachine, hmethods⟩ := ih hcapture.agrees (hcapture.grows.fits hfits) hds.2
      exact ⟨w', hcapture.bind (hrest.bind (.pure hrest.agrees _)), hmachine,
        List.forall_mem_cons.mpr ⟨htracked.grow hrest.grows, hmethods⟩⟩

/-- Use up an identity. -/
def newIdentity (w : World) : World :=
  { w with
    machine := { w.machine with store := w.machine.store.newIdentity.2 }
    lexical := { w.lexical with objects := w.lexical.objects.newIdentity.2 } }

theorem grows_newIdentity (bound : ScopeRef) : Grows bound w w.newIdentity :=
  .of_eq rfl rfl (Nat.le_succ _) fun _ _ => rfl

theorem Agrees.newIdentity (h : w.Agrees known) : w.newIdentity.Agrees known :=
  ⟨h.holds.of_eq rfl rfl rfl rfl,
    h.tracks.grow (grows_newIdentity 0) (fun _ _ _ hv => .inl hv) (fun _ _ _ hv => .inl hv)
      (fun _ _ hc => .inl hc),
    congrArg (fun s : Store => { s with nextIdentity := s.nextIdentity + 1 }) h.objects,
    h.output, h.table⟩

theorem Agrees.makeClass (h : w.Agrees known) (bound : ScopeRef) (hfits : w.Fits scope Γ env)
    (name : Token) (superclass : Option Class) {methods : List FunctionDecl}
    (hmethods : FunctionDecl.AreScoped known (Γ.given .this) methods) :
    ∃ w', Acts known bound w (Lexical.makeClass env name superclass methods)
        ⟨(Lox.State.newMethods w.machine.store scope methods).2.nextIdentity, name.lexeme, superclass,
          (Lox.State.newMethods w.machine.store scope methods).1.map Closure.forget⟩ w' ∧
      w'.machine =
        { w.machine with
          store := (Lox.State.newMethods w.machine.store scope methods).2.newIdentity.2 } ∧
      ∀ m ∈ (Lox.State.newMethods w.machine.store scope methods).1, m.TrackedMethod known w' := by
  obtain ⟨w', hall, hmachine, htracked⟩ := h.captureAll bound hfits hmethods
  have hstore : w'.machine.store = (Lox.State.newMethods w.machine.store scope methods).2 := by
    rw [hmachine]
  have hnew : Acts known bound w' (modifyGet fun s : State =>
      (s.objects.newIdentity.1, { s with objects := s.objects.newIdentity.2 }))
      w'.lexical.objects.nextIdentity w'.newIdentity :=
    ⟨rfl, hall.agrees.newIdentity, grows_newIdentity bound, rfl, rfl, rfl⟩
  rw [hall.agrees.nextIdentity, hstore] at hnew
  refine ⟨w'.newIdentity, hall.bind (hnew.bind (.pure hnew.agrees _)), ?_,
    fun m hm => (htracked m hm).grow hnew.grows⟩
  rw [World.newIdentity, hmachine]

/-- A class without a superclass is made in the current scope. -/
theorem Agrees.newClass (h : w.Agrees known) (hfits : w.Fits w.machine.current Γ env)
    (name : Token) {methods : List FunctionDecl}
    (hmethods : FunctionDecl.AreScoped known (Γ.given .this) methods) :
    ∃ w', Acts known w.size w (Lexical.newClass env name none methods)
        (w.machine.newClass name none methods).1.forget w' ∧
      w'.machine = (w.machine.newClass name none methods).2 ∧
      (w.machine.newClass name none methods).1.Tracked known w' :=
  h.makeClass w.size hfits name none hmethods

/-- A class with a superclass is made in a scope that holds the superclass. -/
theorem Agrees.newSubclass (h : w.Agrees known) (hfits : w.Fits w.machine.current Γ env)
    {superclass : Class} (hsuper : superclass.Tracked known w) (name : Token)
    {methods : List FunctionDecl}
    (hmethods : FunctionDecl.AreScoped known ((Γ.given .super).given .this) methods) :
    ∃ w', Acts known w.size w (Lexical.newClass env name (some superclass.forget) methods)
        (w.machine.newClass name (some superclass) methods).1.forget w' ∧
      w'.machine = (w.machine.newClass name (some superclass) methods).2 ∧
      (w.machine.newClass name (some superclass) methods).1.Tracked known w' := by
  obtain ⟨hgiven, hfits'⟩ := h.given (v := .cls superclass) hsuper hfits .super
  obtain ⟨w', hmake, hmachine, htracked⟩ :=
    hgiven.agrees.makeClass w.size hfits' name (some superclass.forget) hmethods
  have hstore : ((w.openScope w.machine.current).bind w.size Keyword.super.text
      (.cls superclass)).machine.store =
      (w.machine.store.newScope (NameMap.empty.insert Keyword.super.text (.cls superclass))
        (some w.machine.current)).2 := Store.define_newScope
  rw [hstore] at hmake hmachine htracked
  have hnew := hgiven.bind
    (f := fun env => Lexical.makeClass env name (some superclass.forget) methods) hmake
  exact ⟨w', ⟨hnew.run, hnew.agrees, hnew.after⟩, hmachine,
    hsuper.grow hnew.grows, htracked⟩

/-! ## Instances and output -/

/-- Make an instance. -/
def newInstance (w : World) (c : Class) : World :=
  { w with
    machine := { w.machine with store := (w.machine.store.newInstance c).2 }
    lexical := { w.lexical with objects := (w.lexical.objects.newInstance c.forget).2 } }

theorem grows_newInstance (bound : ScopeRef) {c : Class} : Grows bound w (w.newInstance c) :=
  .of_eq rfl rfl (Nat.le_refl _) fun _ _ => rfl

theorem Agrees.newInstance (h : w.Agrees known) (bound : ScopeRef) {c : Class}
    (hc : c.Tracked known w) :
    Acts known bound w (modifyGet fun s : State =>
        ((s.objects.newInstance c.forget).1,
          { s with objects := (s.objects.newInstance c.forget).2 }))
      (w.machine.store.newInstance c).1 (w.newInstance c) where
  run := by
    have hobject : (w.lexical.objects.newInstance c.forget).1 = (w.machine.store.newInstance c).1 := by
      rw [h.objects]
      exact Array.size_map
    exact congrArg (fun object => some (Except.ok object, (w.newInstance c).lexical)) hobject
  agrees :=
    ⟨h.holds.of_eq rfl rfl rfl rfl,
      h.tracks.grow (grows_newInstance 0) (fun _ _ _ hv => .inl hv)
        (fun _ _ _ hv => .inl (Store.of_field?_newInstance hv))
        (fun _ _ hd => (Store.of_class?_newInstance hd).symm.imp_right <| by
          rintro rfl
          exact hc.grow (grows_newInstance 0)),
      by
        change (w.lexical.objects.newInstance c.forget).2 = (w.machine.store.newInstance c).2.forget
        rw [h.objects, Store.forget_newInstance],
      h.output, h.table⟩
  after := ⟨grows_newInstance bound, rfl, rfl, rfl⟩

/-- Give a field of an instance a value. -/
def setField (w : World) (object : InstanceRef) (name : String) (v : Value) : World :=
  { w with
    machine := { w.machine with store := w.machine.store.setField object name v }
    lexical := { w.lexical with objects := w.lexical.objects.setField object name v.forget } }

theorem grows_setField (bound : ScopeRef) {object : InstanceRef} {name : String} {v : Value} :
    Grows bound w (w.setField object name v) :=
  .of_eq rfl rfl (Nat.le_refl _) fun _ _ => rfl

theorem Agrees.setField (h : w.Agrees known) (bound : ScopeRef) (object : InstanceRef)
    (name : String) {v : Value} (hv : v.Tracked known w) :
    Acts known bound w (modify fun s : State =>
        { s with objects := s.objects.setField object name v.forget }) ()
      (w.setField object name v) where
  run := rfl
  agrees :=
    ⟨h.holds.of_eq rfl rfl rfl rfl,
      h.tracks.grow (grows_setField 0) (fun _ _ _ hx => .inl hx)
        (fun _ _ _ hx => (Store.of_field?_setField hx).symm.imp_right <| by
          rintro rfl
          exact hv.grow (grows_setField 0))
        (fun _ _ hd => .inl (by rwa [← Store.class?_setField])),
      by
        change w.lexical.objects.setField object name v.forget = Store.forget _
        rw [h.objects, ← Store.forget_setField]
        rfl,
      h.output, h.table⟩
  after := ⟨grows_setField bound, rfl, rfl, rfl⟩

/-- Print a value. -/
def print (w : World) (v : Value) : World :=
  { w with
    machine := w.machine.print (w.machine.store.display v)
    lexical :=
      { w.lexical with
        output := w.lexical.output ++ w.lexical.objects.display v.forget ++ "\n" } }

theorem grows_print (bound : ScopeRef) {v : Value} : Grows bound w (w.print v) :=
  .of_eq rfl rfl (Nat.le_refl _) fun _ _ => rfl

theorem Agrees.print (h : w.Agrees known) (bound : ScopeRef) (v : Value) :
    Acts known bound w (modify fun s : State =>
        { s with output := s.output ++ s.objects.display v.forget ++ "\n" }) () (w.print v) where
  run := rfl
  agrees :=
    ⟨h.holds.of_eq rfl rfl rfl rfl,
      h.tracks.grow (grows_print 0) (fun _ _ _ hx => .inl hx) (fun _ _ _ hx => .inl hx)
        (fun _ _ hd => .inl hd),
      h.objects,
      by
        change w.lexical.output ++ w.lexical.objects.display v.forget ++ "\n" =
          w.machine.output ++ w.machine.store.display v ++ "\n"
        rw [h.output, h.objects, Store.display_forget],
      h.table⟩
  after := ⟨grows_print bound, rfl, rfl, rfl⟩

end World

end Lexical

end Lox
