import Lox.Proofs.Lexical.Mapping

/-!
# States with other declarations

All functions of a state may be given other declarations, and another table may say
what is known of references. Operations on the state do not notice, as long as names
and parameters are spelled as before, and as much is known of the references that are
looked up.
-/

namespace Lox

/-- Whether a map of declarations keeps what names and parameters are spelled like. -/
structure FunctionDecl.Keeps (g : FunctionDecl → FunctionDecl) : Prop where
  name (d : FunctionDecl) : (g d).name.lexeme = d.name.lexeme
  parameters (d : FunctionDecl) :
    (g d).parameters.map Token.lexeme = d.parameters.map Token.lexeme

/-- A function with another declaration. -/
def Closure.redeclare (g : FunctionDecl → FunctionDecl) (c : Closure) : Closure :=
  { c with decl := g c.decl }

/-- A state with other declarations and another table. -/
def State.redeclare (g : FunctionDecl → FunctionDecl) (table : BindingTable) (st : State) : State :=
  { st with store := st.store.map (Closure.redeclare g), table }

variable {g : FunctionDecl → FunctionDecl} {table : BindingTable}

theorem FunctionDecl.Keeps.closure (hg : FunctionDecl.Keeps g) :
    Closure.Keeps (Closure.redeclare g) where
  identity _ := rfl
  name c := hg.name c.decl
  arity c := by
    have hlength := congrArg List.length (hg.parameters c.decl)
    rwa [List.length_map, List.length_map] at hlength

/-! ## Stores -/

namespace Store

variable (s : Store)

theorem redeclare_newClosure (decl : FunctionDecl) (scope : ScopeRef) (init : Bool) :
    (s.map (Closure.redeclare g)).newClosure (g decl) scope init =
      ((s.newClosure decl scope init).1.redeclare g,
        (s.newClosure decl scope init).2.map (Closure.redeclare g)) :=
  rfl

theorem redeclare_bindMethod (m : Closure) (receiver : InstanceRef) :
    (s.map (Closure.redeclare g)).bindMethod (m.redeclare g) receiver =
      ((s.bindMethod m receiver).1.redeclare g,
        (s.bindMethod m receiver).2.map (Closure.redeclare g)) := by
  have hbindings : NameMap.empty.insert Keyword.this.text (.object receiver) =
      (NameMap.empty.insert Keyword.this.text (.object receiver)).map
        (Value.map (Closure.redeclare g)) :=
    (NameMap.map_insert (Value.map (Closure.redeclare g)) .empty _ (.object receiver)).symm
  rw [bindMethod, hbindings, map_newScope]
  rfl

theorem redeclare_newMethods (hg : FunctionDecl.Keeps g) (scope : ScopeRef)
    (ds : List FunctionDecl) :
    State.newMethods (s.map (Closure.redeclare g)) scope (ds.map g) =
      ((State.newMethods s scope ds).1.map (Closure.redeclare g),
        (State.newMethods s scope ds).2.map (Closure.redeclare g)) := by
  induction ds generalizing s with
  | nil => rfl
  | cons d ds ih =>
    rw [List.map_cons, State.newMethods, hg.name, redeclare_newClosure]
    simp only [ih]
    rfl

end Store

/-! ## States -/

namespace State

variable (st : State) {name name' : Token}

theorem redeclare_define (h : name'.lexeme = name.lexeme) (v : Value) :
    (st.redeclare g table).define name' (v.map (Closure.redeclare g)) =
      (st.define name v).redeclare g table := by
  simp only [define, redeclare, Store.map_define, h]

theorem redeclare_write (scope : ScopeRef) (h : name'.lexeme = name.lexeme) (v : Value) :
    (st.redeclare g table).write scope name' (v.map (Closure.redeclare g)) =
      (st.write scope name v).redeclare g table := by
  simp only [write, redeclare, Store.map_define, h]

theorem redeclare_enter (bindings : NameMap Value) (enclosing : ScopeRef) :
    (st.redeclare g table).enter (bindings.map (Value.map (Closure.redeclare g))) enclosing =
      (st.enter bindings enclosing).redeclare g table := by
  simp only [enter, redeclare, Store.map_newScope]

theorem redeclare_bind (m : Closure) (receiver : InstanceRef) :
    (st.redeclare g table).bind (m.redeclare g) receiver =
      ((st.bind m receiver).1.map (Closure.redeclare g),
        (st.bind m receiver).2.redeclare g table) := by
  simp only [bind, redeclare, Store.redeclare_bindMethod]
  rfl

theorem redeclare_defineFunction (hg : FunctionDecl.Keeps g) (decl : FunctionDecl) :
    (st.redeclare g table).defineFunction (g decl) =
      (st.defineFunction decl).redeclare g table :=
  redeclare_define { st with store := (st.store.newClosure decl st.current false).2 }
    (hg.name decl) (.function (st.store.newClosure decl st.current false).1)

theorem redeclare_newClass (hg : FunctionDecl.Keeps g) (h : name'.lexeme = name.lexeme)
    (superclass : Option Class) (methods : List FunctionDecl) :
    (st.redeclare g table).newClass name' (superclass.map (Class.map (Closure.redeclare g)))
        (methods.map g) =
      ((st.newClass name superclass methods).1.map (Closure.redeclare g),
        (st.newClass name superclass methods).2.redeclare g table) := by
  cases superclass with
  | none =>
    simp only [newClass, redeclare, Option.map_none, Store.redeclare_newMethods _ hg, h]
    rfl
  | some c =>
    have hbindings :
        NameMap.empty.insert Keyword.super.text (.cls (c.map (Closure.redeclare g))) =
          (NameMap.empty.insert Keyword.super.text (.cls c)).map
            (Value.map (Closure.redeclare g)) :=
      (NameMap.map_insert (Value.map (Closure.redeclare g)) .empty _ (.cls c)).symm
    simp only [newClass, redeclare, Option.map_some, hbindings, Store.map_newScope,
      Store.redeclare_newMethods _ hg, h]
    rfl

/-! ## References -/

section

variable {st} {r r' : Reference} (hid : table.distance? r'.id = st.table.distance? r.id)
include hid

theorem redeclare_owner? (h : r'.name.lexeme = r.name.lexeme) :
    (st.redeclare g table).owner? r' = st.owner? r := by
  have hdistance : (st.redeclare g table).table.distance? r'.id = st.table.distance? r.id := hid
  rw [owner?, owner?, hdistance, h]
  cases st.table.distance? r.id with
  | none => exact st.store.owner?_map _ _
  | some d => exact st.store.ownerAt?_map _ _ _

theorem redeclare_read (h : r'.name.lexeme = r.name.lexeme) :
    (st.redeclare g table).read r' = (st.read r).map (Value.map (Closure.redeclare g)) := by
  rw [read, redeclare_owner? hid h, read, h]
  cases st.owner? r with
  | none => rfl
  | some scope => exact st.store.local?_map _ _

theorem redeclare_inheritance :
    (st.redeclare g table).inheritance r' =
      (st.inheritance r).map fun found => (found.1.map (Closure.redeclare g), found.2) := by
  have hdistance : (st.redeclare g table).table.distance? r'.id = st.table.distance? r.id := hid
  rw [inheritance, inheritance, hdistance]
  cases st.table.distance? r.id with
  | none => rfl
  | some d =>
    simp only [redeclare, Store.getAt?_map]
    rcases st.store.getAt? st.current d Keyword.super.text with _ | v
    · rfl
    · cases v <;> try rfl
      cases d with
      | zero => rfl
      | succ d =>
        simp only [Option.map_some, Value.map]
        rcases st.store.getAt? st.current d Keyword.this.text with _ | v
        · rfl
        · cases v <;> rfl

end

end State

/-! ## Calls -/

namespace Machine

variable (st : State)

theorem foldl_insert_map (f : Closure → Closure) {ps ps' : List Token}
    (h : ps'.map Token.lexeme = ps.map Token.lexeme) (vs : List Value)
    (bindings : NameMap Value) :
    (ps'.zip (vs.map (Value.map f))).foldl
        (fun bindings p => bindings.insert p.1.lexeme p.2) (bindings.map (Value.map f)) =
      ((ps.zip vs).foldl (fun bindings p => bindings.insert p.1.lexeme p.2) bindings).map
        (Value.map f) := by
  induction ps generalizing ps' vs bindings with
  | nil =>
    obtain rfl := List.map_eq_nil_iff.mp h
    rfl
  | cons p ps ih =>
    obtain ⟨p', ps', rfl, hp, hps⟩ := List.map_eq_cons_iff.mp h
    cases vs with
    | nil => rfl
    | cons v vs =>
      simp only [List.map_cons, List.zip_cons_cons, List.foldl_cons]
      rw [hp, ← NameMap.map_insert, ih hps]

/-- Arguments are bound to parameters that are spelled as before. -/
theorem enter_arguments_redeclare (hg : FunctionDecl.Keeps g) (d : FunctionDecl)
    (arguments : List Value) (scope : ScopeRef) :
    (st.redeclare g table).enter
        (((g d).parameters.zip (arguments.map (Value.map (Closure.redeclare g)))).foldl
          (fun bindings p => bindings.insert p.1.lexeme p.2) NameMap.empty) scope =
      (st.enter ((d.parameters.zip arguments).foldl
        (fun bindings p => bindings.insert p.1.lexeme p.2) NameMap.empty) scope).redeclare g table := by
  have hbindings := foldl_insert_map (Closure.redeclare g) (hg.parameters d) arguments .empty
  rw [NameMap.map_empty] at hbindings
  rw [hbindings, State.redeclare_enter]

theorem bodyResult_redeclare (closure : Closure) (f : Flow) :
    bodyResult (closure.redeclare g) (f.map (Closure.redeclare g)) (st.redeclare g table) =
      (bodyResult closure f st).map (Closure.redeclare g) := by
  have hinit : (closure.redeclare g).isInitializer = closure.isInitializer := rfl
  have hthis : (st.redeclare g table).store.local? (closure.redeclare g).scope Keyword.this.text =
      (st.store.local? closure.scope Keyword.this.text).map (Value.map (Closure.redeclare g)) :=
    st.store.local?_map _ _
  unfold bodyResult
  rw [hinit, hthis]
  split
  · cases st.store.local? closure.scope Keyword.this.text <;> rfl
  · cases f <;> rfl

end Machine

end Lox
