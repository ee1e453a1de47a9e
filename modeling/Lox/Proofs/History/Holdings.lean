import Lox.Proofs.History.Changes
import Lox.Proofs.Mirror.Visits

/-!
# What a machine holds

A running machine holds values and code: in its store, and in its task with all that
the continuation keeps. A step takes nodes apart, moves values from place to place and
opens scopes for blocks and bodies. New values come into being in three ways only: a
function is declared, a class is founded, or a method is bound to an instance.

## Implementation notes

Code is held together with the scope in which it will run. What is to be said of all
holdings is a predicate `P`; `Carries` collects what it has to fulfil in order to go on
holding, and `step_all` shows that this is enough. The values that come into being are
left to the user of the lemma.
-/

namespace Lox

/-! ## Holdings -/

/-- The nodes that run in the scope of a node. -/
def Node.parts : Node → List Node
  | .expr (.grouping inner) => [.expr inner]
  | .expr (.unary _ _ operand) => [.expr operand]
  | .expr (.binary _ _ left right) => [.expr left, .expr right]
  | .expr (.logical _ _ left right) => [.expr left, .expr right]
  | .expr (.assign _ value) => [.expr value]
  | .expr (.get object _) => [.expr object]
  | .expr (.set object _ value) => [.expr object, .expr value]
  | .expr (.call callee _ arguments) => .expr callee :: arguments.map .expr
  | .stmt (.expression value) => [.expr value]
  | .stmt (.print value) => [.expr value]
  | .stmt (.varDecl _ (some initializer)) => [.expr initializer]
  | .stmt (.funDecl d) => [.function d]
  | .stmt (.classDecl _ (some superclass) _) => [.expr (.variable superclass)]
  | .stmt (.branch condition yes none) => [.expr condition, .stmt yes]
  | .stmt (.branch condition yes (some no)) => [.expr condition, .stmt yes, .stmt no]
  | .stmt (.loop condition body) => [.expr condition, .stmt body]
  | .stmt (.ret _ (some value)) => [.expr value]
  | _ => []

/-- What a machine holds: a value, or code that is to run in a scope. -/
inductive Holding where
  | value (v : Value)
  | code (scope : ScopeRef) (node : Node)

section

variable {goal : Yield}

/-- The value that a flow carries. -/
def Flow.holdings : Flow → List Holding
  | .normal => []
  | .returned v => [.value v]

/-- What a continuation holds that is resumed in a scope. -/
def Cont.holdings : {y : Yield} → Cont goal y → ScopeRef → List Holding
  | _, .halt, _ => []
  | _, .unary _ _ k, scope => k.holdings scope
  | _, .binaryLeft _ _ right k, scope => .code scope (.expr right) :: k.holdings scope
  | _, .binaryRight _ _ left k, scope => .value left :: k.holdings scope
  | _, .logical _ right k, scope => .code scope (.expr right) :: k.holdings scope
  | _, .assign _ k, scope => k.holdings scope
  | _, .get _ k, scope => k.holdings scope
  | _, .setObject _ value k, scope => .code scope (.expr value) :: k.holdings scope
  | _, .setValue object _ k, scope => .value (.object object) :: k.holdings scope
  | _, .callee _ arguments k, scope =>
      arguments.map (fun e => .code scope (.expr e)) ++ k.holdings scope
  | _, .argument called _ done rest k, scope =>
      .value called :: (done.map .value ++
        (rest.map (fun e => .code scope (.expr e)) ++ k.holdings scope))
  | _, .construct object k, scope => .value (.object object) :: k.holdings scope
  | _, .endCall k, scope => k.holdings scope
  | _, .discard k, scope => k.holdings scope
  | _, .print k, scope => k.holdings scope
  | _, .define _ k, scope => k.holdings scope
  | _, .ret k, scope => k.holdings scope
  | _, .branch yes no k, scope =>
      .code scope (.stmt yes) :: (no.toList.map (fun t => .code scope (.stmt t)) ++ k.holdings scope)
  | _, .loopTest condition body k, scope =>
      .code scope (.stmt (.loop condition body)) :: k.holdings scope
  | _, .superclass name reference methods k, scope =>
      .code scope (.stmt (.classDecl name (some reference) methods)) :: k.holdings scope
  | _, .sequence rest k, scope => rest.map (fun t => .code scope (.stmt t)) ++ k.holdings scope
  | _, .leaveScope outer k, _ => k.holdings outer
  | _, .loopBody condition body k, scope =>
      .code scope (.stmt (.loop condition body)) :: k.holdings scope
  | _, .endBody closure k, scope => .value (.function closure) :: k.holdings scope

/-- What a task holds that is carried out in a scope. -/
def Task.holdings : Task goal → ScopeRef → List Holding
  | .eval e k, scope => .code scope (.expr e) :: k.holdings scope
  | .exec t k, scope => .code scope (.stmt t) :: k.holdings scope
  | .value v k, scope => .value v :: k.holdings scope
  | .flow f k, scope => f.holdings ++ k.holdings scope

end

/-! ## Predicates on holdings -/

/-- Whether all that is stored fulfils a predicate. -/
structure Store.All (P : Holding → Prop) (s : Store) : Prop where
  value : ∀ scope name v, s.local? scope name = some v → P (.value v)
  field : ∀ object name v, s.field? object name = some v → P (.value v)
  cls : ∀ object c, s.class? object = some c → P (.value (.cls c))

/-- Nothing is held before the first source. -/
theorem Store.all_initial (P : Holding → Prop) : Store.initial.All P where
  value scope _ _ h := by cases scope <;> cases h
  field _ _ _ h := by cases h
  cls _ _ h := by cases h

/-- Whether a run goes on after a step. -/
def Step.IsNext {goal : Yield} : Step goal → Prop
  | .next _ _ => True
  | _ => False

/-- Whether all that is held after a step fulfils a predicate. -/
def Step.All {goal : Yield} (P : Holding → Prop) : Step goal → Prop
  | .next task st => st.store.All P ∧ ∀ x ∈ task.holdings st.current, P x
  | .done _ st => st.store.All P
  | .failed _ st => st.store.All P

/-- Whether a value has no code. -/
def Value.IsPlain : Value → Prop
  | function _ => False
  | cls _ => False
  | _ => True

/-- What makes a predicate go on holding in a store to which a step leads: it holds of
values that have no code, of the parts of nodes, and of blocks and bodies in the scopes
that are opened for them. -/
structure Holding.Carries (P : Holding → Prop) (s : Store) : Prop where
  plain : ∀ v : Value, v.IsPlain → P (.value v)
  part : ∀ scope node, P (.code scope node) → ∀ part ∈ node.parts, P (.code scope part)
  block : ∀ scope inner body, P (.code scope (.stmt (.block body))) →
    s.enclosing? inner = some scope → (∀ name, s.local? inner name = none) →
    ∀ t ∈ body, P (.code inner (.stmt t))
  body : ∀ (f : Closure) inner, P (.value (.function f)) → s.enclosing? inner = some f.scope →
    (∀ name, (s.local? inner name).isSome → ∃ p ∈ f.decl.parameters, p.lexeme = name) →
    ∀ t ∈ f.decl.body, P (.code inner (.stmt t))

namespace Store.All

variable {P Q : Holding → Prop} {s s' : Store}

theorem mono (h : s.All P) (hPQ : ∀ x, P x → Q x) : s.All Q :=
  ⟨fun scope name v hv => hPQ _ (h.value scope name v hv),
    fun object name v hv => hPQ _ (h.field object name v hv),
    fun object c hc => hPQ _ (h.cls object c hc)⟩

theorem of_eq (h : s.All P) (hscopes : s'.scopes = s.scopes)
    (hinstances : s'.instances = s.instances) : s'.All P := by
  refine ⟨fun scope name v hv => ?_, fun object name v hv => ?_, fun object c hc => ?_⟩
  · rw [local?_of_scopes_eq hscopes] at hv
    exact h.value scope name v hv
  · rw [field?_of_instances_eq hinstances] at hv
    exact h.field object name v hv
  · rw [class?_of_instances_eq hinstances] at hc
    exact h.cls object c hc

theorem define {scope : ScopeRef} {name : String} {v : Value} (h : s.All P) (hv : P (.value v)) :
    (s.define scope name v).All P := by
  refine ⟨fun target other w hw => ?_, h.field, h.cls⟩
  obtain ⟨-, -, rfl⟩ | hw := of_local?_define hw
  · exact hv
  · exact h.value target other w hw

theorem newScope {bindings : NameMap Value} {enclosing : Option ScopeRef} (h : s.All P)
    (hv : ∀ name v, bindings.get? name = some v → P (.value v)) :
    (s.newScope bindings enclosing).2.All P := by
  refine ⟨fun scope name v hlocal => ?_, h.field, h.cls⟩
  rw [local?_newScope] at hlocal
  split at hlocal
  · exact hv name v hlocal
  · exact h.value scope name v hlocal

theorem newInstance {c : Class} (h : s.All P) (hc : P (.value (.cls c))) :
    (s.newInstance c).2.All P := by
  refine ⟨h.value, fun object name v hv => h.field object name v (of_field?_newInstance hv),
    fun object d hd => ?_⟩
  obtain rfl | hd := of_class?_newInstance hd
  · exact hc
  · exact h.cls object d hd

theorem setField {object : InstanceRef} {name : String} {v : Value} (h : s.All P)
    (hv : P (.value v)) : (s.setField object name v).All P := by
  refine ⟨h.value, fun other field w hw => ?_, fun other d hd => ?_⟩
  · obtain rfl | hw := of_field?_setField hw
    · exact hv
    · exact h.field other field w hw
  · rw [class?_setField] at hd
    exact h.cls other d hd

/-- The scope of a receiver holds an instance. -/
theorem bindMethod {m : Closure} {object : InstanceRef} (h : s.All P)
    (hobject : P (.value (.object object))) : (s.bindMethod m object).2.All P := by
  have hscope : (s.newScope (NameMap.empty.insert Keyword.this.text (.object object))
      (some m.scope)).2.All P := by
    refine h.newScope fun name v hv => ?_
    obtain ⟨-, rfl⟩ := NameMap.get?_single_iff.mp hv
    exact hobject
  exact hscope.of_eq rfl rfl

end Store.All

/-- What making a class leaves in the store. -/
theorem State.newClass_all {P : Holding → Prop} {st : State} {name : Token}
    {superclass : Option Class} {methods : List FunctionDecl} (h : st.store.All P)
    (hsuper : ∀ c ∈ superclass, P (.value (.cls c))) :
    (st.newClass name superclass methods).2.store.All P := by
  cases superclass with
  | none =>
    exact h.of_eq (scopes_newMethods st.store st.current methods)
      (instances_newMethods st.store st.current methods)
  | some c =>
    have hscope : (st.store.newScope (NameMap.empty.insert Keyword.super.text (.cls c))
        (some st.current)).2.All P := by
      refine h.newScope fun other v hv => ?_
      obtain ⟨-, rfl⟩ := NameMap.get?_single_iff.mp hv
      exact hsuper c rfl
    exact hscope.of_eq (scopes_newMethods _ _ methods) (instances_newMethods _ _ methods)

/-! ## Steps -/

section

variable {P : Holding → Prop} {goal : Yield} {st : State} {task task' : Task goal}

/-- Who calls holds what is called, and what it is called with. -/
theorem Task.Calls.holdings {called : Value} {closing : Token} {arguments : List Value}
    {k : Cont goal .value} {scope : ScopeRef} (hcalls : task.Calls called closing arguments k)
    (h : ∀ x ∈ task.holdings scope, P x) :
    P (.value called) ∧ (∀ v ∈ arguments, P (.value v)) ∧ ∀ x ∈ k.holdings scope, P x := by
  cases hcalls with
  | plain =>
    obtain ⟨hcalled, hk⟩ := List.forall_mem_cons.mp h
    exact ⟨hcalled, List.forall_mem_nil _, hk⟩
  | last v called closing done k =>
    simp only [Task.holdings, Cont.holdings, List.forall_mem_cons, List.forall_mem_append,
      List.forall_mem_map] at h
    obtain ⟨hv, hcalled, hdone, -, hk⟩ := h
    have hall : ∀ w ∈ v :: done, P (.value w) := List.forall_mem_cons.mpr ⟨hv, hdone⟩
    exact ⟨hcalled, fun w hw => hall w (List.mem_reverse.mp hw), hk⟩

/-- What a task is taken apart to holds its parts, and values that have been held. -/
theorem Task.Unfolds.holdings (hunfolds : task.Unfolds st task') (h : st.store.All P)
    (hcarries : Holding.Carries P st.store) (htask : ∀ x ∈ task.holdings st.current, P x) :
    ∀ x ∈ task'.holdings st.current, P x := by
  have hnil : P (.value .nil) := hcarries.plain _ trivial
  have hbool (b : Bool) : P (.value (.bool b)) := hcarries.plain _ trivial
  have hnumber (x : Float) : P (.value (.number x)) := hcarries.plain _ trivial
  have htext (text : String) : P (.value (.string text)) := hcarries.plain _ trivial
  cases hunfolds with
  | literal v k =>
    have hv : P (.value (.ofLiteral v)) := by cases v <;> exact hcarries.plain _ trivial
    exact List.forall_mem_cons.mpr ⟨hv, (List.forall_mem_cons.mp htask).2⟩
  | «variable» k hv | receiver k hv =>
    obtain ⟨scope, hheld⟩ := State.local?_of_read hv
    exact List.forall_mem_cons.mpr ⟨h.value scope _ _ hheld, (List.forall_mem_cons.mp htask).2⟩
  | grouping inner k | unary op operator operand k | assign target value k | get object name k
  | expression value k | print value k | varDecl name initializer k | ret keyword value k =>
    obtain ⟨hnode, hk⟩ := List.forall_mem_cons.mp htask
    exact List.forall_mem_cons.mpr ⟨hcarries.part _ _ hnode _ List.mem_cons_self, hk⟩
  | binary op operator left right k | logical op operator left right k
  | set object name value k =>
    obtain ⟨hnode, hk⟩ := List.forall_mem_cons.mp htask
    have hparts := hcarries.part _ _ hnode
    simp only [Node.parts, List.forall_mem_cons] at hparts
    exact List.forall_mem_cons.mpr ⟨hparts.1, List.forall_mem_cons.mpr ⟨hparts.2.1, hk⟩⟩
  | call callee closing arguments k =>
    obtain ⟨hnode, hk⟩ := List.forall_mem_cons.mp htask
    have hparts := hcarries.part _ _ hnode
    simp only [Node.parts, List.forall_mem_cons, List.forall_mem_map] at hparts
    exact List.forall_mem_cons.mpr ⟨hparts.1,
      List.forall_mem_append.mpr ⟨List.forall_mem_map.mpr hparts.2, hk⟩⟩
  | branch condition yes no k =>
    obtain ⟨hnode, hk⟩ := List.forall_mem_cons.mp htask
    have hparts := hcarries.part _ _ hnode
    cases no with
    | none =>
      simp only [Node.parts, List.forall_mem_cons] at hparts
      obtain ⟨hcondition, hyes, -⟩ := hparts
      exact List.forall_mem_cons.mpr ⟨hcondition, List.forall_mem_cons.mpr ⟨hyes, hk⟩⟩
    | some no =>
      simp only [Node.parts, List.forall_mem_cons] at hparts
      obtain ⟨hcondition, hyes, hno, -⟩ := hparts
      exact List.forall_mem_cons.mpr ⟨hcondition,
        List.forall_mem_cons.mpr ⟨hyes, List.forall_mem_cons.mpr ⟨hno, hk⟩⟩⟩
  | loop condition body k =>
    have hnode := (List.forall_mem_cons.mp htask).1
    exact List.forall_mem_cons.mpr ⟨hcarries.part _ _ hnode _ List.mem_cons_self, htask⟩
  | retNothing keyword k =>
    exact List.forall_mem_cons.mpr ⟨hnil, (List.forall_mem_cons.mp htask).2⟩
  | operated k hw =>
    have hv := UnaryOp.of_apply (P := fun v => P (.value v)) hw hbool hnumber
    exact List.forall_mem_cons.mpr ⟨hv, (List.forall_mem_cons.mp htask).2⟩
  | left op operator right v k | object object name value k | callee v closing first rest k =>
    obtain ⟨hv, hrest⟩ := List.forall_mem_cons.mp htask
    obtain ⟨hnext, hrest⟩ := List.forall_mem_cons.mp hrest
    exact List.forall_mem_cons.mpr ⟨hnext, List.forall_mem_cons.mpr ⟨hv, hrest⟩⟩
  | combined k hw =>
    have hv := BinaryOp.of_apply (P := fun v => P (.value v)) hw hbool hnumber htext
    obtain ⟨-, hrest⟩ := List.forall_mem_cons.mp htask
    exact List.forall_mem_cons.mpr ⟨hv, (List.forall_mem_cons.mp hrest).2⟩
  | decided right k hdecided =>
    obtain ⟨hv, hrest⟩ := List.forall_mem_cons.mp htask
    exact List.forall_mem_cons.mpr ⟨hv, (List.forall_mem_cons.mp hrest).2⟩
  | field k hfield =>
    have hv := h.field _ _ _ (Store.field?_of_property? hfield)
    exact List.forall_mem_cons.mpr ⟨hv, (List.forall_mem_cons.mp htask).2⟩
  | argument v called closing done next rest k =>
    simp only [Task.holdings, Cont.holdings, List.forall_mem_cons, List.forall_mem_append,
      List.forall_mem_map, List.map_cons] at htask ⊢
    obtain ⟨hv, hcalled, hdone, ⟨hnext, hrest⟩, hk⟩ := htask
    exact ⟨hnext, hcalled, ⟨hv, hdone⟩, hrest, hk⟩
  | undecided right k hdecided | constructed v object k | discarded v k =>
    exact (List.forall_mem_cons.mp htask).2
  | returned v k => exact htask
  | yes yes no k htruthy =>
    obtain ⟨-, hrest⟩ := List.forall_mem_cons.mp htask
    obtain ⟨hyes, hrest⟩ := List.forall_mem_cons.mp hrest
    exact List.forall_mem_cons.mpr ⟨hyes, (List.forall_mem_append.mp hrest).2⟩
  | no yes no k htruthy | neither yes k htruthy =>
    obtain ⟨-, hrest⟩ := List.forall_mem_cons.mp htask
    exact (List.forall_mem_cons.mp hrest).2
  | goesRound condition body k htruthy =>
    obtain ⟨-, hrest⟩ := List.forall_mem_cons.mp htask
    have hloop := (List.forall_mem_cons.mp hrest).1
    have hbody := hcarries.part _ _ hloop (.stmt body) (by simp [Node.parts])
    exact List.forall_mem_cons.mpr ⟨hbody, hrest⟩
  | isOver condition body k htruthy =>
    obtain ⟨-, hrest⟩ := List.forall_mem_cons.mp htask
    exact (List.forall_mem_cons.mp hrest).2
  | finished f k | first s rest k => exact htask
  | skipped v s rest k =>
    obtain ⟨hv, hrest⟩ := List.forall_mem_append.mp htask
    exact List.forall_mem_append.mpr ⟨hv, (List.forall_mem_append.mp hrest).2⟩
  | tests condition body k =>
    have hloop := (List.forall_mem_cons.mp htask).1
    exact List.forall_mem_cons.mpr ⟨hcarries.part _ _ hloop _ List.mem_cons_self, htask⟩
  | leavesLoop v condition body k =>
    obtain ⟨hv, hrest⟩ := List.forall_mem_append.mp htask
    exact List.forall_mem_append.mpr ⟨hv, (List.forall_mem_cons.mp hrest).2⟩
  | results f closure k =>
    obtain ⟨hf, hrest⟩ := List.forall_mem_append.mp htask
    have hresult : P (.value (Machine.bodyResult closure f st)) :=
      Machine.of_bodyResult (P := fun v => P (.value v)) hnil h.value fun v hv => by
        rw [hv] at hf
        exact hf _ (List.mem_singleton_self _)
    exact List.forall_mem_cons.mpr ⟨hresult, (List.forall_mem_cons.mp hrest).2⟩

end

namespace Machine

variable {P : Holding → Prop} {goal : Yield} {st : State}

theorem enterBody_all {f : Closure} {arguments : List Value} {k : Cont goal .value}
    (h : st.store.All P) (hcarries : Holding.Carries P (enterBody f arguments k st).state.store)
    (hf : P (.value (.function f))) (harguments : ∀ v ∈ arguments, P (.value v))
    (hk : ∀ x ∈ k.holdings st.current, P x) : (enterBody f arguments k st).All P := by
  refine ⟨h.newScope fun name v hv => harguments v (NameMap.of_get?_ofArguments hv).2, ?_⟩
  have hbody : ∀ t ∈ f.decl.body, P (.code st.store.scopes.size (.stmt t)) := by
    refine hcarries.body f _ hf ?_ fun name hname => ?_
    · exact Store.enclosing?_newScope.trans (if_pos rfl)
    · obtain ⟨v, hv⟩ := Option.isSome_iff_exists.mp hname
      rw [enterBody, Step.state, State.enter, Store.local?_newScope, if_pos rfl] at hv
      exact (NameMap.of_get?_ofArguments hv).1
  simp only [Task.holdings, Flow.holdings, Cont.holdings, List.nil_append, List.forall_mem_append,
    List.forall_mem_map, List.forall_mem_cons]
  exact ⟨hbody, hf, hk⟩

theorem Rule.all {limit : Nat} {task : Task goal} {step : Step goal}
    (hrule : Rule limit st task step) (h : st.store.All P)
    (hcarries : Holding.Carries P step.state.store)
    (hmade : step.IsNext → ∀ event ∈ task.event? st, P (.value event.value))
    (htask : ∀ x ∈ task.holdings st.current, P x) : step.All P := by
  have hnil : P (.value .nil) := hcarries.plain _ trivial
  have hobject (object : InstanceRef) : P (.value (.object object)) := hcarries.plain _ trivial
  cases hrule with
  | halts outcome => exact h
  | fails hfails =>
    rw [Step.All, Task.store_unwind]
    exact h
  | failsBase name methods k hnone =>
    rw [Step.All, Cont.store_unwind]
    exact h.define hnil
  | unfolds hunfolds => exact ⟨h, hunfolds.holdings h hcarries htask⟩
  | varDecl name k => exact ⟨h.define hnil, (List.forall_mem_cons.mp htask).2⟩
  | define v name k =>
    obtain ⟨hv, hk⟩ := List.forall_mem_cons.mp htask
    exact ⟨h.define hv, hk⟩
  | funDecl d k =>
    have hclosure : (st.store.newClosure d st.current false).2.All P := h.of_eq rfl rfl
    exact ⟨hclosure.define (hmade trivial _ rfl), (List.forall_mem_cons.mp htask).2⟩
  | subclass name reference methods k =>
    have hnode := (List.forall_mem_cons.mp htask).1
    exact ⟨h.define hnil,
      List.forall_mem_cons.mpr ⟨hcarries.part _ _ hnode _ List.mem_cons_self, htask⟩⟩
  | base name methods k howner =>
    have hclass : ((st.define name .nil).newClass name none methods).2.store.All P :=
      State.newClass_all (h.define hnil) nofun
    exact ⟨hclass.define (hmade trivial _ rfl), (List.forall_mem_cons.mp htask).2⟩
  | derived c name reference methods k howner =>
    obtain ⟨hc, hrest⟩ := List.forall_mem_cons.mp htask
    have hclass : (st.newClass name (some c) methods).2.store.All P :=
      State.newClass_all h fun d hd => Option.mem_some.mp hd ▸ hc
    exact ⟨hclass.define (hmade trivial _ rfl), (List.forall_mem_cons.mp hrest).2⟩
  | assign v target k howner => exact ⟨h.define (List.forall_mem_cons.mp htask).1, htask⟩
  | setField v object name k =>
    obtain ⟨hv, hrest⟩ := List.forall_mem_cons.mp htask
    exact ⟨h.setField hv, List.forall_mem_cons.mpr ⟨hv, (List.forall_mem_cons.mp hrest).2⟩⟩
  | inherited target method k hfound hm =>
    rw [Task.event?_of_inherited hfound hm] at hmade
    exact ⟨h.bindMethod (hobject _),
      List.forall_mem_cons.mpr ⟨hmade trivial _ rfl, (List.forall_mem_cons.mp htask).2⟩⟩
  | method object name k hfound =>
    rw [Task.event?_of_method hfound] at hmade
    exact ⟨h.bindMethod (hobject _),
      List.forall_mem_cons.mpr ⟨hmade trivial _ rfl, (List.forall_mem_cons.mp htask).2⟩⟩
  | print v k => exact ⟨h, (List.forall_mem_cons.mp htask).2⟩
  | block body k =>
    obtain ⟨hnode, hk⟩ := List.forall_mem_cons.mp htask
    have hscope : (st.store.newScope .empty (some st.current)).2.All P := h.newScope nofun
    have hbody := hcarries.block _ st.store.scopes.size body hnode
      (Store.enclosing?_newScope.trans (if_pos rfl))
      fun name => Store.local?_newScope.trans (if_pos rfl)
    have hsequence : ∀ x ∈ (Cont.sequence body (.leaveScope st.current k)).holdings
        st.store.scopes.size, P x :=
      List.forall_mem_append.mpr ⟨List.forall_mem_map.mpr hbody, hk⟩
    exact ⟨hscope, hsequence⟩
  | leaveScope f outer k => exact ⟨h, htask⟩
  | function closure arguments k hcalls harity hlt =>
    obtain ⟨hclosure, harguments, hk⟩ := hcalls.holdings htask
    exact enterBody_all (k := .endCall k) h hcarries hclosure harguments hk
  | newInstance c k hcalls hlt hm =>
    obtain ⟨hc, -, hk⟩ := hcalls.holdings htask
    exact ⟨h.newInstance hc, List.forall_mem_cons.mpr ⟨hobject _, hk⟩⟩
  | initializer c m arguments k hcalls harity hlt hm =>
    obtain ⟨hc, harguments, hk⟩ := hcalls.holdings htask
    rw [hcalls.event?_eq, Store.construction?_of_initializer hm] at hmade
    exact enterBody_all ((h.newInstance hc).bindMethod (hobject _)) hcarries (hmade trivial _ rfl)
      harguments (List.forall_mem_cons.mpr ⟨hobject _, hk⟩)
  | endCall v k => exact ⟨h, htask⟩

/-- What a step does to holdings: if all that is held fulfils a predicate that carries on,
and so does what comes into being, then all that is held afterwards fulfils it. -/
theorem step_all {limit : Nat} {task : Task goal} (h : st.store.All P)
    (hcarries : Holding.Carries P (step limit task st).state.store)
    (hmade : (step limit task st).IsNext → ∀ event ∈ task.event? st, P (.value event.value))
    (htask : ∀ x ∈ task.holdings st.current, P x) : (step limit task st).All P :=
  (step_rule limit task st).all h hcarries hmade htask

end Machine

end Lox
