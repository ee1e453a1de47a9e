import Lox.Proofs.Guise.States

/-!
# Steps in another guise

Two machines whose states correspond, and whose tasks are alike, take steps after which
this is still so, or both fail with errors that are alike. The first may come to its end
where the other has to leave the scope around its program before it ends.

## Implementation notes

A continuation is alike for the marks of the scopes in which it will be resumed. Where a
scope is left these are others, so the continuation says which. The name of a class is
looked up when the class is made, and then it is found in the current scope; that it is
there is known because machines are sound.
-/

namespace Lox

/-! ## Tasks -/

/-- What the other machine has to do when the first one is at the end. -/
def Guise.last (G : Guise) : Cont .flow .flow :=
  if G.wrapped then .leaveScope Store.globals (.sequence [] .halt) else .halt

section

variable (G : Guise) (s : Store) (M : Marks)

/-- Continuations that are alike. -/
inductive Cont.Alike : {y : Yield} → List Bool → Cont .flow y → Cont .flow y → Prop
  | halt : Alike [] .halt G.last
  | unary {K : List Bool} (op : UnaryOp) (operator : Token) {k k' : Cont .flow .value}
      (hk : Alike K k k') : Alike K (.unary op operator k) (.unary op operator k')
  | binaryLeft {K : List Bool} (op : BinaryOp) (operator : Token) {e e' : Expr}
      {k k' : Cont .flow .value} (he : e.Alike G K e') (hk : Alike K k k') :
      Alike K (.binaryLeft op operator e k) (.binaryLeft op operator e' k')
  | binaryRight {K : List Bool} (op : BinaryOp) (operator : Token) {v v' : Value}
      {k k' : Cont .flow .value} (hv : v.Alike G s M v') (hk : Alike K k k') :
      Alike K (.binaryRight op operator v k) (.binaryRight op operator v' k')
  | logical {K : List Bool} (op : LogicalOp) {e e' : Expr} {k k' : Cont .flow .value}
      (he : e.Alike G K e') (hk : Alike K k k') : Alike K (.logical op e k) (.logical op e' k')
  | assign {K : List Bool} {r r' : Reference} {k k' : Cont .flow .value} (hr : G.Refers K r r')
      (hk : Alike K k k') : Alike K (.assign r k) (.assign r' k')
  | get {K : List Bool} (name : Token) {k k' : Cont .flow .value} (hk : Alike K k k') :
      Alike K (.get name k) (.get name k')
  | setObject {K : List Bool} (name : Token) {e e' : Expr} {k k' : Cont .flow .value}
      (he : e.Alike G K e') (hk : Alike K k k') :
      Alike K (.setObject name e k) (.setObject name e' k')
  | setValue {K : List Bool} (object : InstanceRef) (name : Token) {k k' : Cont .flow .value}
      (hk : Alike K k k') : Alike K (.setValue object name k) (.setValue object name k')
  | callee {K : List Bool} (closing : Token) {es es' : List Expr} {k k' : Cont .flow .value}
      (hes : List.Forall₂ (Expr.Alike G K) es es') (hk : Alike K k k') :
      Alike K (.callee closing es k) (.callee closing es' k')
  | argument {K : List Bool} {v v' : Value} (closing : Token) {vs vs' : List Value}
      {es es' : List Expr} {k k' : Cont .flow .value} (hv : v.Alike G s M v')
      (hvs : List.Forall₂ (Value.Alike G s M) vs vs')
      (hes : List.Forall₂ (Expr.Alike G K) es es') (hk : Alike K k k') :
      Alike K (.argument v closing vs es k) (.argument v' closing vs' es' k')
  | construct {K : List Bool} (object : InstanceRef) {k k' : Cont .flow .value}
      (hk : Alike K k k') : Alike K (.construct object k) (.construct object k')
  | endCall {K : List Bool} {k k' : Cont .flow .value} (hk : Alike K k k') :
      Alike K (.endCall k) (.endCall k')
  | discard {K : List Bool} {k k' : Cont .flow .flow} (hk : Alike K k k') :
      Alike K (.discard k) (.discard k')
  | print {K : List Bool} {k k' : Cont .flow .flow} (hk : Alike K k k') :
      Alike K (.print k) (.print k')
  | define {K : List Bool} (name : Token) {k k' : Cont .flow .flow} (hk : Alike K k k') :
      Alike K (.define name k) (.define (G.declared K name) k')
  | ret {K : List Bool} {k k' : Cont .flow .flow} (hk : Alike K k k') :
      Alike K (.ret k) (.ret k')
  | branch {K : List Bool} {yes yes' : Stmt} {k k' : Cont .flow .flow}
      (hyes : yes.Alike G K yes') (hk : Alike K k k') :
      Alike K (.branch yes none k) (.branch yes' none k')
  | branchElse {K : List Bool} {yes yes' no no' : Stmt} {k k' : Cont .flow .flow}
      (hyes : yes.Alike G K yes') (hno : no.Alike G K no') (hk : Alike K k k') :
      Alike K (.branch yes (some no) k) (.branch yes' (some no') k')
  | loopTest {K : List Bool} {e e' : Expr} {body body' : Stmt} {k k' : Cont .flow .flow}
      (he : e.Alike G K e') (hbody : body.Alike G K body') (hk : Alike K k k') :
      Alike K (.loopTest e body k) (.loopTest e' body' k')
  | superclass {K : List Bool} {name : Token} {r r' : Reference} {ds ds' : List FunctionDecl}
      {k k' : Cont .flow .flow} (hname : G.declared K name = name) (hr : G.Refers K r r')
      (hds : FunctionDecl.AreAlike G (false :: false :: K) ds ds') (hk : Alike K k k') :
      Alike K (.superclass name r ds k) (.superclass name r' ds' k')
  | sequence {K : List Bool} {ss ss' : List Stmt} {k k' : Cont .flow .flow}
      (hss : Stmt.AreAlike G K ss ss') (hk : Alike K k k') :
      Alike K (.sequence ss k) (.sequence ss' k')
  | leaveScope {K L : List Bool} {outer : ScopeRef} {k k' : Cont .flow .flow}
      (hL : s.Marked M outer L) (hk : Alike L k k') :
      Alike K (.leaveScope outer k) (.leaveScope (outer + G.shift) k')
  | loopBody {K : List Bool} {e e' : Expr} {body body' : Stmt} {k k' : Cont .flow .flow}
      (he : e.Alike G K e') (hbody : body.Alike G K body') (hk : Alike K k k') :
      Alike K (.loopBody e body k) (.loopBody e' body' k')
  | endBody {K : List Bool} {c c' : Closure} {k k' : Cont .flow .value}
      (hc : c.Alike G s M [] c') (hk : Alike K k k') : Alike K (.endBody c k) (.endBody c' k')

/-- Tasks that are alike. -/
inductive Task.Alike (K : List Bool) : Task .flow → Task .flow → Prop
  | eval {e e' : Expr} {k k' : Cont .flow .value} (he : e.Alike G K e') (hk : k.Alike G s M K k') :
      Alike K (.eval e k) (.eval e' k')
  | exec {t t' : Stmt} {k k' : Cont .flow .flow} (ht : t.Alike G K t') (hk : k.Alike G s M K k') :
      Alike K (.exec t k) (.exec t' k')
  | value {v v' : Value} {k k' : Cont .flow .value} (hv : v.Alike G s M v')
      (hk : k.Alike G s M K k') : Alike K (.value v k) (.value v' k')
  | flow {f f' : Flow} {k k' : Cont .flow .flow} (hf : f.Alike G s M f')
      (hk : k.Alike G s M K k') : Alike K (.flow f k) (.flow f' k')

end

/-- Machines that have tasks that are alike, in states that correspond. -/
def Machine.Alike (G : Guise) (task : Task .flow) (st : State) (task' : Task .flow)
    (st' : State) : Prop :=
  ∃ M K, st.Alike G M K st' ∧ task.Alike G st.store M K task'

/-- Steps that lead to machines that are alike, or fail alike after the same output. -/
inductive Step.Alike (G : Guise) : Step .flow → Step .flow → Prop
  | next {task task' : Task .flow} {st st' : State} (h : Machine.Alike G task st task' st') :
      Alike G (.next task st) (.next task' st')
  | failed {e e' : RuntimeError} {st st' : State} (he : G.Errs e e')
      (houtput : st'.output = st.output) : Alike G (.failed e st) (.failed e' st')

/-- The name of the class that is made as soon as its superclass is there. -/
def Cont.class? {y : Yield} : Cont .flow y → Option Token
  | .superclass name _ _ _ => some name
  | _ => none

variable {G : Guise} {s t : Store} {M N : Marks} {K : List Bool}

/-- A continuation stays alike while the stores grow. -/
theorem Cont.Alike.prolong {y : Yield} {k k' : Cont .flow y} (h : k.Alike G s M K k')
    (hs : s.Prolongs M t N) : k.Alike G t N K k' := by
  induction h with
  | halt => exact .halt
  | unary op operator _ ih => exact .unary op operator ih
  | binaryLeft op operator he _ ih => exact .binaryLeft op operator he ih
  | binaryRight op operator hv _ ih => exact .binaryRight op operator (hv.prolong hs) ih
  | logical op he _ ih => exact .logical op he ih
  | assign hr _ ih => exact .assign hr ih
  | get name _ ih => exact .get name ih
  | setObject name he _ ih => exact .setObject name he ih
  | setValue object name _ ih => exact .setValue object name ih
  | callee closing hes _ ih => exact .callee closing hes ih
  | argument closing hv hvs hes _ ih =>
    exact .argument closing (hv.prolong hs) (hvs.imp fun _ _ hv => hv.prolong hs) hes ih
  | construct object _ ih => exact .construct object ih
  | endCall _ ih => exact .endCall ih
  | discard _ ih => exact .discard ih
  | print _ ih => exact .print ih
  | define name _ ih => exact .define name ih
  | ret _ ih => exact .ret ih
  | branch hyes _ ih => exact .branch hyes ih
  | branchElse hyes hno _ ih => exact .branchElse hyes hno ih
  | loopTest he hbody _ ih => exact .loopTest he hbody ih
  | superclass hname hr hds _ ih => exact .superclass hname hr hds ih
  | sequence hss _ ih => exact .sequence hss ih
  | leaveScope hL _ ih => exact .leaveScope (hL.prolong hs) ih
  | loopBody he hbody _ ih => exact .loopBody he hbody ih
  | endBody hc _ ih => exact .endBody (hc.prolong hs) ih

namespace Machine

variable {st st' : State}

/-! ## Calls -/

theorem fail_alike {y : Yield} {k k' : Cont .flow y} {cause cause' : RuntimeCause}
    {token token' : Token} (h : st.Alike G M K st') (he : G.Errs ⟨cause, token⟩ ⟨cause', token'⟩) :
    (fail cause token k st).Alike G (fail cause' token' k' st') := by
  refine .failed he ?_
  rw [Cont.output_unwind, Cont.output_unwind, h.output]

theorem next_alike {task task' : Task .flow} (h : st.Alike G M K st')
    (htask : task.Alike G st.store M K task') : (Step.next task st).Alike G (.next task' st') :=
  .next ⟨M, K, h, htask⟩

theorem yieldFound_alike {found found' : Option Value} {name name' : Token}
    {k k' : Cont .flow .value} (h : st.Alike G M K st')
    (hfound : Option.Rel (Value.Alike G st.store M) found found') (hname : G.Spells name name')
    (hk : k.Alike G st.store M K k') :
    (yieldFound found name k st).Alike G (yieldFound found' name' k' st') := by
  cases hfound with
  | none => exact fail_alike h (.undefined hname)
  | some hv => exact next_alike h (.value hv hk)

theorem yieldResult_alike {result result' : Except RuntimeCause Value} (operator : Token)
    {k k' : Cont .flow .value} (h : st.Alike G M K st')
    (hresult : AlikeResults G st.store M result result') (hk : k.Alike G st.store M K k') :
    (yieldResult result operator k st).Alike G (yieldResult result' operator k' st') := by
  cases hresult with
  | error cause => exact fail_alike h (.blamed cause (.same operator))
  | ok hv => exact next_alike h (.value hv hk)

/-- Arguments are held under the names of the parameters, as these are told. -/
theorem get?_ofArguments_alike {b : Bool} (parameters : List Token) {vs vs' : List Value}
    (hvs : List.Forall₂ (Value.Alike G s M) vs vs') (name : String) :
    Option.Rel (Value.Alike G s M) ((NameMap.ofArguments parameters vs).get? name)
      ((NameMap.ofArguments (parameters.map (G.token b)) vs').get? (G.name b name)) := by
  have hfold (m m' : NameMap Value) (hm : ∀ name, Option.Rel (Value.Alike G s M) (m.get? name)
      (m'.get? (G.name b name))) :
      Option.Rel (Value.Alike G s M)
        (((parameters.zip vs).foldl (fun m p => m.insert p.1.lexeme p.2) m).get? name)
        ((((parameters.map (G.token b)).zip vs').foldl (fun m p => m.insert p.1.lexeme p.2)
          m').get? (G.name b name)) := by
    induction parameters generalizing m m' vs vs' with
    | nil => exact hm name
    | cons p parameters ih =>
      cases hvs with
      | nil => exact hm name
      | @cons v v' vs vs' hv hvs =>
        refine ih hvs _ _ fun other => ?_
        simp only [NameMap.get?_insert, Guise.lexeme_token, (Guise.name_injective b).eq_iff]
        split
        · exact .some hv
        · exact hm other
  exact hfold .empty .empty fun _ => .none

/-- The body of a function starts in scopes that correspond. -/
theorem enterBody_alike {c c' : Closure} {vs vs' : List Value} {k k' : Cont .flow .value}
    (h : st.Alike G M K st') (hc : c.Alike G st.store M [] c')
    (hvs : List.Forall₂ (Value.Alike G st.store M) vs vs') (hk : k.Alike G st.store M K k') :
    (enterBody c vs k st).Alike G (enterBody c' vs' k' st') := by
  obtain ⟨L, hL, hdecl⟩ := hc.decl
  obtain ⟨b, hparameters, hbody⟩ := hdecl.body
  have hvalue := get?_ofArguments_alike (b := b) c.decl.parameters hvs
  rw [← hparameters] at hvalue
  obtain ⟨N, henter, hs⟩ := h.enter hL b hvalue
  rw [← hc.scope] at henter
  refine next_alike henter (.flow .normal (.sequence hbody ?_))
  rw [h.current]
  exact .leaveScope (h.marked.prolong hs) (.endBody (hc.prolong hs) (hk.prolong hs))

theorem instantiate_alike {c c' : Class} {vs vs' : List Value} {k k' : Cont .flow .value}
    (h : st.Alike G M K st') (hc : c.Alike G st.store M c')
    (hvs : List.Forall₂ (Value.Alike G st.store M) vs vs') (hk : k.Alike G st.store M K k') :
    (instantiate c vs k st).Alike G (instantiate c' vs' k' st') := by
  have hs : st.store.Prolongs M (st.store.newInstance c).2 M := .of_scopes_eq rfl
  have hnew := h.of_store (h.store.newInstance hc) hs
  have hobject : (st'.store.newInstance c').1 = (st.store.newInstance c).1 := h.store.count
  have hmethod := hc.method? initializerName
  rw [instantiate, instantiate]
  simp only [hobject]
  generalize c.method? initializerName = m at hmethod ⊢
  generalize c'.method? initializerName = m' at hmethod ⊢
  cases hmethod with
  | none => exact next_alike hnew (.value (.object _) (hk.prolong hs))
  | some hm =>
    obtain ⟨N, hs', hstore, hbound⟩ :=
      hnew.store.bindMethod (hm.prolong hs) (st.store.newInstance c).1
    have hall := hs.trans hs'
    exact enterBody_alike (hnew.of_store hstore hs') hbound
      (hvs.imp fun _ _ hv => hv.prolong hall) (.construct _ (hk.prolong hall))

theorem call_alike {limit : Nat} {v v' : Value} (closing : Token) {vs vs' : List Value}
    {k k' : Cont .flow .value} (h : st.Alike G M K st') (hv : v.Alike G st.store M v')
    (hvs : List.Forall₂ (Value.Alike G st.store M) vs vs') (hk : k.Alike G st.store M K k') :
    (call limit v closing vs k st).Alike G (call limit v' closing vs' k' st') := by
  have hopen : State.Alike G M K { st with calls := st.calls + 1 }
      { st' with calls := st'.calls + 1 } :=
    ⟨h.store, h.current, h.marked, h.table, h.table', congrArg Nat.succ h.calls, h.output⟩
  rw [call, call, hv.arity?, hvs.length_eq, h.calls]
  cases arity? v with
  | none => exact fail_alike h (.blamed _ (.same closing))
  | some arity =>
    dsimp only
    split
    · exact fail_alike h (.blamed _ (.same closing))
    split
    · exact fail_alike h (.blamed _ (.same closing))
    rw [h.calls] at hopen
    cases hv with
    | function hc => exact enterBody_alike hopen hc hvs (.endCall hk)
    | cls hc => exact instantiate_alike hopen hc hvs (.endCall hk)
    | _ => exact fail_alike hopen (.blamed _ (.same closing))

/-! ## Kinds of tasks -/

/-- A class is made and assigned to its name, which the current scope has. -/
theorem defineClass_alike {name : Token} {superclass superclass' : Option Class}
    {ds ds' : List FunctionDecl} {k k' : Cont .flow .flow} (h : st.Alike G M K st')
    (hname : G.declared K name = name) (hlocal : (st.store.local? st.current name.lexeme).isSome)
    (hnew : ∃ N, (st.newClass name superclass ds).2.Alike G N K
        (st'.newClass name superclass' ds').2 ∧
      st.store.Prolongs M (st.newClass name superclass ds).2.store N ∧
      (st.newClass name superclass ds).1.Alike G (st.newClass name superclass ds).2.store N
        (st'.newClass name superclass' ds').1) (hk : k.Alike G st.store M K k') :
    (defineClass name superclass ds k st).Alike G (defineClass name superclass' ds' k' st') := by
  obtain ⟨N, hstate, hs, hc⟩ := hnew
  have hlexeme : name.lexeme = G.name (M st.current) name.lexeme := by
    rw [h.marked.mark h.store.plain]
    exact (congrArg Token.lexeme hname).symm
  have hlocal' : (st'.store.local? st'.current name.lexeme).isSome := by
    have hvalue := h.store.local? st.current name.lexeme
    rw [← hlexeme, ← h.current] at hvalue
    rw [optionRel_isSome hvalue]
    exact hlocal
  have hmark : N st.current = M st.current := hs.marks _ (h.marked.lt h.store.pos)
  obtain ⟨hwrite, hs'⟩ := hstate.write (hmark ▸ hlexeme) (.cls hc)
  rw [← h.current] at hwrite
  rw [defineClass, defineClass, Store.owner?_of_local? hlocal, Store.owner?_of_local? hlocal']
  exact next_alike hwrite (.flow .normal (hk.prolong (hs.trans hs')))

theorem eval_alike {e e' : Expr} {k k' : Cont .flow .value} (h : st.Alike G M K st')
    (he : e.Alike G K e') (hk : k.Alike G st.store M K k') :
    (eval e k st).Alike G (eval e' k' st') := by
  cases he with
  | literal value => exact next_alike h (.value (.of_literal value) hk)
  | «variable» hr => exact yieldFound_alike h (h.read hr) hr.spells hk
  | receiver hr => exact yieldFound_alike h (h.read hr) hr.spells hk
  | @inherited id id' d name method hd hd' hlt =>
    obtain ⟨cause, hcause, hcause'⟩ | ⟨c, c', receiver, hok, hok', hc⟩ :=
      h.inheritance ⟨id, name⟩ ⟨id', name⟩ hd hd' hlt
    · rw [eval, eval, hcause, hcause']
      exact fail_alike h (.blamed cause (.same name))
    · have hmethod := hc.method? method.lexeme
      rw [eval, eval, hok, hok']
      dsimp only
      generalize c.method? method.lexeme = m at hmethod ⊢
      generalize c'.method? method.lexeme = m' at hmethod ⊢
      cases hmethod with
      | none => exact fail_alike h (.blamed _ (.same method))
      | some hm =>
        obtain ⟨N, hbind, hs, hbound⟩ := h.bind hm receiver
        exact next_alike hbind (.value hbound (hk.prolong hs))
  | grouping he => exact next_alike h (.eval he hk)
  | unary op operator he => exact next_alike h (.eval he (.unary op operator hk))
  | binary op operator hl hr => exact next_alike h (.eval hl (.binaryLeft op operator hr hk))
  | logical op operator hl hr => exact next_alike h (.eval hl (.logical op hr hk))
  | assign hr he => exact next_alike h (.eval he (.assign hr hk))
  | get ho name => exact next_alike h (.eval ho (.get name hk))
  | set ho name he => exact next_alike h (.eval ho (.setObject name he hk))
  | call hc closing hes => exact next_alike h (.eval hc (.callee closing hes hk))

theorem exec_alike {t t' : Stmt} {k k' : Cont .flow .flow} (h : st.Alike G M K st')
    (ht : t.Alike G K t') (hk : k.Alike G st.store M K k') :
    (exec t k st).Alike G (exec t' k' st') := by
  have hlt : st.current < st.store.scopes.size := h.marked.lt h.store.pos
  cases ht with
  | expression he => exact next_alike h (.eval he (.discard hk))
  | print he => exact next_alike h (.eval he (.print hk))
  | varDecl _ name =>
    obtain ⟨hdefine, hs⟩ := h.define name .nil
    exact next_alike hdefine (.flow .normal (hk.prolong hs))
  | initialized name he => exact next_alike h (.eval he (.define name hk))
  | funDecl hname hd =>
    obtain ⟨hdefine, hs⟩ := h.defineFunction hname hd
    exact next_alike hdefine (.flow .normal (hk.prolong hs))
  | @baseClass _ name ds ds' hname hds =>
    obtain ⟨hdefine, hs⟩ := h.define name .nil
    rw [hname] at hdefine
    have hlocal : ((st.define name .nil).store.local? st.current name.lexeme).isSome := by
      rw [State.define, Store.local?_define_self hlt]
      rfl
    exact defineClass_alike hdefine hname hlocal (hdefine.newClass_base name hds) (hk.prolong hs)
  | @subclass _ name r r' ds ds' hname hr hds =>
    obtain ⟨hdefine, hs⟩ := h.define name .nil
    rw [hname] at hdefine
    exact next_alike hdefine (.eval (.variable hr) (.superclass hname hr hds (hk.prolong hs)))
  | @block _ b body body' hbody =>
    obtain ⟨N, henter, hs⟩ : ∃ N, (st.enter .empty st.current).Alike G N (b :: K)
        (st'.enter .empty (st.current + G.shift)) ∧
        st.store.Prolongs M (st.enter .empty st.current).store N :=
      h.enter h.marked b fun _ => .none
    rw [← h.current] at henter
    refine next_alike henter (.flow .normal (.sequence hbody ?_))
    rw [h.current]
    exact .leaveScope (h.marked.prolong hs) (hk.prolong hs)
  | branch he hyes => exact next_alike h (.eval he (.branch hyes hk))
  | branchElse he hyes hno => exact next_alike h (.eval he (.branchElse hyes hno hk))
  | loop he hbody => exact next_alike h (.eval he (.loopTest he hbody hk))
  | ret _ keyword => exact next_alike h (.flow (.returned .nil) hk)
  | returned keyword he => exact next_alike h (.eval he (.ret hk))

theorem bodyResult_alike {c c' : Closure} {f f' : Flow} (h : st.Alike G M K st')
    (hc : c.Alike G st.store M [] c') (hf : f.Alike G st.store M f') :
    (bodyResult c f st).Alike G st.store M (bodyResult c' f' st') := by
  unfold bodyResult
  rw [hc.isInitializer]
  split
  · have hthis := h.store.local? c.scope Keyword.this.text
    rw [Guise.name_keyword, ← hc.scope] at hthis
    generalize st.store.local? c.scope Keyword.this.text = v at hthis ⊢
    generalize st'.store.local? c'.scope Keyword.this.text = v' at hthis ⊢
    cases hthis with
    | none => exact .nil
    | some hv => exact hv
  · cases hf with
    | normal => exact .nil
    | returned hv => exact hv

theorem resume_alike {limit : Nat} {v v' : Value} {k k' : Cont .flow .value}
    (h : st.Alike G M K st') (hv : v.Alike G st.store M v') (hk : k.Alike G st.store M K k')
    (hclass : ∀ name ∈ k.class?, (st.store.local? st.current name.lexeme).isSome) :
    (resume limit v k st).Alike G (resume limit v' k' st') := by
  cases hk with
  | unary op operator hk => exact yieldResult_alike operator h (hv.unary op) hk
  | binaryLeft op operator he hk => exact next_alike h (.eval he (.binaryRight op operator hv hk))
  | binaryRight op operator hw hk => exact yieldResult_alike operator h (hw.binary op hv) hk
  | logical op he hk =>
    rw [resume, resume, hv.isDecidedBy]
    split
    · exact next_alike h (.value hv hk)
    · exact next_alike h (.eval he hk)
  | @assign _ r r' k k' hr hk =>
    have howner := h.owner? hr
    rw [resume, resume]
    generalize st.owner? r = e at howner ⊢
    generalize st'.owner? r' = e' at howner ⊢
    cases howner with
    | none => exact fail_alike h (.undefined hr.spells)
    | some he =>
      obtain ⟨rfl, hname⟩ := he
      obtain ⟨hwrite, hs⟩ := h.write hname hv
      exact next_alike hwrite (.value (hv.prolong hs) (hk.prolong hs))
  | get name hk =>
    cases hv with
    | object ref =>
      have hproperty := h.store.property? ref name.lexeme
      rw [resume, resume]
      generalize st.store.property? ref name.lexeme = p at hproperty ⊢
      generalize st'.store.property? ref name.lexeme = p' at hproperty ⊢
      cases hproperty with
      | none => exact fail_alike h (.blamed _ (.same name))
      | some hp =>
        cases hp with
        | field hv => exact next_alike h (.value hv hk)
        | method hm =>
          obtain ⟨N, hbind, hs, hbound⟩ := h.bind hm ref
          exact next_alike hbind (.value hbound (hk.prolong hs))
    | _ => exact fail_alike h (.blamed _ (.same name))
  | setObject name he hk =>
    cases hv with
    | object ref => exact next_alike h (.eval he (.setValue ref name hk))
    | _ => exact fail_alike h (.blamed _ (.same name))
  | setValue ref name hk =>
    have hs : st.store.Prolongs M (st.store.setField ref name.lexeme v) M := .of_scopes_eq rfl
    exact next_alike (h.of_store (h.store.setField ref name.lexeme hv) hs)
      (.value (hv.prolong hs) (hk.prolong hs))
  | callee closing hes hk =>
    cases hes with
    | nil => exact call_alike closing h hv .nil hk
    | cons he hes => exact next_alike h (.eval he (.argument closing hv .nil hes hk))
  | argument closing hcallee hvs hes hk =>
    have hall := List.Forall₂.cons hv hvs
    cases hes with
    | nil => exact call_alike closing h hcallee (List.rel_reverse hall) hk
    | cons he hes => exact next_alike h (.eval he (.argument closing hcallee hall hes hk))
  | construct ref hk => exact next_alike h (.value (.object ref) hk)
  | endCall hk =>
    have hclosed : State.Alike G M K { st with calls := st.calls - 1 }
        { st' with calls := st'.calls - 1 } :=
      ⟨h.store, h.current, h.marked, h.table, h.table', congrArg Nat.pred h.calls, h.output⟩
    exact next_alike hclosed (.value hv hk)
  | discard hk => exact next_alike h (.flow .normal hk)
  | print hk =>
    rw [resume, resume, h.store.display hv]
    exact next_alike (h.print _) (.flow .normal hk)
  | define name hk =>
    obtain ⟨hdefine, hs⟩ := h.define name hv
    exact next_alike hdefine (.flow .normal (hk.prolong hs))
  | ret hk => exact next_alike h (.flow (.returned hv) hk)
  | branch hyes hk =>
    rw [resume, resume, hv.isTruthy]
    split
    · exact next_alike h (.exec hyes hk)
    · exact next_alike h (.flow .normal hk)
  | branchElse hyes hno hk =>
    rw [resume, resume, hv.isTruthy]
    split
    · exact next_alike h (.exec hyes hk)
    · exact next_alike h (.exec hno hk)
  | loopTest he hbody hk =>
    rw [resume, resume, hv.isTruthy]
    split
    · exact next_alike h (.exec hbody (.loopBody he hbody hk))
    · exact next_alike h (.flow .normal hk)
  | @superclass _ name r r' ds ds' k k' hname hr hds hk =>
    cases hv with
    | @cls c c' hc =>
      have hnew := h.newClass_derived name hc hds
      exact defineClass_alike h hname (hclass name rfl) hnew hk
    | _ => exact fail_alike h (.blamed _ hr.spells)

theorem proceed_alike {f f' : Flow} {k k' : Cont .flow .flow} (h : st.Alike G M K st')
    (hf : f.Alike G st.store M f') (hk : k.Alike G st.store M K k') (hhalt : k ≠ .halt) :
    (proceed f k st).Alike G (proceed f' k' st') := by
  cases hk with
  | halt => exact absurd rfl hhalt
  | sequence hss hk =>
    cases hss with
    | nil => exact next_alike h (.flow hf hk)
    | cons hs hss =>
      cases hf with
      | normal => exact next_alike h (.exec hs (.sequence hss hk))
      | returned hv => exact next_alike h (.flow (.returned hv) hk)
  | @leaveScope _ L outer k k' hL hk =>
    have hleft : State.Alike G M L { st with current := outer }
        { st' with current := outer + G.shift } :=
      ⟨h.store, rfl, hL, h.table, h.table', h.calls, h.output⟩
    exact next_alike hleft (.flow hf hk)
  | loopBody he hbody hk =>
    cases hf with
    | normal => exact next_alike h (.eval he (.loopTest he hbody hk))
    | returned hv => exact next_alike h (.flow (.returned hv) hk)
  | endBody hc hk => exact next_alike h (.value (bodyResult_alike h hc hf) hk)

/-- Machines that are alike take steps that are alike, unless the first is at its end. -/
theorem step_alike (limit : Nat) {known : Known} {table : BindingTable} {task task' : Task .flow}
    (hsound : Sound known table task st) (h : Alike G task st task' st')
    (hhalt : ∀ f, task ≠ .flow f .halt) :
    (step limit task st).Alike G (step limit task' st') := by
  obtain ⟨M, K, hstate, htask⟩ := h
  cases htask with
  | eval he hk => exact eval_alike hstate he hk
  | exec ht hk => exact exec_alike hstate ht hk
  | @value v v' k k' hv hk =>
    refine resume_alike hstate hv hk fun name hname => ?_
    obtain ⟨p, hp, -, hsound⟩ := hsound
    cases k with
    | superclass name' r ds k =>
      obtain rfl : name' = name := Option.some.inj hname
      rw [← hp.scope]
      exact hsound.2.2.1
    | _ => cases hname
  | @flow f f' k k' hf hk =>
    exact proceed_alike hstate hf hk fun heq => hhalt f (congrArg _ heq)

end Machine

end Lox
