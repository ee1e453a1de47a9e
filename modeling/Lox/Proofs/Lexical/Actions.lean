import Lox.Proofs.Lexical.Worlds

/-!
# What machine and evaluator do together

The machine acts on its scopes, functions and instances, and the evaluator on its
cells, maps and instances. Each pair of actions leads from worlds that agree to
worlds that agree.

## Implementation notes

An action is a function on worlds, and `Acts` ties it to a computation of the
evaluator. What it does to the machine is to be read off its definition.
-/

namespace Lox

namespace Scopes

variable {Γ : Scopes} {name other : String}

theorem depth?_mark_self (h : Γ ≠ []) (ready : Bool) : (Γ.mark name ready).depth? name = some 0 := by
  cases Γ with
  | nil => exact absurd rfl h
  | cons scope outer => simp [mark, depth?_cons, contains_insert]

theorem mark_eq_nil {ready : Bool} : Γ.mark name ready = [] ↔ Γ = [] := by
  cases Γ <;> simp [mark]

/-- For finding a name it does not matter whether it is ready. -/
theorem depth?_introduce_eq (name : Token) :
    (Γ.introduce name).depth? other = (Γ.mark name.lexeme false).depth? other := by
  cases Γ with
  | nil => rfl
  | cons scope outer =>
      simp only [introduce, mark, depth?_cons, contains_insert]
      cases name.lexeme == other <;> rfl

theorem IsNew.depth?_ne {name : Token} (h : Γ.IsNew name) : Γ.depth? name.lexeme ≠ some 0 := by
  cases Γ with
  | nil => simp [depth?]
  | cons scope outer => simp [depth?_cons, h scope rfl]

end Scopes

namespace Lexical

theorem run_bind {α β : Type} (x : Eval α) (f : α → Eval β) (s : State) :
    (x >>= f).run s = (x.run s).bind fun p => (ExceptT.bindCont f p.1).run p.2 :=
  rfl

namespace World

variable {known : Known} {w w' w'' : World} {bound lower scope : ScopeRef} {name : String}
  {v : Value} {Γ : Scopes} {env : Env} {depth : Nat}

/-- Whether a computation of the evaluator leads from one world to another. -/
structure Acts (known : Known) (bound : ScopeRef) {α : Type} (w : World) (x : Eval α) (a : α)
    (w' : World) : Prop where
  run : x.run w.lexical = some (.ok a, w'.lexical)
  agrees : w'.Agrees known
  after : After bound w w'

namespace Acts

variable {α β : Type} {x : Eval α} {a : α}

theorem grows (h : Acts known bound w x a w') : Grows bound w w' :=
  h.after.toGrows

theorem pure (h : w.Agrees known) (a : α) : Acts known bound w (pure a) a w :=
  ⟨rfl, h, .refl bound w⟩

theorem bind {f : α → Eval β} {b : β} (h : Acts known bound w x a w')
    (hf : Acts known bound w' (f a) b w'') : Acts known bound w (x >>= f) b w'' := by
  refine ⟨?_, hf.agrees, h.after.trans hf.after⟩
  rw [run_bind, h.run]
  exact hf.run

end Acts

/-! ## Worlds with the same scopes -/

theorem Holds.of_eq (h : w.Holds) (hcellOf : w'.cellOf = w.cellOf)
    (hscopes : w'.machine.store.scopes = w.machine.store.scopes)
    (hcells : w'.lexical.cells = w.lexical.cells)
    (hglobals : w'.lexical.globals = w.lexical.globals) : w'.Holds := by
  have hlocal (scope : ScopeRef) (name : String) :
      w'.machine.store.local? scope name = w.machine.store.local? scope name := by
    unfold Store.local?
    rw [hscopes]
  have hsize : w'.size = w.size := congrArg Array.size hscopes
  refine ⟨hsize ▸ h.size, ?_, fun name => ?_, fun scope name cell hcell => ?_, ?_,
    fun scope name hne => ?_⟩
  · have hroot := h.root
    unfold Store.enclosing? at hroot ⊢
    rwa [hscopes]
  · rw [hglobals, hlocal]
    exact h.globals name
  · rw [hcellOf] at hcell
    rw [hsize, hcells, hlocal]
    exact h.cell scope name cell hcell
  · rw [hcellOf]
    exact h.distinct
  · rw [hcellOf, hlocal]
    exact h.held scope name hne

theorem Grows.of_eq (hcellOf : w'.cellOf = w.cellOf)
    (hscopes : w'.machine.store.scopes = w.machine.store.scopes)
    (hidentity : w.machine.store.nextIdentity ≤ w'.machine.store.nextIdentity)
    (hcaptured : ∀ id < w.machine.store.nextIdentity,
      w'.lexical.captured.lookup id = w.lexical.captured.lookup id) : Grows bound w w' where
  size := Nat.le_of_eq (congrArg Array.size hscopes).symm
  enclosing scope _ := by unfold Store.enclosing?; rw [hscopes]
  keeps scope name cell hcell := by rwa [hcellOf]
  gains scope _ := by rw [hcellOf]
  identity := hidentity
  captured := hcaptured

/-- Values that are new to a store have to be tracked. -/
theorem Tracks.grow (h : w.Tracks known) (hw : Grows bound w w')
    (hvalue : ∀ scope name v, w'.machine.store.local? scope name = some v →
      w.machine.store.local? scope name = some v ∨ v.Tracked known w')
    (hfield : ∀ object name v, w'.machine.store.field? object name = some v →
      w.machine.store.field? object name = some v ∨ v.Tracked known w')
    (hcls : ∀ object c, w'.machine.store.class? object = some c →
      w.machine.store.class? object = some c ∨ c.Tracked known w') : w'.Tracks known where
  value scope name v hv := (hvalue scope name v hv).elim (fun h' => (h.value _ _ _ h').grow hw) id
  field object name v hv := (hfield object name v hv).elim (fun h' => (h.field _ _ _ h').grow hw) id
  cls object c hc := (hcls object c hc).elim (fun h' => (h.cls _ _ h').grow hw) id

/-! ## Scopes and cells -/

/-- Move to a scope, with some calls open. -/
def go (w : World) (current : ScopeRef) (calls : Nat) : World :=
  { w with machine := { w.machine with current, calls } }

theorem grows_go (bound : ScopeRef) {current : ScopeRef} {calls : Nat} :
    Grows bound w (w.go current calls) :=
  .of_eq rfl rfl (Nat.le_refl _) fun _ _ => rfl

theorem Agrees.go (h : w.Agrees known) (current : ScopeRef) (calls : Nat) :
    (w.go current calls).Agrees known :=
  ⟨h.holds.of_eq rfl rfl rfl rfl,
    h.tracks.grow (grows_go 0) (fun _ _ _ hv => .inl hv) (fun _ _ _ hv => .inl hv)
      (fun _ _ hc => .inl hc),
    h.objects, h.output, h.table⟩

/-- Make a scope without names. -/
def openScope (w : World) (enclosing : ScopeRef) : World :=
  { w with
    machine := { w.machine with store := (w.machine.store.newScope .empty (some enclosing)).2 } }

theorem grows_openScope (bound : ScopeRef) : Grows bound w (w.openScope scope) where
  size := by
    change _ ≤ (w.machine.store.newScope .empty (some scope)).2.scopes.size
    rw [Store.size_newScope]
    exact Nat.le_succ _
  enclosing target hlt := by
    change (w.machine.store.newScope .empty (some scope)).2.enclosing? target = _
    rw [Store.enclosing?_newScope]
    exact if_neg (Nat.ne_of_lt hlt)
  keeps _ _ _ hcell := hcell
  gains _ _ := rfl
  identity := Nat.le_refl _
  captured _ _ := rfl

theorem local?_openScope {target : ScopeRef} :
    (w.openScope scope).machine.store.local? target name =
      if target = w.size then none else w.machine.store.local? target name :=
  Store.local?_newScope

theorem Agrees.openScope (h : w.Agrees known) (scope : ScopeRef) :
    (w.openScope scope).Agrees known := by
  have hsize : (w.openScope scope).size = w.size + 1 := Store.size_newScope
  have hlocal {target : ScopeRef} {name : String} {v : Value}
      (hv : (w.openScope scope).machine.store.local? target name = some v) :
      w.machine.store.local? target name = some v := by
    rw [local?_openScope] at hv
    split at hv
    · cases hv
    · exact hv
  refine ⟨⟨hsize ▸ Nat.succ_pos _, ?_, fun name => ?_, fun target name cell hcell => ?_,
      h.holds.distinct, fun target name hne hs => ?_⟩,
    h.tracks.grow (grows_openScope 0) (fun _ _ _ hv => .inl (hlocal hv))
      (fun _ _ _ hv => .inl hv) (fun _ _ hc => .inl hc),
    h.objects, h.output, h.table⟩
  · rw [(grows_openScope 0).enclosing _ h.holds.size]
    exact h.holds.root
  · rw [local?_openScope, if_neg (Nat.ne_of_lt h.holds.size)]
    exact h.holds.globals name
  · obtain ⟨hne, hlt, hcells⟩ := h.holds.cell target name cell hcell
    rw [local?_openScope, if_neg (Nat.ne_of_lt hlt), hsize]
    exact ⟨hne, Nat.lt_succ_of_lt hlt, hcells⟩
  · obtain ⟨v, hv⟩ := Option.isSome_iff_exists.mp hs
    exact h.holds.held target name hne (by rw [hlocal hv]; rfl)

theorem Fits.openScope (h : w.Fits scope Γ env) :
    (w.openScope scope).Fits w.size (.empty :: Γ) env := by
  have houter : (w.openScope scope).machine.store.enclosing? w.size = some scope := by
    change (w.machine.store.newScope .empty (some scope)).2.enclosing? _ = _
    rw [Store.enclosing?_newScope]
    exact if_pos rfl
  have hold : (w.openScope scope).Fits scope Γ env := (grows_openScope 0).fits h
  intro name
  have hname := hold name
  rw [Scopes.depth?_empty_cons]
  cases hd : Γ.depth? name with
  | none =>
      rw [hd] at hname
      exact hname
  | some d =>
      rw [hd] at hname
      obtain ⟨target, cell, htarget, hrest⟩ := hname
      refine ⟨target, cell, ?_, hrest⟩
      change (w.openScope scope).machine.store.ancestor? w.size (d + 1) = _
      rw [Store.ancestor?, houter]
      exact htarget

/-- Make an empty cell for a name in a scope. -/
def declare (w : World) (scope : ScopeRef) (name : String) : World :=
  { w with
    cellOf := fun target other =>
      if target = scope ∧ other = name then some w.lexical.cells.size else w.cellOf target other
    lexical := (w.lexical.newCell none).2 }

theorem grows_declare (h : w.cellOf scope name = none) : Grows scope w (w.declare scope name) where
  size := Nat.le_refl _
  enclosing _ _ := rfl
  keeps target other cell hcell := by
    refine (if_neg fun heq => ?_).trans hcell
    rw [heq.1, heq.2, h] at hcell
    cases hcell
  gains target hlt := funext fun other => if_neg fun heq => Nat.ne_of_lt hlt heq.1
  identity := Nat.le_refl _
  captured _ _ := rfl

theorem cellOf_declare_self : (w.declare scope name).cellOf scope name = some w.lexical.cells.size :=
  if_pos ⟨rfl, rfl⟩

theorem Holds.lt_of_cellOf (h : w.Holds) {cell : CellRef} (hcell : w.cellOf scope name = some cell) :
    cell < w.lexical.cells.size :=
  (Array.getElem?_eq_some_iff.mp (h.cell _ _ _ hcell).2.2).1

theorem Agrees.declare (h : w.Agrees known) (hne : scope ≠ Store.globals) (hlt : scope < w.size)
    (hnone : w.cellOf scope name = none) : (w.declare scope name).Agrees known := by
  have hlocal : w.machine.store.local? scope name = none := by
    rw [← Option.not_isSome_iff_eq_none]
    intro hs
    have hcell := h.holds.held scope name hne hs
    rw [hnone] at hcell
    cases hcell
  refine ⟨⟨h.holds.size, h.holds.root, h.holds.globals, fun target other cell hcell => ?_,
      fun target other target' other' cell hcell hcell' => ?_, fun target other hne' hs => ?_⟩,
    h.tracks.grow (grows_declare hnone) (fun _ _ _ hv => .inl hv) (fun _ _ _ hv => .inl hv)
      (fun _ _ hc => .inl hc),
    h.objects, h.output, h.table⟩
  · change (if _ then _ else _) = _ at hcell
    change target ≠ Store.globals ∧ target < w.size ∧ (w.lexical.cells.push none)[cell]? = _
    split at hcell
    next heq =>
      obtain ⟨rfl, rfl⟩ := heq
      obtain rfl := Option.some.inj hcell
      refine ⟨hne, hlt, ?_⟩
      rw [Array.getElem?_push_size]
      exact congrArg (fun found => some (found.map Value.forget)) hlocal.symm
    next =>
      rw [Array.getElem?_push, if_neg (Nat.ne_of_lt (h.holds.lt_of_cellOf hcell))]
      exact h.holds.cell target other cell hcell
  · change (if _ then _ else _) = _ at hcell hcell'
    split at hcell <;> split at hcell'
    next heq heq' => exact ⟨heq.1.trans heq'.1.symm, heq.2.trans heq'.2.symm⟩
    next => cases hcell; exact absurd (h.holds.lt_of_cellOf hcell') (Nat.lt_irrefl _)
    next => cases hcell'; exact absurd (h.holds.lt_of_cellOf hcell) (Nat.lt_irrefl _)
    next => exact h.holds.distinct _ _ _ _ _ hcell hcell'
  · change (if _ then _ else _ : Option CellRef).isSome
    split
    · rfl
    · exact h.holds.held target other hne' hs

/-- A map has the cell of a new name once it is extended by it. -/
theorem Fits.declare (h : w.Fits scope Γ env) (hΓ : Γ ≠ []) (hnone : w.cellOf scope name = none)
    (ready : Bool) :
    (w.declare scope name).Fits scope (Γ.mark name ready)
      (env.insert name w.lexical.cells.size) := by
  intro other
  by_cases heq : name = other
  · subst heq
    rw [Scopes.depth?_mark_self hΓ]
    exact ⟨scope, _, rfl, cellOf_declare_self, NameMap.get?_insert_self ..⟩
  · rw [Scopes.depth?_mark heq, NameMap.get?_insert_of_ne _ heq]
    exact (grows_declare hnone).fits h other

/-- Give a name a value in a scope, with its cell if it has one. -/
def write (w : World) (scope : ScopeRef) (name : String) (v : Value) : World :=
  { w with
    machine := { w.machine with store := w.machine.store.define scope name v }
    lexical := match w.cellOf scope name with
      | some cell => w.lexical.fill cell v.forget
      | none => w.lexical.setGlobal name v.forget }

theorem grows_write (bound : ScopeRef) : Grows bound w (w.write scope name v) where
  size := Nat.le_of_eq Store.size_define.symm
  enclosing _ _ := Store.enclosing?_define
  keeps _ _ _ hcell := hcell
  gains _ _ := rfl
  identity := Nat.le_refl _
  captured _ _ := by
    unfold write
    split <;> rfl

theorem Holds.write (h : w.Holds) (hs : scope ≠ Store.globals → (w.cellOf scope name).isSome)
    (hlt : scope < w.size) : (w.write scope name v).Holds := by
  have hlocal (target : ScopeRef) (other : String) :
      (w.write scope name v).machine.store.local? target other =
        if scope = target ∧ name = other then some v else w.machine.store.local? target other :=
    Store.local?_define hlt
  have hsize : (w.write scope name v).size = w.size := Store.size_define
  refine ⟨hsize ▸ h.size, Store.enclosing?_define.trans h.root, fun other => ?_,
    fun target other cell hcell => ?_, h.distinct, fun target other hne hheld => ?_⟩
  · rw [hlocal]
    unfold World.write
    cases hc : w.cellOf scope name with
    | some cell =>
        rw [if_neg fun heq => (h.cell _ _ _ hc).1 heq.1]
        exact h.globals other
    | none =>
        have hglobals : scope = Store.globals := Decidable.byContradiction fun hne => by
          have hsome := hs hne
          rw [hc] at hsome
          cases hsome
        change (w.lexical.globals.insert name v.forget).get? other = _
        rw [NameMap.get?_insert, h.globals, hglobals]
        by_cases heq : name = other <;> simp [heq]
  · obtain ⟨hne, hlt', hcells⟩ := h.cell target other cell hcell
    refine ⟨hne, hsize ▸ hlt', ?_⟩
    rw [hlocal]
    unfold World.write
    cases hc : w.cellOf scope name with
    | some cell' =>
        change (w.lexical.cells.setIfInBounds cell' (some v.forget))[cell]? = _
        rw [Array.getElem?_setIfInBounds]
        split
        next heq =>
          subst heq
          rw [if_pos (h.distinct _ _ _ _ _ hc hcell), if_pos (h.lt_of_cellOf hcell)]
          rfl
        next hne' =>
          rw [if_neg, hcells]
          rintro ⟨rfl, rfl⟩
          exact hne' (Option.some.inj (hc.symm.trans hcell))
    | none =>
        rw [if_neg, ← hcells]
        · rfl
        · rintro ⟨rfl, rfl⟩
          cases hc.symm.trans hcell
  · change (w.cellOf target other).isSome
    rw [hlocal] at hheld
    split at hheld
    next heq => exact heq.1 ▸ heq.2 ▸ hs (heq.1 ▸ hne)
    next => exact h.held target other hne hheld

theorem Agrees.write (h : w.Agrees known) (hv : v.Tracked known w) (hlt : scope < w.size)
    (hs : scope ≠ Store.globals → (w.cellOf scope name).isSome) :
    (w.write scope name v).Agrees known where
  holds := h.holds.write hs hlt
  tracks := h.tracks.grow (grows_write 0)
    (fun target other x hx => by
      change (w.machine.store.define scope name v).local? target other = _ at hx
      rw [Store.local?_define hlt] at hx
      split at hx
      · obtain rfl := Option.some.inj hx
        exact .inr (hv.grow (grows_write 0))
      · exact .inl hx)
    (fun _ _ _ hx => .inl hx) (fun _ _ hc => .inl hc)
  objects := by
    unfold World.write
    split <;> exact h.objects
  output := by
    unfold World.write
    split <;> exact h.output
  table := h.table

/-! ### Names with values -/

/-- Make a cell that holds the value of a name. -/
def bind (w : World) (scope : ScopeRef) (name : String) (v : Value) : World :=
  (w.declare scope name).write scope name v

theorem lexical_bind : (w.bind scope name v).lexical = (w.lexical.newCell (some v.forget)).2 := by
  have hfill : (w.lexical.cells.push none).setIfInBounds w.lexical.cells.size (some v.forget) =
      w.lexical.cells.push (some v.forget) := by
    apply Array.ext_getElem?
    intro i
    rw [Array.getElem?_setIfInBounds, Array.getElem?_push, Array.getElem?_push, Array.size_push]
    by_cases hi : w.lexical.cells.size = i
    · simp [hi]
    · simp [hi, Ne.symm hi]
  unfold bind write
  rw [cellOf_declare_self]
  exact congrArg (fun cells => { w.lexical with cells }) hfill

/-- A name in a scope that may get names. -/
theorem Agrees.bind (h : w.Agrees known) (env : Env) (hv : v.Tracked known w) (hne : scope ≠ Store.globals)
    (hlt : scope < w.size) (hnone : w.cellOf scope name = none) :
    Acts known scope w (Lexical.bind env name (some v.forget))
      (env.insert name w.lexical.cells.size) (w.bind scope name v) where
  run := by
    rw [lexical_bind]
    rfl
  agrees := (h.declare hne hlt hnone).write (hv.grow (grows_declare hnone)) hlt
    fun _ => by rw [cellOf_declare_self]; rfl
  after := ⟨(grows_declare hnone).trans (grows_write _), rfl, rfl, rfl⟩

theorem Fits.bind (h : w.Fits scope Γ env) (hΓ : Γ ≠ []) (hnone : w.cellOf scope name = none)
    (ready : Bool) :
    (w.bind scope name v).Fits scope (Γ.mark name ready)
      (env.insert name w.lexical.cells.size) :=
  (grows_write 0).fits (h.declare hΓ hnone ready)

/-- A scope that holds one name given by the language. -/
theorem Agrees.given (h : w.Agrees known) (hv : v.Tracked known w) (hfits : w.Fits scope Γ env)
    (name : Keyword) :
    Acts known w.size w (Lexical.bind env name.text (some v.forget))
        (env.insert name.text w.lexical.cells.size)
        ((w.openScope scope).bind w.size name.text v) ∧
      ((w.openScope scope).bind w.size name.text v).Fits w.size (Γ.given name)
        (env.insert name.text w.lexical.cells.size) := by
  have hopen : w.size < (w.openScope scope).size := by
    change _ < (w.machine.store.newScope .empty (some scope)).2.scopes.size
    rw [Store.size_newScope]
    exact Nat.lt_succ_self _
  have hnone : (w.openScope scope).cellOf w.size name.text = none := by
    cases hcell : w.cellOf w.size name.text with
    | none => exact hcell
    | some cell => exact absurd (h.holds.cell _ _ _ hcell).2.1 (Nat.lt_irrefl _)
  have hbind := (h.openScope scope).bind env (hv.grow (grows_openScope 0))
    (Nat.ne_of_gt h.holds.size) hopen hnone
  exact ⟨⟨hbind.run, hbind.agrees, ⟨(grows_openScope _).trans hbind.grows, rfl, rfl, rfl⟩⟩,
    hfits.openScope.bind (by simp) hnone true⟩

/-! ### Declarations -/

/-- A name is kept in the current scope if it is declared there or there is no other. -/
theorem Agrees.finds_current (h : w.Agrees known) {env : Option Env} (hat : w.At Γ env depth)
    (hname : Γ = [] ∨ Γ.depth? name = some 0) :
    w.Finds (env.getD .empty) name w.machine.current := by
  obtain ⟨target, hf, hsome, hnone⟩ := h.holds.finds hat.fits name
  obtain rfl | hd := hname
  · rw [hat.global.mp rfl, ← hnone rfl]
    exact hf
  · obtain rfl : w.machine.current = target := Option.some.inj (hsome 0 hd)
    exact hf

theorem At.cellOf_eq_none {env : Option Env} (h : w.At Γ env depth) {name : Token}
    (hnew : Γ.IsNew name) : w.cellOf w.machine.current name.lexeme = none := by
  rw [← Option.not_isSome_iff_eq_none, h.exact]
  exact hnew.depth?_ne

theorem At.declare (h : w.At Γ (some env) depth) {name : Token} (hnew : Γ.IsNew name) :
    (w.declare w.machine.current name.lexeme).At (Γ.mark name.lexeme false)
      (some (env.insert name.lexeme w.lexical.cells.size)) depth := by
  have hΓ : Γ ≠ [] := fun heq => by cases h.outside.mpr heq
  refine ⟨h.fits.declare hΓ (h.cellOf_eq_none hnew) false, fun other => ?_,
    by simpa [Scopes.mark_eq_nil] using hΓ, Scopes.mark_eq_nil.trans h.global, h.lt, h.calls⟩
  by_cases heq : name.lexeme = other
  · subst heq
    rw [Scopes.depth?_mark_self hΓ]
    simp [World.declare]
  · rw [Scopes.depth?_mark heq, ← h.exact]
    simp [World.declare, Ne.symm heq]

/-- A name may be declared where it is new; this does not concern the machine. -/
theorem Agrees.declareName (h : w.Agrees known) {env : Option Env} (hat : w.At Γ env depth)
    {name : Token} (hnew : Γ.IsNew name) :
    ∃ inner w', Acts known w.machine.current w (Lexical.declare env name) inner w' ∧
      w'.At (Γ.mark name.lexeme false) inner depth ∧ w'.machine = w.machine := by
  cases env with
  | none =>
      obtain rfl := hat.outside.mp rfl
      exact ⟨none, w, .pure h none, hat, rfl⟩
  | some env =>
      have hne : w.machine.current ≠ Store.globals := fun heq => by
        cases hat.outside.mpr (hat.global.mpr heq)
      have hnone := hat.cellOf_eq_none hnew
      exact ⟨_, _, ⟨rfl, h.declare hne hat.lt hnone, ⟨grows_declare hnone, rfl, rfl, rfl⟩⟩,
        hat.declare hnew, rfl⟩

theorem Agrees.defineName (h : w.Agrees known) (bound : ScopeRef) (hv : v.Tracked known w)
    {env : Option Env} {name : Token} (hf : w.Finds (env.getD .empty) name.lexeme scope) (hlt : scope < w.size) :
    Acts known bound w (Lexical.define env name v.forget) () (w.write scope name.lexeme v) where
  run := by
    have henv : env.bind (·.get? name.lexeme) = w.cellOf scope name.lexeme := by
      rw [← hf.cell]
      cases env <;> rfl
    unfold Lexical.define World.write
    rw [henv]
    cases w.cellOf scope name.lexeme <;> rfl
  agrees := h.write hv hlt hf.isSome
  after := ⟨grows_write bound, rfl, rfl, rfl⟩

/-- Go into a new scope. -/
def enter (w : World) (enclosing : ScopeRef) : World :=
  (w.openScope enclosing).go w.size w.machine.calls

theorem grows_enter (bound : ScopeRef) : Grows bound w (w.enter scope) :=
  (grows_openScope bound).trans (grows_go bound)

theorem Agrees.enter (h : w.Agrees known) (scope : ScopeRef) : (w.enter scope).Agrees known :=
  (h.openScope scope).go _ _

theorem Agrees.at_enter (h : w.Agrees known) (hfits : w.Fits scope Γ env) :
    (w.enter scope).At (.empty :: Γ) (some env) w.machine.calls where
  fits := (grows_go 0).fits hfits.openScope
  exact name := by
    have hnone : w.cellOf w.size name = none := by
      cases hcell : w.cellOf w.size name with
      | none => rfl
      | some cell => exact absurd (h.holds.cell _ _ _ hcell).2.1 (Nat.lt_irrefl _)
    change (w.cellOf w.size name).isSome ↔ _
    rw [hnone, Scopes.depth?_empty_cons]
    cases Γ.depth? name <;> simp
  outside := by simp
  global := by
    have hne : (w.enter scope).machine.current ≠ Store.globals := Nat.ne_of_gt h.holds.size
    simpa using hne
  lt := by
    change _ < (w.machine.store.newScope .empty (some scope)).2.scopes.size
    rw [Store.size_newScope]
    exact Nat.lt_succ_self _
  calls := rfl

/-- Parameters are declared one after the other, and each has a value at once. -/
theorem Agrees.bindAll (h : w.Agrees known) (hat : w.At Γ (some env) depth)
    {parameters : List Token} {arguments : List Value} (hnew : Γ.AreNew parameters)
    (hlen : arguments.length = parameters.length) (hv : ∀ v ∈ arguments, v.Tracked known w) :
    ∃ env' w', Acts known w.machine.current w
        (Lexical.bindAll env (parameters.zip (arguments.map Value.forget))) env' w' ∧
      w'.At (parameters.foldl Scopes.introduce Γ) (some env') depth ∧
      w'.machine = (parameters.zip arguments).foldl (fun st p => st.define p.1 p.2) w.machine := by
  induction parameters generalizing arguments w env Γ with
  | nil => exact ⟨env, w, .pure h env, hat, rfl⟩
  | cons p parameters ih =>
      cases arguments with
      | nil => cases hlen
      | cons v arguments =>
          rw [List.forall_mem_cons] at hv
          have hne : w.machine.current ≠ Store.globals := fun heq => by
            cases hat.outside.mpr (hat.global.mpr heq)
          have hbind := h.bind env hv.1 hne hat.lt (hat.cellOf_eq_none hnew.1)
          have hwrite : After w.size (w.declare w.machine.current p.lexeme)
            (w.bind w.machine.current p.lexeme v) := ⟨grows_write _, rfl, rfl, rfl⟩
          have hat' := ((hat.declare hnew.1).after hwrite hat.lt).congr
            (fun _ => Scopes.depth?_introduce_eq p) (by simp [Scopes.introduce, Scopes.mark_eq_nil])
          obtain ⟨env', w', hrest, hat', hmachine⟩ := ih hbind.agrees hat' hnew.2
            (Nat.succ.inj hlen) fun u hu => (hv.2 u hu).grow hbind.grows
          exact ⟨env', w', hbind.bind hrest, hat', hmachine⟩

end World

end Lexical

end Lox
