import Lox.Proofs.Guise.Operations
import Lox.Proofs.Scoping.Steps

/-!
# Machines in corresponding states

Two machines are in corresponding states if their stores are alike, if they are in the
same scope, one of them perhaps inside one more, and if they have printed the same. What
the one reads, declares and makes the other does as well.

## Implementation notes

`K` says how the scopes around the current one are marked. The tables enter only by what
they say of the distances of references, which is fixed by the guise.
-/

namespace Lox

/-- States that correspond to each other. -/
structure State.Alike (G : Guise) (M : Marks) (K : List Bool) (st st' : State) : Prop where
  store : st.store.Alike G M st'.store
  current : st'.current = st.current + G.shift
  marked : st.store.Marked M st.current K
  table : ∀ id, st.table.distance? id = G.distance id
  table' : ∀ id, st'.table.distance? id = G.distance' id
  calls : st'.calls = st.calls
  output : st'.output = st.output

/-- Nothing is around the globals, so they have a name themselves or it is not found. -/
theorem Store.owner?_globals_of_top {s : Store} (hpos : Store.globals < s.scopes.size)
    (htop : s.enclosing? Store.globals = none) (name : String) :
    s.owner? Store.globals name =
      if (s.local? Store.globals name).isSome then some Store.globals else none := by
  split
  · rename_i hlocal
    exact Store.owner?_of_local? hlocal
  · rename_i hlocal
    rw [Store.owner?, ← Nat.succ_pred_eq_of_pos hpos, Store.ownerWithin?, if_neg hlocal, htop]

variable {G : Guise} {M : Marks} {K : List Bool} {st st' : State}

/-- One optional thing is there if the other is. -/
theorem optionRel_isSome {α β : Type} {R : α → β → Prop} {a : Option α} {b : Option β}
    (h : Option.Rel R a b) : b.isSome = a.isSome := by
  cases h <;> rfl

namespace State.Alike

/-! ## References -/

/-- References to the same declaration lead to scopes that correspond to each other. -/
theorem owner? (h : st.Alike G M K st') {r r' : Reference} (hr : G.Refers K r r') :
    Option.Rel (fun e e' => e' = e + G.shift ∧ r'.name.lexeme = G.name (M e) r.name.lexeme)
      (st.owner? r) (st'.owner? r') := by
  have hif (target : ScopeRef) {name name' : String} (hname : name' = G.name (M target) name) :
      Option.Rel (fun e e' => e' = e + G.shift ∧ name' = G.name (M e) name)
        (if (st.store.local? target name).isSome then some target else none)
        (if (st'.store.local? (target + G.shift) name').isSome then some (target + G.shift)
          else none) := by
    rw [hname, optionRel_isSome (h.store.local? target name)]
    split
    · exact .some ⟨rfl, rfl⟩
    · exact .none
  cases hr with
  | @bound _ d b hd hd' hK _ =>
    obtain ⟨target, htarget, htarget', rfl⟩ := h.store.ancestor? h.marked hK
    rw [State.owner?, State.owner?, h.table, h.table', hd, hd', h.current]
    simp only [Store.ownerAt?_of_ancestor? htarget, Store.ownerAt?_of_ancestor? htarget']
    exact hif target rfl
  | free hd hd' =>
    have hplain : r.name.lexeme = G.name (M Store.globals) r.name.lexeme := by
      rw [h.store.plain, Guise.name_false]
    have hglobal := hif Store.globals hplain
    rw [State.owner?, State.owner?, h.table, h.table', hd, hd', h.current]
    simp only [Store.owner?_globals_of_top h.store.pos h.store.top]
    unfold Guise.top
    cases hwrapped : G.wrapped with
    | false =>
      have hshift : G.shift = 0 := by rw [Guise.shift, hwrapped]; rfl
      have hpos : Store.globals < st'.store.scopes.size := by
        rw [h.store.size]
        exact Nat.lt_add_right _ h.store.pos
      rw [hshift] at hglobal ⊢
      simp only [Bool.false_eq_true, if_false,
        Store.owner?_globals_of_top hpos (h.store.top' hwrapped)]
      exact hglobal
    | true =>
      simp only [if_true, Store.ownerAt?_of_ancestor? (h.store.ancestor?_top h.marked)]
      exact hglobal

/-- References to the same declaration have values that are alike. -/
theorem read (h : st.Alike G M K st') {r r' : Reference} (hr : G.Refers K r r') :
    Option.Rel (Value.Alike G st.store M) (st.read r) (st'.read r') := by
  have howner := h.owner? hr
  unfold State.read
  generalize st.owner? r = e at howner ⊢
  generalize st'.owner? r' = e' at howner ⊢
  cases howner with
  | none => exact .none
  | @some e e' he =>
    obtain ⟨rfl, hname⟩ := he
    simp only [Option.bind_some, hname]
    exact h.store.local? e r.name.lexeme

/-- A word of the language is found in the same scope. -/
theorem getAt?_keyword (h : st.Alike G M K st') {d : Nat} (hd : d < K.length) (k : Keyword) :
    Option.Rel (Value.Alike G st.store M) (st.store.getAt? st.current d k.text)
      (st'.store.getAt? st'.current d k.text) := by
  obtain ⟨target, htarget, htarget', hmark⟩ :=
    h.store.ancestor? h.marked (List.getElem?_eq_getElem hd)
  rw [h.current, Store.getAt?_of_ancestor? htarget, Store.getAt?_of_ancestor? htarget']
  have hlocal := h.store.local? target k.text
  rwa [Guise.name_keyword] at hlocal

/-- Where the superclass and the receiver of a running method are found, they are alike. -/
theorem inheritance (h : st.Alike G M K st') (r r' : Reference) {d : Nat}
    (hd : G.distance r.id = some d) (hd' : G.distance' r'.id = some d) (hlt : d < K.length) :
    (∃ cause, st.inheritance r = .error cause ∧ st'.inheritance r' = .error cause) ∨
      ∃ c c' receiver, st.inheritance r = .ok (c, receiver) ∧
        st'.inheritance r' = .ok (c', receiver) ∧ c.Alike G st.store M c' := by
  have hsuper := h.getAt?_keyword hlt .super
  unfold State.inheritance
  simp only [h.table, h.table', hd, hd']
  generalize st.store.getAt? st.current d Keyword.super.text = v at hsuper ⊢
  generalize st'.store.getAt? st'.current d Keyword.super.text = v' at hsuper ⊢
  cases hsuper with
  | none => exact .inl ⟨_, rfl, rfl⟩
  | some hv =>
    cases hv with
    | @cls c c' hc =>
      cases d with
      | zero => exact .inl ⟨_, rfl, rfl⟩
      | succ inner =>
        have hthis := h.getAt?_keyword (Nat.lt_of_succ_lt hlt) .this
        dsimp only
        generalize st.store.getAt? st.current inner Keyword.this.text = w at hthis ⊢
        generalize st'.store.getAt? st'.current inner Keyword.this.text = w' at hthis ⊢
        cases hthis with
        | none => exact .inl ⟨_, rfl, rfl⟩
        | some hw =>
          cases hw with
          | object receiver => exact .inr ⟨c, c', receiver, rfl, rfl, hc⟩
          | _ => exact .inl ⟨_, rfl, rfl⟩
    | _ => exact .inl ⟨_, rfl, rfl⟩

/-! ## Changes -/

/-- The stores have become others, in which everything is as it was. -/
theorem of_store (h : st.Alike G M K st') {s s' : Store} {N : Marks} (hs : s.Alike G N s')
    (hprolongs : st.store.Prolongs M s N) :
    State.Alike G N K { st with store := s } { st' with store := s' } :=
  ⟨hs, h.current, h.marked.prolong hprolongs, h.table, h.table', h.calls, h.output⟩

/-- A value takes the place of another. -/
theorem write (h : st.Alike G M K st') {e : ScopeRef} {name name' : Token}
    (hname : name'.lexeme = G.name (M e) name.lexeme) {v v' : Value}
    (hv : v.Alike G st.store M v') :
    (st.write e name v).Alike G M K (st'.write (e + G.shift) name' v') ∧
      st.store.Prolongs M (st.write e name v).store M := by
  have hstore := h.store.define e name.lexeme hv
  rw [← hname] at hstore
  exact ⟨h.of_store hstore .define, .define⟩

/-- A declaration gives a name a value, as its scope tells it. -/
theorem define (h : st.Alike G M K st') (name : Token) {v v' : Value}
    (hv : v.Alike G st.store M v') :
    (st.define name v).Alike G M K (st'.define (G.declared K name) v') ∧
      st.store.Prolongs M (st.define name v).store M := by
  have hname : (G.declared K name).lexeme = G.name (M st.current) name.lexeme := by
    rw [Guise.declared, Guise.lexeme_token, h.marked.mark h.store.plain]
  have hwrite := h.write (e := st.current) hname hv
  rw [← h.current] at hwrite
  exact hwrite

/-- A scope is entered whose names are told in one of the two ways. -/
theorem enter (h : st.Alike G M K st') {e : ScopeRef} {L : List Bool}
    (he : st.store.Marked M e L) (b : Bool) {bindings bindings' : NameMap Value}
    (hvalue : ∀ name, Option.Rel (Value.Alike G st.store M) (bindings.get? name)
      (bindings'.get? (G.name b name))) :
    ∃ N, (st.enter bindings e).Alike G N (b :: L) (st'.enter bindings' (e + G.shift)) ∧
      st.store.Prolongs M (st.enter bindings e).store N :=
  ⟨Function.update M st.store.scopes.size b,
    ⟨h.store.newScope e b hvalue, h.store.size, he.newScope bindings b, h.table, h.table', h.calls,
      h.output⟩, .newScope _ _ _⟩

theorem bind (h : st.Alike G M K st') {m m' : Closure} (hm : m.Alike G st.store M [false] m')
    (receiver : InstanceRef) :
    ∃ N, (st.bind m receiver).2.Alike G N K (st'.bind m' receiver).2 ∧
      st.store.Prolongs M (st.bind m receiver).2.store N ∧
      (st.bind m receiver).1.Alike G (st.bind m receiver).2.store N (st'.bind m' receiver).1 := by
  obtain ⟨N, hs, hstore, hbound⟩ := h.store.bindMethod hm receiver
  exact ⟨N, h.of_store hstore hs, hs, .function hbound⟩

theorem print (h : st.Alike G M K st') (text : String) :
    (st.print text).Alike G M K (st'.print text) :=
  ⟨h.store, h.current, h.marked, h.table, h.table', h.calls, by
    rw [State.print, State.print, h.output]⟩

theorem defineFunction (h : st.Alike G M K st') {d d' : FunctionDecl}
    (hname : G.declared K d.name = d.name) (hd : d.Alike G K d') :
    (st.defineFunction d).Alike G M K (st'.defineFunction d') ∧
      st.store.Prolongs M (st.defineFunction d).store M := by
  obtain ⟨hstore, hclosure⟩ := h.store.newClosure [] false h.marked hd
  have hs : st.store.Prolongs M (st.store.newClosure d st.current false).2 M := .of_scopes_eq rfl
  rw [← h.current] at hstore hclosure
  obtain ⟨hdefine, hs'⟩ := (h.of_store hstore hs).define d.name (.function hclosure)
  rw [hname.trans hd.name.symm] at hdefine
  exact ⟨hdefine, hs.trans hs'⟩

end State.Alike

/-! ## Classes -/

/-- The methods of a class are made around one scope. -/
theorem State.newMethods_alike {e : ScopeRef} :
    ∀ {ds ds' : List FunctionDecl} {s s' : Store}, s.Alike G M s' → s.Marked M e K →
      FunctionDecl.AreAlike G (false :: K) ds ds' →
      (newMethods s e ds).2.Alike G M (newMethods s' (e + G.shift) ds').2 ∧
        s.Prolongs M (newMethods s e ds).2 M ∧
        List.Forall₂ (Closure.Alike G (newMethods s e ds).2 M [false]) (newMethods s e ds).1
          (newMethods s' (e + G.shift) ds').1
  | [], _, s, s', h, _, .nil _ => ⟨h, .of_scopes_eq rfl, .nil⟩
  | d :: ds, d' :: ds', s, s', h, hK, .cons hd hds => by
      have hname : d'.name = d.name := hd.name
      obtain ⟨hstore, hfirst⟩ :=
        h.newClosure [false] (d.name.lexeme == initializerName) hK hd
      have hs : s.Prolongs M (s.newClosure d e (d.name.lexeme == initializerName)).2 M :=
        .of_scopes_eq rfl
      obtain ⟨hrest, hs', hmethods⟩ := newMethods_alike hstore (hK.prolong hs) hds
      simp only [newMethods, hname]
      exact ⟨hrest, hs.trans hs', .cons (hfirst.prolong hs') hmethods⟩

namespace State.Alike

/-- A class is made whose methods are around one scope, in stores that have been made
ready for them. -/
theorem made (h : st.Alike G M K st') {e : ScopeRef} {L : List Bool} {s s' : Store} {N : Marks}
    (hs : st.store.Prolongs M s N) (hstore : s.Alike G N s') (he : s.Marked N e L)
    {ds ds' : List FunctionDecl} (hds : FunctionDecl.AreAlike G (false :: L) ds ds') :
    State.Alike G N K { st with store := (newMethods s e ds).2.newIdentity.2 }
        { st' with store := (newMethods s' (e + G.shift) ds').2.newIdentity.2 } ∧
      s.Prolongs N (newMethods s e ds).2.newIdentity.2 N ∧
      (newMethods s' (e + G.shift) ds').2.nextIdentity = (newMethods s e ds).2.nextIdentity ∧
      List.Forall₂ (Closure.Alike G (newMethods s e ds).2.newIdentity.2 N [false])
        (newMethods s e ds).1 (newMethods s' (e + G.shift) ds').1 := by
  obtain ⟨hmade, hs', hmethods⟩ := newMethods_alike hstore he hds
  have hlast : (newMethods s e ds).2.Prolongs N (newMethods s e ds).2.newIdentity.2 N :=
    .of_scopes_eq rfl
  exact ⟨h.of_store (hmade.of_eq rfl rfl rfl rfl (congrArg Nat.succ hmade.identity))
    ((hs.trans hs').trans hlast), hs'.trans hlast, hmade.identity,
    hmethods.imp fun _ _ hm => hm.prolong hlast⟩

theorem newClass_base (h : st.Alike G M K st') (name : Token) {ds ds' : List FunctionDecl}
    (hds : FunctionDecl.AreAlike G (false :: K) ds ds') :
    ∃ N, (st.newClass name none ds).2.Alike G N K (st'.newClass name none ds').2 ∧
      st.store.Prolongs M (st.newClass name none ds).2.store N ∧
      (st.newClass name none ds).1.Alike G (st.newClass name none ds).2.store N
        (st'.newClass name none ds').1 := by
  obtain ⟨hstate, hs, hidentity, hmethods⟩ :=
    h.made (.of_scopes_eq rfl) h.store h.marked hds
  rw [← h.current] at hstate hidentity hmethods
  exact ⟨M, hstate, hs, .base hidentity name.lexeme hmethods⟩

theorem newClass_derived (h : st.Alike G M K st') (name : Token) {c c' : Class}
    (hc : c.Alike G st.store M c') {ds ds' : List FunctionDecl}
    (hds : FunctionDecl.AreAlike G (false :: false :: K) ds ds') :
    ∃ N, (st.newClass name (some c) ds).2.Alike G N K (st'.newClass name (some c') ds').2 ∧
      st.store.Prolongs M (st.newClass name (some c) ds).2.store N ∧
      (st.newClass name (some c) ds).1.Alike G (st.newClass name (some c) ds).2.store N
        (st'.newClass name (some c') ds').1 := by
  have hsuper : (Value.cls c).Alike G st.store M (.cls c') := .cls hc
  have hscope := h.store.newScope st.current false (hsuper.given .super false)
  have hnew : st.store.Prolongs M _ (Function.update M st.store.scopes.size false) :=
    .newScope (NameMap.empty.insert Keyword.super.text (.cls c)) (some st.current) false
  obtain ⟨hstate, hs, hidentity, hmethods⟩ :=
    h.made hnew hscope (h.marked.newScope _ false) hds
  rw [← h.current, ← h.store.size] at hstate hidentity hmethods
  exact ⟨_, hstate, hnew.trans hs,
    .derived hidentity name.lexeme (hc.prolong (hnew.trans hs)) hmethods⟩

end State.Alike

end Lox
