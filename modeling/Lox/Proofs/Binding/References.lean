import Lox.Proofs.Binding.Sites
import Lox.Proofs.Scoping.Spelling

/-!
# References at the sites of a program

The references that stand at the sites of a program are those of its tree: each has a
site of its own. In a program that was read from a source, what is looked for at a site
is what is written there.
-/

namespace Lox

open scoped List

/-! ## Numbers of sites -/

/-- The number of the reference at a site, if there is one. -/
def Site.ids (p : Site) : List NodeId :=
  p.sought?.toList.map fun sought => sought.1.id

/-- Whether these are the numbers of the references at sites. -/
def Numbers (ps : List Site) (ids : List NodeId) : Prop :=
  ps.flatMap Site.ids ~ ids

namespace Numbers

variable {p : Site} {ps qs : List Site} {ids others : List NodeId}

theorem nil : Numbers [] [] :=
  .refl _

theorem append (h : Numbers ps ids) (h' : Numbers qs others) :
    Numbers (ps ++ qs) (ids ++ others) := by
  unfold Numbers
  rw [List.flatMap_append]
  exact List.Perm.append h h'

theorem cons (h : Numbers ps ids) (hp : p.ids = others) : Numbers (p :: ps) (others ++ ids) := by
  unfold Numbers
  rw [List.flatMap_cons, hp]
  exact List.Perm.append_left _ h

/-- No reference stands at the first site itself. -/
theorem root (h : Numbers ps ids) (hp : p.ids = []) : Numbers (p :: ps) ids :=
  h.cons hp

end Numbers

section

variable (x : Option Token) (Γ : Frames)

mutual

theorem Expr.numbers_sites : ∀ e : Expr, Numbers (e.sites x Γ) e.ids
  | .literal _ => Numbers.nil.root rfl
  | .variable _ => Numbers.nil.cons rfl
  | .receiver _ => Numbers.nil.cons rfl
  | .inherited _ _ => Numbers.nil.cons rfl
  | .grouping inner => (Expr.numbers_sites inner).root rfl
  | .unary _ _ operand => (Expr.numbers_sites operand).root rfl
  | .binary _ _ left right =>
      ((Expr.numbers_sites left).append (Expr.numbers_sites right)).root rfl
  | .logical _ _ left right =>
      ((Expr.numbers_sites left).append (Expr.numbers_sites right)).root rfl
  | .assign target value => by
      have hall : Numbers ((Expr.assign target value).sites x Γ) ([target.id] ++ value.ids) :=
        (Expr.numbers_sites value).cons rfl
      exact hall.trans List.perm_append_comm
  | .get object _ => (Expr.numbers_sites object).root rfl
  | .set object name value => by
      have hall : Numbers ((Expr.set object name value).sites x Γ) (value.ids ++ object.ids) :=
        ((Expr.numbers_sites value).append (Expr.numbers_sites object)).root rfl
      exact hall.trans List.perm_append_comm
  | .call callee _ arguments =>
      ((Expr.numbers_sites callee).append (Expr.numbers_sitesAll arguments)).root rfl

theorem Expr.numbers_sitesAll : ∀ es : List Expr, Numbers (Expr.sitesAll x Γ es) (Expr.idsAll es)
  | [] => .nil
  | e :: es => (Expr.numbers_sites e).append (Expr.numbers_sitesAll es)

end

theorem Expr.numbers_sitesOptional (e : Option Expr) :
    Numbers (Expr.sitesOptional x Γ e) (Expr.idsOptional e) := by
  cases e with
  | none => exact .nil
  | some e => exact e.numbers_sites x Γ

end

theorem numbers_parameterSites (Γ : Frames) (names : List Token) :
    Numbers (parameterSites Γ names) [] := by
  induction names generalizing Γ with
  | nil => exact .nil
  | cons name names ih => exact (ih _).root rfl

mutual

theorem Stmt.numbers_sites (Γ : Frames) : ∀ s : Stmt, Numbers (s.sites Γ) s.ids
  | .expression value => (value.numbers_sites none Γ).root rfl
  | .print value => (value.numbers_sites none Γ).root rfl
  | .varDecl _ initializer => (Expr.numbers_sitesOptional _ _ initializer).root rfl
  | .funDecl function => (FunctionDecl.numbers_sites _ _ function).root rfl
  | .classDecl name none methods =>
      (FunctionDecl.numbers_sitesAll none (Γ.past [name]) methods).root rfl
  | .classDecl name (some superclass) methods => by
      have hsuper := Expr.numbers_sites none (Γ.past [name]) (.variable superclass)
      exact (hsuper.append (FunctionDecl.numbers_sitesAll _ _ methods)).root rfl
  | .block body => (Stmt.numbers_sitesAll _ body).root rfl
  | .branch condition yes no =>
      ((condition.numbers_sites none Γ).append ((Stmt.numbers_sites Γ yes).append
        (Stmt.numbers_sitesOptional _ no))).root rfl
  | .loop condition body =>
      ((condition.numbers_sites none Γ).append (Stmt.numbers_sites Γ body)).root rfl
  | .ret _ value => (Expr.numbers_sitesOptional none Γ value).root rfl

theorem FunctionDecl.numbers_sites (opening : Opening) (Γ : Frames) :
    ∀ d : FunctionDecl, Numbers (d.sites opening Γ) d.ids
  | ⟨_, parameters, body⟩ =>
      (numbers_parameterSites _ parameters).append (Stmt.numbers_sitesAll _ body)

theorem Stmt.numbers_sitesAll (Γ : Frames) :
    ∀ ss : List Stmt, Numbers (Stmt.sitesAll Γ ss) (Stmt.idsAll ss)
  | [] => .nil
  | s :: ss => (Stmt.numbers_sites Γ s).append (Stmt.numbers_sitesAll _ ss)

theorem FunctionDecl.numbers_sitesAll (superclass : Option Reference) (Γ : Frames) :
    ∀ ds : List FunctionDecl,
      Numbers (FunctionDecl.sitesAll superclass Γ ds) (FunctionDecl.idsAll ds)
  | [] => .nil
  | d :: ds =>
      (FunctionDecl.numbers_sites _ Γ d).append (FunctionDecl.numbers_sitesAll superclass Γ ds)

theorem Stmt.numbers_sitesOptional (Γ : Frames) :
    ∀ s : Option Stmt, Numbers (Stmt.sitesOptional Γ s) (Stmt.idsOptional s)
  | none => .nil
  | some s => Stmt.numbers_sites Γ s

end

/-- Sites with the same number are the same. -/
theorem Site.eq_of_id {ps : List Site} (h : (ps.flatMap Site.ids).Nodup) {p p' : Site}
    (hp : p ∈ ps) (hp' : p' ∈ ps) {id : NodeId} (hid : id ∈ p.ids) (hid' : id ∈ p'.ids) :
    p = p' := by
  induction ps with
  | nil => cases hp
  | cons first rest ih =>
    rw [List.flatMap_cons, List.nodup_append] at h
    obtain ⟨-, hrest, hapart⟩ := h
    have hmem {q : Site} (hq : q ∈ rest) (hqid : id ∈ q.ids) : id ∈ rest.flatMap Site.ids :=
      List.mem_flatMap.mpr ⟨q, hq, hqid⟩
    rcases List.mem_cons.mp hp with rfl | hlater <;> rcases List.mem_cons.mp hp' with rfl | hlater'
    · rfl
    · exact absurd rfl (hapart id hid id (hmem hlater' hid'))
    · exact absurd rfl (hapart id hid' id (hmem hlater hid))
    · exact ih hrest hlater hlater'

/-! ## Words of the language -/

/-- Whether what is looked for at a site is what is written there. -/
def Site.IsSpelled (p : Site) : Prop :=
  ∀ r name, p.sought? = some (r, name) → r.name.lexeme = name

theorem Site.isSpelled_of_none {p : Site} (h : p.sought? = none) : p.IsSpelled := by
  intro r name hr
  rw [h] at hr
  cases hr

theorem Site.isSpelled_of_some {p : Site} {r : Reference} {name : String}
    (h : p.sought? = some (r, name)) (hname : r.name.lexeme = name) : p.IsSpelled := by
  intro r' name' hr
  rw [h] at hr
  cases hr
  exact hname

section

variable (x : Option Token) (Γ : Frames)

mutual

theorem Expr.sites_areSpelled : ∀ e : Expr, e.unnumbered.IsSpelled →
    ∀ p ∈ e.sites x Γ, p.IsSpelled
  | .literal _, _ => List.forall_mem_singleton.mpr (Site.isSpelled_of_none rfl)
  | .variable _, _ => List.forall_mem_singleton.mpr (Site.isSpelled_of_some rfl rfl)
  | .receiver _, h => List.forall_mem_singleton.mpr (Site.isSpelled_of_some rfl h)
  | .inherited _ _, h => List.forall_mem_singleton.mpr (Site.isSpelled_of_some rfl h)
  | .grouping inner, h =>
      List.forall_mem_cons.mpr ⟨Site.isSpelled_of_none rfl, Expr.sites_areSpelled inner h⟩
  | .unary _ _ operand, h =>
      List.forall_mem_cons.mpr ⟨Site.isSpelled_of_none rfl, Expr.sites_areSpelled operand h.2⟩
  | .binary _ _ left right, h =>
      List.forall_mem_cons.mpr ⟨Site.isSpelled_of_none rfl, List.forall_mem_append.mpr
        ⟨Expr.sites_areSpelled left h.2.1, Expr.sites_areSpelled right h.2.2⟩⟩
  | .logical _ _ left right, h =>
      List.forall_mem_cons.mpr ⟨Site.isSpelled_of_none rfl, List.forall_mem_append.mpr
        ⟨Expr.sites_areSpelled left h.2.1, Expr.sites_areSpelled right h.2.2⟩⟩
  | .assign _ value, h =>
      List.forall_mem_cons.mpr ⟨Site.isSpelled_of_some rfl rfl, Expr.sites_areSpelled value h.2⟩
  | .get object _, h =>
      List.forall_mem_cons.mpr ⟨Site.isSpelled_of_none rfl, Expr.sites_areSpelled object h⟩
  | .set object _ value, h =>
      List.forall_mem_cons.mpr ⟨Site.isSpelled_of_none rfl, List.forall_mem_append.mpr
        ⟨Expr.sites_areSpelled value h.2, Expr.sites_areSpelled object h.1⟩⟩
  | .call callee _ arguments, h =>
      List.forall_mem_cons.mpr ⟨Site.isSpelled_of_none rfl, List.forall_mem_append.mpr
        ⟨Expr.sites_areSpelled callee h.1, Expr.sitesAll_areSpelled arguments h.2⟩⟩

theorem Expr.sitesAll_areSpelled : ∀ es : List Expr, Expr.AreSpelled (Expr.unnumberedAll es) →
    ∀ p ∈ Expr.sitesAll x Γ es, p.IsSpelled
  | [], _ => List.forall_mem_nil _
  | e :: es, h => List.forall_mem_append.mpr
      ⟨Expr.sites_areSpelled e h.1, Expr.sitesAll_areSpelled es h.2⟩

end

end

theorem Expr.sitesOptional_areSpelled (x : Option Token) (Γ : Frames) (e : Option Expr)
    (h : ∀ e' ∈ e.map Expr.unnumbered, e'.IsSpelled) :
    ∀ p ∈ Expr.sitesOptional x Γ e, p.IsSpelled := by
  cases e with
  | none => exact List.forall_mem_nil _
  | some e => exact e.sites_areSpelled x Γ (h _ rfl)

theorem parameterSites_areSpelled (Γ : Frames) (names : List Token) :
    ∀ p ∈ parameterSites Γ names, p.IsSpelled := by
  induction names generalizing Γ with
  | nil => exact List.forall_mem_nil _
  | cons name names ih => exact List.forall_mem_cons.mpr ⟨Site.isSpelled_of_none rfl, ih _⟩

mutual

theorem Stmt.sites_areSpelled (Γ : Frames) : ∀ s : Stmt, s.unnumbered.IsSpelled →
    ∀ p ∈ s.sites Γ, p.IsSpelled
  | .expression value, h =>
      List.forall_mem_cons.mpr ⟨Site.isSpelled_of_none rfl, value.sites_areSpelled none Γ h⟩
  | .print value, h =>
      List.forall_mem_cons.mpr ⟨Site.isSpelled_of_none rfl, value.sites_areSpelled none Γ h⟩
  | .varDecl _ initializer, h =>
      List.forall_mem_cons.mpr ⟨Site.isSpelled_of_none rfl,
        Expr.sitesOptional_areSpelled _ _ initializer h.2⟩
  | .funDecl function, h =>
      List.forall_mem_cons.mpr ⟨Site.isSpelled_of_none rfl,
        FunctionDecl.sites_areSpelled _ _ function h⟩
  | .classDecl name none methods, h =>
      List.forall_mem_cons.mpr ⟨Site.isSpelled_of_none rfl,
        FunctionDecl.sitesAll_areSpelled none (Γ.past [name]) methods h.2.2⟩
  | .classDecl name (some superclass) methods, h =>
      List.forall_mem_cons.mpr ⟨Site.isSpelled_of_none rfl, List.forall_mem_append.mpr
        ⟨Expr.sites_areSpelled none (Γ.past [name]) (.variable superclass) (h.2.1 _ rfl),
          FunctionDecl.sitesAll_areSpelled _ _ methods h.2.2⟩⟩
  | .block body, h =>
      List.forall_mem_cons.mpr ⟨Site.isSpelled_of_none rfl, Stmt.sitesAll_areSpelled _ body h⟩
  | .branch condition yes no, h =>
      List.forall_mem_cons.mpr ⟨Site.isSpelled_of_none rfl, List.forall_mem_append.mpr
        ⟨condition.sites_areSpelled none Γ h.1, List.forall_mem_append.mpr
          ⟨Stmt.sites_areSpelled Γ yes h.2.1, Stmt.sitesOptional_areSpelled _ no h.2.2.2⟩⟩⟩
  | .loop condition body, h =>
      List.forall_mem_cons.mpr ⟨Site.isSpelled_of_none rfl, List.forall_mem_append.mpr
        ⟨condition.sites_areSpelled none Γ h.1, Stmt.sites_areSpelled Γ body h.2.1⟩⟩
  | .ret _ value, h =>
      List.forall_mem_cons.mpr ⟨Site.isSpelled_of_none rfl,
        Expr.sitesOptional_areSpelled none Γ value h⟩

theorem FunctionDecl.sites_areSpelled (opening : Opening) (Γ : Frames) :
    ∀ d : FunctionDecl, d.unnumbered.IsSpelled → ∀ p ∈ d.sites opening Γ, p.IsSpelled
  | ⟨_, parameters, body⟩, h => List.forall_mem_append.mpr
      ⟨parameterSites_areSpelled _ parameters, Stmt.sitesAll_areSpelled _ body h.2.2⟩

theorem Stmt.sitesAll_areSpelled (Γ : Frames) :
    ∀ ss : List Stmt, Stmt.AreSpelled (Stmt.unnumberedAll ss) →
      ∀ p ∈ Stmt.sitesAll Γ ss, p.IsSpelled
  | [], _ => List.forall_mem_nil _
  | s :: ss, h => List.forall_mem_append.mpr
      ⟨Stmt.sites_areSpelled Γ s h.1, Stmt.sitesAll_areSpelled _ ss h.2⟩

theorem FunctionDecl.sitesAll_areSpelled (superclass : Option Reference) (Γ : Frames) :
    ∀ ds : List FunctionDecl, FunctionDecl.AreSpelled (FunctionDecl.unnumberedAll ds) →
      ∀ p ∈ FunctionDecl.sitesAll superclass Γ ds, p.IsSpelled
  | [], _ => List.forall_mem_nil _
  | d :: ds, h => List.forall_mem_append.mpr
      ⟨FunctionDecl.sites_areSpelled _ Γ d h.1,
        FunctionDecl.sitesAll_areSpelled superclass Γ ds h.2⟩

theorem Stmt.sitesOptional_areSpelled (Γ : Frames) :
    ∀ s : Option Stmt, Stmt.IsSpelledOptional (Stmt.unnumberedOptional s) →
      ∀ p ∈ Stmt.sitesOptional Γ s, p.IsSpelled
  | none, _ => List.forall_mem_nil _
  | some s, h => Stmt.sites_areSpelled Γ s h.1

end

end Lox
