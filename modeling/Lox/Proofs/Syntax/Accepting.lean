import Lox.Proofs.Syntax.Reading

/-!
# What parsers accept

The counterpart of meeting a condition: a parser `Accepts` tokens up to a rest
if it succeeds on them, leaves the rest, reports nothing, and its result passes a
test. Parsers look at one token ahead, whose kind is `next` of the tokens.
-/

namespace Lox

/-- The kind of the next token. -/
def next (ts : List Token) : TokenKind :=
  (ts.headD (.endOfInput 0)).kind

@[simp] theorem next_cons (t : Token) (ts : List Token) : next (t :: ts) = t.kind := rfl

theorem Token.isEnd_iff {t : Token} : t.isEnd = true ↔ t.kind = .endOfInput := by
  unfold Token.isEnd
  split <;> simp_all

theorem Cursor.atEnd_iff {c : Cursor} : c.atEnd = true ↔ next c.rest = .endOfInput :=
  Token.isEnd_iff

namespace Parser

variable {α β : Type}

/-- Whether a parser reads from some tokens up to a rest without a report. -/
def Accepts (p : Parser α) (depth : Nat) (ts rest : List Token) (Q : α → Prop) : Prop :=
  ∀ nextId errors, ∃ a nextId',
    p ⟨ts, nextId, depth, errors⟩ = .ok a ⟨rest, nextId', depth, errors⟩ ∧ Q a

namespace Accepts

variable {p : Parser α} {f : α → Parser β} {depth : Nat} {ts ts' rest : List Token}
  {P Q : α → Prop} {R : β → Prop}

theorem weaken (h : p.Accepts depth ts rest P) (hQ : ∀ a, P a → Q a) :
    p.Accepts depth ts rest Q := by
  intro nextId errors
  obtain ⟨a, nextId', hp, ha⟩ := h nextId errors
  exact ⟨a, nextId', hp, hQ a ha⟩

theorem pure (a : α) (h : Q a) : Accepts (Pure.pure a : Parser α) depth ts ts Q :=
  fun nextId _ => ⟨a, nextId, rfl, h⟩

theorem bind (h : p.Accepts depth ts ts' P)
    (hf : ∀ a, P a → (f a).Accepts depth ts' rest R) : (p >>= f).Accepts depth ts rest R := by
  intro nextId errors
  obtain ⟨a, nextId', hp, ha⟩ := h nextId errors
  obtain ⟨b, nextId'', hfa, hb⟩ := hf a ha nextId' errors
  refine ⟨b, nextId'', ?_, hb⟩
  simp only [Bind.bind, EStateM.bind, hp, hfa]

/-- To go on after a value that is known. -/
theorem bind_eq {a : α} (h : p.Accepts depth ts ts' (· = a))
    (hf : (f a).Accepts depth ts' rest R) : (p >>= f).Accepts depth ts rest R :=
  h.bind fun _ ha => ha ▸ hf

theorem map {g : α → β} (h : p.Accepts depth ts rest fun a => R (g a)) :
    (g <$> p).Accepts depth ts rest R := by
  intro nextId errors
  obtain ⟨a, nextId', hp, ha⟩ := h nextId errors
  refine ⟨g a, nextId', ?_, ha⟩
  simp only [Functor.map, EStateM.map, hp]

theorem if_true {b : Prop} [Decidable b] {p q : Parser α} (hb : b)
    (h : p.Accepts depth ts rest Q) : (if b then p else q).Accepts depth ts rest Q := by
  rwa [if_pos hb]

theorem if_false {b : Prop} [Decidable b] {p q : Parser α} (hb : ¬b)
    (h : q.Accepts depth ts rest Q) : (if b then p else q).Accepts depth ts rest Q := by
  rwa [if_neg hb]

end Accepts

/-! ## Single tokens -/

variable {depth : Nat} {ts : List Token} {t : Token}

theorem accept?_some {recognise : TokenKind → Option α} {a : α} (hend : t.isEnd = false)
    (h : recognise t.kind = some a) :
    (accept? recognise).Accepts depth (t :: ts) ts (· = some (a, t)) := by
  intro nextId errors
  refine ⟨some (a, t), nextId, ?_, rfl⟩
  simp [accept?, hend, h]

theorem accept?_none {recognise : TokenKind → Option α} (h : recognise (next ts) = none) :
    (accept? recognise).Accepts depth ts ts (· = none) := by
  intro nextId errors
  refine ⟨none, nextId, ?_, rfl⟩
  cases ts with
  | nil => rfl
  | cons t ts =>
      rw [next_cons] at h
      cases hend : t.isEnd <;> simp [accept?, hend, h]

theorem accept_some {test : TokenKind → Bool} (hend : t.isEnd = false)
    (h : test t.kind = true) : (accept test).Accepts depth (t :: ts) ts (· = some t) :=
  .bind_eq (accept?_some (a := ()) hend (by simp [h])) (.pure _ rfl)

theorem accept_none {test : TokenKind → Bool} (h : test (next ts) = false) :
    (accept test).Accepts depth ts ts (· = none) :=
  .bind_eq (accept?_none (by simp [h])) (.pure _ rfl)

theorem symbol_some {s : Symbol} (h : t.kind = .symbol s) :
    (symbol s).Accepts depth (t :: ts) ts (· = some t) :=
  accept_some (by simp [Token.isEnd, h]) ((TokenKind.isSymbol_iff s).mpr h)

theorem symbol_none {s : Symbol} (h : next ts ≠ .symbol s) :
    (symbol s).Accepts depth ts ts (· = none) :=
  accept_none (by rwa [Bool.eq_false_iff, Ne, TokenKind.isSymbol_iff])

theorem keyword_some {k : Keyword} (h : t.kind = .keyword k) :
    (keyword k).Accepts depth (t :: ts) ts (· = some t) :=
  accept_some (by simp [Token.isEnd, h]) ((TokenKind.isKeyword_iff k).mpr h)

theorem keyword_none {k : Keyword} (h : next ts ≠ .keyword k) :
    (keyword k).Accepts depth ts ts (· = none) :=
  accept_none (by rwa [Bool.eq_false_iff, Ne, TokenKind.isKeyword_iff])

theorem identifier_some (h : t.kind = .identifier) :
    (accept TokenKind.isIdentifier).Accepts depth (t :: ts) ts (· = some t) :=
  accept_some (by simp [Token.isEnd, h]) (TokenKind.isIdentifier_iff.mpr h)

theorem identifier_none (h : next ts ≠ .identifier) :
    (accept TokenKind.isIdentifier).Accepts depth ts ts (· = none) :=
  accept_none (by rwa [Bool.eq_false_iff, Ne, TokenKind.isIdentifier_iff])

theorem expectSymbol_accepts {s : Symbol} (place : SymbolPlace) (h : t.kind = .symbol s) :
    (expectSymbol s place).Accepts depth (t :: ts) ts (· = t) :=
  .bind_eq (symbol_some h) (.pure _ rfl)

theorem expectName_accepts (role : NameRole) (h : t.kind = .identifier) :
    (expectName role).Accepts depth (t :: ts) ts (· = t) :=
  .bind_eq (identifier_some h) (.pure _ rfl)

theorem nextIs_accepts (s : Symbol) :
    (nextIs s).Accepts depth ts ts (· = (next ts).isSymbol s) :=
  fun nextId _ => ⟨_, nextId, rfl, rfl⟩

theorem nextIs_true {s : Symbol} (h : next ts = .symbol s) :
    (nextIs s).Accepts depth ts ts (· = true) :=
  (nextIs_accepts s).weaken fun _ ha => ha.trans ((TokenKind.isSymbol_iff s).mpr h)

theorem nextIs_false {s : Symbol} (h : next ts ≠ .symbol s) :
    (nextIs s).Accepts depth ts ts (· = false) := by
  refine (nextIs_accepts s).weaken fun _ ha => ha.trans ?_
  rwa [Bool.eq_false_iff, Ne, TokenKind.isSymbol_iff]

theorem atEnd_true (h : next ts = .endOfInput) : atEnd.Accepts depth ts ts (· = true) :=
  fun nextId _ => ⟨_, nextId, rfl, Cursor.atEnd_iff.mpr h⟩

theorem atEnd_false (h : next ts ≠ .endOfInput) : atEnd.Accepts depth ts ts (· = false) :=
  fun nextId _ => ⟨_, nextId, rfl, Bool.eq_false_iff.mpr fun he => h (Cursor.atEnd_iff.mp he)⟩

theorem reference_accepts (name : Token) :
    (reference name).Accepts depth ts ts fun r => r.name = name :=
  fun nextId _ => ⟨_, nextId + 1, rfl, rfl⟩

/-! ## Nesting and recovery -/

theorem nested_accepts {p : Parser α} {rest : List Token} {Q : α → Prop}
    (hdepth : depth < maxNesting) (h : p.Accepts (depth + 1) ts rest Q) :
    (nested p).Accepts depth ts rest Q := by
  intro nextId errors
  obtain ⟨a, nextId', hp, ha⟩ := h nextId errors
  refine ⟨a, nextId', ?_, ha⟩
  simp [nested, Nat.not_le_of_lt hdepth, hp]

theorem recovering_accepts {p : Parser Stmt} {rest : List Token} {Q : Stmt → Prop}
    (h : p.Accepts depth ts rest Q) :
    (recovering p).Accepts depth ts rest fun s => ∃ t, s = some t ∧ Q t := by
  intro nextId errors
  obtain ⟨a, nextId', hp, ha⟩ := h nextId errors
  refine ⟨some a, nextId', ?_, a, rfl, ha⟩
  simp only [recovering, hp]

end Parser

end Lox
