import Lox.Proofs.Incremental.Lexing
import Lox.Proofs.Syntax.Exactness

/-!
# Programs in braces

A program in braces is one block. Its tokens are those of the program between two
braces, and because every piece of a program closes the braces that it opens, the
last brace is the one that closes the first.
-/

namespace Lox

/-- A source in braces. The second stands on a line of its own, lest it is part of a
comment. -/
def inBraces (source : String) : String :=
  "\x7b" ++ source ++ "\n\x7d"

/-! ## Tokens -/

theorem lex_inBraces {source : String} {tokens : List Token}
    (h : (lex source).toExcept = .ok tokens) :
    ∃ (body : List Token) (line : Nat), tokens = body ++ [.endOfInput line] ∧
      (∀ t ∈ body, t.isEnd = false) ∧
      (lex (inBraces source)).toExcept =
        .ok ((⟨.symbol .leftBrace, "\x7b", 1⟩ :: body ++ [⟨.symbol .rightBrace, "\x7d", line + 1⟩]) ++
          [.endOfInput (line + 1)]) := by
  obtain ⟨body, line, hbody, hends⟩ := lex_body h
  have hcut : lexFrom 1 source.toList = ⟨tokens, none⟩ := Lexing.toExcept_eq_ok h
  obtain ⟨ts, hts, happend⟩ := lexFrom_append 1 source.toList ['\x7d'] (by rw [hcut])
  rw [hcut, hbody] at hts
  obtain ⟨rfl, hline⟩ := List.append_inj' hts rfl
  have hline : line = 1 + newlines source.toList :=
    congrArg Token.line (List.singleton_inj.mp hline)
  refine ⟨body, line, hbody, hends, ?_⟩
  have hchars : (inBraces source).toList = '\x7b' :: (source.toList ++ ['\n', '\x7d']) := by
    simp [inBraces]
  have hfirst : Chunk.first '\x7b' (source.toList ++ ['\n', '\x7d']) =
      .lexeme (.symbol .leftBrace) ['\x7b'] (source.toList ++ ['\n', '\x7d']) := rfl
  have hlast : lexFrom (line + 1) ['\x7d'] =
      ⟨[⟨.symbol .rightBrace, "\x7d", line + 1⟩, .endOfInput (line + 1)], none⟩ := by
    have hbrace : Chunk.first '\x7d' [] = .lexeme (.symbol .rightBrace) ['\x7d'] [] := rfl
    rw [lexFrom_lexeme (line + 1) hbrace, lexFrom]
    rfl
  rw [lex, hchars, lexFrom_lexeme 1 hfirst, show newlines ['\x7b'] = 0 from rfl, Nat.add_zero,
    happend, ← hline, hlast]
  simp [Lexing.cons, Lexing.after, Lexing.toExcept]

/-! ## Braces that match -/

/-- What stands behind the brace that closes the outermost of so many and one more that
are open. -/
def behindBrace : Nat → List Token → Option (List Token)
  | _, [] => none
  | n, t :: ts =>
      match t.kind, n with
      | .symbol .leftBrace, n => behindBrace (n + 1) ts
      | .symbol .rightBrace, 0 => some ts
      | .symbol .rightBrace, n + 1 => behindBrace n ts
      | _, n => behindBrace n ts

/-- Whether tokens close all braces that they open, and no others. -/
def AreBalanced (w : List Token) : Prop :=
  ∀ n rest, behindBrace n (w ++ rest) = behindBrace n rest

namespace AreBalanced

variable {w w' : List Token} {t l r : Token}

theorem append (h : AreBalanced w) (h' : AreBalanced w') : AreBalanced (w ++ w') := by
  intro n rest
  rw [List.append_assoc, h, h']

theorem single (hl : t.kind ≠ .symbol .leftBrace) (hr : t.kind ≠ .symbol .rightBrace) :
    AreBalanced [t] := by
  intro n rest
  rw [List.singleton_append, behindBrace.eq_def]
  dsimp only
  split <;> first | contradiction | rfl

theorem cons (hl : t.kind ≠ .symbol .leftBrace) (hr : t.kind ≠ .symbol .rightBrace)
    (h : AreBalanced w) : AreBalanced (t :: w) :=
  (single hl hr).append h

theorem braces (hl : l.kind = .symbol .leftBrace) (h : AreBalanced w)
    (hr : r.kind = .symbol .rightBrace) : AreBalanced (l :: (w ++ [r])) := by
  intro n rest
  rw [List.cons_append, List.append_assoc]
  simp only [behindBrace, hl, h (n + 1), hr, List.singleton_append]

end AreBalanced

theorem Tier.Operator.ne_brace {t : Tier} {k : TokenKind} {node : Token → Expr → Expr → Expr}
    (h : t.Operator k node) : k ≠ .symbol .leftBrace ∧ k ≠ .symbol .rightBrace := by
  cases h <;> exact ⟨nofun, nofun⟩

theorem UnaryOp.Operator.ne_brace {k : TokenKind} {op : UnaryOp} (h : UnaryOp.Operator k op) :
    k ≠ .symbol .leftBrace ∧ k ≠ .symbol .rightBrace := by
  cases h <;> exact ⟨nofun, nofun⟩

theorem Literal.Constant.ne_brace {k : TokenKind} {v : Literal} (h : Literal.Constant k v) :
    k ≠ .symbol .leftBrace ∧ k ≠ .symbol .rightBrace := by
  cases h <;> exact ⟨nofun, nofun⟩

variable {nearest : Prop} {r : Rule} {room : Nat} {w : List Token} {tree : r.Tree}

/-- Every piece of a program closes the braces that it opens. -/
theorem Derives.areBalanced (h : Derives nearest r room w tree) : AreBalanced w := by
  induction h with
  | constant hc => exact .single hc.ne_brace.1 hc.ne_brace.2
  | operation hop _ ih => exact .cons hop.ne_brace.1 hop.ne_brace.2 ih
  | operator _ hop _ ih ih' => exact ih.append (.cons hop.ne_brace.1 hop.ne_brace.2 ih')
  | baseClass hc hn hl _ hr ih =>
    exact .cons (by simp [hc]) (by simp [hc]) (.cons (by simp [hn]) (by simp [hn])
      (.braces hl ih hr))
  | subclass hc hn hq hp hl _ hr ih =>
    exact .cons (by simp [hc]) (by simp [hc]) (.cons (by simp [hn]) (by simp [hn])
      (.cons (by simp [hq]) (by simp [hq]) (.cons (by simp [hp]) (by simp [hp])
        (.braces hl ih hr))))
  | block hl _ hr ih => exact .braces hl ih hr
  | _ =>
    intro n rest
    simp_all [AreBalanced, behindBrace]

/-! ## The block -/

/-- A declaration that starts with a brace is a block. -/
theorem Derives.block_of_leftBrace {s : Stmt} {l : Token} {w' : List Token}
    (h : Derives nearest .declaration room w s) (hw : w = l :: w')
    (hl : l.kind = .symbol .leftBrace) : ∃ ss, s = .block ss ∧ Derives nearest .block room w ss := by
  -- No other declaration or statement can start with a brace.
  have hstarts {r : Rule} {tree : r.Tree} (hd : Derives nearest r room w tree) :
      r.Starts (.symbol .leftBrace) := by
    have hopens := hd.opens
    rwa [hw, Rule.Opens, hl] at hopens
  cases h with
  | declareClass h => cases hstarts h
  | declareVariable h => cases hstarts h
  | declareFunction hf => simp_all
  | statement h =>
    cases h with
    | blockStmt h => exact ⟨_, rfl, h⟩
    | evaluate h => cases hstarts h
    | _ => simp_all

/-- Nothing is declared by no tokens. -/
theorem Derives.declarations_nil {ss : List Stmt} (h : Derives nearest .declarations room w ss)
    (hw : w = []) : ss = [] := by
  cases h with
  | noDeclaration => rfl
  | declarations hfirst _ =>
    rw [List.append_eq_nil_iff] at hw
    exact absurd hw.1 (hfirst.opens.ne_nil rfl)

/-- Tokens in braces are one block, of what stands between the braces. -/
theorem Derives.of_braces {l r : Token} {w : List Token} {room : Nat} {ss : List Stmt}
    (h : Derives nearest .declarations room (l :: w ++ [r]) ss) (hl : l.kind = .symbol .leftBrace)
    (hr : r.kind = .symbol .rightBrace) (hw : AreBalanced w) :
    ∃ body, ss = [.block body] ∧ Derives nearest .declarations room w body := by
  generalize hwhole : l :: w ++ [r] = whole at h
  cases h with
  | noDeclaration => cases hwhole
  | @declarations _ first rest s ss hfirst hrest =>
    cases first with
    | nil => exact absurd hfirst.opens (by simp [Rule.Opens, Rule.isNullable])
    | cons l' first =>
      obtain ⟨rfl, htail⟩ := List.cons.inj hwhole
      change w ++ [r] = first ++ rest at htail
      obtain ⟨body, rfl, hblock⟩ := hfirst.block_of_leftBrace rfl hl
      generalize hblocked : l :: first = blocked at hblock
      cases hblock with
      | @block room l' inner r' _ _ hinner hr' =>
        obtain rfl : first = inner ++ [r'] := (List.cons.inj hblocked).2
        -- Both last braces close the first.
        have hbehind : behindBrace 0 (w ++ [r]) = some [] := by simp [hw 0, behindBrace, hr]
        rw [htail, List.append_assoc, hinner.areBalanced 0] at hbehind
        simp only [List.singleton_append, behindBrace, hr', Option.some.injEq] at hbehind
        rw [hbehind, List.append_nil] at htail
        obtain ⟨rfl, -⟩ := List.append_inj' htail rfl
        rw [hrest.declarations_nil hbehind]
        have hroom := hinner.weaken id 1
        rw [Nat.add_comm] at hroom
        exact ⟨body, rfl, hroom⟩

theorem Stmt.eq_block_of_unnumbered {ss body : List Stmt}
    (h : Stmt.unnumberedAll ss = [.block body]) :
    ∃ body', ss = [.block body'] ∧ Stmt.unnumberedAll body' = body := by
  obtain _ | ⟨s, _ | ⟨s', ss⟩⟩ := ss
  · simp only [Stmt.unnumberedAll, reduceCtorEq] at h
  · cases s with
    | block body' =>
      simp only [Stmt.unnumberedAll, Stmt.unnumbered, List.cons.injEq, Stmt.block.injEq] at h
      exact ⟨body', rfl, h.1⟩
    | _ => simp only [Stmt.unnumberedAll, Stmt.unnumbered, List.cons.injEq, reduceCtorEq,
        false_and] at h
  · simp only [Stmt.unnumberedAll, List.cons.injEq, reduceCtorEq, and_false] at h

/-- If a program can be read, what is read in braces is the program as one block. -/
theorem eq_block_of_inBraces {source : String} {tokens tokens' : List Token}
    {program braced : List Stmt} {firstId nextId firstId' nextId' : NodeId}
    (hlex : (lex source).toExcept = .ok tokens)
    (hparse : parseProgram tokens firstId = (.ok program, nextId))
    (hlex' : (lex (inBraces source)).toExcept = .ok tokens')
    (hparse' : parseProgram tokens' firstId' = (.ok braced, nextId')) :
    ∃ body, braced = [.block body] ∧ Stmt.unnumberedAll program = Stmt.unnumberedAll body := by
  obtain ⟨w, line, rfl, hends, hbraces⟩ := lex_inBraces hlex
  obtain rfl := Except.ok.inj (hbraces.symm.trans hlex')
  have hprogram := parseProgram_sound rfl hends hparse
  have hendsBraced (t : Token) (ht : t ∈ ⟨.symbol .leftBrace, "\x7b", 1⟩ :: w ++
      [⟨.symbol .rightBrace, "\x7d", line + 1⟩]) : t.isEnd = false := by
    simp only [List.cons_append, List.mem_cons, List.mem_append, List.not_mem_nil, or_false] at ht
    obtain rfl | ht | rfl := ht
    · rfl
    · exact hends t ht
    · rfl
  have hbraced := parseProgram_sound rfl hendsBraced hparse'
  obtain ⟨tree, htree, hbody⟩ := hbraced.of_braces rfl rfl hprogram.areBalanced
  -- A list of tokens has only one tree.
  have heof : (Token.endOfInput line).isEnd = true := rfl
  obtain ⟨program', nextId'', hparse'', rfl⟩ := parseProgram_complete heof hbody firstId
  rw [hparse] at hparse''
  cases hparse''
  obtain ⟨body, rfl, hbody⟩ := Stmt.eq_block_of_unnumbered htree
  exact ⟨body, rfl, hbody.symm⟩

end Lox
