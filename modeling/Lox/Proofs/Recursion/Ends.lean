import Lox.Proofs.Syntax.Reading

/-!
# Tokens up to the first end

No parser looks behind the first end among the tokens, and a list that has none is
read as if it had one on line 0. So two lists that are the same `upToEnd` are read
alike, and what parsers take from the front of a list never includes an end.
-/

namespace Lox

/-- The tokens up to the first end, which is on line 0 if there is none. -/
def upToEnd : List Token → List Token
  | [] => [.endOfInput 0]
  | t :: ts => if t.isEnd then [t] else t :: upToEnd ts

/-- Whether one list of tokens is what is left of another after tokens from the front
that are no ends. -/
def Onward (ts ts' : List Token) : Prop :=
  ∃ taken, ts = taken ++ ts' ∧ ∀ t ∈ taken, t.isEnd = false

namespace Onward

variable {ts ts' ts'' : List Token} {t : Token}

theorem refl (ts : List Token) : Onward ts ts :=
  ⟨[], rfl, by simp⟩

theorem cons (h : Onward ts ts') (ht : t.isEnd = false) : Onward (t :: ts) ts' := by
  obtain ⟨taken, rfl, htaken⟩ := h
  exact ⟨t :: taken, rfl, List.forall_mem_cons.mpr ⟨ht, htaken⟩⟩

theorem trans (h : Onward ts ts') (h' : Onward ts' ts'') : Onward ts ts'' := by
  obtain ⟨taken, rfl, htaken⟩ := h
  obtain ⟨more, rfl, hmore⟩ := h'
  exact ⟨taken ++ more, (List.append_assoc ..).symm, List.forall_mem_append.mpr ⟨htaken, hmore⟩⟩

/-- What is left at the end is what the first end stands before. -/
theorem eq_dropWhile (h : Onward ts ts') (hend : (ts'.headD (.endOfInput 0)).isEnd = true) :
    ts' = ts.dropWhile fun t => !t.isEnd := by
  obtain ⟨taken, rfl, htaken⟩ := h
  rw [List.dropWhile_append_of_pos (by simpa using htaken)]
  cases ts' with
  | nil => rfl
  | cons t ts => rw [List.dropWhile_cons_of_neg (by simpa using hend)]

end Onward

/-! ## Lists that are the same up to the end -/

section

variable {ts ts' : List Token} {t : Token}

theorem upToEnd_of_forall (h : ∀ t ∈ ts, t.isEnd = false) : upToEnd ts = ts ++ [.endOfInput 0] := by
  induction ts with
  | nil => rfl
  | cons t ts ih =>
    obtain ⟨ht, hts⟩ := List.forall_mem_cons.mp h
    rw [upToEnd, if_neg (by simp [ht]), ih hts, List.cons_append]

@[simp] theorem upToEnd_upToEnd (ts : List Token) : upToEnd (upToEnd ts) = upToEnd ts := by
  induction ts with
  | nil => rfl
  | cons t ts ih =>
    rw [upToEnd]
    split
    · rename_i ht
      rw [upToEnd, if_pos ht]
    · rename_i ht
      rw [upToEnd, if_neg ht, ih]

@[simp] theorem headD_upToEnd (ts : List Token) :
    (upToEnd ts).headD (.endOfInput 0) = ts.headD (.endOfInput 0) := by
  cases ts with
  | nil => rfl
  | cons t ts =>
    rw [upToEnd]
    split <;> rfl

/-- A token that is no end stands in front of both lists, or of neither. -/
theorem exists_cons_of_upToEnd_eq (h : upToEnd (t :: ts) = upToEnd ts') (ht : t.isEnd = false) :
    ∃ us, ts' = t :: us ∧ upToEnd ts = upToEnd us := by
  rw [upToEnd, if_neg (by simp [ht])] at h
  cases ts' with
  | nil =>
    obtain ⟨rfl, -⟩ := List.cons.inj h
    cases ht
  | cons u us =>
    rw [upToEnd] at h
    split at h
    · obtain ⟨rfl, -⟩ := List.cons.inj h
      simp_all
    · obtain ⟨rfl, hus⟩ := List.cons.inj h
      exact ⟨us, rfl, hus⟩

theorem upToEnd_skipToBoundary (previous : Token) (ts : List Token) :
    upToEnd (skipToBoundary previous ts) = skipToBoundary previous (upToEnd ts) := by
  induction ts generalizing previous with
  | nil => rfl
  | cons t ts ih =>
    cases ht : t.isEnd with
    | true => simp [upToEnd, skipToBoundary, ht]
    | false =>
      simp only [upToEnd, skipToBoundary, ht, Bool.false_eq_true, if_false, Bool.false_or]
      split
      · simp only [upToEnd, ht, Bool.false_eq_true, if_false]
      · exact ih t

theorem upToEnd_resume (ts : List Token) : upToEnd (resume ts) = resume (upToEnd ts) := by
  cases ts with
  | nil => rfl
  | cons t ts =>
    cases ht : t.isEnd with
    | true => simp [upToEnd, resume, ht]
    | false =>
      simp only [upToEnd, resume, ht, Bool.false_eq_true, if_false]
      exact upToEnd_skipToBoundary t ts

theorem onward_skipToBoundary (previous : Token) (ts : List Token) :
    Onward ts (skipToBoundary previous ts) := by
  induction ts generalizing previous with
  | nil => exact .refl _
  | cons t ts ih =>
    rw [skipToBoundary]
    split
    · exact .refl _
    · rename_i hskips
      exact (ih t).cons (by simp_all)

theorem onward_resume (ts : List Token) : Onward ts (resume ts) := by
  cases ts with
  | nil => exact .refl _
  | cons t ts =>
    rw [resume]
    split
    · exact .refl _
    · rename_i ht
      exact (onward_skipToBoundary t ts).cons (by simpa using ht)

end

/-! ## Cursors -/

namespace Cursor

/-- A cursor over the tokens up to the first end alone. -/
def upToEnd (c : Cursor) : Cursor :=
  { c with rest := Lox.upToEnd c.rest }

variable {c c' : Cursor}

theorem upToEnd_eq_iff : c.upToEnd = c'.upToEnd ↔
    Lox.upToEnd c.rest = Lox.upToEnd c'.rest ∧ @Eq Nat c.nextId c'.nextId ∧ c.depth = c'.depth ∧
      c.errors = c'.errors := by
  simp only [upToEnd, mk.injEq]

theorem peek_eq_of_upToEnd (h : c.upToEnd = c'.upToEnd) : c.peek = c'.peek := by
  rw [peek, peek, ← headD_upToEnd, (upToEnd_eq_iff.mp h).1, headD_upToEnd]

theorem atEnd_eq_of_upToEnd (h : c.upToEnd = c'.upToEnd) : c.atEnd = c'.atEnd :=
  congrArg Token.isEnd (peek_eq_of_upToEnd h)

/-- What an error leaves is less than what the reading began with, unless that began at
the end: if all tokens are still there, one that is no end is skipped. -/
theorem length_resume_lt (h : Onward c.rest c'.rest) (hmore : c.atEnd = false) :
    (resume c'.rest).length < c.rest.length := by
  obtain ⟨taken, hrest, htaken⟩ := h
  cases taken with
  | cons t taken =>
    have := (Parser.resume_suffix c'.rest).length_le
    simp only [hrest, List.length_append, List.length_cons]
    omega
  | nil =>
    rw [hrest, List.nil_append]
    have hpeek : (c'.rest.headD (.endOfInput 0)).isEnd = false := by
      rwa [atEnd, peek, hrest, List.nil_append] at hmore
    cases hrest' : c'.rest with
    | nil => rw [hrest'] at hpeek; cases hpeek
    | cons t ts =>
      rw [hrest'] at hpeek
      exact Parser.length_resume_lt hpeek

end Cursor

end Lox
