import SchemaLift.Proofs.Type.Spelling

/-!
# The rendered type expression

An expression in its new form is again made of tokens of type expressions with balanced brackets,
whatever follows that does not continue its last word (`tokenize_render_append`,
`exists_tokenize_render`).
-/

namespace SchemaLift

namespace TypeExpression

open Scan

theorem Stretch.addGap {depth d : Nat} {ts : List Token} (h : Stretch depth ts d) (gap : Text) :
    Stretch depth (Token.addGap gap ts) d := by
  cases ts with
  | nil => exact h
  | cons t ts =>
    refine ⟨fun u hu => ?_, h.depth⟩
    rcases List.mem_cons.1 hu with rfl | hu
    · exact h.kinds t List.mem_cons_self
    · exact h.kinds u (List.mem_cons_of_mem t hu)

/-! ## Brackets -/

/-- Opening and closing square brackets, without gaps. -/
def openers (n : Nat) : List Token := List.replicate n ⟨[], .lbracket, ['[']⟩

def closers (n : Nat) : List Token := List.replicate n ⟨[], .rbracket, [']']⟩

theorem tokenize_openers (n : Nat) (rest : Text) :
    tokenize (List.replicate n '[' ++ rest) = openers n ++ tokenize rest := by
  induction n with
  | zero => rfl
  | succ n ih =>
    rw [List.replicate_succ, List.cons_append, tokenize_char .lbracket rfl, ih, openers,
      openers, List.replicate_succ, List.cons_append]

theorem tokenize_closers (n : Nat) (rest : Text) :
    tokenize (List.replicate n ']' ++ rest) = closers n ++ tokenize rest := by
  induction n with
  | zero => rfl
  | succ n ih =>
    rw [List.replicate_succ, List.cons_append, tokenize_char .rbracket rfl, ih, closers,
      closers, List.replicate_succ, List.cons_append]

theorem stretch_openers (n depth : Nat) : Stretch depth (openers n) (depth + n) := by
  induction n generalizing depth with
  | zero => exact .nil depth
  | succ n ih =>
    have hone : Stretch depth [⟨[], .lbracket, ['[']⟩] (depth + 1) := .opening (.inl rfl) depth
    have hall := hone.append (ih (depth + 1))
    rwa [Nat.add_right_comm] at hall

theorem stretch_closers (n depth : Nat) : Stretch (depth + n) (closers n) depth := by
  induction n with
  | zero => exact .nil depth
  | succ n ih =>
    have hone : Stretch (depth + n + 1) [⟨[], .rbracket, [']']⟩] (depth + n) :=
      .closing (.inl rfl) (depth + n)
    exact hone.append ih

theorem delimits_closers (n : Nat) {rest : Text} (hr : Delimits rest) :
    Delimits (List.replicate n ']' ++ rest) := by
  cases n with
  | zero => exact hr
  | succ n => exact delimits_cons (by decide) _

/-! ## Tokens -/

theorem Base.exists_tokenize {base : Text} (hb : Base base) : ∃ ts, ts ≠ [] ∧
    (∀ depth, Stretch depth ts depth) ∧
    ∀ rest, Delimits rest → tokenize (base ++ rest) = ts ++ tokenize rest := by
  induction hb with
  | @constant path h =>
    have hkind : TokenKind.constant ∈ [TokenKind.bang, .arrow, .dot, .constant, .identifier] := by
      decide
    exact ⟨[⟨[], .constant, path⟩], List.cons_ne_nil _ _, fun depth => .flat hkind depth,
      fun rest hr => tokenize_constant_append h hr⟩
  | @method base name _ hn ih =>
    obtain ⟨ts, hne, hstretch, htokens⟩ := ih
    refine ⟨ts ++ ([⟨[], .dot, ['.']⟩] ++ [⟨[], .identifier, name⟩]), by simp, fun depth => ?_,
      fun rest hr => ?_⟩
    · have hdot : Stretch depth [⟨[], .dot, ['.']⟩] depth := .flat (by decide) depth
      have hkind : TokenKind.identifier ∈ [TokenKind.bang, .arrow, .dot, .constant, .identifier] := by
        decide
      exact (hstretch depth).append (hdot.append (.flat hkind depth))
    · rw [List.append_assoc, List.cons_append, htokens _ (delimits_cons (by decide) _),
        tokenize_char .dot rfl, tokenize_identifier_append hn hr]
      simp

/-- The tokens of the new form around those of the base. -/
def renderTokens (deferred : Bool) (n : Nat) (base : List Token) : List Token :=
  let inner := openers n ++ (base ++ closers n)
  if deferred then
    ⟨[], .arrow, ['-', '>']⟩ :: ⟨[' '], .lbrace, ['{']⟩ ::
      (Token.addGap [' '] inner ++ [⟨[' '], .rbrace, ['}']⟩])
  else inner

theorem renderTokens_ne_nil (deferred : Bool) (n : Nat) {base : List Token} (h : base ≠ []) :
    renderTokens deferred n base ≠ [] := by
  cases deferred <;> simp [renderTokens, h]

theorem stretch_renderTokens (deferred : Bool) (n : Nat) {base : List Token}
    (h : ∀ depth, Stretch depth base depth) : Stretch 0 (renderTokens deferred n base) 0 := by
  -- the lists around the base
  have hinner : ∀ depth, Stretch depth (openers n ++ (base ++ closers n)) depth := fun depth =>
    (stretch_openers n depth).append ((h _).append (stretch_closers n depth))
  cases deferred with
  | false => exact hinner 0
  | true =>
    have harrow : Stretch 0 [⟨[], .arrow, ['-', '>']⟩] 0 := .flat (by decide) 0
    have hopen : Stretch 0 [⟨[' '], .lbrace, ['{']⟩] 1 := .opening (.inr rfl) 0
    have hclose : Stretch 1 [⟨[' '], .rbrace, ['}']⟩] 0 := .closing (.inr rfl) 0
    exact harrow.append (hopen.append (((hinner 1).addGap [' ']).append hclose))

theorem tokenize_arrow_append (s : Text) : tokenize ("-> \x7b ".toList ++ s) =
    ⟨[], .arrow, ['-', '>']⟩ :: ⟨[' '], .lbrace, ['{']⟩ :: Token.addGap [' '] (tokenize s) := by
  have hspace : ∀ c ∈ [' '], Text.isBlankChar c = true := List.all_eq_true.1 (by decide)
  have harrow : tokenize ('-' :: (['>'] ++ ([' '] ++ '{' :: ([' '] ++ s)))) =
      ⟨[], .arrow, ['-', '>']⟩ :: tokenize ([' '] ++ '{' :: ([' '] ++ s)) :=
    tokenize_of_pieces (pieces_of_head (w := ['>']) rfl)
  rw [tokenize_blank_append hspace, tokenize_char (c := '{') .lbrace rfl,
    tokenize_blank_append hspace] at harrow
  exact harrow

theorem tokenize_brace_append (rest : Text) :
    tokenize (" \x7d".toList ++ rest) = ⟨[' '], .rbrace, ['}']⟩ :: tokenize rest := by
  have hspace : ∀ c ∈ [' '], Text.isBlankChar c = true := List.all_eq_true.1 (by decide)
  have hbrace := tokenize_blank_append hspace ('}' :: rest)
  rw [tokenize_char .rbrace rfl] at hbrace
  exact hbrace

/-- The tokens of the new form. -/
theorem tokenize_render_append {t : TypeExpression} {base : List Token} (hne : base ≠ [])
    (hbase : ∀ rest, Delimits rest → tokenize (t.base ++ rest) = base ++ tokenize rest) {rest : Text}
    (hr : Delimits rest) :
    tokenize (t.render ++ rest) = renderTokens t.deferred t.listDepth base ++ tokenize rest := by
  generalize hn : t.listDepth = n
  have hinnerTokens : ∀ rest, Delimits rest →
      tokenize (List.replicate n '[' ++ t.base ++ List.replicate n ']' ++ rest) =
        (openers n ++ (base ++ closers n)) ++ tokenize rest := by
    intro rest hr
    rw [List.append_assoc, List.append_assoc, tokenize_openers, hbase _ (delimits_closers n hr),
      tokenize_closers]
    simp only [List.append_assoc]
  have hinnerNe : openers n ++ (base ++ closers n) ≠ [] := by simp [hne]
  unfold render renderTokens
  rw [hn]
  generalize openers n ++ (base ++ closers n) = inner at *
  generalize List.replicate n '[' ++ t.base ++ List.replicate n ']' = text at *
  cases t.deferred with
  | false => exact hinnerTokens rest hr
  | true =>
    have hend : Delimits (" \x7d".toList ++ rest) :=
      delimits_cons (d := ' ') (by decide) ('}' :: rest)
    simp only [↓reduceIte]
    rw [List.append_assoc, List.append_assoc, tokenize_arrow_append, hinnerTokens _ hend,
      Token.addGap_append hinnerNe, tokenize_brace_append]
    simp

theorem exists_tokenize_render {t : TypeExpression} (hb : Base t.base) : ∃ ts, ts ≠ [] ∧
    Stretch 0 ts 0 ∧ ∀ rest, Delimits rest → tokenize (t.render ++ rest) = ts ++ tokenize rest := by
  obtain ⟨base, hne, hbase, htokens⟩ := hb.exists_tokenize
  exact ⟨_, renderTokens_ne_nil t.deferred t.listDepth hne, stretch_renderTokens _ _ hbase,
    fun rest hr => tokenize_render_append hne htokens hr⟩

/-! ## Characters -/

theorem Base.isTokenChar {base : Text} (hb : Base base) :
    ∀ d ∈ base, TypeExpression.isTokenChar d = true := by
  induction hb with
  | constant h => exact isTokenChar_constantPath h
  | method _ hn ih =>
    intro d hd
    simp only [List.mem_append, List.mem_cons] at hd
    rcases hd with hd | rfl | hd
    · exact ih d hd
    · decide
    · exact isTokenChar_identifier hn d hd

theorem isTokenChar_render {t : TypeExpression} (hb : Base t.base) :
    ∀ d ∈ t.render, isTokenChar d = true ∨ d = ' ' := by
  have hinner : ∀ d ∈ List.replicate t.listDepth '[' ++ t.base ++ List.replicate t.listDepth ']',
      isTokenChar d = true := by
    intro d hd
    rcases List.mem_append.1 hd with hd | hd
    · rcases List.mem_append.1 hd with hd | hd
      · rw [List.eq_of_mem_replicate hd]
        decide
      · exact hb.isTokenChar d hd
    · rw [List.eq_of_mem_replicate hd]
      decide
  have hall : ∀ text : Text, text.all (fun d => isTokenChar d || d == ' ') = true →
      ∀ d ∈ text, isTokenChar d = true ∨ d = ' ' := by
    simp
  have hopen := hall "-> \x7b ".toList (by decide)
  have hclose := hall " \x7d".toList (by decide)
  intro d hd
  unfold render at hd
  simp only at hd
  split at hd
  · rcases List.mem_append.1 hd with hd | hd
    · rcases List.mem_append.1 hd with hd | hd
      · exact hopen d hd
      · exact .inl (hinner d hd)
    · exact hclose d hd
  · exact .inl (hinner d hd)

end TypeExpression

end SchemaLift
