import SchemaLift.Proofs.Block.Balance
import SchemaLift.Proofs.Block.OnLines
import SchemaLift.Proofs.Token.Bracket
import SchemaLift.Proofs.Token.Joins

/-!
# What code adds wherever it stands

Read afresh behind every line feed, the tokens of a text add what its lines add (`Tidy.balance_eq`). What
tokens add depends on the place where they stand, except for steady ones: these add the same everywhere but
behind a dot or between a loop and its `do`. So a text that is put together from steady ones adds what they
add together (`Joins.textBalance_eq`).
-/

namespace SchemaLift

namespace BlockEvent

/-! ## The place behind tokens -/

/-- The event of a token on its line, and whether a loop waits for its `do` behind it. -/
def stepOnLine (before : Option Token) (loop : Bool) (t : Token) : Option BlockEvent × Bool :=
  if '\n' ∈ t.gap then step none false t else step before loop t

/-- Whether a loop waits for its `do` behind tokens, as on the lines of their text. -/
def waitsOnLines (before : Option Token) (loop : Bool) : List Token → Bool
  | [] => loop
  | t :: ts => waitsOnLines (some t) (stepOnLine before loop t).2 ts

theorem onLines_cons (before : Option Token) (loop : Bool) (t : Token) (ts : List Token) :
    onLines before loop (t :: ts) =
      (stepOnLine before loop t).1 :: onLines (some t) (stepOnLine before loop t).2 ts := rfl

theorem onLines_append_behind (before : Option Token) (loop : Bool) (ts us : List Token) :
    onLines before loop (ts ++ us) = onLines before loop ts ++
      onLines (ts.getLast?.or before) (waitsOnLines before loop ts) us := by
  induction ts generalizing before loop with
  | nil => rfl
  | cons t ts ih =>
    rw [List.cons_append, onLines_cons, ih, onLines_cons, waitsOnLines]
    cases ts <;> rfl

theorem waitsOnLines_append (before : Option Token) (loop : Bool) (ts us : List Token) :
    waitsOnLines before loop (ts ++ us) =
      waitsOnLines (ts.getLast?.or before) (waitsOnLines before loop ts) us := by
  induction ts generalizing before loop with
  | nil => rfl
  | cons t ts ih =>
    rw [List.cons_append, waitsOnLines, ih, waitsOnLines]
    cases ts <;> rfl

theorem waitsOnLines_addGap (g : Text) (ts : List Token) :
    waitsOnLines none false (Token.addGap g ts) = waitsOnLines none false ts := by
  cases ts with
  | nil => rfl
  | cons t ts =>
    have hstep : step none false { t with gap := g ++ t.gap } = step none false t := rfl
    have hgap : ∀ (loop : Bool) (u : Token), waitsOnLines (some { u with gap := g ++ u.gap }) loop ts =
        waitsOnLines (some u) loop ts := by
      intro loop u
      cases ts <;> rfl
    rw [Token.addGap_cons, waitsOnLines, waitsOnLines, stepOnLine, stepOnLine, hstep, hgap, ite_self,
      ite_self]

end BlockEvent

open BlockEvent

/-! ## Steady tokens -/

/-- What tokens add to the depth of blocks and to that of brackets, as on the lines of their text. -/
def codeBalance (ts : List Token) : Int × Int :=
  (total ((onLines none false ts).flatMap Option.toList), Token.bracketDepth ts)

/-- Tokens that add the same behind a token as on a line of their own, unless it is a dot, and leave such a
place behind them. -/
structure Steady (ts : List Token) : Prop where
  /-- A keyword comes first only on a line of its own. -/
  first : ∀ t ∈ ts.head?, isWordOf openers t = true → '\n' ∈ t.gap
  last : afterDot ts.getLast? = false
  loop : waitsOnLines none false ts = false

instance (ts : List Token) : Decidable (Steady ts) :=
  decidable_of_iff ((∀ t ∈ ts.head?, isWordOf openers t = true → '\n' ∈ t.gap) ∧
      afterDot ts.getLast? = false ∧ waitsOnLines none false ts = false)
    ⟨fun h => ⟨h.1, h.2.1, h.2.2⟩, fun h => ⟨h.first, h.last, h.loop⟩⟩

theorem codeBalance_addGap (g : Text) (ts : List Token) :
    codeBalance (Token.addGap g ts) = codeBalance ts := by
  rw [codeBalance, onLines_addGap, bracketDepth_addGap, codeBalance]

/-- No token is a keyword of a block. -/
def Wordless (ts : List Token) : Prop := ∀ t ∈ ts, isWordOf openers t = false

instance (ts : List Token) : Decidable (Wordless ts) :=
  List.decidableBAll (fun t => isWordOf openers t = false) ts

/-- A token that opens and closes no block, wherever it stands. -/
def Token.Eventless (t : Token) : Prop :=
  isWordOf openers t = false ∧ t.kind ≠ .doWord ∧ t.kind ≠ .endWord

theorem BlockEvent.step_of_eventless {t : Token} (h : t.Eventless) (before : Option Token) :
    step before false t = (none, false) := by
  obtain ⟨hword, hdo, hend⟩ := h
  simp only [step, hdo, hend, hword, Bool.and_false, Bool.false_eq_true, ↓reduceIte]
  split_ifs <;> rfl

section

variable {ts : List Token} (h : ∀ t ∈ ts, t.Eventless)
include h

theorem BlockEvent.onLines_of_eventless (before : Option Token) :
    (onLines before false ts).flatMap Option.toList = [] ∧ waitsOnLines before false ts = false := by
  induction ts generalizing before with
  | nil => exact ⟨rfl, rfl⟩
  | cons t ts ih =>
    obtain ⟨ht, hrest⟩ := List.forall_mem_cons.1 h
    have hstep : stepOnLine before false t = (none, false) := by
      rw [stepOnLine, step_of_eventless ht, step_of_eventless ht, ite_self]
    rw [onLines_cons, waitsOnLines, hstep]
    exact ih hrest (some t)

/-- Only the brackets of such tokens count. -/
theorem codeBalance_of_eventless : codeBalance ts = (0, Token.bracketDepth ts) := by
  rw [codeBalance, (onLines_of_eventless h none).1]
  rfl

theorem steady_of_eventless (hlast : afterDot ts.getLast? = false) : Steady ts where
  first t ht hword := by
    rw [(h t (List.mem_of_mem_head? ht)).1] at hword
    cases hword
  last := hlast
  loop := (onLines_of_eventless h none).2

end

theorem Token.Eventless.of_kind {t : Token} (h : t.kind ∉ [TokenKind.identifier, .doWord, .endWord]) :
    t.Eventless := by
  simp only [List.mem_cons, List.not_mem_nil, or_false, not_or] at h
  exact ⟨Bool.eq_false_iff.2 fun hword => h.1 (isWordOf_iff.1 hword).1, h.2.1, h.2.2⟩

/-- A single such token adds its bracket. -/
theorem Token.Eventless.steady {t : Token} (h : t.Eventless) (hdot : t.kind ∉ [TokenKind.dot, .scope]) :
    Steady [t] ∧ codeBalance [t] = (0, t.bracketDelta) := by
  have hone : ∀ u ∈ [t], u.Eventless := fun u hu => List.mem_singleton.1 hu ▸ h
  simp only [List.mem_cons, List.not_mem_nil, or_false, not_or] at hdot
  refine ⟨steady_of_eventless hone (by simp [afterDot, Token.is, hdot]), ?_⟩
  rw [codeBalance_of_eventless hone, Token.bracketDepth, Token.bracketDepth, Int.add_zero]

/-- A key, a rocket, a comma and the marks of a proc add nothing. -/
theorem steady_mark {t : Token}
    (h : t.kind ∈ [TokenKind.label, .symbol, .hashRocket, .comma, .arrow, .pipe]) :
    Steady [t] ∧ codeBalance [t] = 0 := by
  have hkinds : ∀ kind ∈ [TokenKind.label, .symbol, .hashRocket, .comma, .arrow, .pipe],
      kind ∉ [TokenKind.identifier, .doWord, .endWord] ∧ kind ∉ [TokenKind.dot, .scope] ∧
        kind.opensBracket = false ∧ kind.closesBracket = false := by decide
  obtain ⟨hquiet, hdot, hopens, hcloses⟩ := hkinds t.kind h
  obtain ⟨hsteady, hbalance⟩ := (Token.Eventless.of_kind hquiet).steady hdot
  refine ⟨hsteady, hbalance.trans ?_⟩
  rw [Token.bracketDelta, hopens, hcloses]
  rfl

namespace Steady

variable {ts us : List Token}

theorem nil : Steady [] := ⟨by rintro t ⟨⟩, rfl, rfl⟩

theorem addGap (h : Steady ts) (g : Text) : Steady (Token.addGap g ts) := by
  cases ts with
  | nil => exact nil
  | cons t ts =>
    refine ⟨?_, ?_, ?_⟩
    · rintro u ⟨⟩ hword
      exact List.mem_append_right g (h.first t rfl hword)
    · have hlast := h.last
      cases ts with
      | nil => exact hlast
      | cons u us => exact hlast
    · rw [waitsOnLines_addGap]
      exact h.loop

/-- The place in front of steady tokens does not count. -/
theorem onLines_eq (h : Steady ts) {before : Option Token} (hdot : afterDot before = false) :
    onLines before false ts = onLines none false ts ∧ waitsOnLines before false ts = false := by
  cases ts with
  | nil => exact ⟨rfl, rfl⟩
  | cons t ts =>
    have hstep : stepOnLine before false t = stepOnLine none false t := by
      unfold stepOnLine
      split
      · rfl
      · rename_i hfeed
        exact step_other hdot (Bool.eq_false_iff.2 fun hword => hfeed (h.first t rfl hword)) false
    have hloop := h.loop
    rw [waitsOnLines] at hloop ⊢
    exact ⟨by rw [onLines_cons, hstep, onLines_cons], by rw [hstep, hloop]⟩

theorem afterDot_or (h : Steady ts) {before : Option Token} (hdot : afterDot before = false) :
    afterDot (ts.getLast?.or before) = false := by
  have hlast := h.last
  cases hts : ts.getLast? with
  | none => exact hdot
  | some t =>
    rw [hts] at hlast
    exact hlast

theorem append (h : Steady ts) (hu : Steady us) : Steady (ts ++ us) := by
  refine ⟨fun t ht => ?_, ?_, ?_⟩
  · cases ts with
    | nil => exact hu.first t ht
    | cons u ts => exact h.first t ht
  · rw [List.getLast?_append]
    exact hu.afterDot_or h.last
  · rw [waitsOnLines_append, h.loop]
    exact (hu.onLines_eq (h.afterDot_or rfl)).2

/-- Steady tokens behind steady ones add what they add on a line of their own. -/
theorem codeBalance_append (h : Steady ts) (hu : Steady us) :
    codeBalance (ts ++ us) = codeBalance ts + codeBalance us := by
  rw [codeBalance, onLines_append_behind, h.loop, (hu.onLines_eq (h.afterDot_or rfl)).1,
    List.flatMap_append, total_append, Token.bracketDepth_append]
  rfl

end Steady

theorem Steady.codeBalance_append_eq_zero {ts us : List Token} (h : Steady ts) (hu : Steady us)
    (hzero : codeBalance ts = 0) (hnone : codeBalance us = 0) :
    Steady (ts ++ us) ∧ codeBalance (ts ++ us) = 0 :=
  ⟨h.append hu, by rw [h.codeBalance_append hu, hzero, hnone, add_zero]⟩

/-- Tokens add nothing if none of them does. -/
theorem steady_of_forall {ts : List Token} (h : ∀ t ∈ ts, Steady [t] ∧ codeBalance [t] = 0) :
    Steady ts ∧ codeBalance ts = 0 := by
  induction ts with
  | nil => exact ⟨.nil, rfl⟩
  | cons t ts ih =>
    obtain ⟨⟨ht, hzero⟩, hrest⟩ := List.forall_mem_cons.1 h
    obtain ⟨hts, hnone⟩ := ih hrest
    exact ht.codeBalance_append_eq_zero hts hzero hnone

/-- The keyword of a call counts only if it is one of a block. -/
theorem steady_keyword {t : Token} (hkind : t.kind = .identifier)
    (hk : t.text ∉ openers.map String.toList) : Steady [t] ∧ codeBalance [t] = 0 := by
  have hquiet : t.Eventless :=
    ⟨Bool.eq_false_iff.2 fun hword => hk (isWordOf_iff.1 hword).2, by simp [hkind], by simp [hkind]⟩
  obtain ⟨hsteady, hbalance⟩ := hquiet.steady (by simp [hkind])
  refine ⟨hsteady, hbalance.trans ?_⟩
  rw [Token.bracketDelta, hkind]
  rfl

/-- A `do` opens a block, and an `end` closes one. -/
theorem steady_delimiter {t : Token} {event : BlockEvent}
    (h : t.kind = .doWord ∧ event = opens ∨ t.kind = .endWord ∧ event = closes) :
    Steady [t] ∧ codeBalance [t] = (event.delta, 0) := by
  have hstep : stepOnLine none false t = (some event, false) := by
    rw [stepOnLine, ite_self]
    rcases h with ⟨hk, rfl⟩ | ⟨hk, rfl⟩ <;> simp [step, hk, afterDot]
  have hkind : t.kind ∈ [TokenKind.doWord, .endWord] := by
    rcases h with ⟨hk, -⟩ | ⟨hk, -⟩ <;> simp [hk]
  have hkinds : ∀ kind ∈ [TokenKind.doWord, .endWord], kind ≠ .identifier ∧ kind ≠ .dot ∧
      kind ≠ .scope ∧ kind.opensBracket = false ∧ kind.closesBracket = false := by decide
  obtain ⟨hword, hdot, hscope, hopens, hcloses⟩ := hkinds t.kind hkind
  refine ⟨⟨?_, ?_, ?_⟩, ?_⟩
  · intro u hu hopener
    obtain rfl := Option.some.inj hu
    exact absurd (isWordOf_iff.1 hopener).1 hword
  · simp [afterDot, Token.is, hdot, hscope]
  · rw [waitsOnLines, hstep]
    rfl
  · rw [codeBalance, onLines_cons, hstep, Token.bracketDepth, Token.bracketDelta, hopens, hcloses]
    simp [total, onLines, Token.bracketDepth]

/-- Brackets around steady tokens add nothing, nor do `do` and `end`. -/
theorem Steady.delimited {opener closer : Token} {ts : List Token} (h : Steady ts)
    (hkinds : opener.kind.opensBracket = true ∧ closer.kind.closesBracket = true ∨
      opener.kind = .doWord ∧ closer.kind = .endWord) :
    Steady (opener :: (ts ++ [closer])) ∧ codeBalance (opener :: (ts ++ [closer])) = codeBalance ts := by
  have hbracket : ∀ t : Token, t.kind.opensBracket = true ∨ t.kind.closesBracket = true →
      Steady [t] ∧ codeBalance [t] = (0, t.bracketDelta) := by
    have hquiet : ∀ kind : TokenKind, kind.opensBracket = true ∨ kind.closesBracket = true →
        kind ∉ [TokenKind.identifier, .doWord, .endWord] ∧ kind ∉ [TokenKind.dot, .scope] := by
      intro kind
      cases kind <;> decide
    intro t ht
    obtain ⟨hquiet, hdot⟩ := hquiet t.kind ht
    exact (Token.Eventless.of_kind hquiet).steady hdot
  -- the two delimiters cancel
  obtain ⟨hfirst, hlast, hcancel⟩ : Steady [opener] ∧ Steady [closer] ∧
      codeBalance [opener] + codeBalance [closer] = 0 := by
    rcases hkinds with ⟨hopens, hcloses⟩ | ⟨hdo, hend⟩
    · obtain ⟨hfirst, hone⟩ := hbracket opener (.inl hopens)
      obtain ⟨hlast, hneg⟩ := hbracket closer (.inr hcloses)
      have hnot : closer.kind.opensBracket = false := by
        cases hk : closer.kind <;> rw [hk] at hcloses <;> first | rfl | cases hcloses
      refine ⟨hfirst, hlast, ?_⟩
      rw [hone, hneg, Token.bracketDelta, hopens, Token.bracketDelta, hnot, hcloses]
      rfl
    · obtain ⟨hfirst, hone⟩ := steady_delimiter (.inl ⟨hdo, rfl⟩)
      obtain ⟨hlast, hneg⟩ := steady_delimiter (.inr ⟨hend, rfl⟩)
      refine ⟨hfirst, hlast, ?_⟩
      rw [hone, hneg]
      rfl
  have hinner := h.append hlast
  have hall := hfirst.codeBalance_append hinner
  refine ⟨hfirst.append hinner, hall.trans ?_⟩
  rw [h.codeBalance_append hlast, add_left_comm, hcancel, add_zero]

/-! ## Texts -/

/-- What a text adds to the two depths, its tokens read afresh on each line. -/
def textBalance (s : Text) : Int × Int := codeBalance (tokenizeCode s)

/-- A stretch of code adds what its source adds. -/
theorem Steady.of_spelling {s : Text} {ts : List Token} (hts : ts <:+: tokenizeCode s)
    (h : Steady (tokenizeCode (Token.spelling ts))) :
    Steady ts ∧ codeBalance ts = textBalance (Token.spelling ts) := by
  rw [textBalance, tokenizeCode_spelling hts] at *
  cases ts with
  | nil => exact ⟨h, rfl⟩
  | cons t ts =>
    have hgap : Token.addGap t.gap (Token.bare (t :: ts)) = t :: ts := by
      rw [Token.bare, Token.addGap_cons, List.append_nil]
    have hsteady := h.addGap t.gap
    have hbalance := codeBalance_addGap t.gap (Token.bare (t :: ts))
    rw [hgap] at hsteady hbalance
    exact ⟨hsteady, hbalance⟩

theorem textBalance_of_notMem {line : Line} (h : '\n' ∉ line) : textBalance line = lineBalance line := by
  rw [textBalance, codeBalance, onLines_of_notMem (notMem_gap h)]
  rfl

theorem textBalance_feed {line rest : Text}
    (h : Scan.pieces (line ++ '\n' :: rest) = Scan.pieces line ++ Scan.pieces ('\n' :: rest)) :
    textBalance (line ++ '\n' :: rest) = textBalance line + textBalance rest := by
  have hrest : tokenizeCode ('\n' :: rest) = Token.addGap ['\n'] (tokenizeCode rest) :=
    tokenizeCode_blank_append isBlankChar_feed rest
  obtain ⟨g, htokens⟩ := exists_tokenizeCode_append h
  rw [hrest, Token.addGap_addGap] at htokens
  have hfeed : '\n' ∈ g ++ ['\n'] := List.mem_append_right g List.mem_cons_self
  rw [textBalance, htokens, codeBalance, onLines_append (mem_gap_of_addGap hfeed _), onLines_addGap,
    List.flatMap_append, total_append, Token.bracketDepth_append, bracketDepth_addGap]
  rfl

/-- **A text adds what its lines add**, if quotes are closed on their lines. -/
theorem Tidy.balance_eq {s : Text} (h : Tidy s) : balance [s] = textBalance s := by
  have hlines : (Text.lines s).map lineBalance = (Text.lines s).map textBalance :=
    List.map_congr_left fun line hline =>
      (textBalance_of_notMem (Text.notMem_of_mem_lines hline)).symm
  rw [balance, List.flatMap_singleton, hlines]
  exact h.sum_lines fun _ _ => textBalance_feed

/-- A text that is put together from steady ones is steady and adds what they add. -/
theorem Joins.textBalance_eq {s : Text} {parts : List Text} (h : Joins s parts)
    (hsteady : ∀ p ∈ parts, Steady (tokenizeCode p)) :
    Steady (tokenizeCode s) ∧ textBalance s = (parts.map textBalance).sum := by
  induction h with
  | nil => exact ⟨.nil, rfl⟩
  | @cons p s parts hp h hpieces ih =>
    obtain ⟨hfirst, hrest⟩ := List.forall_mem_cons.1 hsteady
    obtain ⟨hs, hsum⟩ := ih hrest
    obtain ⟨g, htokens⟩ := exists_tokenizeCode_append hpieces
    have hgap := hs.addGap g
    rw [textBalance, htokens, hfirst.codeBalance_append hgap, codeBalance_addGap, List.map_cons,
      List.sum_cons, ← hsum]
    exact ⟨hfirst.append hgap, rfl⟩

end SchemaLift
