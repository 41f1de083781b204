import SchemaLift.Proofs.Block.Enclosing
import SchemaLift.Proofs.Token.Trailing

/-!
# Bodies on the line of their opener

The body behind a `{`, a `do` or block parameters may start on the same line or on the next one. At the
start of a line a keyword opens a block, and behind an opener it does not, so the two ways open as many
blocks only as long as no keyword stands there. `depth_inline_iff` says exactly when they do.
-/

namespace SchemaLift

namespace BlockEvent

/-! ## Token by token -/

/-- The keywords that open a block where a statement starts. -/
def openers : List String := definitionWords ++ conditionWords ++ loopWords

/-- The event of a token, if it has one, and whether a loop waits for its `do` behind the token. -/
def step (before : Option Token) (loop : Bool) (t : Token) : Option BlockEvent × Bool :=
  if t.kind = .semicolon then (none, false)
  else if afterDot before then (none, loop)
  else if t.kind = .doWord then (if loop then none else some opens, false)
  else if t.kind = .endWord then (some closes, loop)
  else if startsValue before && isWordOf openers t then
    (some opens, if isWordOf definitionWords t then loop else isWordOf loopWords t)
  else (none, loop)

theorem scan_cons (before : Option Token) (loop : Bool) (t : Token) (ts : List Token) :
    scan before loop (t :: ts) =
      (step before loop t).1.toList ++ scan (some t) (step before loop t).2 ts := by
  rw [scan, step, openers]
  split_ifs <;> rfl

/-- Whether a loop waits for its `do` behind tokens. -/
def waits (before : Option Token) (loop : Bool) : List Token → Bool
  | [] => loop
  | t :: ts => waits (some t) (step before loop t).2 ts

theorem scan_append (before : Option Token) (loop : Bool) (ts us : List Token) :
    scan before loop (ts ++ us) =
      scan before loop ts ++ scan (ts.getLast?.or before) (waits before loop ts) us := by
  induction ts generalizing before loop with
  | nil => rfl
  | cons t ts ih =>
    rw [List.cons_append, scan_cons, ih, scan_cons, List.append_assoc, waits]
    cases ts <;> rfl

/-- A loop that waits in front of tokens takes a `do` of theirs. -/
def takesDo (before : Option Token) : List Token → Bool
  | [] => false
  | t :: ts =>
    if t.kind = .doWord ∧ afterDot before = false then true
    else (step before true t).2 && !(step before false t).2 && takesDo (some t) ts

theorem step_do {before : Option Token} {t : Token} (hk : t.kind = .doWord)
    (hdot : afterDot before = false) (loop : Bool) :
    step before loop t = (if loop then none else some opens, false) := by
  simp [step, hk, hdot]

/-- Only a `do` shows whether a loop waits for it. -/
theorem step_of_not_do {before : Option Token} {t : Token}
    (h : ¬(t.kind = .doWord ∧ afterDot before = false)) :
    (step before true t).1 = (step before false t).1 ∧
      ((step before false t).2 = true → (step before true t).2 = true) := by
  unfold step
  split_ifs <;> simp_all

/-- The `do` that a loop takes opens no block of its own. -/
theorem total_scan_true (before : Option Token) (ts : List Token) :
    total (scan before true ts) =
      total (scan before false ts) - if takesDo before ts then 1 else 0 := by
  induction ts generalizing before with
  | nil => rfl
  | cons t ts ih =>
    rw [scan_cons, scan_cons, total_append, total_append, takesDo]
    by_cases hdo : t.kind = .doWord ∧ afterDot before = false
    · rw [if_pos hdo, step_do hdo.1 hdo.2, step_do hdo.1 hdo.2]
      simp [total, delta]
    · obtain ⟨hevent, hloop⟩ := step_of_not_do hdo
      rw [if_neg hdo, hevent]
      cases hfalse : (step before false t).2 with
      | true => simp [hloop hfalse]
      | false =>
        cases (step before true t).2 with
        | true =>
          rw [ih]
          simp
          omega
        | false => simp

theorem total_scan_loop (before : Option Token) (loop : Bool) (ts : List Token) :
    total (scan before loop ts) =
      total (scan before false ts) - if loop && takesDo before ts then 1 else 0 := by
  cases loop with
  | true => exact total_scan_true before ts
  | false => simp

/-! ## The first token of a body -/

/-- The tokens open as many blocks behind an opener as on a line of their own. No keyword may open a
block as their first one, except for a loop whose `do` then opens the block in its place; and a loop that
waits in front of the opener may find no `do`. -/
def SameInline (loop : Bool) : List Token → Prop
  | [] => True
  | t :: ts =>
    if isWordOf openers t then isWordOf loopWords t ∧ takesDo (some t) ts ∧ loop = false
    else ¬(loop ∧ takesDo none (t :: ts))

instance (loop : Bool) : ∀ ts, Decidable (SameInline loop ts)
  | [] => inferInstanceAs (Decidable True)
  | t :: ts => inferInstanceAs (Decidable (if isWordOf openers t then
      isWordOf loopWords t ∧ takesDo (some t) ts ∧ loop = false else ¬(loop ∧ takesDo none (t :: ts))))

theorem isWordOf_iff {words : List String} {t : Token} :
    isWordOf words t = true ↔ t.kind = .identifier ∧ t.text ∈ words.map String.toList := by
  simp only [isWordOf, Token.isWord, List.any_eq_true, Bool.and_eq_true, beq_iff_eq, List.mem_map]
  constructor
  · rintro ⟨word, hword, hk, htext⟩
    exact ⟨hk, word, hword, htext.symm⟩
  · rintro ⟨hk, word, hword, htext⟩
    exact ⟨word, hword, hk, htext.symm⟩

/-- A keyword behind an opener opens nothing. -/
theorem step_inline {last t : Token} (hstarts : startsValue (some last) = false)
    (hdot : afterDot (some last) = false) (hword : isWordOf openers t = true) (loop : Bool) :
    step (some last) loop t = (none, loop) := by
  have hk := (isWordOf_iff.1 hword).1
  simp [step, hk, hdot, hstarts]

/-- On a line of its own it opens a block. -/
theorem step_first {t : Token} (hword : isWordOf openers t = true) :
    step none false t = (some opens, isWordOf loopWords t) := by
  obtain ⟨hk, htext⟩ := isWordOf_iff.1 hword
  have hflag : (if isWordOf definitionWords t then false else isWordOf loopWords t) =
      isWordOf loopWords t := by
    split
    · rename_i hdef
      have hdisjoint : ∀ w ∈ definitionWords.map String.toList, w ∉ loopWords.map String.toList := by
        decide
      have hnot : ¬isWordOf loopWords t = true := fun hloop =>
        hdisjoint _ (isWordOf_iff.1 hdef).2 (isWordOf_iff.1 hloop).2
      exact (Bool.eq_false_iff.2 hnot).symm
    · rfl
  simp [step, hk, afterDot, startsValue, hword, hflag]

theorem step_other {before : Option Token} {t : Token} (hdot : afterDot before = false)
    (hword : isWordOf openers t = false) (loop : Bool) : step before loop t = step none loop t := by
  rw [step, step, hdot, hword, Bool.and_false, Bool.and_false]
  rfl

theorem total_scan_inline_iff {last : Token} (hstarts : startsValue (some last) = false)
    (hdot : afterDot (some last) = false) (loop : Bool) (ts : List Token) :
    total (scan (some last) loop ts) = total (ofTokens ts) ↔ SameInline loop ts := by
  cases ts with
  | nil => exact iff_of_true rfl trivial
  | cons t ts =>
    rw [SameInline, ofTokens]
    cases hword : isWordOf openers t with
    | true =>
      rw [scan_cons, step_inline hstarts hdot hword, scan_cons, step_first hword, total_append,
        total_append, total_scan_loop _ loop, total_scan_loop _ (isWordOf loopWords t)]
      cases isWordOf loopWords t <;> cases loop <;> cases takesDo (some t) ts <;>
        simp [total, delta]
      omega
    | false =>
      rw [scan_cons, step_other hdot hword, ← scan_cons, total_scan_loop none loop]
      cases loop <;> cases takesDo none (t :: ts) <;> simp

end BlockEvent

/-! ## Lines -/

/-- What starts behind a line that ends with an opener, or with the bar behind its parameters, opens and
closes as many blocks as on the next line if and only if `SameInline` holds of its tokens. -/
theorem LineShape.depth_inline_iff {a b : Line} {last : Token} (hquotes : QuotesInTokens a)
    (hcode : ∀ t ∈ tokenize a, t.kind ≠ .comment) (hlast : (tokenizeCode a).getLast? = some last)
    (hkind : last.kind ∈ [.lbrace, .doWord, .pipe]) :
    (ofLine (a ++ ' ' :: b)).depth = (ofLine a).depth + (ofLine b).depth ↔
      BlockEvent.SameInline (BlockEvent.waits none false (tokenizeCode a)) (tokenizeCode b) := by
  have hstop : Scan.Stops ' ' := by decide
  have hblank : ∀ c ∈ [' '], Text.isBlankChar c = true := List.all_eq_true.1 (by decide)
  have htokens : tokenizeCode (a ++ ' ' :: b) = tokenizeCode a ++
      Token.addGap (TokenStream.ofText a).tail (tokenizeCode ([' '] ++ b)) :=
    tokenizeCode_append hquotes (by simpa using hstop) hcode
  rw [tokenizeCode_blank_append hblank] at htokens
  have hopener : ∀ kind ∈ [TokenKind.lbrace, .doWord, .pipe],
      kind ≠ .semicolon ∧ kind ≠ .operator ∧ kind ≠ .dot ∧ kind ≠ .scope := by decide
  obtain ⟨hsemicolon, hoperator, hdot, hscope⟩ := hopener last.kind hkind
  have hstarts : BlockEvent.startsValue (some last) = false := by
    simp [BlockEvent.startsValue, Token.is, hsemicolon, hoperator]
  have hafter : BlockEvent.afterDot (some last) = false := by
    simp [BlockEvent.afterDot, Token.is, hdot, hscope]
  rw [← BlockEvent.total_scan_inline_iff hstarts hafter]
  unfold LineShape.depth LineShape.ofLine
  simp only [BlockEvent.ofTokens]
  rw [htokens, BlockEvent.scan_append, scan_addGap, scan_addGap, BlockEvent.total_append, hlast]
  simp

/-- The condition behind a brace opens no block, while on the next line it does. -/
theorem LineShape.depth_inline_if :
    let a := "resolve ->(o, a, c) \x7b".toList
    let b := "if o.x".toList
    QuotesInTokens a ∧ QuotesInTokens b ∧ (∀ t ∈ tokenize a, t.kind ≠ .comment) ∧
      (tokenizeCode a).getLast? = some ⟨[' '], .lbrace, "\x7b".toList⟩ ∧
      (ofLine (a ++ ' ' :: b)).depth ≠ (ofLine a).depth + (ofLine b).depth := by
  decide

/-- The modifier behind block parameters opens none on either line. -/
theorem LineShape.depth_inline_modifier :
    let a := "resolve ->(o, a, c) do |x|".toList
    let b := "o.x if o".toList
    (ofLine (a ++ ' ' :: b)).depth = (ofLine a).depth + (ofLine b).depth := by
  intro a b
  have hquotes : QuotesInTokens a := by decide
  have hcode : ∀ t ∈ tokenize a, t.kind ≠ .comment := by decide
  have hlast : (tokenizeCode a).getLast? = some ⟨[], .pipe, "|".toList⟩ := by decide
  have hsame : BlockEvent.SameInline (BlockEvent.waits none false (tokenizeCode a)) (tokenizeCode b) := by
    decide
  exact (depth_inline_iff hquotes hcode hlast (by decide)).2 hsame

end SchemaLift
