import SchemaLift.Proofs.Block.Steady
import SchemaLift.Proofs.Proc.BodyLines
import SchemaLift.Proofs.Proc.Delimiters
import SchemaLift.Proofs.Proc.Method
import SchemaLift.Proofs.Token.Trimmed

/-!
# What a resolver and the lines of its body add

The body of a resolver is cut into lines that move to another margin. White space around a line counts for
nothing, so the lines add together what the text of the body adds (`ProcLiteral.balance_bodyLines`). What
stands around the body in the text of a proc closes what it opens, and parameters add nothing, so the proc
adds what its body adds (`ProcLiteral.textBalance_of_parse`).
-/

namespace SchemaLift

open Text

/-! ## The lines of a body -/

/-- A tidy line adds the same without white space around it. -/
theorem lineBalance_trimEnd {lead rest : Text} (hlead : ∀ c ∈ lead, isBlankChar c = true)
    (h : Tidy (lead ++ rest)) (hfeed : '\n' ∉ lead ++ rest) :
    lineBalance (trimEnd rest) = lineBalance (lead ++ rest) := by
  have hrest : Tidy rest := by
    intro p hp
    refine h p ?_
    rw [Scan.pieces_blank_append hlead]
    exact List.mem_append_right _ hp
  rw [lineBalance_blank_append hlead, lineBalance_eq, lineBalance_eq,
    tokenizeCode_trimEnd hrest fun hmem => hfeed (List.mem_append_right _ hmem)]

/-- Only lines that are not blank add something. -/
theorem balance_inked {ls : List Line} (hls : ∀ line ∈ ls, '\n' ∉ line) :
    balance ls = ((inked ls).map lineBalance).sum := by
  induction ls with
  | nil => rfl
  | cons line rest ih =>
    obtain ⟨hline, hrest⟩ := List.forall_mem_cons.1 hls
    rw [balance_cons, balance_singleton hline, ih hrest, inked, inked]
    cases hb : isBlank line with
    | true => rw [lineBalance_of_isBlank hb, zero_add, List.filter_cons_of_neg (by simp [hb])]
    | false => rw [List.filter_cons_of_pos (by simp [hb]), List.map_cons, List.sum_cons]

/-- **The lines of a body add what its text adds.** -/
theorem ProcLiteral.balance_bodyLines {body : Text} (h : Tidy body) :
    balance (bodyLines body) = textBalance body := by
  obtain ⟨first, rest, hlines⟩ := exists_lines_eq body
  have htidy : ∀ line ∈ first :: rest, Tidy line ∧ '\n' ∉ line := by
    rw [← hlines]
    exact fun line hline => ⟨h.of_mem_lines line hline, notMem_of_mem_lines hline⟩
  have hfirst : ((inked [first]).map trim).map lineBalance = (inked [first]).map lineBalance := by
    rw [List.map_map]
    refine List.map_congr_left fun line hline => ?_
    obtain rfl := List.mem_singleton.1 (mem_inked.1 hline).1
    obtain ⟨htidy, hfeed⟩ := htidy line List.mem_cons_self
    have hsplit : line.takeWhile isBlankChar ++ trimStart line = line := List.takeWhile_append_dropWhile
    rw [← hsplit] at htidy hfeed
    have htrim := lineBalance_trimEnd (fun _ => List.mem_takeWhile_imp) htidy hfeed
    rwa [hsplit] at htrim
  have hrest : (inked (dedent (linesBelow rest))).map lineBalance = (inked rest).map lineBalance := by
    rw [inked_dedent, List.map_map, ← inked_linesBelow rest]
    refine List.map_congr_left fun line hline => ?_
    obtain ⟨hmem, hb⟩ := mem_inked.1 hline
    have hown : line ∈ first :: rest := by
      have hinked : line ∈ inked rest := inked_linesBelow rest ▸ hline
      exact List.mem_cons_of_mem first (mem_inked.1 hinked).1
    obtain ⟨htidy, hfeed⟩ := htidy line hown
    have hcut := isIndent_take (commonIndent_le hmem hb)
    rw [Function.comp_apply, dedentLine_of_not_blank hb]
    rw [← List.take_append_drop (commonIndent (linesBelow rest)) line] at htidy hfeed
    have htrim := lineBalance_trimEnd hcut.isBlankChar htidy hfeed
    rwa [List.take_append_drop] at htrim
  have hjoined : balance (lines body) = balance [body] := by
    rw [balance, balance, List.flatMap_singleton, flatMap_lines fun _ => notMem_of_mem_lines]
  calc balance (bodyLines body)
      = ((inked (bodyLines body)).map lineBalance).sum := balance_inked fun _ => notMem_of_mem_bodyLines
    _ = ((inked [first]).map lineBalance ++ (inked rest).map lineBalance).sum := by
      rw [inked_bodyLines hlines, List.map_append, hfirst, hrest]
    _ = ((inked (first :: rest)).map lineBalance).sum := by
      rw [← List.map_append, ← inked_append, List.singleton_append]
    _ = balance (lines body) := by rw [hlines, balance_inked fun line hline => (htidy line hline).2]
    _ = textBalance body := by rw [hjoined, h.balance_eq]

/-! ## The text of a proc -/

namespace ProcLiteral

open BlockEvent

theorem kind_of_mem_parameters {names : List Token} {parameters : List Text}
    (h : parameters? names = some parameters) :
    ∀ t ∈ names, t.kind = .comma ∨ t.kind = .identifier ∧ t.text ∈ parameters := by
  obtain ⟨hkinds, rfl⟩ := parameters?_spec h
  intro t ht
  refine (hkinds t ht).imp_right fun hk => ⟨hk, List.mem_map_of_mem (List.mem_filter.2 ⟨ht, ?_⟩)⟩
  exact beq_iff_eq.2 hk

/-- Parameters add nothing, unless they are keywords of a block. -/
theorem steady_parameters {names : List Token} {parameters : List Text}
    (h : parameters? names = some parameters)
    (hnamed : ∀ name ∈ parameters, name ∉ openers.map String.toList) :
    Steady names ∧ codeBalance names = 0 := by
  refine steady_of_forall fun t ht => ?_
  rcases kind_of_mem_parameters h t ht with hk | ⟨hk, hmem⟩
  · exact steady_mark (by simp [hk])
  · exact steady_keyword hk (hnamed _ hmem)

/-- What stands in front of the block of a proc adds nothing. -/
theorem Introduces.steady {front : List Token} {named : List Text} (h : Introduces front named)
    (hnamed : ∀ name ∈ named, name ∉ openers.map String.toList) :
    Steady front ∧ codeBalance front = 0 := by
  have hword : ∀ {t : Token} {name : String}, name ∈ ["lambda", "proc", "new"] → t.isWord name = true →
      Steady [t] ∧ codeBalance [t] = 0 := by
    intro t name hname ht
    have hnot : ∀ name ∈ ["lambda", "proc", "new"], name.toList ∉ openers.map String.toList := by decide
    obtain ⟨hkind, htext⟩ := Bool.and_eq_true_iff.1 ht
    exact steady_keyword (beq_iff_eq.1 hkind) (beq_iff_eq.1 htext ▸ hnot name hname)
  cases h with
  | arrow ht => exact steady_mark (by simp [ht])
  | @arrowWith t opening closing names _ ht hopening hclosing hparameters =>
    obtain ⟨harrow, hnone⟩ : Steady [t] ∧ codeBalance [t] = 0 := steady_mark (by simp [ht])
    obtain ⟨hnames, hzero⟩ := steady_parameters hparameters hnamed
    obtain ⟨hround, hsame⟩ := hnames.delimited (.inl ⟨by rw [hopening]; rfl, hclosing⟩)
    exact harrow.codeBalance_append_eq_zero hround hnone (hsame.trans hzero)
  | word ht =>
    rcases ht with ht | ht
    · exact hword (by decide) ht
    · exact hword (by decide) ht
  | @new t dot new ht htext hdot hnew =>
    -- the dot is not steady by itself, so the three are read together
    obtain ⟨hkind, hname⟩ := Bool.and_eq_true_iff.1 hnew
    rw [beq_iff_eq] at hkind hname
    have hquiet : new.Eventless := by
      refine ⟨Bool.eq_false_iff.2 fun hopener => ?_, by simp [hkind], by simp [hkind]⟩
      have hmem := (isWordOf_iff.1 hopener).2
      rw [hname] at hmem
      exact absurd hmem (by decide)
    have hall : ∀ u ∈ [t, dot, new], u.Eventless := by
      intro u hu
      simp only [List.mem_cons, List.not_mem_nil, or_false] at hu
      rcases hu with rfl | rfl | rfl
      · exact .of_kind (by simp [ht])
      · exact .of_kind (by simp [hdot])
      · exact hquiet
    refine ⟨steady_of_eventless hall (by simp [afterDot, Token.is, hkind]), ?_⟩
    rw [codeBalance_of_eventless hall]
    simp [Token.bracketDepth, Token.bracketDelta, ht, hdot, hkind, TokenKind.opensBracket,
      TokenKind.closesBracket]

theorem Named.subset {front parameters : List Text} {piped inner : List Token}
    (h : Named front piped inner parameters) : front ⊆ parameters := by
  cases h with
  | inFront => exact List.Subset.refl _
  | piped => exact List.nil_subset _

/-- Nor do parameters between pipes. -/
theorem Named.steady {front parameters : List Text} {piped inner : List Token}
    (h : Named front piped inner parameters)
    (hnamed : ∀ name ∈ parameters, name ∉ openers.map String.toList) :
    Steady piped ∧ codeBalance piped = 0 := by
  cases h with
  | inFront => exact ⟨.nil, rfl⟩
  | @piped bar bar' names _ _ hbar _ hbar' hparameters =>
    obtain ⟨hfirst, hzero⟩ : Steady [bar] ∧ codeBalance [bar] = 0 := steady_mark (by simp [hbar])
    obtain ⟨hlast, hnone⟩ : Steady [bar'] ∧ codeBalance [bar'] = 0 := steady_mark (by simp [hbar'])
    obtain ⟨hnames, hnamesZero⟩ := steady_parameters hparameters hnamed
    obtain ⟨hbehind, hbehindZero⟩ := hnames.codeBalance_append_eq_zero hlast hnamesZero hnone
    exact hfirst.codeBalance_append_eq_zero hbehind hzero hbehindZero

/-- The text of a body has its pieces in the text of the proc, and is read as the tokens between the
delimiters. -/
theorem Layout.pieces_body {s : Text} {p : ProcLiteral} (l : Layout (tokenizeCode s) p) :
    Scan.pieces p.body ⊆ Scan.pieces s ∧ tokenizeCode p.body = l.inner := by
  have htokens := l.tokens
  rw [l.body, bodyText]
  rcases List.eq_nil_or_concat' l.piped with hpiped | ⟨names, bar, hpiped⟩
  · rw [hpiped, List.nil_append] at htokens
    exact pieces_between htokens
  · have hsplit : tokenizeCode s =
        (l.front ++ l.opener :: names) ++ bar :: (l.inner ++ l.closer :: []) := by
      refine htokens.trans ?_
      rw [hpiped]
      simp
    exact pieces_between hsplit

/-- The body of a tidy proc is tidy. -/
theorem tidy_body {s : Text} {p : ProcLiteral} (h : parse s = .ok p) (hs : Tidy s) : Tidy p.body := by
  obtain ⟨l, -⟩ := parse_eq_ok_iff.1 h
  exact fun piece hpiece => hs piece (l.pieces_body.1 hpiece)

/-- **A proc adds what its body adds**, if no parameter is a keyword of a block. -/
theorem textBalance_of_parse {s : Text} {p : ProcLiteral} (h : parse s = .ok p)
    (hnamed : ∀ name ∈ p.parameters, name ∉ openers.map String.toList)
    (hbody : Steady (tokenizeCode p.body)) : textBalance s = textBalance p.body := by
  obtain ⟨l, hkinds⟩ := parse_eq_ok_iff.1 h
  have hcode := l.pieces_body.2
  rw [hcode] at hbody
  obtain ⟨hfront, hzero⟩ := l.introduces.steady fun name hname => hnamed name (l.parameters.subset hname)
  obtain ⟨hpiped, hnone⟩ := l.parameters.steady hnamed
  have hbetween := hpiped.append hbody
  have hsum := hpiped.codeBalance_append hbody
  rw [hnone, zero_add] at hsum
  have hdelimiters : l.opener.kind.opensBracket = true ∧ l.closer.kind.closesBracket = true ∨
      l.opener.kind = .doWord ∧ l.closer.kind = .endWord := by
    refine hkinds.imp_left fun ⟨hbrace, hclose⟩ => ⟨by rw [hbrace]; rfl, ?_⟩
    obtain ⟨before, closer, after, heq, hlength, hcloses⟩ := Token.exists_of_closeIndex hclose
    obtain ⟨-, hrest⟩ := List.append_inj heq hlength.symm
    exact (List.cons.inj hrest).1 ▸ hcloses
  obtain ⟨hblock, hsame⟩ := hbetween.delimited hdelimiters
  rw [textBalance, l.tokens, hfront.codeBalance_append hblock, hzero, zero_add, hsame, hsum, textBalance,
    hcode]

end ProcLiteral

end SchemaLift
