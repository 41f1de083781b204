import SchemaLift.Proofs.Token.Trailing

/-!
# Pieces in place of others

Words, keys and strings of a text come in place of others. What stands next to them decides where a piece
ends, so not every new text has the new pieces. Under the conditions of `PieceFor` it has
(`Respelled.pieces_eq`), and a scanner that runs over it ends as it did before (`Respelled.same`).
-/

namespace SchemaLift

open Quoted (Scanner)

/-- The kinds of pieces around a key in square brackets: no token at all, and the brackets. -/
def Scan.IsFrame (kind : Option TokenKind) : Prop :=
  kind = none ∨ kind = some .lbracket ∨ kind = some .rbracket

/-- A double-quoted string in place of another: a scanner that starts before them is in the same state after
them, and the new one is complete, whatever follows. -/
structure StringFor (old new : Text) : Prop where
  same : Scanner.Same old new
  complete : ∃ content last, new = '"' :: (content ++ [last]) ∧
    ∀ rest, Quoted.stringClose (content ++ last :: rest) = some content.length

/-- A piece in place of another one, between the pieces `before` and `next`. -/
inductive PieceFor (before next : Option Piece) : Piece → Piece → Prop
  | keep (p : Piece) : PieceFor before next p p
  | word {old new : Text} (hold : ∀ c ∈ old, Scan.isWordChar c = true) (hid : Scan.Identifier new)
      (hnew : ∀ c ∈ new, Scan.isWordChar c = true) (hlower : new.head?.any Char.isLower = true) :
      PieceFor before next ⟨some .identifier, old⟩ ⟨some .identifier, new⟩
  /-- A symbol in place of a symbol or a string, between square brackets. -/
  | key {kind : TokenKind} {old key new : Text}
      (hkind : kind ∈ [TokenKind.symbol, .doubleQuoted, .singleQuoted])
      (hold : old = ':' :: key ∨ ∃ quote, (quote = '"' ∨ quote = '\'') ∧ old = quote :: (key ++ [quote]))
      (hkey : ∀ c ∈ key, Scan.isWordChar c = true) (hnew : ∀ c ∈ new, Scan.isWordChar c = true)
      (hstart : new.head?.any Scan.isWordStart = true)
      (hbefore : ∃ p ∈ before, Scan.IsFrame p.kind ∧ p.text.getLast? ≠ some '\\')
      (hnext : ∃ q ∈ next, Scan.IsFrame q.kind) :
      PieceFor before next ⟨some kind, old⟩ ⟨some .symbol, ':' :: new⟩
  | string {old new : Text} (h : StringFor old new) :
      PieceFor before next ⟨some .doubleQuoted, old⟩ ⟨some .doubleQuoted, new⟩

/-- Pieces in place of others, one by one; `before` stands in front of the first. -/
inductive Respelled : Option Piece → List Piece → List Piece → Prop
  | nil (before : Option Piece) : Respelled before [] []
  | cons {before : Option Piece} {p q : Piece} {ps qs : List Piece}
      (hpiece : PieceFor before ps.head? p q) (h : Respelled (some p) ps qs) :
      Respelled before (p :: ps) (q :: qs)

/-! ## Scanning -/

theorem inert_colon_append {s : Text} (h : ∀ c ∈ s, Scan.isWordChar c = true) :
    ∀ c ∈ ':' :: s, Scanner.Inert c := by
  intro c hc
  rcases List.mem_cons.1 hc with rfl | hc
  · exact ⟨by decide, by decide, by decide, by decide, by decide, by decide⟩
  · exact Scanner.inert_of_isWordChar (h c hc)

theorem PieceFor.run_eq {before next : Option Piece} {p q : Piece} (h : PieceFor before next p q)
    (hnil : p.text ≠ []) {σ : Scanner} (hσ : Quoted.Open σ.frames)
    (hbefore : ∀ p ∈ before, σ.mode = .escaped → p.text.getLast? = some '\\')
    (ho : (σ.run p.text).frames ≠ []) : σ.run q.text = σ.run p.text := by
  cases h with
  | keep => rfl
  | @word old new hold hid hnew _ =>
    have hne : new ≠ [] := by
      obtain ⟨c, cs, rfl, -⟩ := hid.exists_cons
      exact List.cons_ne_nil c cs
    rw [Scanner.run_inert_of_ne_nil hnil fun c hc => Scanner.inert_of_isWordChar (hold c hc),
      Scanner.run_inert_of_ne_nil hne fun c hc => Scanner.inert_of_isWordChar (hnew c hc)]
  | key hkind hold hkey hnew hstart hb hnext =>
    have hescaped : σ.mode ≠ .escaped := by
      obtain ⟨p, hp, -, hlast⟩ := hb
      exact fun hm => hlast (hbefore p hp hm)
    rw [Scanner.run_inert_of_ne_nil (List.cons_ne_nil _ _) (inert_colon_append hnew)]
    rcases hold with rfl | ⟨quote, hq, rfl⟩
    · rw [Scanner.run_inert_of_ne_nil hnil (inert_colon_append hkey)]
    · rw [Scanner.run_literal hσ hescaped hq
        (fun c hc => Scanner.inert_of_isWordChar (hkey c hc)) ho]
  | string h => exact h.same σ hσ ho

namespace Respelled

theorem run_eq {before : Option Piece} {ps qs : List Piece} (h : Respelled before ps qs)
    (hnil : ∀ p ∈ ps, p.text ≠ []) {σ : Scanner} (hσ : Quoted.Open σ.frames)
    (hbefore : ∀ p ∈ before, σ.mode = .escaped → p.text.getLast? = some '\\')
    (ho : (σ.run (ps.flatMap Piece.text)).frames ≠ []) :
    σ.run (qs.flatMap Piece.text) = σ.run (ps.flatMap Piece.text) := by
  induction h generalizing σ with
  | nil => rfl
  | @cons before p q ps qs hpiece h ih =>
    rw [List.flatMap_cons, Scanner.run_append] at ho
    have hopen := Scanner.frames_ne_nil_of_run ho
    have hp := hnil p List.mem_cons_self
    rw [List.flatMap_cons, List.flatMap_cons, Scanner.run_append, Scanner.run_append,
      hpiece.run_eq hp hσ hbefore hopen]
    refine ih (fun q hq => hnil q (List.mem_cons_of_mem p hq)) (Scanner.run_open hσ hopen) ?_ ho
    rintro q ⟨⟩
    exact Scanner.run_escaped hp

end Respelled

/-! ## Stretches that are no tokens -/

namespace Scan

theorem drop_plainExtent {quote : Char} {s : Text} {n : Nat}
    (h : Quoted.plainExtent quote s = .unclosed n) :
    s.drop n = [] ∨ (s.drop n).head? = some '\n' := by
  have hadd : ∀ {e : Quoted.Extent} {k n : Nat}, e.add k = .unclosed n →
      ∃ m, e = .unclosed m ∧ n = m + k := by
    rintro (m | m) k n ⟨⟩
    exact ⟨m, rfl, rfl⟩
  fun_induction Quoted.plainExtent quote s generalizing n with
  | case1 | case2 => cases h; exact .inl rfl
  | case3 => cases h; exact .inr rfl
  | case4 d cs hd ih =>
    obtain ⟨m, hm, rfl⟩ := hadd h
    exact ih hm
  | case5 cs => cases h
  | case6 c cs hc hd hquote hne ih =>
    obtain ⟨m, hm, rfl⟩ := hadd h
    exact ih hm

theorem not_isFrame {kind : TokenKind} (hl : kind ≠ .lbracket) (hr : kind ≠ .rbracket) :
    ¬IsFrame (some kind) := by
  rintro (h | h | h) <;> cases h
  · exact hl rfl
  · exact hr rfl

theorem afterColon_frame {cs : Text} (h : IsFrame (afterColon cs).1) :
    ∃ n rest, (afterColon cs).2 = n + 1 ∧ cs = '"' :: rest ∧
      Quoted.plainExtent '"' rest = .unclosed n := by
  have hkinds : ∀ kind ∈ [TokenKind.scope, .symbol, .colon],
      kind ≠ .lbracket ∧ kind ≠ .rbracket := by decide
  rcases afterColon_cases cs with ⟨kind, hk, n, hkind⟩ | ⟨n, rest, rfl, hn, hnone⟩
  · rw [hkind] at h
    exact absurd h (not_isFrame (hkinds kind hk).1 (hkinds kind hk).2)
  · rw [hnone]
    exact ⟨n, rest, rfl, rfl, hn⟩

theorem afterAt_frame {cs : Text} (h : IsFrame (afterAt cs).1) : (afterAt cs).2 = 0 := by
  rcases afterAt_cases cs with ⟨n, hkind⟩ | hnone
  · rw [hkind] at h
    exact absurd h (not_isFrame (by decide) (by decide))
  · rw [hnone]

/-- A piece around a key is a single character, unless the line ends with it. -/
theorem head_size {c : Char} {cs : Text} (h : IsFrame (head c cs).1) :
    (head c cs).2 = 0 ∨ cs.drop (head c cs).2 = [] ∨
      (cs.drop (head c cs).2).head? = some '\n' := by
  revert h
  refine head_cases (P := fun found => IsFrame found.1 → found.2 = 0 ∨ cs.drop found.2 = [] ∨
    (cs.drop found.2).head? = some '\n') c cs ?_ ?_ ?_ (fun _ => ?_) ?_ ?_ (fun _ => ?_) ?_
    (fun _ _ => ?_) (fun _ _ => ?_) (fun _ _ => .inl rfl) (fun _ => .inl rfl)
  · intro _
    cases Quoted.stringClose cs with
    | none => exact fun _ => .inl rfl
    | some n => exact fun h => absurd h (not_isFrame (by decide) (by decide))
  · intro _
    cases he : Quoted.plainExtent '\'' cs with
    | closed n => exact fun h => absurd h (not_isFrame (by decide) (by decide))
    | unclosed n => exact fun _ => .inr (drop_plainExtent he)
  · intro _ h
    obtain ⟨n, rest, hn, rfl, he⟩ := afterColon_frame h
    have hdrop := drop_plainExtent he
    rw [hn]
    exact .inr hdrop
  · exact fun h => absurd h (not_isFrame (by decide) (by decide))
  · exact fun _ h => .inl (afterAt_frame h)
  · intro _
    split
    · exact fun _ => .inl rfl
    · exact fun h => absurd h (not_isFrame (by decide) (by decide))
  · exact fun h => absurd h (not_isFrame (by decide) (by decide))
  · have hword := word_isWord c cs
    refine fun _ h => absurd h (not_isFrame ?_ ?_) <;>
    · intro heq
      rw [heq] at hword
      cases hword
  · exact fun h => absurd h (not_isFrame (by decide) (by decide))
  · exact fun h => absurd h (not_isFrame (by decide) (by decide))

/-- How a token starts, and how far it reaches, for the kinds that their delimiters tell. -/
def Delimited (c : Char) (cs : Text) : Option TokenKind × Nat → Prop
  | (some .symbol, _) => c = ':'
  | (some .lbracket, n) => c = '[' ∧ n = 0
  | (some .singleQuoted, n) => c = '\'' ∧ Quoted.plainExtent '\'' cs = .closed n
  | (some .doubleQuoted, n) => c = '"' ∧ ∃ m, Quoted.stringClose cs = some m ∧ n = m + 1
  | _ => True

theorem delimited_head (c : Char) (cs : Text) : Delimited c cs (head c cs) := by
  refine head_cases c cs (fun hc => ?_) (fun hc => ?_) (fun hc => ?_) (fun _ => trivial)
    (fun _ => ?_) (fun _ => ?_) (fun _ => trivial) (fun _ => ?_) (fun _ _ => trivial)
    (fun _ _ => trivial) (fun _ => trivial) ?_
  · cases hs : Quoted.stringClose cs with
    | none => trivial
    | some n => exact ⟨hc, n, hs, rfl⟩
  · cases hs : Quoted.plainExtent '\'' cs with
    | closed n => exact ⟨hc, hs⟩
    | unclosed n => trivial
  · rcases afterColon_cases cs with ⟨kind, hk, n, hkind⟩ | ⟨n, rest, -, -, hnone⟩
    · rw [hkind]
      simp only [List.mem_cons, List.not_mem_nil, or_false] at hk
      rcases hk with rfl | rfl | rfl
      · trivial
      · exact hc
      · trivial
    · rw [hnone]
      trivial
  · rcases afterAt_cases cs with ⟨n, hkind⟩ | hnone
    · rw [hkind]
      trivial
    · rw [hnone]
      trivial
  · split <;> trivial
  · have hword := word_isWord c cs
    generalize word c cs = found at hword
    obtain ⟨kind, n⟩ := found
    cases kind <;> trivial
  · unfold punctuation
    split <;> trivial

theorem head_doubleQuoted {c : Char} {cs : Text} (h : (head c cs).1 = some .doubleQuoted) :
    c = '"' ∧ ∃ n, Quoted.stringClose cs = some n ∧ (head c cs).2 = n + 1 := by
  have hdelimited := delimited_head c cs
  rw [← Prod.eta (head c cs), h] at hdelimited
  exact hdelimited

/-- No character around a key continues a word or a symbol. -/
theorem head_frame {c : Char} {cs : Text} (h : IsFrame (head c cs).1) :
    isWordChar c = false ∧ c ∉ ['.', '?', '!', '='] := by
  have hnot : ∀ kind : TokenKind, (head c cs).1 = some kind → kind ≠ .lbracket →
      kind ≠ .rbracket → False := fun _ hk hl hr => not_isFrame hl hr (hk ▸ h)
  constructor
  · rw [Bool.eq_false_iff]
    intro hc
    by_cases hd : c.isDigit = true
    · exact hnot _ (congrArg Prod.fst (head_of_isDigit hd cs)) (by decide) (by decide)
    · have hs : isWordStart c = true := by
        rw [isDigit_iff_toNat] at hd
        rw [isWordChar_iff_toNat] at hc
        rw [isWordStart_iff_toNat]
        omega
      have hword := word_isWord c cs
      refine hnot _ (congrArg Prod.fst (head_of_isWordStart hs cs)) ?_ ?_ <;>
      · intro heq
        rw [heq] at hword
        cases hword
  · intro hc
    simp only [List.mem_cons, List.not_mem_nil, or_false] at hc
    rcases hc with rfl | rfl | rfl | rfl
    · exact hnot .dot rfl (by decide) (by decide)
    · exact hnot .operator rfl (by decide) (by decide)
    · exact hnot .bang rfl (by decide) (by decide)
    · by_cases harrow : cs.head? = some '>'
      · refine hnot .hashRocket ?_ (by decide) (by decide)
        unfold head
        simp only [harrow, and_self, if_true]
        rfl
      · exact hnot _ (congrArg Prod.fst (head_equals harrow)) (by decide) (by decide)

end Scan

namespace Respelled

/-- A piece in front of a key, which is then a single character. -/
theorem eq_of_frame {c quote : Char} {cs rest : Text} (h : Scan.IsFrame (Scan.head c cs).1)
    (hq : quote ∈ ['"', '\'', ':']) (hrest : cs.drop (Scan.head c cs).2 = quote :: rest) :
    (Scan.head c cs).2 = 0 ∧ cs = quote :: rest ∧ c ∉ [':', '.', '?', '!'] := by
  have hzero : (Scan.head c cs).2 = 0 := by
    rcases Scan.head_size h with hzero | hnil | hline
    · exact hzero
    · rw [hrest] at hnil
      cases hnil
    · rw [hrest] at hline
      cases hline
      exact absurd hq (by decide)
  refine ⟨hzero, ?_, ?_⟩
  · rwa [hzero] at hrest
  · have hnot := (Scan.head_frame h).2
    have hcolon : c ≠ ':' := by
      rintro rfl
      obtain ⟨n, -, hn, -⟩ := Scan.afterColon_frame h
      exact absurd (hzero.symm.trans hn) (Nat.succ_ne_zero n).symm
    simp only [List.mem_cons, List.not_mem_nil, or_false, not_or] at hnot ⊢
    exact ⟨hcolon, hnot.1, hnot.2.1, hnot.2.2.1⟩

/-- What a token in front of them sees of the pieces is the same, but for a key as the first of them. -/
theorem ahead {before : Option Piece} {r : Text} {qs : List Piece}
    (h : Respelled before (Scan.pieces r) qs) :
    Scan.Ahead r (qs.flatMap Piece.text) ∨
      (∃ p ∈ before, Scan.IsFrame p.kind) ∧ ∃ quote ∈ ['"', '\'', ':'], ∃ rest rest',
        r = quote :: rest ∧ qs.flatMap Piece.text = ':' :: rest' := by
  induction hn : r.length using Nat.strongRecOn generalizing before r qs with
  | _ n ih =>
    cases r with
    | nil =>
      cases h
      exact .inl (.refl [])
    | cons c cs =>
      rw [Scan.pieces_cons] at h
      generalize hp : (⟨(Scan.head c cs).1, c :: cs.take (Scan.head c cs).2⟩ : Piece) = p at h
      cases h with
      | cons hpiece h =>
        rw [List.flatMap_cons]
        cases hpiece with
        | keep =>
          have hsplit : c :: cs = p.text ++ cs.drop (Scan.head c cs).2 := by
            rw [← hp, List.cons_append, List.take_append_drop]
          rcases ih _ (by rw [List.length_drop, ← hn, List.length_cons]; omega) h rfl with
            hahead | ⟨⟨p', hp', hframe⟩, quote, hq, rest, rest', hrest, hrest'⟩
          · rw [hsplit]
            exact .inl (hahead.append p.text)
          · cases hp'
            rw [← hp] at hframe ⊢
            obtain ⟨hzero, rfl, hc⟩ := eq_of_frame hframe hq hrest
            rw [hzero, hrest']
            exact .inl (.key hc hq _ _)
        | @word old new hold hid hnew hlower =>
          obtain ⟨hkind, -⟩ := Piece.mk.inj hp
          have hword := Scan.identifier_of_head hkind
          obtain ⟨d, ds, hd, hstart⟩ := hword.exists_cons
          obtain ⟨rfl, -⟩ := List.cons.inj hd
          cases new with
          | nil => cases hlower
          | cons c' new => exact .inl (.word hstart hword.isUpper_eq hlower _ _)
        | key hkind hold hkey hnew hstart hbefore hnext => 
          obtain ⟨p, hp', hframe, -⟩ := hbefore
          refine .inr ⟨⟨p, hp', hframe⟩, ?_⟩
          obtain ⟨-, hold'⟩ := Piece.mk.inj hp
          rcases hold with rfl | ⟨quote, hq, rfl⟩
          · obtain ⟨rfl, -⟩ := List.cons.inj hold'
            exact ⟨':', by decide, cs, _, rfl, rfl⟩
          · obtain ⟨rfl, -⟩ := List.cons.inj hold'
            refine ⟨c, ?_, cs, _, rfl, rfl⟩
            rcases hq with rfl | rfl <;> decide
        | string hstring =>
          obtain ⟨content, last, rfl, -⟩ := hstring.complete
          obtain ⟨rfl, -⟩ := Scan.head_doubleQuoted (Piece.mk.inj hp).1
          exact .inl (.quote _ _)

/-- The end of a text and the end of a line stay. -/
theorem endsLine {before : Option Piece} {r : Text} {qs : List Piece}
    (h : Respelled before (Scan.pieces r) qs) : (r = [] → qs.flatMap Piece.text = []) ∧
      (Scan.EndsLine r → Scan.EndsLine (qs.flatMap Piece.text)) := by
  have hnil : r = [] → qs.flatMap Piece.text = [] := by
    rintro rfl
    cases h
    rfl
  refine ⟨hnil, ?_⟩
  rintro (hr | hr)
  · exact .inl (hnil hr)
  · obtain ⟨cs, rfl⟩ := List.head?_eq_some_iff.1 hr
    rw [Scan.pieces_cons, Scan.head_of_isBlankChar (by decide)] at h
    cases h with
    | cons hpiece =>
      cases hpiece
      exact .inr rfl

section

variable {c : Char} {cs : Text} {qs : List Piece}

/-- An unclosed string stays unclosed. -/
theorem stringClose_eq_none {before : Option Piece} {r : Text}
    (h : Respelled before (Scan.pieces r) qs) (hnone : Quoted.stringClose r = none) :
    Quoted.stringClose (qs.flatMap Piece.text) = none := by
  have hopen : Quoted.Open [.string] := .outerString
  rw [Quoted.stringClose, Scanner.closing_eq hopen, Scanner.closeFrom_eq_none hopen.ne_nil] at hnone ⊢
  rw [← Scan.pieces_text r] at hnone
  rwa [h.run_eq (fun p hp => Scan.text_ne_nil_of_mem_pieces hp) hopen (fun _ _ hm => by cases hm)
    hnone]

/-- A single character in front of a key sees no more of it than that it starts no word. -/
theorem head_before_key {quote : Char} {rest rest' : Text} (hq : quote ∈ ['"', '\'', ':'])
    (hframe : Scan.IsFrame (Scan.head c (quote :: rest)).1)
    (hzero : (Scan.head c (quote :: rest)).2 = 0)
    (hstring : Quoted.stringClose (quote :: rest) = none → Quoted.stringClose (':' :: rest') = none) :
    Scan.head c (':' :: rest') = Scan.head c (quote :: rest) := by
  have hword : Scan.isWordStart quote = false ∧ Scan.isWordChar quote = false ∧ quote ≠ '>' ∧
      quote ≠ '@' := by
    simp only [List.mem_cons, List.not_mem_nil, or_false] at hq
    rcases hq with rfl | rfl | rfl <;> decide
  have hnotWord := (Scan.head_frame hframe).1
  refine Scan.head_congr ?_ ?_ ?_ ?_ ?_ ?_ (fun hc => ?_) (fun hc => ?_) ?_
  · rintro rfl
    cases hs : Quoted.stringClose (quote :: rest) with
    | none => exact hstring hs
    | some n =>
      rw [Scan.head, if_pos rfl, hs] at hframe
      exact absurd hframe (Scan.not_isFrame (by decide) (by decide))
  · rintro rfl
    have hpos := Scan.extentSize_pos '\'' quote rest
    rw [Scan.head, if_neg (by decide), if_pos rfl] at hframe hzero
    cases he : Quoted.plainExtent '\'' (quote :: rest) with
    | closed n =>
      rw [he] at hframe
      exact absurd hframe (Scan.not_isFrame (by decide) (by decide))
    | unclosed n =>
      rw [he] at hpos hzero
      exact absurd hzero (Nat.ne_of_gt hpos)
  · rintro rfl
    obtain ⟨n, -, hn, -⟩ := Scan.afterColon_frame hframe
    exact absurd (hn.symm.trans hzero) (Nat.succ_ne_zero n)
  · rintro rfl
    exact absurd hframe (Scan.not_isFrame (by decide) (by decide))
  · have hat : ∀ {d : Char} {ds : Text}, d ≠ '@' → Scan.isWordStart d = false →
        Scan.afterAt (d :: ds) = (none, 0) := by
      intro d ds hd hs
      rw [Scan.afterAt_eq, List.head?_cons, if_neg fun heq => hd (Option.some.inj heq),
        Option.any_some, hs, if_neg Bool.false_ne_true]
    rw [hat hword.2.2.2 hword.1, hat (by decide) (by decide)]
    exact fun _ => rfl
  · have hrun : ∀ {d : Char} {ds : Text}, Scan.isWordChar d = false →
        Scan.run Scan.isWordChar (d :: ds) = 0 := fun hd => Scan.run_eq_zero.2 hd
    rw [hrun hword.2.1, hrun (by decide)]
    exact fun _ => rfl
  · rw [Scan.isWordChar_of_isDigit hc] at hnotWord
    cases hnotWord
  · rw [Scan.isWordChar_of_isWordStart hc] at hnotWord
    cases hnotWord
  · have harrow : ∀ {d : Char} {ds : Text}, d ≠ '>' → (d :: ds).head? ≠ some '>' := fun hd h =>
      hd (Option.some.inj h)
    exact fun _ => iff_of_false (harrow (by decide)) (harrow hword.2.2.1)

/-- A piece that stays is still the first piece of the text. -/
theorem pieces_keep (h : Respelled (some ⟨(Scan.head c cs).1, c :: cs.take (Scan.head c cs).2⟩)
      (Scan.pieces (cs.drop (Scan.head c cs).2)) qs) :
    Scan.pieces (c :: (cs.take (Scan.head c cs).2 ++ qs.flatMap Piece.text)) =
      ⟨(Scan.head c cs).1, c :: cs.take (Scan.head c cs).2⟩ :: Scan.pieces (qs.flatMap Piece.text) := by
  have hlength : (cs.take (Scan.head c cs).2).length = (Scan.head c cs).2 :=
    List.length_take_of_le (Scan.head_le c cs)
  have hhead : Scan.head c (cs.take (Scan.head c cs).2 ++ qs.flatMap Piece.text) =
      Scan.head c cs := by
    rcases h.ahead with hahead | ⟨⟨p, hp, hframe⟩, quote, hq, rest, rest', hrest, hrest'⟩
    · have hcs := List.take_append_drop (Scan.head c cs).2 cs
      have hsame := Scan.head_ahead hahead (c := c) (w := cs.take (Scan.head c cs).2)
        (by rw [hcs, hlength])
      rw [hcs] at hsame
      refine hsame (fun hc hnone => ?_) (fun _ _ => h.endsLine) (fun _ => h.endsLine.2)
      have hzero : (Scan.head c cs).2 = 0 := by
        unfold Scan.head
        rw [if_pos hc, hnone]
      rw [hzero, List.take_zero, List.nil_append]
      rw [hzero, List.drop_zero] at h
      exact h.stringClose_eq_none hnone
    · cases hp
      obtain ⟨hzero, rfl, -⟩ := eq_of_frame hframe hq hrest
      rw [hzero, List.take_zero, List.nil_append, hrest']
      refine head_before_key hq hframe hzero fun hnone => ?_
      rw [hzero, List.drop_zero] at h
      rw [← hrest']
      exact h.stringClose_eq_none hnone
  apply Scan.pieces_of_head
  rw [hhead, hlength]

end

end Respelled

/-! ## The pieces of the new text -/

namespace Scan

/-- A word without a mark ends where nothing follows that could continue it. -/
theorem delimits_of_head {c : Char} {w rest : Text} (hw : ∀ d ∈ w, isWordChar d = true)
    (hkind : (head c (w ++ rest)).1 = some .identifier)
    (hsize : (head c (w ++ rest)).2 = w.length) : Delimits rest := by
  have hhead := head_of_isWordStart (isWordStart_of_head hkind rfl) (w ++ rest)
  rw [hhead, word_eq, run_append hw] at hkind hsize
  simp only at hkind hsize
  generalize hn : w.length + run isWordChar rest = n at hkind hsize
  split_ifs at hkind hsize with h₁ hcolon hlabel hupper hmark
  · cases hkind
  · cases hkind
  · cases hkind
  · cases hkind
  · simp only at hsize
    omega
  · simp only at hsize
    have hzero : run isWordChar rest = 0 := by omega
    rw [hsize, List.drop_left] at hcolon hmark
    intro d hd
    have hd' : rest.head? = some d := hd
    rw [run_eq_zero, hd', Option.any_some] at hzero
    refine ⟨hzero, ?_, ?_, ?_⟩ <;> rintro rfl
    · exact hcolon hd'
    · exact hmark (.inl hd')
    · exact hmark (.inr hd')

theorem delimits_ahead {r r' : Text} (h : Ahead r r') (hr : Delimits r) : Delimits r' := by
  have hword : r.head?.any isWordChar = false := by
    rw [Option.any_eq_false]
    exact fun d hd => (hr d hd).1
  have hword' := h.head?_any Ahead.steady_isWordChar hword
  intro d hd
  have hd' : r'.head? = some d := hd
  rw [hd', Option.any_some] at hword'
  refine ⟨hword', ?_, ?_, ?_⟩ <;> rintro rfl
  · exact (hr _ (h.head?_of (by simp [sought]) hd')).2.1 rfl
  · exact (hr _ (h.head?_of (by simp [sought]) hd')).2.2.1 rfl
  · exact (hr _ (h.head?_of (by simp [sought]) hd')).2.2.2 rfl

/-- A colon and a word are a symbol if nothing follows that could continue it. -/
theorem head_symbol {d : Char} {ds rest : Text} (hd : isWordStart d = true)
    (hds : ∀ e ∈ ds, isWordChar e = true) (hword : rest.head?.any isWordChar = false)
    (hmark : ∀ x ∈ ['?', '!', '='], rest.head? ≠ some x) :
    head ':' (d :: ds ++ rest) = (some .symbol, (d :: ds).length) := by
  have hcolon : d ≠ ':' := by
    rintro rfl
    exact absurd hd (by decide)
  have hquote : d ≠ '"' := by
    rintro rfl
    exact absurd hd (by decide)
  have hrun : run isWordChar (ds ++ rest) = ds.length := by
    rw [run_append hds, run_eq_zero.2 hword, Nat.add_zero]
  change afterColon (d :: (ds ++ rest)) = _
  rw [afterColon_eq, List.head?_cons, if_neg fun h => hcolon (Option.some.inj h),
    if_neg fun h => hquote (Option.some.inj h), Option.any_some, if_pos hd, List.tail_cons, hrun]
  simp only [List.drop_left]
  rw [if_neg]
  · rfl
  · rintro (h | h | h)
    exacts [hmark _ (by decide) h, hmark _ (by decide) h, hmark _ (by decide) h]

end Scan

/-- A complete string is a piece, whatever follows. -/
theorem StringFor.pieces_append {old new : Text} (h : StringFor old new) (rest : Text) :
    Scan.pieces (new ++ rest) = ⟨some .doubleQuoted, new⟩ :: Scan.pieces rest := by
  obtain ⟨content, last, rfl, hclose⟩ := h.complete
  have hhead : Scan.head '"' (content ++ [last] ++ rest) =
      (some .doubleQuoted, (content ++ [last]).length) := by
    rw [List.append_assoc, List.singleton_append]
    unfold Scan.head
    rw [if_pos rfl, hclose, List.length_append]
    rfl
  rw [List.cons_append, Scan.pieces_of_head hhead]

namespace Respelled

/-- Behind a token of another kind the pieces look alike. -/
theorem ahead_of_kind {p : Piece} {r : Text} {qs : List Piece}
    (h : Respelled (some p) (Scan.pieces r) qs) (hp : ¬Scan.IsFrame p.kind) :
    Scan.Ahead r (qs.flatMap Piece.text) := by
  refine h.ahead.resolve_right ?_
  rintro ⟨⟨p', hp', hframe⟩, -⟩
  cases hp'
  exact hp hframe

section

variable {c : Char} {cs : Text} {qs : List Piece} {p : Piece}
  (h : Respelled (some p) (Scan.pieces (cs.drop (Scan.head c cs).2)) qs)
include h

/-- A word ends where the old one did. -/
theorem pieces_word {new : Text} (hp : p.kind = some .identifier)
    (hkind : (Scan.head c cs).1 = some .identifier)
    (hold : ∀ d ∈ cs.take (Scan.head c cs).2, Scan.isWordChar d = true) (hid : Scan.Identifier new) :
    Scan.pieces (new ++ qs.flatMap Piece.text) =
      ⟨some .identifier, new⟩ :: Scan.pieces (qs.flatMap Piece.text) := by
  have hcs := List.take_append_drop (Scan.head c cs).2 cs
  have hsize : (Scan.head c cs).2 = (cs.take (Scan.head c cs).2).length :=
    (List.length_take_of_le (Scan.head_le c cs)).symm
  have hdelimits : Scan.Delimits (cs.drop (Scan.head c cs).2) :=
    Scan.delimits_of_head (c := c) (w := cs.take (Scan.head c cs).2) hold (by rw [hcs]; exact hkind)
      (by rw [hcs]; exact hsize)
  have hahead : Scan.Ahead (cs.drop (Scan.head c cs).2) (qs.flatMap Piece.text) :=
    h.ahead_of_kind (by rw [hp]; exact Scan.not_isFrame (by decide) (by decide))
  exact hid.pieces_append (Scan.delimits_ahead hahead hdelimits)

/-- A symbol ends in front of what stands behind the key. -/
theorem pieces_key {kind : TokenKind} {new : Text} (hp : p.kind = some kind)
    (hkind : kind ∈ [TokenKind.symbol, .doubleQuoted, .singleQuoted])
    (hnew : ∀ d ∈ new, Scan.isWordChar d = true) (hstart : new.head?.any Scan.isWordStart = true)
    (hnext : ∃ q ∈ (Scan.pieces (cs.drop (Scan.head c cs).2)).head?, Scan.IsFrame q.kind) :
    Scan.pieces (':' :: new ++ qs.flatMap Piece.text) =
      ⟨some .symbol, ':' :: new⟩ :: Scan.pieces (qs.flatMap Piece.text) := by
  have hkinds : ∀ kind ∈ [TokenKind.symbol, .doubleQuoted, .singleQuoted],
      kind ≠ .lbracket ∧ kind ≠ .rbracket := by decide
  have hahead : Scan.Ahead (cs.drop (Scan.head c cs).2) (qs.flatMap Piece.text) :=
    h.ahead_of_kind (by rw [hp]; exact Scan.not_isFrame (hkinds _ hkind).1 (hkinds _ hkind).2)
  have hframe : ∀ e ∈ (cs.drop (Scan.head c cs).2).head?,
      Scan.isWordChar e = false ∧ e ∉ ['.', '?', '!', '='] := by
    obtain ⟨q, hq, hframe⟩ := hnext
    intro e he
    obtain ⟨es, hes⟩ := List.head?_eq_some_iff.1 he
    rw [hes, Scan.pieces_cons] at hq
    cases hq
    exact Scan.head_frame hframe
  cases new with
  | nil => cases hstart
  | cons d ds =>
    refine Scan.pieces_of_head (Scan.head_symbol hstart
      (fun e he => hnew e (List.mem_cons_of_mem d he)) ?_ ?_)
    · refine hahead.head?_any Scan.Ahead.steady_isWordChar ?_
      rw [Option.any_eq_false]
      exact fun e he => (hframe e he).1
    · intro x hx hhead
      have hx' : x ∈ ['.', '?', '!', '='] := List.mem_cons_of_mem _ hx
      have hsought : x ∈ Scan.sought := by
        simp only [Scan.sought, List.mem_cons, List.not_mem_nil, or_false] at hx ⊢
        rcases hx with rfl | rfl | rfl <;> simp
      exact (hframe x (hahead.head?_of hsought hhead)).2 hx'

end

/-- Other pieces in their places are the pieces of the new text. -/
theorem pieces_eq {before : Option Piece} {s : Text} {qs : List Piece}
    (h : Respelled before (Scan.pieces s) qs) : Scan.pieces (qs.flatMap Piece.text) = qs := by
  induction hn : s.length using Nat.strongRecOn generalizing before s qs with
  | _ n ih =>
    cases s with
    | nil =>
      cases h
      rfl
    | cons c cs =>
      rw [Scan.pieces_cons] at h
      generalize hp : (⟨(Scan.head c cs).1, c :: cs.take (Scan.head c cs).2⟩ : Piece) = p at h
      cases h with
      | @cons _ _ q _ qs hpiece h =>
        have hrest := ih _ (by rw [List.length_drop, ← hn, List.length_cons]; omega) h rfl
        rw [List.flatMap_cons]
        cases hpiece with
        | keep =>
          rw [← hp] at h ⊢
          rw [List.cons_append, pieces_keep h, hrest]
        | word hold hid =>
          obtain ⟨hkind, rfl⟩ := Piece.mk.inj hp
          rw [h.pieces_word rfl hkind (fun d hd => hold d (List.mem_cons_of_mem c hd)) hid, hrest]
        | key hkind _ _ hnew hstart _ hnext => 
          rw [h.pieces_key rfl hkind hnew hstart hnext, hrest]
        | string hstring => rw [hstring.pieces_append, hrest]

theorem same {s : Text} {qs : List Piece} (h : Respelled none (Scan.pieces s) qs) :
    Scanner.Same s (qs.flatMap Piece.text) := by
  intro σ hσ ho
  rw [← Scan.pieces_text s] at ho ⊢
  exact h.run_eq (fun p hp => Scan.text_ne_nil_of_mem_pieces hp) hσ (fun _ hp => by cases hp) ho

end Respelled

end SchemaLift
