import SchemaLift.Proofs.Token.Respelled

/-!
# Tokens as the scanner finds them

What is known of a token from the place where the scanner found it: how it starts, for the kinds that their
delimiters tell, and that it ends in ink. Only a comment takes white space along
(`Found.isBlankChar_getLast?`).
-/

namespace SchemaLift

open Quoted (Scanner)

/-- Only a quote closes a string. -/
theorem Quoted.Scanner.eq_quote_of_step {last : Char}
    (h : (Scanner.step ⟨[.string], .plain⟩ last).frames = []) : last = '"' := by
  simp only [Scanner.step] at h
  split_ifs at h <;> assumption

namespace Scan

/-- A token as the scanner finds it. -/
def Found (kind : TokenKind) (text : Text) : Prop :=
  ∃ c cs, (head c cs).1 = some kind ∧ text = c :: cs.take (head c cs).2

theorem Found.delimited {kind : TokenKind} {text : Text} (h : Found kind text) : ∃ c cs n,
    Delimited c cs (some kind, n) ∧ text = c :: cs.take n := by
  obtain ⟨c, cs, hkind, htext⟩ := h
  have hdelimited := delimited_head c cs
  rw [← Prod.eta (head c cs), hkind] at hdelimited
  exact ⟨c, cs, _, hdelimited, htext⟩

theorem Found.lbracket {text : Text} (h : Found .lbracket text) : text = ['['] := by
  obtain ⟨c, cs, n, ⟨rfl, rfl⟩, rfl⟩ := h.delimited
  rfl

/-- A double-quoted string ends with the character that closes it. -/
theorem Found.doubleQuoted {text : Text} (h : Found .doubleQuoted text) : ∃ content last,
    text = '"' :: (content ++ [last]) ∧ (Scanner.run ⟨[.string], .plain⟩ content).frames ≠ [] ∧
      ((Scanner.run ⟨[.string], .plain⟩ content).step last).frames = [] := by
  obtain ⟨c, cs, n, ⟨rfl, m, hm, rfl⟩, rfl⟩ := h.delimited
  have hopen : Quoted.Open [.string] := .outerString
  rw [Quoted.stringClose, Scanner.closing_eq hopen] at hm
  obtain ⟨content, last, rest, rfl, rfl, hcontent, hlast⟩ :=
    Scanner.exists_of_closeFrom hopen.ne_nil hm
  refine ⟨content, last, ?_, hcontent, hlast⟩
  rw [List.append_cons, show content.length + 1 = (content ++ [last]).length by simp,
    List.take_left]

theorem take_plainExtent {quote : Char} {s : Text} {n : Nat}
    (h : Quoted.plainExtent quote s = .closed n) : ∃ content, s.take n = content ++ [quote] := by
  have hadd : ∀ {e : Quoted.Extent} {k n : Nat}, e.add k = .closed n →
      ∃ m, e = .closed m ∧ n = m + k := by
    rintro (m | m) k n ⟨⟩
    exact ⟨m, rfl, rfl⟩
  fun_induction Quoted.plainExtent quote s generalizing n with
  | case1 | case2 | case3 => cases h
  | case4 d cs hd ih =>
    obtain ⟨m, hm, rfl⟩ := hadd h
    obtain ⟨content, hcontent⟩ := ih hm
    exact ⟨'\\' :: d :: content, by rw [List.take_succ_cons, List.take_succ_cons, hcontent]; rfl⟩
  | case5 cs =>
    cases h
    exact ⟨[], rfl⟩
  | case6 c cs hc hd hquote hne ih =>
    obtain ⟨m, hm, rfl⟩ := hadd h
    obtain ⟨content, hcontent⟩ := ih hm
    exact ⟨c :: content, by rw [List.take_succ_cons, hcontent]; rfl⟩

theorem found_of_mem_pieces {s : Text} {p : Piece} (hp : p ∈ pieces s) {kind : TokenKind}
    (hkind : kind ∈ p.kind) : Found kind p.text := by
  obtain ⟨c, cs, hhead, htext⟩ := head_of_mem_pieces hp
  exact ⟨c, cs, hhead.trans hkind, htext⟩

/-! ## The end of a token -/

/-- The character `n` places behind `c` is not blank. -/
def Inked (c : Char) (cs : Text) (n : Nat) : Prop := ∀ d ∈ (c :: cs)[n]?, Text.isBlankChar d = false

namespace Inked

variable {c d : Char} {cs : Text} {n : Nat}

theorem zero (hc : Text.isBlankChar c = false) : Inked c cs 0 := by
  intro d hd
  obtain rfl := Option.some.inj hd
  exact hc

/-- What comes further behind. -/
theorem shift {rest : Text} {m : Nat} (hdrop : cs.drop n = d :: rest) (h : Inked d rest m) :
    Inked c cs (n + 1 + m) := by
  intro e he
  rw [← List.getElem?_drop, List.drop_succ_cons, hdrop] at he
  exact h e he

theorem of_head? (hd : (cs.drop n).head? = some d) (hink : Text.isBlankChar d = false) :
    Inked c cs (n + 1) := by
  obtain ⟨rest, hrest⟩ := List.head?_eq_some_iff.1 hd
  exact shift hrest (zero hink)

/-- A run of characters that are not blank ends in one. -/
theorem run {p : Char → Bool} (hp : ∀ d, p d = true → Text.isBlankChar d = false)
    (hc : Text.isBlankChar c = false) : Inked c cs (Scan.run p cs) := by
  induction cs generalizing c with
  | nil => exact zero hc
  | cons e cs ih =>
    by_cases he : p e = true
    · have hrun : Scan.run p (e :: cs) = Scan.run p cs + 1 := by simp [Scan.run, he]
      rw [hrun]
      exact ih (hp e he)
    · have hrun : Scan.run p (e :: cs) = 0 := by simp [Scan.run, he]
      rw [hrun]
      exact zero hc

theorem wordChars (hc : Text.isBlankChar c = false) : Inked c cs (Scan.run isWordChar cs) :=
  run (fun _ => isBlankChar_of_isWordChar) hc

theorem constantTail (hc : Text.isBlankChar c = false) : Inked c cs (Scan.constantTail cs) := by
  fun_induction Scan.constantTail cs generalizing c with
  | case1 d cs hd ih =>
    exact ih (isBlankChar_of_isWordChar (isWordChar_of_isWordStart (isWordStart_of_isUpper hd)))
  | case2 => exact zero hc
  | case3 d cs _ hd ih => exact ih (isBlankChar_of_isWordChar hd)
  | case4 => exact zero hc
  | case5 => exact zero hc

theorem word (hc : isWordStart c = true) : Inked c cs (Scan.word c cs).2 := by
  have hink := isBlankChar_of_isWordChar (isWordChar_of_isWordStart hc)
  rw [word_eq]
  extract_lets n rest
  split_ifs with hpath hcolon hlabel hupper hmark
  · exact constantTail hink
  · exact of_head? hcolon (by decide)
  · have hmark := hlabel.2
    rw [List.tail_drop] at hmark
    exact of_head? hmark (by decide)
  · exact wordChars hink
  · rcases hmark with hmark | hmark <;> exact of_head? hmark (by decide)
  · exact wordChars hink

theorem number (hc : c.isDigit = true) : Inked c cs (Scan.number cs) := by
  have hdigits : ∀ d : Char, d.isDigit = true → Text.isBlankChar d = false := fun d hd =>
    isBlankChar_of_isWordChar (isWordChar_of_isDigit hd)
  have hgrouped : ∀ d : Char, (d.isDigit || d == '_') = true → Text.isBlankChar d = false := by
    intro d hd
    rcases Bool.or_eq_true_iff.1 hd with hd | hd
    · exact hdigits d hd
    · obtain rfl := beq_iff_eq.1 hd
      decide
  rw [number_eq]
  extract_lets n fraction
  split_ifs with hpoint
  · obtain ⟨rest, hrest⟩ := List.head?_eq_some_iff.1 hpoint.1
    have hfraction : fraction = Scan.run Char.isDigit rest := by
      show Scan.run Char.isDigit (cs.drop n).tail = _
      rw [hrest, List.tail_cons]
    rw [hfraction]
    exact shift hrest (run hdigits (by decide))
  · exact run hgrouped (hdigits c hc)

theorem afterAt : (Scan.afterAt cs).1 ≠ none → Inked c cs (Scan.afterAt cs).2 := by
  have hrun : ∀ {d : Char} {ds : Text}, isWordStart d = true → Inked d ds (Scan.run isWordChar ds) :=
    fun hd => wordChars (isBlankChar_of_isWordChar (isWordChar_of_isWordStart hd))
  fun_cases Scan.afterAt cs with
  | case1 d ds hd | case3 d ds _ hd => exact fun _ => hrun hd
  | case2 | case4 | case5 => exact fun h => absurd rfl h

/-- A plain quoted text ends with its quote. -/
theorem plainExtent {quote : Char} (hquote : Text.isBlankChar quote = false)
    (h : Quoted.plainExtent quote cs = .closed n) : Inked c cs n := by
  obtain ⟨content, hcontent⟩ := take_plainExtent h
  have hle : n ≤ cs.length := by
    have hextent := extentSize_le quote cs
    rwa [h] at hextent
  have hlength := congrArg List.length hcontent
  rw [List.length_take_of_le hle, List.length_append, List.length_singleton] at hlength
  subst hlength
  have hdrop : (cs.drop content.length).head? = some quote := by
    rw [← List.take_append_drop (content.length + 1) cs, hcontent, List.append_assoc, List.drop_left]
    rfl
  exact of_head? hdrop hquote

theorem stringClose (h : Quoted.stringClose cs = some n) : Inked c cs (n + 1) := by
  have hopen : Quoted.Open [.string] := .outerString
  rw [Quoted.stringClose, Scanner.closing_eq hopen] at h
  obtain ⟨content, last, rest, rfl, rfl, hcontent, hlast⟩ :=
    Scanner.exists_of_closeFrom hopen.ne_nil h
  have hdrop : (content ++ last :: rest).drop content.length = last :: rest := List.drop_left
  refine shift hdrop (zero ?_)
  rcases Scanner.step_closes hcontent hlast with rfl | rfl | rfl <;> decide

theorem afterColon (hc : Text.isBlankChar c = false) :
    (Scan.afterColon cs).1 ≠ none → Inked c cs (Scan.afterColon cs).2 := by
  have hmark : ∀ {d e : Char} {ds rest : Text}, ds.drop (Scan.run isWordChar ds) = e :: rest →
      Text.isBlankChar e = false → Inked c (d :: ds) (Scan.run isWordChar ds + 2) := by
    intro d e ds rest hdrop he
    have hink : Inked d ds (Scan.run isWordChar ds + 1) := shift hdrop (zero he)
    exact hink
  fun_cases Scan.afterColon cs with
  | case1 ds =>
    have hink : Inked ':' ds 0 := zero (by decide)
    exact fun _ => hink
  | case2 ds n hn =>
    have hink : Inked '"' ds n := plainExtent (by decide) hn
    exact fun _ => hink
  | case3 ds n hn => exact fun h => absurd rfl h
  | case4 d ds _ _ hd n rest hrest | case5 d ds _ _ hd n rest hrest | case6 d ds _ _ hd n rest hrest =>
    exact fun _ => hmark hrest (by decide)
  | case7 d ds _ _ hd n =>
    have hink : Inked d ds n := wordChars (isBlankChar_of_isWordChar (isWordChar_of_isWordStart hd))
    exact fun _ => hink
  | case8 | case9 => exact fun _ => zero hc

end Inked

/-- What stands at the head of a text ends in ink, unless it is a comment or belongs to no token. -/
theorem inked_head {c : Char} {cs : Text} (h : (head c cs).1 ≠ none) (hk : (head c cs).1 ≠ some .comment) :
    Inked c cs (head c cs).2 := by
  revert h hk
  refine head_cases (P := fun found => found.1 ≠ none → found.1 ≠ some .comment → Inked c cs found.2) c cs
    (fun _ h _ => ?_) (fun _ h _ => ?_) (fun hc h _ => ?_) (fun _ _ hk => absurd rfl hk)
    (fun _ h _ => .afterAt h) (fun hc h _ => ?_) (fun hd _ _ => .number hd) (fun hc _ _ => .word hc)
    (fun hc harrow _ _ => ?_) (fun hc harrow _ _ => ?_) (fun hc _ _ => ?_) (fun h _ => ?_)
  · cases hs : Quoted.stringClose cs with
    | some n => exact .stringClose hs
    | none =>
      rw [hs] at h
      exact absurd rfl h
  · cases hs : Quoted.plainExtent '\'' cs with
    | closed n => exact .plainExtent (by decide) hs
    | unclosed n =>
      rw [hs] at h
      exact absurd rfl h
  · exact .afterColon (hc ▸ by decide) h
  · by_cases hzero : run isWordChar cs = 0
    · rw [if_pos hzero] at h
      exact absurd rfl h
    · rw [if_neg hzero]
      exact .wordChars (hc ▸ by decide)
  · exact .of_head? harrow (by decide)
  · exact .of_head? harrow (by decide)
  · have hall : ∀ d ∈ ['+', '-', '*', '/', '%', '<', '>', '=', '&', '^', '~', '?'],
        (!Text.isBlankChar d) = true := List.all_eq_true.1 (by decide)
    exact .zero (by simpa using hall c (List.contains_iff_mem.1 hc))
  · refine .zero ?_
    unfold punctuation at h
    split at h <;> first | decide | exact absurd rfl h

/-- **A token that is no comment ends in ink.** -/
theorem Found.isBlankChar_getLast? {kind : TokenKind} {text : Text} (h : Found kind text)
    (hk : kind ≠ .comment) : ∀ d ∈ text.getLast?, Text.isBlankChar d = false := by
  obtain ⟨c, cs, hkind, rfl⟩ := h
  have hink : Inked c cs (head c cs).2 := inked_head (by simp [hkind]) (by simp [hkind, hk])
  intro d hd
  refine hink d ?_
  have hlt : (head c cs).2 < (c :: cs).length := Nat.lt_succ_of_le (head_le c cs)
  rwa [← List.take_succ_cons, List.getLast?_take, if_neg (Nat.succ_ne_zero _), Nat.add_sub_cancel,
    List.getElem?_eq_getElem hlt, Option.some_or, ← List.getElem?_eq_getElem hlt] at hd

end Scan

end SchemaLift
