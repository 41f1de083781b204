import SchemaLift.Proofs.Token.Lookahead

/-!
# Text behind a text

A token never reaches beyond its text (`head_le`). So the pieces of a text are the same whether it ends
or goes on with something that continues none of them, as long as no quote is left open
(`pieces_append`), and so are its tokens (`tokenize_append`).
-/

namespace SchemaLift

namespace Scan

/-! ## Length -/

theorem constantTail_le (cs : Text) : constantTail cs ≤ cs.length := by
  induction cs using constantTail.induct with
  | case1 d cs hd ih => simpa [constantTail, hd] using ih
  | case2 d cs hd => simp [constantTail, hd]
  | case3 d cs _ hd ih => simpa [constantTail_wordChar hd] using ih
  | case4 d cs hnot hd =>
    rw [constantTail, if_neg hd]
    · exact Nat.zero_le _
    · exact hnot
  | case5 => exact Nat.le_refl _

theorem run_le (p : Char → Bool) (cs : Text) : run p cs ≤ cs.length :=
  (List.takeWhile_prefix p).length_le

theorem lt_length_of_head?_drop {cs : Text} {n : Nat} {d : Char} (h : (cs.drop n).head? = some d) :
    n < cs.length := by
  rw [List.head?_drop] at h
  exact (List.getElem?_eq_some_iff.1 h).1

theorem word_le (c : Char) (cs : Text) : (word c cs).2 ≤ cs.length := by
  have hrun := run_le isWordChar cs
  rw [word_eq]
  extract_lets n rest
  split_ifs with hpath hcolon hlabel hupper hmark
  · exact constantTail_le cs
  · exact lt_length_of_head?_drop hcolon
  · have hcolon := hlabel.2
    rw [List.tail_drop] at hcolon
    exact lt_length_of_head?_drop hcolon
  · exact hrun
  · rcases hmark with hmark | hmark
    · exact lt_length_of_head?_drop hmark
    · exact lt_length_of_head?_drop hmark
  · exact hrun

theorem number_le (cs : Text) : number cs ≤ cs.length := by
  rw [number_eq]
  extract_lets n fraction
  split_ifs with hpoint
  · have hlt := lt_length_of_head?_drop hpoint.1
    have hfraction : fraction ≤ ((cs.drop n).tail).length := run_le _ _
    rw [List.length_tail, List.length_drop] at hfraction
    omega
  · exact run_le _ cs

theorem extentSize_le (quote : Char) (s : Text) :
    extentSize (Quoted.plainExtent quote s) ≤ s.length := by
  fun_induction Quoted.plainExtent quote s with
  | case1 => exact Nat.le_refl 0
  | case2 => exact Nat.le_refl 1
  | case3 => exact Nat.le_add_left 1 _
  | case4 c cs hc ih =>
    rw [extentSize_add]
    simpa using ih
  | case5 cs => exact Nat.le_add_left 1 _
  | case6 c cs _ _ _ hne ih =>
    rw [extentSize_add]
    simpa using ih

theorem stringClose_lt {s : Text} {n : Nat} (h : Quoted.stringClose s = some n) : n < s.length := by
  have hopen : Quoted.Open [.string] := .outerString
  rw [Quoted.stringClose, Quoted.Scanner.closing_eq hopen] at h
  obtain ⟨u, c, v, rfl, rfl, -⟩ := Quoted.Scanner.exists_of_closeFrom hopen.ne_nil h
  simp

theorem afterAt_le (cs : Text) : (afterAt cs).2 ≤ cs.length := by
  rw [afterAt_eq]
  split_ifs with hat hword hword
  · obtain ⟨cs, rfl⟩ := List.head?_eq_some_iff.1 hat
    cases cs with
    | nil => cases hword
    | cons d cs => simpa using run_le isWordChar cs
  · exact Nat.zero_le _
  · cases cs with
    | nil => cases hword
    | cons d cs => simpa using run_le isWordChar cs
  · exact Nat.zero_le _

theorem afterColon_le (cs : Text) : (afterColon cs).2 ≤ cs.length := by
  rw [afterColon_eq]
  split_ifs with hcolon hquote hword
  · obtain ⟨cs, rfl⟩ := List.head?_eq_some_iff.1 hcolon
    simp
  · obtain ⟨cs, rfl⟩ := List.head?_eq_some_iff.1 hquote
    have hextent := extentSize_le '"' cs
    rw [List.tail_cons]
    cases he : Quoted.plainExtent '"' cs <;> simpa [he, extentSize] using hextent
  · cases cs with
    | nil => cases hword
    | cons d cs =>
      rw [List.tail_cons]
      extract_lets n mark
      split_ifs with hmark
      · rcases hmark with hmark | hmark | hmark <;>
          simpa [Nat.succ_le_iff] using lt_length_of_head?_drop hmark
      · simpa using run_le isWordChar cs
  · exact Nat.zero_le _

/-- What stands at the head of a text is part of it. -/
theorem head_le (c : Char) (cs : Text) : (head c cs).2 ≤ cs.length := by
  refine head_cases (P := fun found => found.2 ≤ cs.length) c cs (fun _ => ?_) (fun _ => ?_)
    (fun _ => afterColon_le cs) (fun _ => run_le _ cs) (fun _ => afterAt_le cs) (fun _ => ?_)
    (fun _ => number_le cs) (fun _ => word_le c cs) (fun _ harrow => ?_) (fun _ harrow => ?_)
    (fun _ => Nat.zero_le _) (Nat.zero_le _)
  · cases hs : Quoted.stringClose cs with
    | none => exact Nat.zero_le _
    | some n => exact stringClose_lt hs
  · have hextent := extentSize_le '\'' cs
    cases he : Quoted.plainExtent '\'' cs <;> simpa [he, extentSize] using hextent
  · split_ifs
    · exact Nat.zero_le _
    · exact run_le _ cs
  · obtain ⟨cs, rfl⟩ := List.head?_eq_some_iff.1 harrow
    simp
  · obtain ⟨cs, rfl⟩ := List.head?_eq_some_iff.1 harrow
    simp

/-! ## Text behind closed quotes -/

/-- Every quote character belongs to a token. -/
def QuotesInPieces (ps : List Piece) : Prop :=
  ∀ p ∈ ps, p.kind = none → '"' ∉ p.text ∧ '\'' ∉ p.text

theorem afterColon_eq_none {cs : Text} (h : (afterColon cs).1 = none) :
    '"' ∈ cs.take (afterColon cs).2 := by
  rcases afterColon_cases cs with ⟨kind, -, n, hkind⟩ | ⟨n, rest, rfl, -, hnone⟩
  · rw [hkind] at h
    cases h
  · rw [hnone]
    exact List.mem_cons_self

/-- Behind a text without open quotes, what continues no token changes none. If the text ends in a
comment, the line has to end there. -/
theorem pieces_append_of_getLast? {s rest : Text} (hquotes : QuotesInPieces (pieces s))
    (hstop : ∀ c ∈ rest.head?, Stops c)
    (hlast : ∀ p ∈ (pieces s).getLast?, p.kind = some .comment → EndsLine rest) :
    pieces (s ++ rest) = pieces s ++ pieces rest := by
  induction hn : s.length using Nat.strongRecOn generalizing s with
  | _ n ih =>
    cases s with
    | nil => rfl
    | cons c cs =>
      have hle := head_le c cs
      rw [pieces_cons] at hquotes hlast
      obtain ⟨hfirst, hquotes⟩ := List.forall_mem_cons.1 hquotes
      have hhead : head c (cs ++ rest) = head c cs := by
        have hahead : Ahead (cs.drop (head c cs).2 ++ []) (cs.drop (head c cs).2 ++ rest) :=
          .append _ (.stop [] hstop)
        rw [List.append_nil] at hahead
        have hsame := head_ahead hahead (c := c) (w := cs.take (head c cs).2)
        rw [List.take_append_drop, ← List.append_assoc, List.take_append_drop,
          List.length_take_of_le hle] at hsame
        refine hsame le_rfl (fun hc hnone => ?_) (fun hc hnone => ?_) fun hc hends => ?_
        · have hhead : (head c cs).1 = none := by rw [hc, head, if_pos rfl, hnone]
          exact absurd (List.mem_cons.2 (.inl hc.symm)) (hfirst hhead).1
        · exfalso
          rcases hc with rfl | rfl
          · exact (hfirst hnone).2 List.mem_cons_self
          · exact (hfirst hnone).1 (List.mem_cons_of_mem _ (afterColon_eq_none hnone))
        · -- a comment with a line below it does not see what comes behind that line
          rcases hends with hnil | hfeed
          · rw [hnil, List.nil_append]
            rw [hnil] at hlast
            refine hlast _ rfl ?_
            rw [hc]
            rfl
          · obtain ⟨below, hbelow⟩ := List.head?_eq_some_iff.1 hfeed
            rw [hbelow]
            exact .inr rfl
      rw [List.cons_append, pieces_cons, pieces_cons, hhead, List.take_append_of_le_length hle,
        List.drop_append_of_le_length hle, List.cons_append, ih _ ?_ hquotes (fun p hp => ?_) rfl]
      · rw [List.length_drop, ← hn, List.length_cons]
        omega
      · refine hlast p ?_
        rw [List.getLast?_cons, Option.mem_def.1 hp]
        rfl

/-- Behind a text without open quotes, what continues no token changes none. A comment ends at the end of
its line only. -/
theorem pieces_append {s rest : Text} (hquotes : QuotesInPieces (pieces s))
    (hstop : ∀ c ∈ rest.head?, Stops c)
    (hcomment : (∃ p ∈ pieces s, p.kind = some .comment) → EndsLine rest) :
    pieces (s ++ rest) = pieces s ++ pieces rest :=
  pieces_append_of_getLast? hquotes hstop fun p hp hk =>
    hcomment ⟨p, List.mem_of_getLast? hp, hk⟩

end Scan

/-- Every quote character of a text belongs to a token. -/
def QuotesInTokens (s : Text) : Prop :=
  (∀ t ∈ tokenize s, '"' ∉ t.gap ∧ '\'' ∉ t.gap) ∧
    '"' ∉ (TokenStream.ofText s).tail ∧ '\'' ∉ (TokenStream.ofText s).tail

instance (s : Text) : Decidable (QuotesInTokens s) :=
  inferInstanceAs (Decidable ((∀ t ∈ tokenize s, '"' ∉ t.gap ∧ '\'' ∉ t.gap) ∧
    '"' ∉ (TokenStream.ofText s).tail ∧ '\'' ∉ (TokenStream.ofText s).tail))

theorem QuotesInTokens.quotesInPieces {s : Text} (h : QuotesInTokens s) :
    Scan.QuotesInPieces (Scan.pieces s) := by
  obtain ⟨hgaps, htail⟩ := h
  rintro ⟨kind, text⟩ hp rfl
  refine ⟨fun hq => ?_, fun hq => ?_⟩
  · rcases TokenStream.mem_gap_or_tail (g := []) hp hq with ⟨t, ht, hgap⟩ | hq
    · exact (hgaps t ht).1 hgap
    · exact htail.1 hq
  · rcases TokenStream.mem_gap_or_tail (g := []) hp hq with ⟨t, ht, hgap⟩ | hq
    · exact (hgaps t ht).2 hgap
    · exact htail.2 hq

/-- What continues no token adds its tokens to those of the text in front. -/
theorem tokenize_append {s rest : Text} (hquotes : QuotesInTokens s)
    (hstop : ∀ c ∈ rest.head?, Scan.Stops c)
    (hcomment : (∃ t ∈ tokenize s, t.kind = .comment) → Scan.EndsLine rest) :
    tokenize (s ++ rest) =
      tokenize s ++ Token.addGap (TokenStream.ofText s).tail (tokenize rest) := by
  have hcomments : (∃ p ∈ Scan.pieces s, p.kind = some .comment) → Scan.EndsLine rest := by
    rintro ⟨⟨kind, text⟩, hp, hk⟩
    obtain rfl : kind = some .comment := hk
    obtain ⟨t, ht, hk, -⟩ := TokenStream.exists_mem_tokens (g := []) hp
    exact hcomment ⟨t, ht, hk⟩
  have hpieces := Scan.pieces_append hquotes.quotesInPieces hstop hcomments
  have hrest := TokenStream.ofPieces_tokens_append (TokenStream.ofText s).tail [] (Scan.pieces rest)
  rw [List.append_nil] at hrest
  rw [tokenize, TokenStream.ofText, hpieces, TokenStream.ofPieces_append]
  exact congrArg (tokenize s ++ ·) hrest

theorem tokenizeCode_append {s rest : Text} (hquotes : QuotesInTokens s)
    (hstop : ∀ c ∈ rest.head?, Scan.Stops c) (hcode : ∀ t ∈ tokenize s, t.kind ≠ .comment) :
    tokenizeCode (s ++ rest) =
      tokenizeCode s ++ Token.addGap (TokenStream.ofText s).tail (tokenizeCode rest) := by
  have hs : tokenizeCode s = tokenize s := Token.dropComments_eq_self hcode
  have hcomment : (∃ t ∈ tokenize s, t.kind = .comment) → Scan.EndsLine rest := by
    rintro ⟨t, ht, hk⟩
    exact absurd hk (hcode t ht)
  rw [tokenizeCode, tokenize_append hquotes hstop hcomment, Token.dropComments_code_append hcode,
    Token.dropComments_addGap, hs]
  rfl

/-- Behind a line the tokens are those of the next one, the first of them behind a line feed. -/
theorem tokenizeCode_feed {line : Text} (hquotes : QuotesInTokens line) (rest : Text) :
    ∃ g, '\n' ∈ g ∧ tokenizeCode (line ++ '\n' :: rest) =
      tokenizeCode line ++ Token.addGap g (tokenizeCode rest) := by
  have hstop : Scan.Stops '\n' := by decide
  have hblank : ∀ c ∈ ['\n'], Text.isBlankChar c = true := List.all_eq_true.1 (by decide)
  have htokens : tokenize (line ++ '\n' :: rest) =
      tokenize line ++ Token.addGap (TokenStream.ofText line).tail (tokenize ('\n' :: rest)) :=
    tokenize_append hquotes (by simpa using hstop) fun _ => .inr rfl
  have hrest : tokenizeCode ('\n' :: rest) = Token.addGap ['\n'] (tokenizeCode rest) :=
    tokenizeCode_blank_append hblank rest
  obtain ⟨g, hg⟩ := Token.exists_dropComments_append [] (tokenize line)
  refine ⟨g ++ (TokenStream.ofText line).tail ++ ['\n'], by simp, ?_⟩
  rw [tokenizeCode, htokens, hg, Token.dropComments_addGap, ← tokenizeCode, ← tokenizeCode, hrest,
    Token.addGap_addGap, Token.addGap_addGap]

end SchemaLift
