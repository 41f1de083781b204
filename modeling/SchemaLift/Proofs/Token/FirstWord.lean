import SchemaLift.Proofs.Token.Closed
import SchemaLift.Proofs.Token.Slice

/-!
# The first word of several lines

A statement over several lines is read from their joined text, while a scan looks at the first line alone.
If the joined text begins with an identifier, so does its first line, unless that line has no code of its own
(`head?_isWord_line`). A quoted text that is left open on the first line may reach into the next ones,
but then the joined text does not begin with an identifier.
-/

namespace SchemaLift

namespace Scan

/-! ## One piece on a line -/

/-- A quoted text that is left open beyond a text is left open in it. -/
theorem plainExtent_of_unclosed {quote : Char} {w r : Text} {n : Nat}
    (h : Quoted.plainExtent quote (w ++ r) = .unclosed n) (hn : w.length < n) :
    Quoted.plainExtent quote w = .unclosed w.length := by
  induction hlength : w.length using Nat.strongRecOn generalizing w n with
  | _ length ih =>
    match w with
    | [] =>
      rw [← hlength]
      rfl
    | c :: w =>
      by_cases hc : c = '\\'
      · subst hc
        match w with
        | [] =>
          rw [← hlength]
          rfl
        | d :: w =>
          by_cases hd : d = '\n'
          · subst hd
            obtain rfl := Quoted.Extent.unclosed.inj h
            simp at hn
          · rw [List.cons_append, List.cons_append, plainExtent_escape hd] at h
            rw [plainExtent_escape hd]
            cases hrest : Quoted.plainExtent quote (w ++ r) with
            | closed m =>
              rw [hrest] at h
              cases h
            | unclosed m =>
              rw [hrest] at h
              obtain rfl := Quoted.Extent.unclosed.inj h
              simp only [List.length_cons] at hn hlength
              rw [ih w.length (by omega) hrest (by omega) rfl, ← hlength]
              rfl
      · rw [List.cons_append, plainExtent_cons hc] at h
        rw [plainExtent_cons hc]
        by_cases hq : c = quote
        · rw [if_pos hq] at h
          cases h
        · rw [if_neg hq] at h ⊢
          cases hrest : Quoted.plainExtent quote (w ++ r) with
          | closed m =>
            rw [hrest] at h
            cases h
          | unclosed m =>
            rw [hrest] at h
            obtain rfl := Quoted.Extent.unclosed.inj h
            simp only [List.length_cons] at hn hlength
            rw [ih w.length (by omega) hrest (by omega) rfl, ← hlength]
            rfl

/-- What is passed over beyond the end of a line is passed over to its end if the text ends there. -/
theorem head_of_passed {c : Char} {cs r : Text} (hkind : (head c (cs ++ '\n' :: r)).1 = none)
    (hlt : cs.length < (head c (cs ++ '\n' :: r)).2) : head c cs = (none, cs.length) := by
  by_cases hquote : c = '\''
  · subst hquote
    have hclosed : ∀ {s : Text} {n : Nat}, Quoted.plainExtent '\'' s = .closed n →
        head '\'' s = (some .singleQuoted, n) := by
      intro s n hextent
      simp [head, hextent]
    have hunclosed : ∀ {s : Text} {n : Nat}, Quoted.plainExtent '\'' s = .unclosed n →
        head '\'' s = (none, n) := by
      intro s n hextent
      simp [head, hextent]
    cases hextent : Quoted.plainExtent '\'' (cs ++ '\n' :: r) with
    | closed n =>
      rw [hclosed hextent] at hkind
      cases hkind
    | unclosed n =>
      rw [hunclosed hextent] at hlt
      exact hunclosed (plainExtent_of_unclosed hextent hlt)
  by_cases hcolon : c = ':'
  · subst hcolon
    have hhead : ∀ s, head ':' s = afterColon s := fun _ => rfl
    rw [hhead] at hkind hlt
    rcases afterColon_cases (cs ++ '\n' :: r) with ⟨kind, -, n, hfound⟩ | ⟨n, rest, hcs, hextent, hfound⟩
    · rw [hfound] at hkind
      cases hkind
    · rw [hfound] at hlt
      cases cs with
      | nil => cases hcs
      | cons d cs =>
        obtain ⟨rfl, rfl⟩ := List.cons.inj hcs
        have hopen := plainExtent_of_unclosed hextent (Nat.lt_of_succ_lt_succ hlt)
        rw [hhead, afterColon, hopen, List.length_cons]
  -- any other character is passed over alone
  exfalso
  revert hkind hlt
  have hsome : ∀ {kind : TokenKind} {n : Nat}, some kind = none → cs.length < n → False :=
    fun hkind _ => absurd hkind (Option.some_ne_none _)
  refine head_cases (P := fun found => found.1 = none → cs.length < found.2 → False) c _ (fun _ => ?_)
    (fun hc => absurd hc hquote) (fun hc => absurd hc hcolon) (fun _ => hsome) (fun _ hkind hlt => ?_)
    (fun _ => ?_) (fun _ => hsome) (fun _ => hsome) (fun _ _ => hsome) (fun _ _ => hsome)
    (fun _ => hsome) (fun _ hlt => absurd hlt (Nat.not_lt_zero _))
  · split
    · exact hsome
    · exact fun _ hlt => absurd hlt (Nat.not_lt_zero _)
  · rcases afterAt_cases (cs ++ '\n' :: r) with ⟨n, hfound⟩ | hfound
    · rw [hfound] at hkind
      cases hkind
    · rw [hfound] at hlt
      exact absurd hlt (Nat.not_lt_zero _)
  · split
    · exact fun _ hlt => absurd hlt (Nat.not_lt_zero _)
    · exact hsome

theorem run_line_le (cs r : Text) : run (· != '\n') (cs ++ '\n' :: r) ≤ cs.length := by
  rw [run, List.takeWhile_append]
  split
  · simp
  · exact (List.takeWhile_prefix _).length_le

/-- What stands on a line is the same if the text ends with the line. -/
theorem head_of_line {c : Char} {cs r : Text} (hle : (head c (cs ++ '\n' :: r)).2 ≤ cs.length) :
    head c cs = head c (cs ++ '\n' :: r) := by
  have hsame := head_ahead (.cut ('\n' :: r)) (c := c) (w := cs) hle
  rw [List.append_nil] at hsame
  refine hsame (fun _ hopen => ?_) (fun _ _ => ⟨fun _ => rfl, fun _ => .inl rfl⟩) fun _ _ => .inl rfl
  by_contra hclosed
  obtain ⟨n, hn⟩ := Option.ne_none_iff_exists'.1 hclosed
  have hagain := stringClose_append (w := cs) (r := []) (by rwa [List.append_nil])
    (stringClose_lt hn) ('\n' :: r)
  rw [hopen] at hagain
  cases hagain

/-! ## The first piece of code -/

/-- A piece that is a token of code. -/
def isCode (p : Piece) : Bool := p.kind.any (· != .comment)

theorem notMem_identifier {w : Text} (h : Identifier w) : '\n' ∉ w := by
  intro hmem
  rcases h.mem hmem with h | h | h
  · exact absurd h (by decide)
  · cases h
  · cases h

/-- If the code of a text begins with an identifier, that of its first line does, if it has any. -/
theorem find?_pieces_line {w r : Text} (l : Text)
    (h : (pieces (l ++ '\n' :: r)).find? isCode = some ⟨some .identifier, w⟩) :
    (pieces l).find? isCode = some ⟨some .identifier, w⟩ ∨ (pieces l).find? isCode = none := by
  induction hlength : l.length using Nat.strongRecOn generalizing l with
  | _ length ih =>
    match l with
    | [] => exact .inr rfl
    | c :: cs =>
      rw [List.cons_append, pieces_cons] at h
      by_cases hle : (head c (cs ++ '\n' :: r)).2 ≤ cs.length
      · -- the first piece ends on the line
        have hhead := head_of_line hle
        rw [← hhead] at h hle
        rw [List.take_append_of_le_length hle, List.drop_append_of_le_length hle] at h
        rw [pieces_cons]
        by_cases hcode : isCode ⟨(head c cs).1, c :: cs.take (head c cs).2⟩ = true
        · rw [List.find?_cons_of_pos hcode] at h ⊢
          exact .inl h
        · rw [List.find?_cons_of_neg hcode] at h ⊢
          refine ih _ ?_ _ h rfl
          rw [← hlength, List.length_drop, List.length_cons]
          omega
      · -- the first piece goes on beyond the line, so it is a quoted text that is left open
        have hlt := Nat.lt_of_not_le hle
        cases hkind : (head c (cs ++ '\n' :: r)).1 with
        | none =>
          rw [pieces_cons, head_of_passed hkind hlt]
          have hnil : cs.drop cs.length = [] := List.drop_length
          right
          simp only [hnil]
          rfl
        | some kind =>
          exfalso
          by_cases hcomment : kind = .comment
          · subst hcomment
            rw [(head_comment hkind).2] at hlt
            exact absurd (run_line_le cs r) (Nat.not_le_of_lt hlt)
          · have hcode : isCode ⟨(head c (cs ++ '\n' :: r)).1,
                c :: (cs ++ '\n' :: r).take (head c (cs ++ '\n' :: r)).2⟩ = true := by
              simp [isCode, hkind, hcomment]
            rw [List.find?_cons_of_pos hcode] at h
            obtain ⟨hidentifier, rfl⟩ := Piece.mk.inj (Option.some.inj h)
            refine notMem_identifier (identifier_of_head hidentifier) (List.mem_cons_of_mem c ?_)
            rw [List.take_append, List.mem_append]
            right
            obtain ⟨k, hk⟩ : ∃ k, (head c (cs ++ '\n' :: r)).2 - cs.length = k + 1 :=
              ⟨(head c (cs ++ '\n' :: r)).2 - cs.length - 1, by omega⟩
            rw [hk, List.take_succ_cons]
            exact List.mem_cons_self

end Scan

/-! ## The first token -/

theorem Token.head?_dropComments (g g' : Text) (ps : List Piece) :
    ((dropComments g (TokenStream.ofPieces g' ps).tokens).head?.map fun t => Piece.mk (some t.kind) t.text) =
      ps.find? Scan.isCode := by
  induction ps generalizing g g' with
  | nil => rfl
  | cons p ps ih =>
    obtain ⟨kind, text⟩ := p
    cases kind with
    | none => exact ih g (g' ++ text)
    | some kind =>
      rw [TokenStream.ofPieces, dropComments]
      by_cases hcomment : kind = .comment
      · subst hcomment
        exact ih _ []
      · have hcode : Scan.isCode ⟨some kind, text⟩ = true := by simp [Scan.isCode, hcomment]
        rw [if_neg hcomment, List.find?_cons_of_pos hcode]
        rfl

theorem head?_tokenizeCode (s : Text) :
    ((tokenizeCode s).head?.map fun t => Piece.mk (some t.kind) t.text) =
      (Scan.pieces s).find? Scan.isCode :=
  Token.head?_dropComments [] [] _

/-- If joined lines begin with a word, the first of them does, if it has code at all. -/
theorem head?_isWord_line {l r : Text} (hcode : tokenizeCode l ≠ []) {word : String}
    (h : (tokenizeCode (l ++ '\n' :: r)).head?.any (·.isWord word) = true) :
    (tokenizeCode l).head?.any (·.isWord word) = true := by
  obtain ⟨t, ht, hword⟩ := (Option.any_eq_true _ _).1 h
  rw [Token.isWord, Bool.and_eq_true, beq_iff_eq, beq_iff_eq] at hword
  obtain ⟨hkind, htext⟩ := hword
  have hfirst := head?_tokenizeCode (l ++ '\n' :: r)
  rw [ht, Option.map_some, hkind] at hfirst
  rcases Scan.find?_pieces_line l hfirst.symm with hline | hnone
  · rw [← head?_tokenizeCode] at hline
    obtain ⟨u, hu, hpiece⟩ := Option.map_eq_some_iff.1 hline
    obtain ⟨hkind', htext'⟩ := Piece.mk.inj hpiece
    rw [hu, Option.any_some, Token.isWord, Option.some.inj hkind', htext', htext, beq_self_eq_true,
      beq_self_eq_true]
    rfl
  · rw [← head?_tokenizeCode, Option.map_eq_none_iff, List.head?_eq_none_iff] at hnone
    exact absurd hnone hcode

theorem head?_isWord_unlines {l : Line} {rest : List Line} (hcode : tokenizeCode l ≠ []) {word : String}
    (h : (tokenizeCode (Text.unlines (l :: rest))).head?.any (·.isWord word) = true) :
    (tokenizeCode l).head?.any (·.isWord word) = true := by
  cases rest with
  | nil => exact h
  | cons second rest => exact head?_isWord_line hcode h

end SchemaLift
