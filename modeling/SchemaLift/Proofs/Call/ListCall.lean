import SchemaLift.Call.ListCall
import SchemaLift.Proofs.Token.Items

/-!
# Lists in calls

`Lists` says which texts are calls with a list, and what their items are: behind the keyword, and in call
parentheses if it has any, stands one pair of brackets, the tokens between them are cut at the commas
outside all brackets of their own, and a stretch without tokens is no item. `parse?` reads exactly these
calls (`exists_call_iff`).
-/

namespace SchemaLift.ListCall

/-- Tokens that are a call with an array literal around the tokens `inner`. -/
inductive Encloses (keyword : String) (inner : List Token) : List Token → Prop
  | bare {word opener closer : Token} (hword : word.isWord keyword = true)
      (hopener : opener.kind = .lbracket) (hcloser : closer.kind.closesBracket = true) :
      Encloses keyword inner (word :: opener :: (inner ++ [closer]))
  | parenthesized {word lparen opener closer rparen : Token} (hword : word.isWord keyword = true)
      (hlparen : lparen.kind = .lparen ∧ lparen.gap = []) (hopener : opener.kind = .lbracket)
      (hcloser : closer.kind.closesBracket = true) (hrparen : rparen.kind = .rparen) :
      Encloses keyword inner (word :: lparen :: opener :: (inner ++ [closer, rparen]))

/-- The text is a call with the list of these items. -/
def Lists (keyword : String) (s : Text) (items : List Text) : Prop :=
  ∃ inner commas segments, Encloses keyword inner (tokenizeCode s) ∧
    Token.Itemized inner commas segments ∧
      items = (segments.filter (!·.isEmpty)).map Token.spelling

variable {keyword : String} {s : Text}

/-! ## Brackets around the items -/

theorem arrayItems?_eq_some_iff {ts inner commas : List Token} {segments : List (List Token)}
    (hitems : Token.Itemized inner commas segments) :
    arrayItems? ts = some inner ↔ ∃ opener closer, ts = opener :: (inner ++ [closer]) ∧
      opener.kind = .lbracket ∧ closer.kind.closesBracket = true := by
  constructor
  · intro h
    unfold arrayItems? at h
    split at h
    · cases h
    rename_i opener rest
    split at h
    · rename_i hshape
      obtain ⟨before, closer, after, rfl, hlength, hcloser⟩ := Token.exists_of_closeIndex hshape.2
      -- the bracket that closes is the last token
      obtain rfl : after = [] := by
        simp only [List.length_append, List.length_cons] at hlength
        exact List.eq_nil_of_length_eq_zero (by omega)
      rw [List.dropLast_concat] at h
      obtain rfl := Option.some.inj h
      exact ⟨opener, closer, rfl, hshape.1, hcloser⟩
    · cases h
  · rintro ⟨opener, closer, rfl, hopener, hcloser⟩
    have hbelow : Token.depthBelow 0 closer = none := by
      cases hkind : closer.kind <;> simp [hkind, TokenKind.closesBracket] at hcloser <;>
        simp [Token.depthBelow, hkind, TokenKind.opensBracket, TokenKind.closesBracket]
    have hclose : Token.closeIndex 0 (inner ++ [closer]) = some inner.length := by
      rw [hitems.closeIndex_append, Token.closeIndex_cons, hbelow]
      simp
    have hlength : (inner ++ [closer]).length - 1 = inner.length := by simp
    rw [arrayItems?, hclose, hlength, if_pos ⟨hopener, rfl⟩, List.dropLast_concat]

/-- Call parentheses around an argument are those of a token list or none. -/
theorem argument?_eq_some_iff {ts argument : List Token} : argument? ts = some argument ↔
    (∃ lparen rparen, ts = lparen :: (argument ++ [rparen]) ∧ lparen.kind = .lparen ∧
      lparen.gap = [] ∧ rparen.kind = .rparen) ∨
    ∃ t rest, ts = t :: rest ∧ argument = ts ∧ ¬(t.kind = .lparen ∧ t.gap = []) := by
  cases ts with
  | nil => simp [argument?]
  | cons t ts =>
    rw [argument?]
    split
    · rename_i hlparen
      constructor
      · intro h
        split at h
        · rename_i hlast
          obtain ⟨rparen, hget, hrparen⟩ := (Option.any_eq_true _ _).1 hlast
          obtain ⟨init, rfl⟩ := List.getLast?_eq_some_iff.1 hget
          rw [List.dropLast_concat] at h
          obtain rfl := Option.some.inj h
          exact .inl ⟨t, rparen, rfl, hlparen.1, hlparen.2, beq_iff_eq.1 hrparen⟩
        · cases h
      · rintro (⟨lparen, rparen, hts, -, -, hrparen⟩ | ⟨u, rest, hts, -, hnot⟩)
        · obtain ⟨rfl, rfl⟩ := List.cons.inj hts
          have hlast : ((argument ++ [rparen]).getLast?.any (·.is .rparen)) = true := by
            rw [List.getLast?_concat]
            exact beq_iff_eq.2 hrparen
          rw [if_pos hlast, List.dropLast_concat]
        · obtain ⟨rfl, rfl⟩ := List.cons.inj hts
          exact absurd hlparen hnot
    · rename_i hnot
      constructor
      · intro h
        exact .inr ⟨t, ts, rfl, (Option.some.inj h).symm, hnot⟩
      · rintro (⟨lparen, rparen, hts, hkind, hgap, -⟩ | ⟨u, rest, -, hargument, -⟩)
        · obtain ⟨rfl, rfl⟩ := List.cons.inj hts
          exact absurd ⟨hkind, hgap⟩ hnot
        · rw [hargument]

/-- Reading the argument and then its brackets finds what the call encloses. -/
theorem encloses_iff {inner commas : List Token} {segments : List (List Token)}
    (hitems : Token.Itemized inner commas segments) {ts : List Token} :
    Encloses keyword inner ts ↔ ∃ word rest, ts = word :: rest ∧ word.isWord keyword = true ∧
      (argument? rest).bind arrayItems? = some inner := by
  constructor
  · intro h
    cases h with
    | @bare word opener closer hword hopener hcloser =>
      have hbare : argument? (opener :: (inner ++ [closer])) = some (opener :: (inner ++ [closer])) :=
        argument?_eq_some_iff.2 (.inr ⟨_, _, rfl, rfl, by simp [hopener]⟩)
      refine ⟨word, _, rfl, hword, ?_⟩
      rw [hbare]
      exact (arrayItems?_eq_some_iff hitems).2 ⟨opener, closer, rfl, hopener, hcloser⟩
    | @parenthesized word lparen opener closer rparen hword hlparen hopener hcloser hrparen =>
      have hcall : argument? (lparen :: opener :: (inner ++ [closer, rparen])) =
          some (opener :: (inner ++ [closer])) :=
        argument?_eq_some_iff.2
          (.inl ⟨lparen, rparen, by simp, hlparen.1, hlparen.2, hrparen⟩)
      refine ⟨word, _, rfl, hword, ?_⟩
      rw [hcall]
      exact (arrayItems?_eq_some_iff hitems).2 ⟨opener, closer, rfl, hopener, hcloser⟩
  · rintro ⟨word, rest, rfl, hword, h⟩
    obtain ⟨argument, hargument, hinner⟩ := Option.bind_eq_some_iff.1 h
    obtain ⟨opener, closer, rfl, hopener, hcloser⟩ := (arrayItems?_eq_some_iff hitems).1 hinner
    rcases argument?_eq_some_iff.1 hargument with
      ⟨lparen, rparen, rfl, hkind, hgap, hrparen⟩ | ⟨t, ts, -, rfl, -⟩
    · rw [List.cons_append, List.append_assoc]
      exact .parenthesized hword ⟨hkind, hgap⟩ hopener hcloser hrparen
    · exact .bare hword hopener hcloser

/-! ## Calls -/

theorem parse?_eq (keyword : String) (s : Text) : parse? keyword s =
    match tokenizeCode s with
    | [] => none
    | first :: rest =>
      if first.isWord keyword = true then
        (((argument? rest).bind arrayItems?).bind Token.splitTopLevel).map fun items =>
          ⟨items.map Token.spelling, ((tokenize s).filter (·.is .comment)).map Token.text⟩
      else none := by
  have hcode : Token.dropComments [] (tokenize s) = tokenizeCode s := rfl
  unfold parse?
  simp only [hcode]
  cases tokenizeCode s with
  | nil => rfl
  | cons first rest =>
    by_cases hword : first.isWord keyword = true
    · simp only [hword, Bool.not_true, Bool.false_eq_true, ↓reduceIte]
      cases argument? rest with
      | none => rfl
      | some argument =>
        cases hinner : arrayItems? argument with
        | none => simp [hinner]
        | some inner =>
          cases hitems : Token.splitTopLevel inner with
          | none => simp [hinner, hitems]
          | some items => simp [hinner, hitems]
    · simp [hword]

/-- A call is read exactly where the text lists items, and these are read. -/
theorem exists_call_iff {items : List Text} :
    (∃ call, parse? keyword s = some call ∧ call.items = items) ↔ Lists keyword s items := by
  rw [parse?_eq]
  constructor
  · rintro ⟨call, h, rfl⟩
    split at h
    · cases h
    rename_i first rest htokens
    split at h
    · rename_i hword
      obtain ⟨items, hitems, rfl⟩ := Option.map_eq_some_iff.1 h
      obtain ⟨inner, hinner, hitems⟩ := Option.bind_eq_some_iff.1 hitems
      obtain ⟨segments, hsegments, rfl⟩ := Option.map_eq_some_iff.1 hitems
      obtain ⟨commas, hitemized⟩ := Token.segments_eq_some_iff.1 hsegments
      exact ⟨inner, commas, segments,
        htokens ▸ (encloses_iff hitemized).2 ⟨first, rest, rfl, hword, hinner⟩, hitemized, rfl⟩
    · cases h
  · rintro ⟨inner, commas, segments, hencloses, hitemized, rfl⟩
    obtain ⟨word, rest, htokens, hword, hinner⟩ := (encloses_iff hitemized).1 hencloses
    have hsplit : Token.splitTopLevel inner = some (segments.filter (!·.isEmpty)) := by
      rw [Token.splitTopLevel, Token.segments_eq_some_iff.2 ⟨commas, hitemized⟩, Option.map_some]
    simp only [htokens, hword, ↓reduceIte, hinner, Option.bind_some, hsplit, Option.map_some]
    exact ⟨_, rfl, rfl⟩

end SchemaLift.ListCall
