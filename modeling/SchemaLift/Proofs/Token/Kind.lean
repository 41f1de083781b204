import SchemaLift.Proofs.Token.Lookahead

/-!
# What tokens of a kind look like

A mark of one kind is always written the same, a label ends in a colon, and a symbol starts with one
(`writes_of_mem_tokenize`).
-/

namespace SchemaLift

/-- What is known of the text of a token from its kind. -/
def TokenKind.Writes (kind : TokenKind) (text : Text) : Prop :=
  match kind with
  | .comma => text = [',']
  | .lparen => text = ['(']
  | .rparen => text = [')']
  | .rbracket => text = [']']
  | .rbrace => text = ['\x7d']
  | .hashRocket => text = ['=', '>']
  | .label => ∃ key, text = key ++ [':']
  | .symbol => ∃ name, text = ':' :: name
  | _ => True

theorem TokenKind.Writes.of_closesBracket {kind : TokenKind} {text : Text} (h : kind.Writes text)
    (hcloses : kind.closesBracket = true) : text = [')'] ∨ text = [']'] ∨ text = ['\x7d'] := by
  cases kind <;> first | exact .inl h | exact .inr (.inl h) | exact .inr (.inr h) | cases hcloses

namespace Scan

theorem writes_afterColon {cs : Text} {kind : TokenKind} (h : (afterColon cs).1 = some kind) :
    kind.Writes (':' :: cs.take (afterColon cs).2) := by
  rcases afterColon_cases cs with ⟨kind', hk, n, hn⟩ | ⟨n, rest, -, -, hn⟩
  · rw [hn] at h
    obtain rfl := Option.some.inj h
    simp only [List.mem_cons, List.not_mem_nil, or_false] at hk
    rcases hk with rfl | rfl | rfl
    · trivial
    · exact ⟨_, rfl⟩
    · trivial
  · rw [hn] at h
    cases h

theorem writes_punctuation {c : Char} {kind : TokenKind} (h : punctuation c = some kind) :
    kind.Writes [c] := by
  unfold punctuation at h
  split at h <;> cases h <;> first | rfl | trivial

/-- A label takes its colon. -/
theorem writes_word (c : Char) (cs : Text) : (word c cs).1.Writes (c :: cs.take (word c cs).2) := by
  rw [word_eq]
  extract_lets n rest
  split_ifs with hpath hcolon hlabel hupper hmark
  · trivial
  · obtain ⟨after, hafter⟩ := List.head?_eq_some_iff.1 hcolon
    exact ⟨c :: cs.take n, congrArg (c :: ·) (take_succ_of_drop_eq_cons hafter)⟩
  · -- a question or exclamation mark stands in front of the colon
    obtain ⟨after, hafter⟩ := List.head?_eq_some_iff.1 hlabel.2
    rw [List.tail_drop] at hafter
    exact ⟨c :: cs.take (n + 1), congrArg (c :: ·) (take_succ_of_drop_eq_cons hafter)⟩
  · trivial
  · trivial
  · unfold plainKind
    split_ifs <;> trivial

theorem writes_of_head {c : Char} {cs : Text} {kind : TokenKind} (h : (head c cs).1 = some kind) :
    kind.Writes (c :: cs.take (head c cs).2) := by
  refine head_cases (P := fun found => found.1 = some kind → kind.Writes (c :: cs.take found.2)) c cs
    (fun _ h => ?_) (fun _ h => ?_) (fun hc h => hc ▸ writes_afterColon h) (fun _ h => ?_)
    (fun _ h => ?_) (fun _ h => ?_) (fun _ h => ?_) (fun _ h => ?_) (fun _ _ h => ?_)
    (fun hc harrow h => ?_) (fun _ h => ?_) (fun h => ?_) h
  · split at h <;> cases h
    trivial
  · split at h <;> cases h
    trivial
  · cases h
    trivial
  · rcases afterAt_cases cs with ⟨n, hn⟩ | hn <;> rw [hn] at h <;> cases h
    trivial
  · split at h <;> cases h
    trivial
  · cases h
    trivial
  · obtain rfl := Option.some.inj h
    exact writes_word c cs
  · cases h
    trivial
  · cases h
    obtain ⟨rest, rfl⟩ := List.head?_eq_some_iff.1 harrow
    exact hc ▸ rfl
  · cases h
    trivial
  · exact writes_punctuation h

end Scan

theorem writes_of_mem_tokenize {s : Text} {t : Token} (h : t ∈ tokenize s) : t.kind.Writes t.text := by
  obtain ⟨c, cs, hkind, htext⟩ := Scan.head_of_mem_pieces (TokenStream.mem_pieces_of_mem_tokens h)
  rw [htext]
  exact Scan.writes_of_head hkind

end SchemaLift
