import SchemaLift.Proofs.Block.Steady
import SchemaLift.Proofs.Type.Canonical

/-!
# What a type expression adds to the depth of blocks and brackets

A type expression adds nothing if none of its words is one of a block: its brackets balance, and it ends
with a word or a bracket. The new form has no words of its own (`textBalance_of_parse`).
-/

namespace SchemaLift

open BlockEvent

namespace TypeSyntax

/-- An expression ends with a word or a bracket. -/
theorem Derives.exists_last {nt : Nonterminal} {e : TypeSyntax} {ts : List Token} (h : Derives nt e ts) :
    ∃ t ∈ ts.getLast?, t.kind ∈ [TokenKind.constant, .identifier, .rbracket] := by
  induction h with
  | @marked bang e ts _ h ih =>
    obtain ⟨t, ht, hkind⟩ := ih
    exact ⟨t, List.getLast?_cons_of_ne_nil h.ne_nil ▸ ht, hkind⟩
  | operand _ ih => exact ih
  | @list opener closer e ts _ _ hcloser =>
    exact ⟨closer, by simp [List.getLast?_cons], by simp [hcloser]⟩
  | @typesList types opener closer e ts _ _ _ hcloser =>
    exact ⟨closer, by simp [List.getLast?_cons], by simp [hcloser]⟩
  | @constant c hc => exact ⟨c, rfl, by simp [hc]⟩
  | @typesConstant types dot c _ _ hc => exact ⟨c, rfl, by simp [hc]⟩
  | @call e ts dot m _ _ hm => exact ⟨m, by simp, by simp [hm]⟩

/-- The methods that stay are words of the expression. -/
theorem Derives.exists_of_mem_kept {nt : Nonterminal} {e : TypeSyntax} {ts : List Token}
    (h : Derives nt e ts) : ∀ m ∈ e.kept, ∃ t ∈ ts, t.kind = .identifier ∧ t.text = m := by
  induction h with
  | marked _ _ ih =>
    intro m hm
    obtain ⟨t, ht, hword⟩ := ih m hm
    exact ⟨t, List.mem_cons_of_mem _ ht, hword⟩
  | operand _ ih => exact ih
  | list _ _ _ ih =>
    intro m hm
    obtain ⟨t, ht, hword⟩ := ih m hm
    exact ⟨t, by simp [ht], hword⟩
  | typesList _ _ _ _ ih =>
    intro m hm
    obtain ⟨t, ht, hword⟩ := ih m hm
    exact ⟨t, by simp [ht], hword⟩
  | constant => rintro m ⟨⟩
  | typesConstant => rintro m ⟨⟩
  | @call e ts dot method _ _ hkind _ ih =>
    have hold : ∀ m ∈ e.kept, ∃ t ∈ ts ++ [dot, method], t.kind = .identifier ∧ t.text = m := by
      intro m hm
      obtain ⟨t, ht, hword⟩ := ih m hm
      exact ⟨t, List.mem_append_left _ ht, hword⟩
    intro m hm
    rw [kept] at hm
    split at hm
    · exact hold m hm
    · rcases List.mem_append.1 hm with hm | hm
      · exact hold m hm
      · obtain rfl := List.mem_singleton.1 hm
        exact ⟨method, by simp, hkind, rfl⟩

namespace Whole

section

variable {w : Whole} {ts : List Token} (h : w.Derives ts)
include h

theorem Derives.exists_last :
    ∃ t ∈ ts.getLast?, t.kind ∈ [TokenKind.constant, .identifier, .rbracket, .rbrace] := by
  have hkinds : ∀ kind ∈ [TokenKind.constant, .identifier, .rbracket],
      kind ∈ [TokenKind.constant, .identifier, .rbracket, .rbrace] := by decide
  have hbody : ∀ {deferred : Bool} {e : TypeSyntax} {ts : List Token}, Body deferred e ts →
      ts ≠ [] ∧ ∃ t ∈ ts.getLast?, t.kind ∈ [TokenKind.constant, .identifier, .rbracket, .rbrace] := by
    intro deferred e ts h
    cases h with
    | plain h =>
      obtain ⟨t, ht, hkind⟩ := h.exists_last
      exact ⟨h.ne_nil, t, ht, hkinds _ hkind⟩
    | @deferred word opener closer e ts _ _ _ hcloser =>
      exact ⟨List.cons_ne_nil _ _, closer, by simp [List.getLast?_cons], by simp [hcloser]⟩
  cases h with
  | unmarked h => exact (hbody h).2
  | marked _ h =>
    obtain ⟨hne, t, ht, hkind⟩ := hbody h
    exact ⟨t, List.getLast?_cons_of_ne_nil hne ▸ ht, hkind⟩

theorem Derives.exists_of_mem_kept :
    ∀ m ∈ w.level.kept, ∃ t ∈ ts, t.kind = .identifier ∧ t.text = m := by
  have hbody : ∀ {deferred : Bool} {e : TypeSyntax} {ts : List Token}, Body deferred e ts →
      ∀ m ∈ e.kept, ∃ t ∈ ts, t.kind = .identifier ∧ t.text = m := by
    intro deferred e ts h m hm
    cases h with
    | plain h => exact h.exists_of_mem_kept m hm
    | deferred _ _ h _ =>
      obtain ⟨t, ht, hword⟩ := h.exists_of_mem_kept m hm
      exact ⟨t, by simp [ht], hword⟩
  intro m hm
  cases h with
  | unmarked h => exact hbody h m hm
  | marked _ h =>
    obtain ⟨t, ht, hword⟩ := hbody h m hm
    exact ⟨t, List.mem_cons_of_mem _ ht, hword⟩

/-- Without a word of a block, an expression adds nothing. -/
theorem Derives.steady (hwords : Wordless ts) :
    Steady ts ∧ codeBalance ts = 0 := by
  obtain ⟨t, hmeans⟩ := w.exists_means
  obtain ⟨-, hstretch, -⟩ :=
    TypeExpression.ofTokens_spec (TypeExpression.ofTokens_eq_some_iff.2 ⟨w, h, hmeans⟩)
  have hkinds : ∀ kind ∈ TypeExpression.tokenKinds, kind ≠ .doWord ∧ kind ≠ .endWord := by decide
  have hquiet : ∀ t ∈ ts, t.Eventless := fun t ht =>
    ⟨hwords t ht, hkinds t.kind (hstretch.kinds t ht)⟩
  have hdepth : Token.bracketDepth ts = 0 := by
    have hsum := Token.bracketDepth_eq hstretch.depth
    omega
  refine ⟨steady_of_eventless hquiet ?_, ?_⟩
  · obtain ⟨last, hlast, hkind⟩ := h.exists_last
    have hdots : ∀ kind ∈ [TokenKind.constant, .identifier, .rbracket, .rbrace],
        (kind == .dot || kind == .scope) = false := by decide
    rw [hlast]
    exact hdots last.kind hkind
  · rw [codeBalance_of_eventless hquiet, hdepth]
    rfl

end

end Whole

end TypeSyntax

namespace TypeExpression

open TypeSyntax (Whole baseTokens)

/-- The words of the new form are those around which it is written. -/
theorem exists_of_mem_renderTokens {deferred : Bool} {n : Nat} {base : List Token} {t : Token}
    (h : t ∈ renderTokens deferred n base) (hkind : t.kind = .identifier) :
    ∃ u ∈ base, u.kind = .identifier ∧ u.text = t.text := by
  have hinner : ∀ u ∈ TypeExpression.openers n ++ (base ++ closers n),
      u.kind = .identifier → u ∈ base := by
    intro u hu hk
    rcases List.mem_append.1 hu with hu | hu
    · rw [List.eq_of_mem_replicate hu] at hk
      cases hk
    rcases List.mem_append.1 hu with hu | hu
    · exact hu
    · rw [List.eq_of_mem_replicate hu] at hk
      cases hk
  unfold renderTokens at h
  simp only at h
  split at h
  · simp only [List.mem_cons, List.mem_append, List.not_mem_nil, or_false] at h
    rcases h with rfl | rfl | h | rfl
    · cases hkind
    · cases hkind
    · obtain ⟨u, hu, hsame, htext⟩ := Token.exists_of_mem_addGap h
      exact ⟨u, hinner u hu (hsame.trans hkind), hsame.trans hkind, htext⟩
    · cases hkind
  · exact ⟨t, hinner t h hkind, hkind, rfl⟩

/-- **A type expression without a word of a block adds nothing**, neither as it is written nor in its new
form. -/
theorem textBalance_of_parse {s : Text} {t : TypeExpression} (h : parse s = some t)
    (hwords : Wordless (tokenizeCode s)) :
    (Steady (tokenizeCode s) ∧ textBalance s = 0) ∧
      Steady (tokenizeCode t.render) ∧ textBalance t.render = 0 := by
  obtain ⟨w, hw, hmeans⟩ := ofTokens_eq_some_iff.1 h
  have htokens := tokenizeCode_render hw hmeans
  have hnew := TypeSyntax.Whole.derives_renderTokens t.deferred t.listDepth
    (Scalar.canonical w.level.name) fun m hm => ((hw.worded (worded_tokenizeCode s)).2 m hm).2
  refine ⟨hw.steady hwords, ?_⟩
  rw [textBalance, htokens]
  refine hnew.steady fun u hu => Bool.eq_false_iff.2 fun hword => ?_
  -- such a word would be a method that stays, and these stand in the text
  obtain ⟨hkind, hmem⟩ := isWordOf_iff.1 hword
  obtain ⟨v, hv, hv', htext⟩ := exists_of_mem_renderTokens hu hkind
  rcases List.mem_cons.1 hv with rfl | hv
  · cases hv'
  obtain ⟨m, hm, hv⟩ := List.mem_flatMap.1 hv
  simp only [List.mem_cons, List.not_mem_nil, or_false] at hv
  rcases hv with rfl | rfl
  · cases hv'
  obtain ⟨x, hx, hx', rfl⟩ := hw.exists_of_mem_kept m hm
  have hquiet := hwords x hx
  rw [isWordOf_iff.2 ⟨hx', by rwa [htext]⟩] at hquiet
  cases hquiet

end TypeExpression

end SchemaLift
