import SchemaLift.Proofs.Block.Alike
import SchemaLift.Proofs.Proc.Body
import SchemaLift.Proofs.Proc.Weight

/-!
# What the body of a resolver method adds

Adapting a body puts words for words, and symbols and strings for such. None of them opens a block unless a
parameter is named like a keyword of one, and no string goes on on the next line. So the body of a method
adds what the proc added that it was made of (`ProcLiteral.Regular.balance_eq`).
-/

namespace SchemaLift

open BlockEvent Accessor

namespace Accessor

/-! ## Line feeds -/

theorem isWordChar_of_keyText {t : Token} {key : Text} (h : keyText t = some key) :
    ∀ c ∈ key, Scan.isWordChar c = true := by
  obtain ⟨key', -, h⟩ := Option.bind_eq_some_iff.1 h
  split at h
  · rename_i hall
    obtain rfl := Option.some.inj h
    exact List.all_eq_true.1 hall
  · cases h

theorem notMem_name (accessor : Accessor) : '\n' ∉ accessor.name := by
  cases accessor <;> decide

section

variable {adapt : Text → Except SkipReason Adapted}
  (hadapt : ∀ code, '\n' ∉ code → ∀ out, adapt code = .ok out → '\n' ∉ out.text)
include hadapt

theorem notMem_adaptLiteral {unclosed : SkipReason} {fuel : Nat} {s : Text} {out : Adapted}
    (hs : '\n' ∉ s) (h : adaptLiteral adapt unclosed fuel s = .ok out) : '\n' ∉ out.text := by
  induction fuel generalizing s out with
  | zero =>
    cases h
    exact hs
  | succ fuel ih =>
    rw [adaptLiteral] at h
    cases hsplit : splitInterpolation s with
    | none =>
      rw [hsplit] at h
      cases h
      exact hs
    | some found =>
      obtain ⟨opening, after⟩ := found
      obtain ⟨before, rfl, rfl, -⟩ := splitInterpolation_spec hsplit
      rw [hsplit] at h
      have hboth : '\n' ∉ (before ++ ['#', '{']) ++ after := by simpa using hs
      obtain ⟨hopening, hafter⟩ := not_or.1 (mt List.mem_append.2 hboth)
      have hcons : ∀ {t : Text}, '\n' ∉ t → '\n' ∉ (before ++ ['#', '{']) ++ t := by
        intro t ht hmem
        exact (List.mem_append.1 hmem).elim hopening ht
      simp only at h
      split at h
      · obtain ⟨rest, hrest, heq⟩ := bind_eq_ok_iff.1 h
        cases heq
        exact hcons (ih hafter hrest)
      · split at h
        · cases h
        · rename_i n _
          obtain ⟨a, ha, h⟩ := bind_eq_ok_iff.1 h
          obtain ⟨rest, hrest, heq⟩ := bind_eq_ok_iff.1 h
          cases heq
          have hcode := hadapt _ (fun hmem => hafter (List.mem_of_mem_take hmem)) a ha
          have hbehind := ih (fun hmem => hafter (List.mem_of_mem_drop hmem)) hrest
          intro hmem
          rcases List.mem_append.1 hmem with hmem | hmem
          · exact hcons hcode hmem
          · exact hbehind hmem

theorem notMem_adaptToken {parameters : List Text} {before after : List Token} {t : Token} {a : Adapted}
    (ht : '\n' ∉ t.text) (h : adaptToken adapt parameters before t after = .ok a) : '\n' ∉ a.text := by
  unfold adaptToken at h
  split at h
  · split at h
    · cases h
      exact notMem_name _
    · cases h
      exact ht
  · split at h
    · rename_i key hkey
      cases h
      have hword := Name.isWordChar_underscoreFrom (isWordChar_of_keyText (argsKey_spec hkey).1) none
      refine List.not_mem_cons_of_ne_of_not_mem (by decide) fun hmem => ?_
      exact absurd (hword '\n' hmem) (by decide)
    · split at h
      · exact notMem_adaptLiteral hadapt ht h
      · cases h
        exact ht

theorem notMem_weave {parameters : List Text} {before ts : List Token} {parts : List Adapted} {tail : Text}
    (hts : ∀ t ∈ ts, '\n' ∉ t.full) (htail : '\n' ∉ tail)
    (h : (Token.mapNeighbours (adaptToken adapt parameters) before ts).mapM id = .ok parts) :
    '\n' ∉ TokenStream.weave ts (parts.map Adapted.text) tail := by
  induction ts generalizing before parts with
  | nil =>
    cases h
    exact htail
  | cons t ts ih =>
    obtain ⟨ht, hrest⟩ := List.forall_mem_cons.1 hts
    obtain ⟨hgap, htext⟩ := not_or.1 (mt List.mem_append.2 ht)
    rw [Token.mapNeighbours, List.mapM_cons] at h
    obtain ⟨a, ha, h⟩ := bind_eq_ok_iff.1 h
    obtain ⟨as, has, heq⟩ := bind_eq_ok_iff.1 h
    cases heq
    have hbehind := ih hrest has
    have hnew := notMem_adaptToken hadapt htext ha
    unfold TokenStream.weave at hbehind ⊢
    rw [List.map_cons, List.zipWith_cons_cons, List.flatten_cons, List.append_assoc, List.append_assoc]
    intro hmem
    rcases List.mem_append.1 hmem with hmem | hmem
    · exact hgap hmem
    · exact (List.mem_append.1 hmem).elim hnew hbehind

end

/-- Adapting code on one line leaves it on one line. -/
theorem notMem_adaptCode {parameters : List Text} {depth : Nat} {code : Text} {out : Adapted}
    (hcode : '\n' ∉ code) (h : adaptCode parameters depth code = .ok out) : '\n' ∉ out.text := by
  induction depth generalizing code out with
  | zero =>
    cases h
    exact hcode
  | succ depth ih =>
    rw [adaptCode] at h
    obtain ⟨parts, hparts, heq⟩ := bind_eq_ok_iff.1 h
    cases heq
    have hstream : '\n' ∉ (TokenStream.ofText code).toText := by rwa [TokenStream.toText_ofText]
    obtain ⟨htokens, htail⟩ := not_or.1 (mt List.mem_append.2 hstream)
    refine notMem_weave (fun c hc out hout => ih hc hout) (fun t ht hmem => ?_) htail hparts
    exact htokens (List.mem_flatMap.2 ⟨t, ht, hmem⟩)

/-! ## Pieces and tokens -/

/-- What belongs to no token stays. -/
theorem mem_of_respelled {before : Option Piece} {ps qs : List Piece} (h : Respelled before ps qs) {q : Piece}
    (hq : q ∈ qs) (hk : q.kind = none) : q ∈ ps := by
  induction h with
  | nil => cases hq
  | @cons before p q' ps qs hpiece _ ih =>
    rcases List.mem_cons.1 hq with rfl | hq
    · cases hpiece with
      | keep => exact List.mem_cons_self
      | word => cases hk
      | key => cases hk
      | string => cases hk
    · exact List.mem_cons_of_mem p (ih hq)

/-- A parameter that is no keyword of a block, and what takes its place, count alike. -/
theorem Replaces.alike {parameters : List Text} {t new : Token} (h : Replaces parameters t new)
    (hnamed : ∀ name ∈ parameters.take 3, name ∉ openers.map String.toList) : t.Alike new := by
  have hname : ∀ accessor : Accessor, accessor.name ∉ openers.map String.toList := by
    intro accessor
    cases accessor <;> decide
  have hword : ∀ {t : Token}, t.kind = .identifier → t.text ∉ openers.map String.toList → t.Silent :=
    fun hk htext => ⟨by simp [hk], Bool.eq_false_iff.2 fun hopener => htext (isWordOf_iff.1 hopener).2⟩
  have hliteral : ∀ {t : Token}, t.kind ∈ [TokenKind.symbol, .doubleQuoted, .singleQuoted] → t.Silent := by
    intro t hk
    refine ⟨List.mem_cons_of_mem _ hk, Bool.eq_false_iff.2 fun hopener => ?_⟩
    rw [(isWordOf_iff.1 hopener).1] at hk
    exact absurd hk (by decide)
  cases h with
  | keep => exact .refl
  | accessor hkind hmem => exact .silent (hword hkind (hnamed _ hmem)) (hword rfl (hname _)) rfl
  | literal hold hnew => exact .silent (hliteral hold) (hliteral hnew) rfl

namespace CodeAdapted

variable {parameters : List Text} {depth : Nat} {code : Text} {out : Adapted}
  (h : CodeAdapted (adaptCode parameters depth) parameters code out)
include h

/-- Tidy code stays tidy. -/
theorem tidy (hcode : Tidy code) : Tidy out.text := by
  obtain ⟨parts, hparts, -⟩ := h.tokens
  rintro ⟨kind, text⟩ hp
  cases kind with
  | none => exact hcode _ (mem_of_respelled h.respelled hp rfl)
  | some kind =>
    refine ⟨fun hk => absurd hk (Option.some_ne_none kind), fun _ => ?_⟩
    obtain ⟨new, hnew, -, rfl⟩ : ∃ new ∈ tokenize out.text, new.kind = kind ∧ new.text = text :=
      TokenStream.exists_mem_tokens hp
    obtain ⟨t, ht, before, after, a, hmade, htext⟩ := hparts.exists_made hnew
    have hline := (hcode _ (TokenStream.mem_pieces_of_mem_tokens ht)).2 (Option.some_ne_none t.kind)
    rw [← htext]
    exact notMem_adaptToken (fun c hc b hb => notMem_adaptCode hc hb) hline hmade

/-- It adds as much. -/
theorem textBalance_eq (hnamed : ∀ name ∈ parameters.take 3, name ∉ openers.map String.toList) :
    textBalance out.text = textBalance code := by
  obtain ⟨parts, hparts, -⟩ := h.tokens
  exact textBalance_of_alike (hparts.replaces.imp fun _ _ hreplaces => hreplaces.alike hnamed)

end CodeAdapted

end Accessor

/-! ## Bodies of methods -/

/-- What is needed of a proc for the body of its method to add as much: its parameters are plain words and no
keywords of a block, nothing keeps its body from being adapted, and the body counts by itself. -/
structure ProcLiteral.Regular (p : ProcLiteral) : Prop where
  worded : Worded p.parameters
  named : ∀ name ∈ p.parameters, name ∉ openers.map String.toList
  adaptable : ∀ code, Within p.body code → Adaptable p.parameters code
  steady : Steady (tokenizeCode p.body)

instance (p : ProcLiteral) : Decidable p.Regular :=
  decidable_of_iff (Worded p.parameters ∧ (∀ name ∈ p.parameters, name ∉ openers.map String.toList) ∧
      (∀ code, Within p.body code → Adaptable p.parameters code) ∧ Steady (tokenizeCode p.body))
    ⟨fun h => ⟨h.1, h.2.1, h.2.2.1, h.2.2.2⟩, fun h => ⟨h.worded, h.named, h.adaptable, h.steady⟩⟩

/-- **The body of a method adds what its proc added.** -/
theorem ProcLiteral.Regular.balance_eq {resolver : Text} {p : ProcLiteral} {out : Adapted} (h : p.Regular)
    (hresolver : Tidy resolver) (hparse : parse resolver = .ok p)
    (hout : adaptBody p.parameters p.body = .ok out) :
    balance (bodyLines out.text) = textBalance resolver := by
  have hadapted := codeAdapted_of_adaptCode h.worded le_rfl h.adaptable hout
  have hnamed : ∀ name ∈ p.parameters.take 3, name ∉ openers.map String.toList := fun name hname =>
    h.named name (List.mem_of_mem_take hname)
  calc balance (bodyLines out.text)
      = textBalance out.text := balance_bodyLines (hadapted.tidy (tidy_body hparse hresolver))
    _ = textBalance p.body := hadapted.textBalance_eq hnamed
    _ = textBalance resolver := (textBalance_of_parse hparse h.named h.steady).symm

end SchemaLift
