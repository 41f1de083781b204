import SchemaLift.Proofs.Name
import SchemaLift.Proofs.Proc.Interpolation
import SchemaLift.Proofs.Token.Found

/-!
# Tokens read through accessors

What becomes of a token in the body of a proc: a parameter is replaced by its accessor, a key of the
arguments by an underscored symbol, and a string by one with its interpolations adapted. Each is one
token again, and the tokens next to it keep their places (`adaptToken_spec`).
-/

namespace SchemaLift

open Quoted (Scanner)

namespace Accessor

/-! ## Keys -/

/-- A key as it is written: a symbol, or a string in quotes. -/
theorem keyText_spec {t : Token} {key : Text} (ht : Scan.Found t.kind t.text)
    (h : keyText t = some key) : t.kind ∈ [TokenKind.symbol, .doubleQuoted, .singleQuoted] ∧
      (t.text = ':' :: key ∨
        ∃ quote, (quote = '"' ∨ quote = '\'') ∧ t.text = quote :: (key ++ [quote])) ∧
      ∀ c ∈ key, Scan.isWordChar c = true := by
  obtain ⟨gap, kind, text⟩ := t
  simp only [keyText] at h ht ⊢
  obtain ⟨key', hkey, h⟩ := Option.bind_eq_some_iff.1 h
  by_cases hall : key'.all Scan.isWordChar = true
  swap
  · rw [if_neg hall] at h
    cases h
  rw [if_pos hall] at h
  cases h
  have hword := List.all_eq_true.1 hall
  split at hkey
  · obtain ⟨c, cs, n, rfl, rfl⟩ := ht.delimited
    cases hkey
    exact ⟨by decide, .inl rfl, hword⟩
  · obtain ⟨content, last, rfl, -, hlast⟩ := ht.doubleQuoted
    have hcontent : content = key := by simpa using hkey
    subst hcontent
    refine ⟨by decide, .inr ⟨'"', .inl rfl, ?_⟩, hword⟩
    rw [Scanner.run_inert fun c hc => Scanner.inert_of_isWordChar (hword c hc)] at hlast
    rw [Scanner.eq_quote_of_step hlast]
  · obtain ⟨c, cs, n, ⟨rfl, hn⟩, rfl⟩ := ht.delimited
    obtain ⟨content, hcontent⟩ := Scan.take_plainExtent hn
    rw [hcontent] at hkey ⊢
    have hcontent : content = key := by simpa using hkey
    exact ⟨by decide, .inr ⟨'\'', .inr rfl, by rw [hcontent]⟩, hword⟩
  · cases hkey

/-! ## Parameters -/

theorem map_fst_zip_all (parameters : List Text) :
    (parameters.zip all).map Prod.fst = parameters.take 3 := by
  match parameters with
  | [] | [_] | [_, _] | _ :: _ :: _ :: _ => simp [all]

/-- The first three parameters are replaced, and nothing else is. -/
theorem of?_eq_none_iff {parameters : List Text} {name : Text} :
    of? parameters name = none ↔ name = ['_'] ∨ name ∉ parameters.take 3 := by
  unfold of?
  by_cases h : name = ['_']
  · rw [if_pos h]
    exact iff_of_true rfl (.inl h)
  · rw [if_neg h, or_iff_right h, Option.map_eq_none_iff, List.find?_eq_none, ← map_fst_zip_all]
    simp only [beq_iff_eq, List.mem_map, not_exists, not_and]

theorem mem_of_of? {parameters : List Text} {name : Text} {accessor : Accessor}
    (h : of? parameters name = some accessor) : name ∈ parameters.take 3 := by
  by_contra hnot
  rw [of?_eq_none_iff.2 (.inr hnot)] at h
  cases h

end Accessor

/-- The code that a token interpolates. -/
def Token.interpolated (t : Token) : List Text :=
  if t.kind = .doubleQuoted then (Quoted.interpolations t.text).map (·.code) else []

theorem Token.interpolated_of_ne {t : Token} (h : t.kind ≠ .doubleQuoted) : t.interpolated = [] :=
  if_neg h

namespace Accessor

/-- The first three parameters are plain words. -/
def Worded (parameters : List Text) : Prop :=
  ∀ p ∈ parameters.take 3, ∀ c ∈ p, Scan.isWordChar c = true

instance (parameters : List Text) : Decidable (Worded parameters) :=
  decidable_of_iff (((parameters.take 3).all fun p => p.all Scan.isWordChar) = true)
    (by simp only [Worded, List.all_eq_true])

/-- The first three parameters are plain words, and none is called as an accessor. -/
def Proper (parameters : List Text) : Prop :=
  ∀ p ∈ parameters.take 3, (∀ c ∈ p, Scan.isWordChar c = true) ∧ ∀ accessor ∈ all, p ≠ accessor.name

instance (parameters : List Text) : Decidable (Proper parameters) :=
  decidable_of_iff (((parameters.take 3).all fun p =>
      p.all Scan.isWordChar && all.all fun accessor => p != accessor.name) = true)
    (by simp only [Proper, List.all_eq_true, Bool.and_eq_true, bne_iff_ne])

theorem Proper.worded {parameters : List Text} (h : Proper parameters) : Worded parameters :=
  fun p hp => (h p hp).1

/-- What takes the place of a token: the token itself, an accessor that of a parameter, and a literal that
of a literal. -/
inductive Replaces (parameters : List Text) (t : Token) : Token → Prop
  | keep : Replaces parameters t t
  | accessor {accessor : Accessor} (hkind : t.kind = .identifier) (hname : t.text ∈ parameters.take 3) :
      Replaces parameters t ⟨t.gap, .identifier, accessor.name⟩
  | literal {kind : TokenKind} {text : Text}
      (hold : t.kind ∈ [TokenKind.symbol, .doubleQuoted, .singleQuoted])
      (hnew : kind ∈ [TokenKind.symbol, .doubleQuoted, .singleQuoted]) :
      Replaces parameters t ⟨t.gap, kind, text⟩

/-- What becomes of a token: `a` is its text adapted, `new` the token that this text is. -/
structure TokenAdapted (adapt : Text → Except SkipReason Adapted) (parameters : List Text)
    (before : List Token) (t : Token) (a : Adapted) (new : Token) : Prop where
  text : new.text = a.text
  replaces : Replaces parameters t new
  dot : afterDot [new] = afterDot [t]
  /-- Where a parameter could be read, an accessor is. -/
  name : new.kind = .identifier → afterDot before = false →
    of? parameters new.text = none ∨ ∃ accessor : Accessor, new.text = accessor.name
  codes : List.Forall₂ (fun code code' => ∃ b, adapt code = .ok b ∧ code' = b.text)
    t.interpolated new.interpolated
  reads : a.readsArgs = true ↔
    (t.kind = .identifier ∧ afterDot before = false ∧ of? parameters t.text = some args) ∨
      ∃ code ∈ t.interpolated, ∃ b, adapt code = .ok b ∧ b.readsArgs = true

theorem TokenAdapted.of_plain {adapt : Text → Except SkipReason Adapted} {parameters : List Text}
    {before : List Token} {t new : Token} {a : Adapted} (htext : new.text = a.text)
    (hreplaces : Replaces parameters t new) (hold : t.interpolated = [])
    (hnew : new.interpolated = []) (hdot : afterDot [new] = afterDot [t])
    (hname : new.kind = .identifier → afterDot before = false →
      of? parameters new.text = none ∨ ∃ accessor : Accessor, new.text = accessor.name)
    (hreads : a.readsArgs = true ↔
      t.kind = .identifier ∧ afterDot before = false ∧ of? parameters t.text = some args) :
    TokenAdapted adapt parameters before t a new where
  text := htext
  replaces := hreplaces
  dot := hdot
  name := hname
  codes := by rw [hold, hnew]; exact .nil
  reads := by
    rw [hold, hreads]
    exact ⟨.inl, fun h => h.resolve_right fun ⟨_, hmem, _⟩ => absurd hmem List.not_mem_nil⟩

theorem of?_name {parameters : List Text} (h : Proper parameters) (accessor : Accessor) :
    of? parameters accessor.name = none :=
  of?_eq_none_iff.2 (.inr fun hmem => (h _ hmem).2 accessor (by cases accessor <;> decide) rfl)

theorem afterDot_eq_false {t : Token} (h : t.kind ∉ [TokenKind.dot, .scope]) :
    afterDot [t] = false := by
  obtain ⟨gap, kind, text⟩ := t
  simp only [List.mem_cons, List.not_mem_nil, or_false, not_or] at h
  simp [afterDot, Token.is, h]

/-- A key stands between square brackets. -/
theorem argsKey_spec {parameters : List Text} {before after : List Token} {t : Token} {key : Text}
    (h : argsKey parameters before t after = some key) : keyText t = some key ∧
      (∃ bracket ∈ before.head?, bracket.kind = .lbracket) ∧
      ∃ close ∈ after.head?, close.kind = .rbracket := by
  unfold argsKey at h
  split at h
  · split at h
    · rename_i hcond
      exact ⟨h, ⟨_, rfl, hcond.2.1⟩, _, rfl, hcond.1⟩
    · cases h
  · cases h

/-- A string with its interpolations adapted takes the place of the string. -/
theorem adaptString_spec {adapt : Text → Except SkipReason Adapted} {unclosed : SkipReason}
    {text : Text} {out : Adapted} (hfound : Scan.Found .doubleQuoted text)
    (hescape : ∀ i ∈ Quoted.interpolations text, i.previous ≠ '\\')
    (hsame : ∀ i ∈ Quoted.interpolations text, ∀ b, adapt i.code = .ok b →
      Scanner.Same i.code b.text)
    (hout : adaptLiteral adapt unclosed text.length text = .ok out) : StringFor text out.text ∧
      List.Forall₂ (fun i i' => ∃ b, adapt i.code = .ok b ∧ i'.code = b.text)
        (Quoted.interpolations text) (Quoted.interpolations out.text) ∧
      (out.readsArgs = true ↔
        ∃ i ∈ Quoted.interpolations text, ∃ b, adapt i.code = .ok b ∧ b.readsArgs = true) := by
  obtain ⟨content, last, rfl, hcontent, hlast⟩ := hfound.doubleQuoted
  rw [List.length_cons, adaptLiteral_cons (by decide)] at hout
  obtain ⟨out, hcontents, rfl⟩ := map_eq_ok_iff.1 hout
  have hescape : ∀ i ∈ Quoted.interpolationsFrom '"' 0 (content ++ [last]), i.previous ≠ '\\' := hescape
  have h := adaptLiteral_spec (Nat.le_succ _) hcontents hescape hsame
  have hend := h.last
  rw [List.getLast?_concat] at hend
  obtain ⟨content', hcontent'⟩ := List.getLast?_eq_some_iff.1 hend
  have hinner := h.same
  rw [hcontent', List.dropLast_concat, List.dropLast_concat] at hinner
  have hrun := hinner ⟨[.string], .plain⟩ .outerString hcontent
  refine ⟨⟨?_, content', last, by rw [hcontent'], fun rest => ?_⟩, h.codes, h.reads⟩
  · rw [hcontent']
    exact (Scanner.Same.refl ['"']).append (hinner.append (.refl [last]))
  · rw [Quoted.stringClose, Scanner.closing_eq .outerString]
    refine Scanner.closeFrom_of_step ?_ ?_ rest
    · rw [hrun]
      exact hcontent
    · rw [hrun]
      exact hlast

/-! ## Tokens -/

/-- A key interpolates nothing. -/
theorem interpolated_of_keyText {t : Token} {key : Text} (ht : Scan.Found t.kind t.text)
    (h : keyText t = some key) : t.interpolated = [] := by
  by_cases hstring : t.kind = .doubleQuoted
  swap
  · exact Token.interpolated_of_ne hstring
  obtain ⟨-, htext, hword⟩ := keyText_spec ht h
  rw [hstring] at ht
  obtain ⟨content, last, heq, -, -⟩ := ht.doubleQuoted
  rcases htext with htext | ⟨quote, hq, htext⟩
  · rw [htext] at heq
    cases heq
  · rw [htext] at heq
    obtain ⟨rfl, -⟩ := List.cons.inj heq
    rw [Token.interpolated, if_pos hstring, List.map_eq_nil_iff, htext, Quoted.interpolations,
      List.tail_cons]
    refine Quoted.interpolationsFrom_eq_nil (fun c hc => ?_) _
    rcases List.mem_append.1 hc with hc | hc
    · have hinert := Scanner.inert_of_isWordChar (hword c hc)
      exact ⟨hinert.1, hinert.2.1⟩
    · rw [List.mem_singleton.1 hc]
      decide

/-- What starts like a name has an underscored form that does. -/
theorem underscore_spec {key : Text} (hword : ∀ c ∈ key, Scan.isWordChar c = true)
    (hstart : key.head?.any Scan.isWordStart = true) :
    (∀ c ∈ Name.underscore key, Scan.isWordChar c = true) ∧
      (Name.underscore key).head?.any Scan.isWordStart = true := by
  refine ⟨Name.isWordChar_underscoreFrom hword none, ?_⟩
  cases key with
  | nil => cases hstart
  | cons c cs =>
    obtain ⟨d, hunder, hd, -⟩ := Name.underscore_cons hstart cs
    rw [hunder]
    exact hd

section

variable {adapt : Text → Except SkipReason Adapted} {parameters : List Text}
  {before after : List Token} {t : Token} {a : Adapted} {prev next : Option Piece}

/-- A name becomes the accessor that it is replaced by, or it stays. -/
theorem adaptToken_name (hworded : Worded parameters) (hk : t.kind = .identifier)
    (hdot : afterDot before = false) (hout : adaptToken adapt parameters before t after = .ok a) :
    PieceFor prev next ⟨some t.kind, t.text⟩ ⟨some t.kind, a.text⟩ ∧
      TokenAdapted adapt parameters before t a ⟨t.gap, t.kind, a.text⟩ := by
  rw [adaptToken, if_pos ⟨hk, Bool.eq_false_iff.1 hdot⟩] at hout
  have hplain : ∀ u : Token, u.kind = t.kind → u.interpolated = [] := fun u hu =>
    Token.interpolated_of_ne (by rw [hu, hk]; decide)
  cases hof : of? parameters t.text with
  | some accessor =>
    rw [hof] at hout
    cases hout
    have hreplaces : Replaces parameters t ⟨t.gap, t.kind, accessor.name⟩ := by
      rw [hk]
      exact .accessor hk (mem_of_of? hof)
    refine ⟨?_, .of_plain rfl hreplaces (hplain _ rfl) (hplain _ rfl) rfl
      (fun _ _ => .inr ⟨accessor, rfl⟩) ?_⟩
    · have hold := hworded _ (mem_of_of? hof)
      rw [hk]
      cases accessor <;>
        exact .word hold (.plain (by decide) (by decide) (List.all_eq_true.1 (by decide)) (by decide))
          (List.all_eq_true.1 (by decide)) (by decide)
    · rw [hof, beq_iff_eq, Option.some_inj]
      exact ⟨fun h => ⟨hk, hdot, h⟩, fun h => h.2.2⟩
  | none =>
    rw [hof] at hout
    cases hout
    refine ⟨.keep _, .of_plain rfl .keep (hplain _ rfl) (hplain _ rfl) rfl (fun _ _ => .inl hof) ?_⟩
    rw [hof]
    exact iff_of_false Bool.false_ne_true fun h => absurd h.2.2 (Option.some_ne_none _).symm

/-- A token that is no name reads no parameter. -/
theorem not_reads_of_not_name (hname : ¬(t.kind = .identifier ∧ ¬afterDot before = true)) :
    ¬(t.kind = .identifier ∧ afterDot before = false ∧ of? parameters t.text = some args) :=
  fun h => hname ⟨h.1, Bool.eq_false_iff.1 h.2.1⟩

/-- A key becomes an underscored symbol. -/
theorem adaptToken_key {key : Text} (hfound : Scan.Found t.kind t.text)
    (hname : ¬(t.kind = .identifier ∧ ¬afterDot before = true))
    (hkey : argsKey parameters before t after = some key)
    (hstart : key.head?.any Scan.isWordStart = true)
    (hprev : ∃ p ∈ prev, Scan.IsFrame p.kind ∧ p.text.getLast? ≠ some '\\')
    (hnext : ∃ q ∈ next, Scan.IsFrame q.kind)
    (hout : adaptToken adapt parameters before t after = .ok a) :
    PieceFor prev next ⟨some t.kind, t.text⟩ ⟨some .symbol, a.text⟩ ∧
      TokenAdapted adapt parameters before t a ⟨t.gap, .symbol, a.text⟩ := by
  rw [adaptToken, if_neg hname, hkey] at hout
  cases hout
  have hkeyText := (argsKey_spec hkey).1
  obtain ⟨hkind, htext, hword⟩ := keyText_spec hfound hkeyText
  have hnew := underscore_spec hword hstart
  refine ⟨.key hkind htext hword hnew.1 hnew.2 hprev hnext,
    .of_plain rfl (.literal hkind (by decide)) (interpolated_of_keyText hfound hkeyText)
      (Token.interpolated_of_ne nofun) ?_ nofun
      (iff_of_false Bool.false_ne_true (not_reads_of_not_name hname))⟩
  have hkinds : ∀ kind ∈ [TokenKind.symbol, .doubleQuoted, .singleQuoted],
      kind ∉ [TokenKind.dot, .scope] := by decide
  have hsymbol : TokenKind.symbol ∉ [TokenKind.dot, .scope] := by decide
  rw [afterDot_eq_false (hkinds _ hkind), afterDot_eq_false hsymbol]

/-- A double-quoted string has its interpolations adapted. -/
theorem adaptToken_string (hfound : Scan.Found t.kind t.text)
    (hkey : argsKey parameters before t after = none) (hstring : t.kind = .doubleQuoted)
    (hescape : ∀ i ∈ Quoted.interpolations t.text, i.previous ≠ '\\')
    (hsame : ∀ code ∈ t.interpolated, ∀ b, adapt code = .ok b → Scanner.Same code b.text)
    (hout : adaptToken adapt parameters before t after = .ok a) :
    PieceFor prev next ⟨some t.kind, t.text⟩ ⟨some .doubleQuoted, a.text⟩ ∧
      TokenAdapted adapt parameters before t a ⟨t.gap, .doubleQuoted, a.text⟩ := by
  have hname : ¬(t.kind = .identifier ∧ ¬afterDot before = true) := by
    rintro ⟨hk, -⟩
    rw [hstring] at hk
    cases hk
  rw [adaptToken, if_neg hname, hkey] at hout
  simp only [if_pos hstring] at hout
  have hcodes : t.interpolated = (Quoted.interpolations t.text).map (·.code) := if_pos hstring
  have hcodes' : (⟨t.gap, .doubleQuoted, a.text⟩ : Token).interpolated =
      (Quoted.interpolations a.text).map (·.code) := if_pos rfl
  rw [hcodes, List.forall_mem_map] at hsame
  rw [hstring] at hfound
  obtain ⟨hfor, hforall, hreads⟩ := adaptString_spec hfound hescape hsame hout
  have hsep : TokenKind.doubleQuoted ∉ [TokenKind.dot, .scope] := by decide
  rw [hstring]
  refine ⟨.string hfor,
    { text := rfl, replaces := ?_, dot := ?_, name := nofun, codes := ?_, reads := ?_ }⟩
  · exact .literal (by simp [hstring]) (by decide)
  · rw [afterDot_eq_false hsep, afterDot_eq_false (by rwa [hstring])]
  · rw [hcodes, hcodes', List.forall₂_map_left_iff, List.forall₂_map_right_iff]
    exact hforall
  · rw [hreads, hcodes, or_iff_right (not_reads_of_not_name hname)]
    simp only [List.mem_map, exists_exists_and_eq_and]

/-- Every token becomes one token, which takes its place among the pieces. -/
theorem adaptToken_spec (hworded : Worded parameters) (hfound : Scan.Found t.kind t.text)
    (hkey : ∀ key, argsKey parameters before t after = some key →
      key.head?.any Scan.isWordStart = true ∧
        (∃ p ∈ prev, Scan.IsFrame p.kind ∧ p.text.getLast? ≠ some '\\') ∧
        ∃ q ∈ next, Scan.IsFrame q.kind)
    (hescape : t.kind = .doubleQuoted → ∀ i ∈ Quoted.interpolations t.text, i.previous ≠ '\\')
    (hsame : ∀ code ∈ t.interpolated, ∀ b, adapt code = .ok b → Scanner.Same code b.text)
    (hout : adaptToken adapt parameters before t after = .ok a) :
    ∃ kind, PieceFor prev next ⟨some t.kind, t.text⟩ ⟨some kind, a.text⟩ ∧
      TokenAdapted adapt parameters before t a ⟨t.gap, kind, a.text⟩ := by
  by_cases hname : t.kind = .identifier ∧ ¬afterDot before = true
  · exact ⟨t.kind, adaptToken_name hworded hname.1 (Bool.eq_false_iff.2 hname.2) hout⟩
  cases hk : argsKey parameters before t after with
  | some key =>
    obtain ⟨hstart, hprev, hnext⟩ := hkey key hk
    exact ⟨.symbol, adaptToken_key hfound hname hk hstart hprev hnext hout⟩
  | none =>
    by_cases hstring : t.kind = .doubleQuoted
    · exact ⟨.doubleQuoted, adaptToken_string hfound hk hstring (hescape hstring) hsame hout⟩
    · rw [adaptToken, if_neg hname, hk] at hout
      simp only [if_neg hstring] at hout
      cases hout
      have hplain := Token.interpolated_of_ne hstring
      refine ⟨t.kind, .keep _, .of_plain rfl .keep hplain hplain rfl (fun hid hdot => ?_)
        (iff_of_false Bool.false_ne_true (not_reads_of_not_name hname))⟩
      exact absurd ⟨hid, Bool.eq_false_iff.1 hdot⟩ hname

end

end Accessor

end SchemaLift
