import Mathlib.Logic.Relation
import SchemaLift.Proofs.Proc.Accessor

/-!
# Bodies of resolver methods

The body of a proc is adapted token by token, and the code that its strings interpolate in the same way,
level by level. No parameter is left to be read (`adaptBody_reads`).
-/

namespace SchemaLift.Accessor

open Quoted (Scanner)

/-! ## The names that code reads -/

/-- A token that stands behind the tokens `before`, nearest first, reads `name`: it is the word, and it is
no method or constant name after a dot. -/
def ReadsAfter (name : Text) : (before ts : List Token) → Prop
  | _, [] => False
  | before, t :: after =>
    (t.kind = .identifier ∧ afterDot before = false ∧ t.text = name) ∨ ReadsAfter name (t :: before) after

instance decidableReadsAfter (name : Text) : (before ts : List Token) → Decidable (ReadsAfter name before ts)
  | _, [] => inferInstanceAs (Decidable False)
  | before, t :: after =>
    have := decidableReadsAfter name (t :: before) after
    inferInstanceAs (Decidable (_ ∨ _))

/-- Some token of the code reads `name`. -/
def Reads (code name : Text) : Prop := ReadsAfter name [] (tokenize code)

instance (code name : Text) : Decidable (Reads code name) :=
  inferInstanceAs (Decidable (ReadsAfter name [] (tokenize code)))

/-! ## Tokens one by one -/

/-- What becomes of tokens, one by one; the tokens `before` stand in front of them, nearest first. -/
inductive TokensAdapted (adapt : Text → Except SkipReason Adapted) (parameters : List Text) :
    List Token → List Token → List Adapted → List Token → Prop
  | nil (before : List Token) : TokensAdapted adapt parameters before [] [] []
  | cons {before after ts news : List Token} {t new : Token} {a : Adapted} {as : List Adapted}
      (hmade : adaptToken adapt parameters before t after = .ok a)
      (ht : TokenAdapted adapt parameters before t a new)
      (h : TokensAdapted adapt parameters (t :: before) ts as news) :
      TokensAdapted adapt parameters before (t :: ts) (a :: as) (new :: news)

namespace TokensAdapted

variable {adapt : Text → Except SkipReason Adapted} {parameters : List Text}
  {before ts news : List Token} {as : List Adapted}

theorem of?_eq_none (hproper : Proper parameters) {before' : List Token} {name : Text}
    (h : TokensAdapted adapt parameters before ts as news) (hdot : afterDot before' = afterDot before)
    (hname : ReadsAfter name before' news) : of? parameters name = none := by
  induction h generalizing before' with
  | nil => cases hname
  | cons _ ht h ih =>
    rcases hname with ⟨hkind, hfirst, rfl⟩ | hname
    · rcases ht.name hkind (hdot ▸ hfirst) with hnone | ⟨accessor, htext⟩
      · exact hnone
      · rw [htext, of?_name hproper]
    · refine ih ?_ hname
      exact ht.dot

theorem codes (h : TokensAdapted adapt parameters before ts as news) :
    List.Forall₂ (fun code code' => ∃ b, adapt code = .ok b ∧ code' = b.text)
      (ts.flatMap Token.interpolated) (news.flatMap Token.interpolated) := by
  induction h with
  | nil => exact .nil
  | cons _ ht h ih => exact List.rel_append ht.codes ih

theorem replaces (h : TokensAdapted adapt parameters before ts as news) :
    List.Forall₂ (Replaces parameters) ts news := by
  induction h with
  | nil => exact .nil
  | cons _ ht _ ih => exact .cons ht.replaces ih

theorem exists_made (h : TokensAdapted adapt parameters before ts as news) {new : Token}
    (hnew : new ∈ news) : ∃ t ∈ ts, ∃ before after a,
      adaptToken adapt parameters before t after = .ok a ∧ a.text = new.text := by
  induction h with
  | nil => cases hnew
  | @cons before after ts news t new' a as hmade ht _ ih =>
    rcases List.mem_cons.1 hnew with rfl | hnew
    · exact ⟨t, List.mem_cons_self, before, after, a, hmade, ht.text.symm⟩
    · obtain ⟨u, hu, hmade⟩ := ih hnew
      exact ⟨u, List.mem_cons_of_mem t hu, hmade⟩

theorem reads (h : TokensAdapted adapt parameters before ts as news) :
    as.any Adapted.readsArgs = true ↔
      (∃ name, ReadsAfter name before ts ∧ of? parameters name = some args) ∨
        ∃ code ∈ ts.flatMap Token.interpolated, ∃ b, adapt code = .ok b ∧ b.readsArgs = true := by
  induction h with
  | nil =>
    refine iff_of_false Bool.false_ne_true ?_
    rintro (⟨name, hname, -⟩ | ⟨code, hcode, -⟩)
    · cases hname
    · cases hcode
  | cons _ ht h ih =>
    rw [List.any_cons, Bool.or_eq_true, ht.reads, ih]
    simp only [ReadsAfter, List.flatMap_cons, List.mem_append, or_and_right, exists_or,
      and_assoc, exists_and_left, exists_eq_left']
    exact or_or_or_comm

end TokensAdapted

/-- Where a token stands: right behind the piece `prev`, or behind text that is no token and ends like
`prev`. -/
def Follows (before : List Token) (gap : Text) (prev : Option Piece) : Prop :=
  (gap = [] ∧ prev = before.head?.map fun t => ⟨some t.kind, t.text⟩) ∨
    ∃ p ∈ prev, p.kind = none ∧ p.text.getLast? = gap.getLast?

/-- In front of a key is a bracket, or text that is no token. -/
theorem Follows.exists_frame {parameters : List Text} {before after : List Token} {gap key : Text}
    {t : Token} {prev : Option Piece} (h : Follows before gap prev)
    (hbefore : ∀ t ∈ before, Scan.Found t.kind t.text)
    (hkey : argsKey parameters before t after = some key) (hgap : gap.getLast? ≠ some '\\') :
    ∃ p ∈ prev, Scan.IsFrame p.kind ∧ p.text.getLast? ≠ some '\\' := by
  rcases h with ⟨-, rfl⟩ | ⟨p, hp, hkind, hlast⟩
  · obtain ⟨-, ⟨bracket, hmem, hbracket⟩, -⟩ := argsKey_spec hkey
    have htext : bracket.text = ['['] :=
      Scan.Found.lbracket (hbracket ▸ hbefore bracket (List.mem_of_mem_head? hmem))
    refine ⟨⟨some bracket.kind, bracket.text⟩, Option.mem_map_of_mem _ hmem,
      .inr (.inl (congrArg some hbracket)), ?_⟩
    rw [htext]
    exact show ['['].getLast? ≠ some '\\' by decide
  · exact ⟨p, hp, .inl hkind, hlast ▸ hgap⟩

/-- Behind a key is a bracket, or text that is no token. -/
theorem exists_frame_head? {parameters : List Text} {before : List Token} {key : Text} {t : Token}
    {ps : List Piece}
    (hkey : argsKey parameters before t (TokenStream.ofPieces [] ps).tokens = some key) :
    ∃ q ∈ ps.head?, Scan.IsFrame q.kind := by
  obtain ⟨-, -, close, hmem, hclose⟩ := argsKey_spec hkey
  cases ps with
  | nil => cases hmem
  | cons q ps =>
    obtain ⟨kind, text⟩ := q
    refine ⟨⟨kind, text⟩, rfl, ?_⟩
    cases kind with
    | none => exact .inl rfl
    | some kind =>
      cases hmem
      exact .inr (.inr (congrArg some hclose))

/-- What keeps a token from being adapted to something that reads differently. A key of `args` starts
like a name, and its gap does not end with a backslash. A backslash in front of an interpolation is
none that is escaped itself. -/
structure TokenAdaptable (parameters : List Text) (before : List Token) (t : Token)
    (after : List Token) : Prop where
  key : ∀ key ∈ argsKey parameters before t after,
    key.head?.any Scan.isWordStart = true ∧ t.gap.getLast? ≠ some '\\'
  escape : t.kind = .doubleQuoted → ∀ i ∈ Quoted.interpolations t.text, i.previous ≠ '\\'

instance (parameters : List Text) (before : List Token) (t : Token) (after : List Token) :
    Decidable (TokenAdaptable parameters before t after) :=
  decidable_of_iff
    ((∀ key ∈ argsKey parameters before t after,
        key.head?.any Scan.isWordStart = true ∧ t.gap.getLast? ≠ some '\\') ∧
      (t.kind = .doubleQuoted → ∀ i ∈ Quoted.interpolations t.text, i.previous ≠ '\\'))
    ⟨fun h => ⟨h.1, h.2⟩, fun h => ⟨h.key, h.escape⟩⟩

/-- Each token behind the tokens `before` is adaptable. -/
def TokensAdaptable (parameters : List Text) : (before ts : List Token) → Prop
  | _, [] => True
  | before, t :: after =>
    TokenAdaptable parameters before t after ∧ TokensAdaptable parameters (t :: before) after

instance decidableTokensAdaptable (parameters : List Text) :
    (before ts : List Token) → Decidable (TokensAdaptable parameters before ts)
  | _, [] => inferInstanceAs (Decidable True)
  | before, t :: after =>
    have := decidableTokensAdaptable parameters (t :: before) after
    inferInstanceAs (Decidable (_ ∧ _))

/-- The tokens of pieces, adapted one by one, are the tokens of other pieces in their places. -/
theorem exists_respelled {adapt : Text → Except SkipReason Adapted} {parameters : List Text}
    (hworded : Worded parameters) {ps : List Piece} {gap : Text} {before : List Token}
    {prev : Option Piece} {parts : List Adapted}
    (hfound : ∀ p ∈ ps, ∀ kind ∈ p.kind, Scan.Found kind p.text) (hnil : ∀ p ∈ ps, p.text ≠ [])
    (hbefore : ∀ t ∈ before, Scan.Found t.kind t.text) (hprev : Follows before gap prev)
    (hadaptable : TokensAdaptable parameters before (TokenStream.ofPieces gap ps).tokens)
    (hsame : ∀ code ∈ (TokenStream.ofPieces gap ps).tokens.flatMap Token.interpolated,
      ∀ b, adapt code = .ok b → Scanner.Same code b.text)
    (hparts : (Token.mapNeighbours (adaptToken adapt parameters) before
      (TokenStream.ofPieces gap ps).tokens).mapM id = .ok parts) :
    ∃ qs, Respelled prev ps qs ∧
      TokenStream.weave (TokenStream.ofPieces gap ps).tokens (parts.map Adapted.text)
        (TokenStream.ofPieces gap ps).tail = gap ++ qs.flatMap Piece.text ∧
      TokensAdapted adapt parameters before (TokenStream.ofPieces gap ps).tokens parts
        (TokenStream.ofPieces gap qs).tokens := by
  induction ps generalizing gap before prev parts with
  | nil =>
    cases hparts
    exact ⟨[], .nil prev, by simp [TokenStream.ofPieces, TokenStream.weave], .nil before⟩
  | cons p ps ih =>
    obtain ⟨kind, text⟩ := p
    have hfound' : ∀ p ∈ ps, ∀ kind ∈ p.kind, Scan.Found kind p.text :=
      fun p hp => hfound p (List.mem_cons_of_mem _ hp)
    have hnil' : ∀ p ∈ ps, p.text ≠ [] := fun p hp => hnil p (List.mem_cons_of_mem _ hp)
    have htext : text ≠ [] := hnil _ List.mem_cons_self
    cases kind with
    | none =>
      rw [TokenStream.ofPieces] at hadaptable hsame hparts ⊢
      have hlast : (gap ++ text).getLast? = text.getLast? := by
        rw [List.getLast?_append_of_ne_nil _ htext]
      obtain ⟨qs, hrespelled, hweave, hadapted⟩ := ih hfound' hnil' hbefore
        (.inr ⟨⟨none, text⟩, rfl, rfl, hlast.symm⟩) hadaptable hsame hparts
      refine ⟨⟨none, text⟩ :: qs, .cons (.keep _) hrespelled, ?_, hadapted⟩
      rw [hweave, List.flatMap_cons, List.append_assoc]
    | some kind =>
      rw [TokenStream.ofPieces] at hadaptable hsame hparts ⊢
      simp only [Token.mapNeighbours, List.mapM_cons, id_eq, List.flatMap_cons] at hparts hsame ⊢
      obtain ⟨a, ha, hparts⟩ := bind_eq_ok_iff.1 hparts
      obtain ⟨as, has, heq⟩ := bind_eq_ok_iff.1 hparts
      cases heq
      have htoken : Scan.Found kind text := hfound _ List.mem_cons_self kind rfl
      obtain ⟨qs, hrespelled, hweave, hadapted⟩ := @ih [] (⟨gap, kind, text⟩ :: before)
        (some ⟨some kind, text⟩) as hfound' hnil' (List.forall_mem_cons.2 ⟨htoken, hbefore⟩)
        (.inl ⟨rfl, rfl⟩) hadaptable.2
        (fun code hcode => hsame code (List.mem_append_right _ hcode)) has
      obtain ⟨hkey, hescape⟩ := hadaptable.1
      obtain ⟨new, hpiece, hnew⟩ := adaptToken_spec hworded htoken
        (fun key hk => ⟨(hkey key hk).1, hprev.exists_frame hbefore hk (hkey key hk).2,
          exists_frame_head? hk⟩) hescape
        (fun code hcode => hsame code (List.mem_append_left _ hcode)) ha
      refine ⟨⟨some new, a.text⟩ :: qs, .cons hpiece hrespelled, ?_, .cons ha hnew hadapted⟩
      simp only [TokenStream.weave, List.nil_append] at hweave ⊢
      rw [List.map_cons, List.zipWith_cons_cons, List.flatten_cons, List.append_assoc, hweave,
        List.flatMap_cons, List.append_assoc]

/-! ## Code and what it interpolates -/

/-- The code that the double-quoted strings of `code` interpolate. -/
def interpolated (code : Text) : List Text := (tokenize code).flatMap Token.interpolated

/-- `inner` is `code` itself or interpolated in it at some level. -/
def Within (code inner : Text) : Prop :=
  Relation.ReflTransGen (fun outer inner => inner ∈ interpolated outer) code inner

theorem within_iff {code inner : Text} :
    Within code inner ↔ code = inner ∨ ∃ c ∈ interpolated code, Within c inner :=
  Relation.ReflTransGen.cases_head_iff

theorem forall_within_iff {code : Text} {P : Text → Prop} :
    (∀ c, Within code c → P c) ↔ P code ∧ ∀ c ∈ interpolated code, ∀ c', Within c c' → P c' := by
  have hwithin : ∀ c, Within code c ↔ code = c ∨ ∃ c' ∈ interpolated code, Within c' c :=
    fun _ => within_iff
  simp only [hwithin, or_imp, forall_and, forall_eq', forall_exists_index, and_imp]
  exact and_congr_right fun _ => ⟨fun h c hc c' => h c' c hc, fun h c' c hc => h c hc c'⟩

theorem length_of_mem_interpolationsFrom {previous : Char} {taken : Nat} {s : Text}
    {i : Quoted.Interpolation} (h : i ∈ Quoted.interpolationsFrom previous taken s) :
    i.code.length < s.length := by
  fun_induction Quoted.interpolationsFrom previous taken s with
  | case1 => cases h
  | case2 previous taken c cs ih => exact (ih h).trans (Nat.lt_succ_self _)
  | case3 previous cs ih => exact (ih h).trans (Nat.lt_succ_self _)
  | case4 previous cs n hn ih =>
    rcases List.mem_cons.1 h with rfl | h
    · simp only [List.length_take, List.length_cons]
      omega
    · have := ih h
      simp only [List.length_cons]
      omega
  | case5 previous cs hn =>
    rw [List.mem_singleton.1 h]
    simp only [List.length_cons]
    omega
  | case6 previous c cs hc hopen ih => exact (ih h).trans (Nat.lt_succ_self _)

/-- Interpolated code is shorter than the code around it. -/
theorem length_of_mem_interpolated {code inner : Text} (h : inner ∈ interpolated code) :
    inner.length < code.length := by
  obtain ⟨t, ht, hinner⟩ := List.mem_flatMap.1 h
  have htext := length_text_le ht
  unfold Token.interpolated at hinner
  split at hinner
  · obtain ⟨i, hi, rfl⟩ := List.mem_map.1 hinner
    have hlt := length_of_mem_interpolationsFrom hi
    rw [List.length_tail] at hlt
    omega
  · cases hinner

/-- Whether `p` holds of code and of what it interpolates, down to the level `depth`. -/
def allWithin (p : Text → Bool) : (depth : Nat) → Text → Bool
  | 0, _ => true
  | depth + 1, code => p code && (interpolated code).all (allWithin p depth)

theorem allWithin_iff {p : Text → Bool} {depth : Nat} {code : Text} (h : code.length < depth) :
    allWithin p depth code = true ↔ ∀ c, Within code c → p c = true := by
  induction depth generalizing code with
  | zero => exact absurd h (Nat.not_lt_zero _)
  | succ depth ih =>
    have hinner : ∀ c ∈ interpolated code, allWithin p depth c = true ↔ ∀ c', Within c c' → p c' = true :=
      fun c hc => ih (Nat.lt_of_lt_of_le (length_of_mem_interpolated hc) (Nat.le_of_lt_succ h))
    rw [allWithin, Bool.and_eq_true, List.all_eq_true, forall_within_iff]
    exact and_congr_right fun _ => forall₂_congr hinner

instance (P : Text → Prop) [DecidablePred P] (code : Text) : Decidable (∀ c, Within code c → P c) :=
  decidable_of_iff (allWithin (fun c => decide (P c)) (code.length + 1) code = true)
    ((allWithin_iff (Nat.lt_succ_self _)).trans (by simp only [decide_eq_true_eq]))

/-- Nothing keeps code from being adapted to code that reads alike. -/
def Adaptable (parameters : List Text) (code : Text) : Prop :=
  TokensAdaptable parameters [] (tokenize code)

instance (parameters : List Text) (code : Text) : Decidable (Adaptable parameters code) :=
  inferInstanceAs (Decidable (TokensAdaptable parameters [] (tokenize code)))

theorem exists_mem_of_forall₂ {α β : Type} {R : α → β → Prop} {as : List α} {bs : List β}
    (h : List.Forall₂ R as bs) {a : α} (ha : a ∈ as) : ∃ b ∈ bs, R a b := by
  induction h with
  | nil => cases ha
  | @cons a' b as bs hab h ih =>
    rcases List.mem_cons.1 ha with rfl | ha
    · exact ⟨b, List.mem_cons_self, hab⟩
    · obtain ⟨b', hb', hab'⟩ := ih ha
      exact ⟨b', List.mem_cons_of_mem b hb', hab'⟩

/-- What becomes of code: its pieces and its tokens are adapted one by one. -/
structure CodeAdapted (adapt : Text → Except SkipReason Adapted) (parameters : List Text) (code : Text)
    (out : Adapted) : Prop where
  respelled : Respelled none (Scan.pieces code) (Scan.pieces out.text)
  tokens : ∃ parts, TokensAdapted adapt parameters [] (tokenize code) parts (tokenize out.text) ∧
    out.readsArgs = parts.any Adapted.readsArgs

namespace CodeAdapted

variable {adapt : Text → Except SkipReason Adapted} {parameters : List Text} {code : Text} {out : Adapted}
  (h : CodeAdapted adapt parameters code out)
include h

/-- A scanner of quoted text sees no difference. -/
theorem same : Scanner.Same code out.text := by
  have hsame := h.respelled.same
  rwa [Scan.pieces_text] at hsame

/-- No parameter is left among its own tokens. -/
theorem names (hproper : Proper parameters) {name : Text} (hname : Reads out.text name) :
    of? parameters name = none := by
  obtain ⟨parts, hparts, -⟩ := h.tokens
  exact hparts.of?_eq_none hproper rfl hname

/-- Each interpolation is adapted. -/
theorem codes : List.Forall₂ (fun c c' => ∃ b, adapt c = .ok b ∧ c' = b.text)
    (interpolated code) (interpolated out.text) := by
  obtain ⟨parts, hparts, -⟩ := h.tokens
  exact hparts.codes

theorem reads : out.readsArgs = true ↔
    (∃ name, Reads code name ∧ of? parameters name = some args) ∨
      ∃ c ∈ interpolated code, ∃ b, adapt c = .ok b ∧ b.readsArgs = true := by
  obtain ⟨parts, hparts, hany⟩ := h.tokens
  rw [hany]
  exact hparts.reads

end CodeAdapted

theorem adaptCode_succ {parameters : List Text} (hworded : Worded parameters) {depth : Nat}
    {code : Text} {out : Adapted} (hadaptable : Adaptable parameters code)
    (hsame : ∀ c ∈ interpolated code, ∀ b, adaptCode parameters depth c = .ok b →
      Scanner.Same c b.text) (hout : adaptCode parameters (depth + 1) code = .ok out) :
    CodeAdapted (adaptCode parameters depth) parameters code out := by
  rw [adaptCode] at hout
  obtain ⟨parts, hparts, heq⟩ := bind_eq_ok_iff.1 hout
  cases heq
  have hfollows : Follows [] [] none := .inl ⟨rfl, rfl⟩
  obtain ⟨qs, hrespelled, hweave, hadapted⟩ := exists_respelled hworded
    (fun p hp kind hkind => Scan.found_of_mem_pieces hp hkind)
    (fun p hp => Scan.text_ne_nil_of_mem_pieces hp) (fun _ h => absurd h List.not_mem_nil)
    hfollows hadaptable hsame hparts
  have htext : TokenStream.weave (TokenStream.ofText code).tokens (parts.map Adapted.text)
      (TokenStream.ofText code).tail = qs.flatMap Piece.text := hweave
  have hpieces : Scan.pieces (qs.flatMap Piece.text) = qs := hrespelled.pieces_eq
  have htokens : tokenize (qs.flatMap Piece.text) = (TokenStream.ofPieces [] qs).tokens := by
    rw [tokenize, TokenStream.ofText, hpieces]
  constructor
  · simp only [htext, hpieces]
    exact hrespelled
  · simp only [htext, htokens]
    exact ⟨parts, hadapted, rfl⟩

/-- The pieces and the tokens of code are adapted one by one. -/
theorem codeAdapted_of_adaptCode {parameters : List Text} (hworded : Worded parameters) {depth : Nat}
    {code : Text} {out : Adapted} (hdepth : code.length ≤ depth)
    (hadaptable : ∀ c, Within code c → Adaptable parameters c)
    (hout : adaptCode parameters (depth + 1) code = .ok out) :
    CodeAdapted (adaptCode parameters depth) parameters code out := by
  induction depth generalizing code out with
  | zero =>
    obtain rfl := List.eq_nil_of_length_eq_zero (Nat.le_zero.1 hdepth)
    refine adaptCode_succ hworded (hadaptable [] (within_iff.2 (.inl rfl))) (fun c hc => ?_) hout
    exact absurd (length_of_mem_interpolated hc) (Nat.not_lt_zero _)
  | succ depth ih =>
    refine adaptCode_succ hworded (hadaptable code (within_iff.2 (.inl rfl))) (fun c hc b hb => ?_) hout
    have hlength : c.length ≤ depth :=
      Nat.le_of_lt_succ (Nat.lt_of_lt_of_le (length_of_mem_interpolated hc) hdepth)
    exact (ih hlength (fun c' hc' => hadaptable c' (within_iff.2 (.inr ⟨c, hc, hc'⟩))) hb).same

/-- Adapting code leaves no parameter to be read, at any level. -/
theorem adaptCode_spec {parameters : List Text} (hproper : Proper parameters) {depth : Nat} {code : Text}
    {out : Adapted} (hdepth : code.length < depth)
    (hadaptable : ∀ c, Within code c → Adaptable parameters c)
    (hout : adaptCode parameters depth code = .ok out) :
    (∀ c, Within out.text c → ∀ name, Reads c name → of? parameters name = none) ∧
      (out.readsArgs = true ↔
        ∃ c, Within code c ∧ ∃ name, Reads c name ∧ of? parameters name = some args) := by
  induction depth generalizing code out with
  | zero => exact absurd hdepth (Nat.not_lt_zero _)
  | succ depth ih =>
    have hinner : ∀ c ∈ interpolated code, ∀ b, adaptCode parameters depth c = .ok b → _ :=
      fun c hc b hb => ih (Nat.lt_of_lt_of_le (length_of_mem_interpolated hc) (Nat.le_of_lt_succ hdepth))
        (fun c' hc' => hadaptable c' (within_iff.2 (.inr ⟨c, hc, hc'⟩))) hb
    have h := codeAdapted_of_adaptCode hproper.worded (Nat.le_of_lt_succ hdepth) hadaptable hout
    refine ⟨fun c hwithin name hname => ?_, ?_⟩
    · rcases within_iff.1 hwithin with rfl | ⟨c', hc', hwithin⟩
      · exact h.names hproper hname
      · obtain ⟨c₀, hc₀, b, hb, rfl⟩ := exists_mem_of_forall₂ h.codes.flip hc'
        exact (hinner c₀ hc₀ b hb).1 c hwithin name hname
    · rw [h.reads]
      constructor
      · rintro (⟨name, hname⟩ | ⟨c, hc, b, hb, hreads⟩)
        · exact ⟨code, within_iff.2 (.inl rfl), name, hname⟩
        · obtain ⟨c', hc', hname⟩ := (hinner c hc b hb).2.1 hreads
          exact ⟨c', within_iff.2 (.inr ⟨c, hc, hc'⟩), hname⟩
      · rintro ⟨c, hwithin, hname⟩
        rcases within_iff.1 hwithin with rfl | ⟨c', hc', hwithin⟩
        · exact .inl hname
        · obtain ⟨-, -, b, hb, -⟩ := exists_mem_of_forall₂ h.codes hc'
          exact .inr ⟨c', hc', b, hb, (hinner c' hc' b hb).2.2 ⟨c, hwithin, hname⟩⟩

/-- In the body of a resolver method no parameter is left to be read, neither in the body itself nor in
the code that its strings interpolate, at any level; and the body is said to read the arguments exactly
if some code of the proc reads the parameter in their place. -/
theorem adaptBody_reads {parameters : List Text} (hproper : Proper parameters) {body : Text}
    {out : Adapted} (hadaptable : ∀ code, Within body code → Adaptable parameters code)
    (hout : adaptBody parameters body = .ok out) :
    (∀ code, Within out.text code → ∀ p ∈ parameters.take 3, p ≠ ['_'] → ¬Reads code p) ∧
      (out.readsArgs = true ↔
        ∃ code, Within body code ∧ ∃ p, Reads code p ∧ of? parameters p = some args) := by
  obtain ⟨hnames, hargs⟩ := adaptCode_spec hproper (Nat.lt_succ_self _) hadaptable hout
  refine ⟨fun code hcode p hp hne hreads => ?_, hargs⟩
  rcases of?_eq_none_iff.1 (hnames code hcode p hreads) with h | h
  · exact hne h
  · exact h hp

theorem adaptBody_reads_nested :
    (∀ code, Within "\"#\x7bobject.name(\"#\x7bargs[:full_name]\x7d\")\x7d\"".toList code →
      ∀ p ∈ [['o'], ['a'], ['c']], p ≠ ['_'] → ¬Reads code p) ∧
    (true ↔ ∃ code, Within "\"#\x7bo.name(\"#\x7ba['fullName']\x7d\")\x7d\"".toList code ∧
      ∃ p, Reads code p ∧ of? [['o'], ['a'], ['c']] p = some args) := by
  have hadaptable : ∀ code, Within "\"#\x7bo.name(\"#\x7ba['fullName']\x7d\")\x7d\"".toList code →
      Adaptable [['o'], ['a'], ['c']] code := by
    decide +kernel
  have hout : adaptBody [['o'], ['a'], ['c']] "\"#\x7bo.name(\"#\x7ba['fullName']\x7d\")\x7d\"".toList =
      .ok ⟨"\"#\x7bobject.name(\"#\x7bargs[:full_name]\x7d\")\x7d\"".toList, true⟩ := by
    decide +kernel
  exact adaptBody_reads (by decide) hadaptable hout

/-- A backslash in front of an interpolation that is escaped itself is taken for one that escapes the
interpolation. -/
theorem adaptBody_leaves_parameter : Proper [['o'], ['a'], ['c']] ∧
    adaptBody [['o'], ['a'], ['c']] "\"\\\\#\x7bo.x\x7d\"".toList =
      .ok ⟨"\"\\\\#\x7bo.x\x7d\"".toList, false⟩ ∧
    Within "\"\\\\#\x7bo.x\x7d\"".toList "o.x".toList ∧ Reads "o.x".toList ['o'] := by
  refine ⟨by decide, by decide +kernel, ?_, by decide +kernel⟩
  refine within_iff.2 (.inr ⟨"o.x".toList, by decide +kernel, within_iff.2 (.inl rfl)⟩)

end SchemaLift.Accessor
