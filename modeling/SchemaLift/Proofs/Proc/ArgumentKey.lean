import SchemaLift.Proofs.Proc.Body
import SchemaLift.Proofs.Token.Constant

/-!
# Keys of the arguments

In `args[key]` the key becomes an underscored symbol, and the receiver is adapted on its own. So a key
may be replaced whose receiver stays, or come out as more than one token. `adaptBody_keys` says where
a key goes with its receiver, and when what replaces it is a single symbol.
-/

namespace SchemaLift

/-- Behind the colon of a symbol is a letter, an underscore or a quote, which belongs to it. -/
theorem Scan.afterColon_symbol {cs : Text} (h : (afterColon cs).1 = some .symbol) :
    ∃ d ∈ (cs.take (afterColon cs).2).head?, d = '"' ∨ isWordStart d = true := by
  rw [afterColon_eq] at h ⊢
  cases cs with
  | nil => cases h
  | cons d ds =>
    by_cases hcolon : (d :: ds).head? = some ':'
    · rw [if_pos hcolon] at h
      cases h
    rw [if_neg hcolon] at h ⊢
    by_cases hquote : (d :: ds).head? = some '"'
    · rw [if_pos hquote] at h ⊢
      cases hextent : Quoted.plainExtent '"' ds with
      | closed n => simp [hextent, Option.some.inj hquote]
      | unclosed n => simp [hextent] at h
    rw [if_neg hquote] at h ⊢
    by_cases hstart : (d :: ds).head?.any isWordStart = true
    · rw [if_pos hstart]
      extract_lets n mark
      refine ⟨d, ?_, .inr hstart⟩
      split <;> rfl
    · rw [if_neg hstart] at h
      cases h

/-- The underscore form starts like the name. -/
theorem Name.head?_underscore (name : Text) :
    (underscore name).head?.any Scan.isWordStart = name.head?.any Scan.isWordStart := by
  cases name with
  | nil => rfl
  | cons c cs =>
    rw [underscore, underscoreFrom]
    split
    · rename_i hupper
      have hlower : Scan.isWordStart c.toLower = true := Scan.isWordStart_toLower hupper
      exact hlower.trans (Scan.isWordStart_of_isUpper hupper).symm
    · rfl

namespace Accessor

/-! ## Code at any depth -/

/-- What a literal becomes depends on what becomes of shorter code. -/
theorem adaptLiteral_congr {adapt adapt' : Text → Except SkipReason Adapted} {s : Text}
    (h : ∀ code : Text, code.length < s.length → adapt code = adapt' code) (unclosed : SkipReason)
    (fuel : Nat) : adaptLiteral adapt unclosed fuel s = adaptLiteral adapt' unclosed fuel s := by
  induction fuel generalizing s with
  | zero => rfl
  | succ fuel ih =>
    rw [adaptLiteral, adaptLiteral]
    cases hsplit : splitInterpolation s with
    | none => rfl
    | some found =>
      obtain ⟨opening, after⟩ := found
      obtain ⟨before, -, hs, -⟩ := splitInterpolation_spec hsplit
      have hlength : after.length + 2 ≤ s.length := by
        rw [hs, List.length_append, List.length_cons, List.length_cons]
        omega
      simp only
      rw [ih fun code hcode => h code (by omega)]
      split
      · rfl
      cases Quoted.interpolationClose after with
      | none => rfl
      | some n =>
        simp only
        rw [h (after.take n) (by rw [List.length_take]; omega),
          ih fun code hcode => h code (by rw [List.length_drop] at hcode; omega)]

theorem adaptToken_congr {adapt adapt' : Text → Except SkipReason Adapted} {t : Token}
    (h : ∀ code : Text, code.length < t.text.length → adapt code = adapt' code)
    (parameters : List Text) (before after : List Token) :
    adaptToken adapt parameters before t after = adaptToken adapt' parameters before t after := by
  rw [adaptToken, adaptToken, adaptLiteral_congr h]

theorem adaptCode_congr {parameters : List Text} {depth depth' : Nat} {code : Text}
    (h : code.length < depth) (h' : code.length < depth') :
    adaptCode parameters depth code = adaptCode parameters depth' code := by
  induction depth generalizing depth' code with
  | zero => exact absurd h (Nat.not_lt_zero _)
  | succ depth ih =>
    obtain ⟨depth', rfl⟩ : ∃ d, depth' = d + 1 := ⟨depth' - 1, by omega⟩
    rw [adaptCode, adaptCode]
    rw [Token.mapNeighbours_congr fun t ht before after => ?_]
    refine adaptToken_congr (fun inner hinner => ?_) parameters before after
    have htext := length_text_le ht
    exact ih (by omega) (by omega)

/-- The code in the strings of a body is adapted as a body of its own. -/
theorem adaptBody_eq (parameters : List Text) (body : Text) : adaptBody parameters body =
    ((Token.mapNeighbours (adaptToken (adaptBody parameters) parameters) [] (tokenize body)).mapM id).map
      fun parts => ⟨TokenStream.weave (tokenize body) (parts.map Adapted.text)
        (TokenStream.ofText body).tail, parts.any Adapted.readsArgs⟩ := by
  have htokens : ∀ t ∈ tokenize body, ∀ before after,
      adaptToken (adaptCode parameters body.length) parameters before t after =
        adaptToken (adaptBody parameters) parameters before t after := by
    intro t ht before after
    refine adaptToken_congr (fun inner hinner => ?_) parameters before after
    have htext := length_text_le ht
    exact adaptCode_congr (by omega) (Nat.lt_succ_self _)
  rw [adaptBody, adaptCode]
  change (Token.mapNeighbours _ [] (tokenize body)).mapM id >>= _ = _
  rw [Token.mapNeighbours_congr htokens]
  rfl

/-! ## Receivers -/

/-- A string stays one in double quotes. -/
theorem head?_of_adaptLiteral {adapt : Text → Except SkipReason Adapted} {unclosed : SkipReason}
    {text : Text} {out : Adapted} (hfound : Scan.Found .doubleQuoted text)
    (hout : adaptLiteral adapt unclosed text.length text = .ok out) : out.text.head? = some '"' := by
  obtain ⟨content, last, rfl, -, -⟩ := hfound.doubleQuoted
  rw [List.length_cons, adaptLiteral_cons (by decide)] at hout
  obtain ⟨rest, -, rfl⟩ := map_eq_ok_iff.1 hout
  rfl

/-- Only the parameter itself becomes `args`. -/
theorem adaptToken_eq_args_iff {adapt : Text → Except SkipReason Adapted} {parameters : List Text}
    {before after : List Token} {t : Token} (hfound : Scan.Found t.kind t.text) :
    adaptToken adapt parameters before t after = .ok ⟨args.name, true⟩ ↔
      t.kind = .identifier ∧ of? parameters t.text = some args ∧ afterDot before = false := by
  rw [adaptToken]
  by_cases hname : t.kind = .identifier ∧ ¬afterDot before = true
  · rw [if_pos hname]
    have hdot : afterDot before = false := Bool.eq_false_iff.2 hname.2
    cases hof : of? parameters t.text with
    | none => simp [hname.1]
    | some accessor =>
      simp only [Except.ok.injEq, Adapted.mk.injEq, beq_iff_eq, Option.some.injEq]
      exact ⟨fun h => ⟨hname.1, h.2, hdot⟩, fun h => ⟨congrArg name h.2.1, h.2.1⟩⟩
  · rw [if_neg hname]
    refine iff_of_false (fun hout => ?_) fun h => hname ⟨h.1, Bool.eq_false_iff.1 h.2.2⟩
    cases hkey : argsKey parameters before t after with
    | some key =>
      simp [hkey] at hout
    | none =>
      simp only [hkey] at hout
      split at hout
      · rename_i hstring
        have hhead := head?_of_adaptLiteral (hstring ▸ hfound) hout
        exact absurd hhead (by decide)
      · simp at hout

/-! ## Keys -/

theorem splitInterpolation_eq_none {s : Text} (h : '#' ∉ s) : splitInterpolation s = none := by
  induction s with
  | nil => rfl
  | cons c cs ih =>
    obtain ⟨hc, hcs⟩ := List.ne_and_not_mem_of_not_mem_cons h
    rw [splitInterpolation_cons fun hopen => hc hopen.1.symm, ih hcs, Option.map_none]

/-- A key that is not replaced stays as it is. -/
theorem adaptToken_keyText {adapt : Text → Except SkipReason Adapted} {parameters : List Text}
    {t : Token} {key : Text} (hfound : Scan.Found t.kind t.text) (hkey : keyText t = some key) :
    adaptToken adapt parameters [] t [] = .ok ⟨t.text, false⟩ := by
  obtain ⟨hkind, htext, hword⟩ := keyText_spec hfound hkey
  have hplain : '#' ∉ t.text := by
    have hkey : '#' ∉ key := fun hmem => absurd (hword _ hmem) (by decide)
    rcases htext with htext | ⟨quote, rfl | rfl, htext⟩ <;> rw [htext] <;> simp [hkey]
  have hname : t.kind ≠ .identifier := by
    intro hk
    rw [hk] at hkind
    exact absurd hkind (by decide)
  rw [adaptToken, if_neg fun h => hname h.1]
  have hnone : argsKey parameters [] t [] = none := rfl
  simp only [hnone]
  split
  · cases htext : t.text.length with
    | zero => rfl
    | succ n => rw [adaptLiteral, splitInterpolation_eq_none hplain]
  · rfl

/-- A token that is no name is a key, or it becomes what it would anywhere else. -/
theorem adaptToken_of_ne {adapt : Text → Except SkipReason Adapted} {parameters : List Text}
    {before after : List Token} {t : Token} (hkind : t.kind ≠ .identifier) :
    adaptToken adapt parameters before t after =
      match argsKey parameters before t after with
      | some key => .ok ⟨Name.symbol (Name.underscore key), false⟩
      | none => adaptToken adapt parameters [] t [] := by
  have hother : ∀ before after, adaptToken adapt parameters before t after =
      match argsKey parameters before t after with
      | some key => .ok ⟨Name.symbol (Name.underscore key), false⟩
      | none =>
        if t.kind = .doubleQuoted then
          adaptLiteral adapt (.unsupportedResolver t.text) t.text.length t.text
        else .ok ⟨t.text, false⟩ := by
    intro before after
    unfold adaptToken
    exact if_neg fun h => hkind h.1
  have hnone : argsKey parameters [] t [] = none := rfl
  rw [hother before after, hother [] [], hnone]

/-! ## Lookups -/

/-- A symbol or a string in brackets behind a token of `code`. -/
structure Lookup (code : Text) where
  before : List Token
  receiver : Token
  bracket : Token
  key : Token
  close : Token
  after : List Token
  tokens : tokenize code = before ++ receiver :: bracket :: key :: close :: after
  opens : bracket.kind = .lbracket
  closes : close.kind = .rbracket
  isKey : key.kind ∈ [TokenKind.symbol, .doubleQuoted, .singleQuoted]

/-- `parts` is what becomes of the tokens of a body, one by one. -/
def Parts (parameters : List Text) (body : Text) (parts : List Adapted) : Prop :=
  Token.mapNeighbours (adaptToken (adaptBody parameters) parameters) [] (tokenize body) =
    parts.map .ok

theorem Parts.getElem? {parameters : List Text} {body : Text} {parts : List Adapted}
    (h : Parts parameters body parts) {before after : List Token} {t : Token}
    (ht : tokenize body = before ++ t :: after) : ∃ part, parts[before.length]? = some part ∧
      adaptToken (adaptBody parameters) parameters before.reverse t after = .ok part := by
  have hpart := Token.getElem?_mapNeighbours (adaptToken (adaptBody parameters) parameters) [] before t
    after
  rw [← ht, h, List.getElem?_map, List.append_nil] at hpart
  exact Option.map_eq_some_iff.1 hpart |>.imp fun _ h => ⟨h.1, h.2.symm⟩

namespace Lookup

variable {body : Text} (l : Lookup body) (parameters : List Text) (parts : List Adapted)

/-- The receiver comes out as `args`. -/
def ReceiverAdapted : Prop := parts[l.before.length]? = some ⟨args.name, true⟩

/-- The key goes with its receiver. Behind `args` a key of word characters becomes an underscored
symbol; any other becomes what it would anywhere else. -/
structure Follows : Prop where
  replaced : ∀ name ∈ keyText l.key, l.ReceiverAdapted parts →
    parts[l.before.length + 2]? = some ⟨Name.symbol (Name.underscore name), false⟩
  kept : (l.ReceiverAdapted parts → keyText l.key = none) →
    ∀ part ∈ parts[l.before.length + 2]?,
      adaptToken (adaptBody parameters) parameters [] l.key [] = .ok part

/-- The receiver has the name of the parameter that `args` replaces. -/
def NamesArgs : Prop :=
  l.receiver.kind = .identifier ∧ of? parameters l.receiver.text = some args

/-- The receiver stands right behind a token of the kind. -/
def Behind (kind : TokenKind) : Prop := l.before.getLast?.any (·.is kind) = true

instance : Decidable (l.NamesArgs parameters) := inferInstanceAs (Decidable (_ ∧ _))

instance (kind : TokenKind) : Decidable (l.Behind kind) := inferInstanceAs (Decidable (_ = true))

/-- In front of the bracket that closes the lookup, `text` is a single symbol. -/
def OneSymbol (text : Text) : Prop := ∀ rest, tokenize (text ++ (l.close.full ++ rest)) =
  ⟨[], .symbol, text⟩ :: tokenize (l.close.full ++ rest)

variable {l parameters parts}

/-! ### What becomes of a lookup -/

theorem receiverAdapted_iff (h : Parts parameters body parts) : l.ReceiverAdapted parts ↔
    l.NamesArgs parameters ∧ ¬l.Behind .dot ∧ ¬l.Behind .scope := by
  obtain ⟨part, hpart, hout⟩ := h.getElem? l.tokens
  have hmem : l.receiver ∈ tokenize body := by simp [l.tokens]
  have hfound := Scan.found_of_mem_pieces (TokenStream.mem_pieces_of_mem_tokens hmem) rfl
  have hdot : afterDot l.before.reverse = false ↔ ¬l.Behind .dot ∧ ¬l.Behind .scope := by
    rw [afterDot, List.head?_reverse, Behind, Behind]
    cases l.before.getLast? <;> simp
  have hargs : l.ReceiverAdapted parts ↔ (.ok part : Except SkipReason Adapted) =
      .ok ⟨args.name, true⟩ := by
    rw [ReceiverAdapted, hpart, Option.some_inj, Except.ok.injEq]
  rw [hargs, ← hout, adaptToken_eq_args_iff hfound, hdot, NamesArgs, and_assoc]

/-- The key is replaced if the receiver has the name of the parameter and stands behind no dot. -/
theorem exists_key (h : Parts parameters body parts) : ∃ part,
    parts[l.before.length + 2]? = some part ∧
      (l.NamesArgs parameters ∧ ¬l.Behind .dot → ∀ name ∈ keyText l.key,
        part = ⟨Name.symbol (Name.underscore name), false⟩) ∧
      ((l.NamesArgs parameters ∧ ¬l.Behind .dot → keyText l.key = none) →
        adaptToken (adaptBody parameters) parameters [] l.key [] = .ok part) := by
  have htokens : tokenize body =
      (l.before ++ [l.receiver, l.bracket]) ++ l.key :: l.close :: l.after := by simp [l.tokens]
  obtain ⟨part, hpart, hout⟩ := h.getElem? htokens
  have hkind : l.key.kind ≠ .identifier := by
    intro hk
    have hkey := l.isKey
    rw [hk] at hkey
    exact absurd hkey (by decide)
  have hargs : argsKey parameters (l.before ++ [l.receiver, l.bracket]).reverse l.key
      (l.close :: l.after) = if l.NamesArgs parameters ∧ ¬l.Behind .dot then keyText l.key else none := by
    simp [argsKey, l.opens, l.closes, NamesArgs, Behind, and_assoc]
  rw [adaptToken_of_ne hkind, hargs] at hout
  refine ⟨part, by simpa using hpart, fun hcond name hname => ?_, fun hcond => ?_⟩
  · rw [if_pos hcond, hname] at hout
    exact (Except.ok.inj hout).symm
  · rwa [ite_eq_right_iff.2 hcond] at hout

/-- A key goes with its receiver, unless the receiver is called on a constant and the symbol is another
text than the key. -/
theorem follows_iff (h : Parts parameters body parts) : l.Follows parameters parts ↔
    ¬(l.NamesArgs parameters ∧ l.Behind .scope ∧ ∃ name ∈ keyText l.key,
      l.key.text ≠ Name.symbol (Name.underscore name)) := by
  obtain ⟨part, hpart, hreplaced, hkept⟩ := l.exists_key h
  have hreceiver := l.receiverAdapted_iff h
  -- a token is behind one token only
  have hbehind : l.Behind .scope → ¬l.Behind .dot := by
    rw [Behind, Behind]
    cases l.before.getLast? with
    | none => simp
    | some t => simp +contextual [Token.is]
  have hmem : l.key ∈ tokenize body := by simp [l.tokens]
  have hfound := Scan.found_of_mem_pieces (TokenStream.mem_pieces_of_mem_tokens hmem) rfl
  constructor
  · rintro hfollows ⟨hnames, hscope, name, hname, hne⟩
    have hkeep := hfollows.kept (fun hargs => absurd hscope (hreceiver.1 hargs).2.2) part hpart
    rw [adaptToken_keyText hfound hname, Except.ok.injEq] at hkeep
    have hpart := hreplaced ⟨hnames, hbehind hscope⟩ name hname
    rw [← hkeep, Adapted.mk.injEq] at hpart
    exact hne hpart.1
  · intro hnot
    refine ⟨fun name hname hargs => ?_, fun hother part' hpart' => ?_⟩
    · obtain ⟨hnames, hdot, -⟩ := hreceiver.1 hargs
      rw [hpart, hreplaced ⟨hnames, hdot⟩ name hname]
    · obtain rfl : part' = part := Option.some.inj (hpart'.symm.trans hpart)
      by_cases hcond : l.NamesArgs parameters ∧ ¬l.Behind .dot
      · cases hname : keyText l.key with
        | none => exact hkept fun _ => hname
        | some name =>
          -- the receiver stays only behind a scope, where the key is its own symbol
          have hscope : l.Behind .scope := by
            by_contra hscope
            rw [hother (hreceiver.2 ⟨hcond.1, hcond.2, hscope⟩)] at hname
            cases hname
          have heq : l.key.text = Name.symbol (Name.underscore name) := by
            by_contra hne
            exact hnot ⟨hcond.1, hscope, name, hname, hne⟩
          rw [hreplaced hcond name hname, adaptToken_keyText hfound hname, heq]
      · exact hkept fun h => absurd h hcond

/-! ### What replaces a key -/

/-- No character behind a key continues a symbol. -/
theorem exists_close : ∃ c cs, l.close.full = c :: cs ∧ Scan.isWordChar c = false ∧
    c ∉ ['.', '?', '!', '='] := by
  have hmem : l.close ∈ tokenize body := by simp [l.tokens]
  obtain ⟨c, cs, hframe, htext⟩ : ∃ c cs, Scan.IsFrame (Scan.head c cs).1 ∧
      l.close.full.head? = some c := by
    cases hgap : l.close.gap with
    | nil =>
      obtain ⟨c, cs, hkind, htext⟩ :=
        Scan.head_of_mem_pieces (TokenStream.mem_pieces_of_mem_tokens hmem)
      refine ⟨c, cs, .inr (.inr (hkind.trans (congrArg some l.closes))), ?_⟩
      rw [Token.full, hgap, htext]
      rfl
    | cons d ds =>
      have hd : d ∈ l.close.gap.head? := by rw [hgap, List.head?_cons]; rfl
      obtain ⟨p, hp, hnone, hdp⟩ := (TokenStream.head?_gap (fun p => Scan.text_ne_nil_of_mem_pieces) hmem
        d hd).resolve_left (Option.not_mem_none d)
      obtain ⟨c, cs, hkind, htext⟩ := Scan.head_of_mem_pieces hp
      rw [htext, List.head?_cons] at hdp
      cases hdp
      refine ⟨d, cs, .inl (hkind.trans hnone), ?_⟩
      rw [Token.full, hgap]
      rfl
  obtain ⟨ds, hds⟩ := List.head?_eq_some_iff.1 htext
  exact ⟨c, ds, hds, Scan.head_frame hframe⟩

theorem oneSymbol_iff {name : Text} (hname : name ∈ keyText l.key) :
    l.OneSymbol (Name.symbol (Name.underscore name)) ↔ name.head?.any Scan.isWordStart = true := by
  have hmem : l.key ∈ tokenize body := by simp [l.tokens]
  have hfound := Scan.found_of_mem_pieces (TokenStream.mem_pieces_of_mem_tokens hmem) rfl
  have hword := (keyText_spec hfound hname).2.2
  constructor
  · intro hone
    obtain ⟨hkind, htext⟩ := head_of_tokenize (hone [])
    obtain ⟨d, hd, hstart⟩ := Scan.afterColon_symbol hkind
    have hunder : (Name.underscore name).head? = some d := by
      rw [(List.cons.inj htext).2]
      exact hd
    have hquote : d ≠ '"' := by
      rintro rfl
      have hmem := Name.isWordChar_underscoreFrom hword none _ (List.mem_of_mem_head? hunder)
      exact absurd hmem (by decide)
    have hany : (Name.underscore name).head?.any Scan.isWordStart = true := by
      rw [hunder]
      exact hstart.resolve_left hquote
    rwa [Name.head?_underscore] at hany
  · intro hstart
    obtain ⟨hunder, hunderStart⟩ := underscore_spec hword hstart
    obtain ⟨c, cs, hclose, hc, hmarks⟩ := l.exists_close
    cases hcs : Name.underscore name with
    | nil =>
      rw [hcs] at hunderStart
      cases hunderStart
    | cons d ds =>
      rw [hcs] at hunder hunderStart
      intro rest
      refine tokenize_of_pieces (Scan.pieces_of_head (Scan.head_symbol hunderStart
        (fun e he => hunder e (List.mem_cons_of_mem d he)) ?_ fun x hx hhead => ?_))
      · rw [hclose]
        exact hc
      · rw [hclose] at hhead
        cases hhead
        exact hmarks (List.mem_cons_of_mem _ hx)

end Lookup

/-- In the body of a resolver method, a key in brackets goes with its receiver: it becomes an underscored
symbol exactly if the receiver becomes `args` and the key consists of word characters. The one exception
is a receiver behind a scope, which stays while the key is replaced. What replaces a key is a single
symbol exactly if the key starts with a letter or an underscore. -/
theorem adaptBody_keys {parameters : List Text} {body : Text} {out : Adapted}
    (hout : adaptBody parameters body = .ok out) : ∃ parts, Parts parameters body parts ∧
      out.text = TokenStream.weave (tokenize body) (parts.map Adapted.text)
        (TokenStream.ofText body).tail ∧
      ∀ l : Lookup body,
        (l.Follows parameters parts ↔ ¬(l.NamesArgs parameters ∧ l.Behind .scope ∧
          ∃ name ∈ keyText l.key, l.key.text ≠ Name.symbol (Name.underscore name))) ∧
        ∀ name ∈ keyText l.key, l.OneSymbol (Name.symbol (Name.underscore name)) ↔
          name.head?.any Scan.isWordStart = true := by
  rw [adaptBody_eq, map_eq_ok_iff] at hout
  obtain ⟨parts, hparts, rfl⟩ := hout
  rw [mapM_eq_ok_iff, List.map_id] at hparts
  exact ⟨parts, hparts, rfl, fun l => ⟨l.follows_iff hparts, fun name => l.oneSymbol_iff⟩⟩

theorem adaptBody_keys_camel : ∃ parts,
    Parts [['o'], ['a'], ['c']] "a['fullName'] || o[:fullName]".toList parts ∧
      "args[:full_name] || object[:fullName]".toList =
        TokenStream.weave (tokenize "a['fullName'] || o[:fullName]".toList)
          (parts.map Adapted.text) (TokenStream.ofText "a['fullName'] || o[:fullName]".toList).tail ∧
      ∀ l : Lookup "a['fullName'] || o[:fullName]".toList,
        (l.Follows [['o'], ['a'], ['c']] parts ↔ ¬(l.NamesArgs [['o'], ['a'], ['c']] ∧ l.Behind .scope ∧
          ∃ name ∈ keyText l.key, l.key.text ≠ Name.symbol (Name.underscore name))) ∧
        ∀ name ∈ keyText l.key, l.OneSymbol (Name.symbol (Name.underscore name)) ↔
          name.head?.any Scan.isWordStart = true := by
  have hout : adaptBody [['o'], ['a'], ['c']] "a['fullName'] || o[:fullName]".toList =
      .ok ⟨"args[:full_name] || object[:fullName]".toList, true⟩ := by decide +kernel
  exact adaptBody_keys hout

/-- The key of a method called on a constant is replaced alone, and a key that starts with a digit is
replaced by a colon and a number. -/
theorem adaptBody_key_alone :
    (∃ l : Lookup "Foo::Bar::a[:fooBar]".toList, ∃ parts,
      Parts [['o'], ['a'], ['c']] "Foo::Bar::a[:fooBar]".toList parts ∧
        ¬l.ReceiverAdapted parts ∧ ¬l.Follows [['o'], ['a'], ['c']] parts) ∧
    (∃ l : Lookup "a['1st']".toList, ∃ parts,
      Parts [['o'], ['a'], ['c']] "a['1st']".toList parts ∧ l.ReceiverAdapted parts ∧
        parts[l.before.length + 2]? = some ⟨":1st".toList, false⟩ ∧ ¬l.OneSymbol ":1st".toList) := by
  constructor
  · let l : Lookup "Foo::Bar::a[:fooBar]".toList :=
      { before := [⟨[], .constant, "Foo::Bar".toList⟩, ⟨[], .scope, "::".toList⟩]
        receiver := ⟨[], .identifier, ['a']⟩
        bracket := ⟨[], .lbracket, ['[']⟩
        key := ⟨[], .symbol, ":fooBar".toList⟩
        close := ⟨[], .rbracket, [']']⟩
        after := []
        tokens := by decide +kernel
        opens := rfl
        closes := rfl
        isKey := by decide }
    have hparts : Parts [['o'], ['a'], ['c']] "Foo::Bar::a[:fooBar]".toList
        [⟨"Foo::Bar".toList, false⟩, ⟨"::".toList, false⟩, ⟨['a'], false⟩, ⟨['['], false⟩,
          ⟨":foo_bar".toList, false⟩, ⟨[']'], false⟩] := by
      unfold Parts
      decide +kernel
    have hscope : l.NamesArgs [['o'], ['a'], ['c']] ∧ l.Behind .scope := by decide
    refine ⟨l, _, hparts, fun hargs => ?_, fun hfollows => ?_⟩
    · exact (l.receiverAdapted_iff hparts).1 hargs |>.2.2 hscope.2
    · exact (l.follows_iff hparts).1 hfollows
        ⟨hscope.1, hscope.2, "fooBar".toList, by decide, by decide⟩
  · let l : Lookup "a['1st']".toList :=
      { before := []
        receiver := ⟨[], .identifier, ['a']⟩
        bracket := ⟨[], .lbracket, ['[']⟩
        key := ⟨[], .singleQuoted, "'1st'".toList⟩
        close := ⟨[], .rbracket, [']']⟩
        after := []
        tokens := by decide +kernel
        opens := rfl
        closes := rfl
        isKey := by decide }
    have hparts : Parts [['o'], ['a'], ['c']] "a['1st']".toList
        [⟨args.name, true⟩, ⟨['['], false⟩, ⟨":1st".toList, false⟩, ⟨[']'], false⟩] := by
      unfold Parts
      decide +kernel
    have hkey : "1st".toList ∈ keyText l.key := by decide
    refine ⟨l, _, hparts, rfl, rfl, fun hone => ?_⟩
    exact absurd ((l.oneSymbol_iff hkey).1 hone) (by decide)

end Accessor

end SchemaLift
