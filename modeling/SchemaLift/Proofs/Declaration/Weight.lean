import SchemaLift.Proofs.Declaration.Comments
import SchemaLift.Proofs.Declaration.Kept
import SchemaLift.Proofs.Declaration.Values
import SchemaLift.Proofs.Proc.Adapted
import SchemaLift.Proofs.Type.Weight

/-!
# What the parts of a rewritten declaration add to the depth of blocks and brackets

A declaration is regular for a rewrite if its values are closed and steady, its type has no word of a block,
a block that goes stands between a bare `do` and a bare `end`, and a resolver that becomes a method has no
parameter named like a keyword. Then the header and the method that come add what the header, the statements
and the delimiters add that go, and what the name of the method adds: nothing, unless it is `do` or `end`
(`Rewrite.Regular.exchanged_iff`).
-/

namespace SchemaLift

open BlockEvent

/-! ## Names and delimiters -/

/-- A declared name adds nothing, nor does its symbol. -/
theorem Name.steady_of_declared? {raw name : Text} (h : declared? raw = some name) :
    (Steady (tokenizeCode raw) ∧ textBalance raw = 0) ∧
      Steady (tokenizeCode (symbol name)) ∧ textBalance (symbol name) = 0 := by
  have hone : ∀ {kind : TokenKind} {s : Text}, kind ∈ [TokenKind.symbol, .doubleQuoted, .singleQuoted] →
      Scan.pieces s = [⟨some kind, s⟩] → Steady (tokenizeCode s) ∧ textBalance s = 0 := by
    intro kind s hkind hpieces
    have hkinds : ∀ kind ∈ [TokenKind.symbol, .doubleQuoted, .singleQuoted],
        kind ∉ [TokenKind.identifier, .doWord, .endWord] ∧ kind ∉ [TokenKind.dot, .scope] ∧
          kind ≠ .comment ∧ kind.opensBracket = false ∧ kind.closesBracket = false := by decide
    obtain ⟨hquiet, hdot, hcomment, hopens, hcloses⟩ := hkinds kind hkind
    have hsingle : Scan.pieces s = ⟨some kind, s⟩ :: Scan.pieces [] := hpieces
    have htokens : tokenizeCode s = [⟨[], kind, s⟩] := tokenizeCode_of_pieces hcomment hsingle
    have hsteady := (Token.Eventless.of_kind (t := ⟨[], kind, s⟩) hquiet).steady hdot
    rw [Token.bracketDelta, hopens, hcloses] at hsteady
    rw [textBalance, htokens]
    exact hsteady
  obtain ⟨kind, hkind, hpieces⟩ := exists_pieces_of_declared? h
  exact ⟨hone hkind hpieces, hone (by simp) (pieces_symbol (isIdentifier_of_declared? h))⟩

theorem IsBareEnd.lineBalance {line : Line} (h : IsBareEnd line) : lineBalance line = (-1, 0) := by
  obtain ⟨t, htokens, hkind⟩ := h
  have hcode : tokenizeCode line = [t] := by
    rw [tokenizeCode, htokens, Token.dropComments_eq_self]
    intro u hu
    rw [List.mem_singleton.1 hu, hkind]
    decide
  have hevents : ofTokens [t] = [closes] := by simp [ofTokens, scan, afterDot, hkind]
  have hbrackets : Token.bracketDepth [t] = 0 := by
    simp [Token.bracketDepth, Token.bracketDelta, hkind, TokenKind.opensBracket, TokenKind.closesBracket]
  rw [lineBalance_eq, hcode, tokenBalance, hevents, hbrackets]
  rfl

namespace Declaration

/-! ## Lines -/

/-- Lines add what each of them adds. -/
theorem balance_eq_sum (ls : List Line) : balance ls = (ls.map fun line => balance [line]).sum := by
  induction ls with
  | nil => rfl
  | cons line rest ih => rw [balance_cons, ih, List.map_cons, List.sum_cons]

/-- Some of the lines add what their text adds. -/
theorem balance_extent {ls : List Line} (hls : ∀ line ∈ ls, Tidy line) (first last : Nat) :
    balance ((ls.drop first).take (last + 1 - first)) = textBalance (Lines.extent ls first last) := by
  have htidy : Tidy (Lines.extent ls first last) :=
    .unlines fun line hline => hls line (List.mem_of_mem_drop (List.mem_of_mem_take hline))
  rw [← htidy.balance_eq, ← balance_lines_unlines, balance, balance, List.flatMap_singleton,
    Text.flatMap_lines fun line hline => Text.notMem_of_mem_lines hline]
  rfl

/-! ## Statements that go -/

section

variable {d : Declaration} {ls : List Line} {r : Rewrite} {rule : Rule}

/-- The keywords of the statements that rules take out of a block. -/
def takenWords : List String :=
  ["type", "description", "resolve"] ++ methodWords ++ DeclarationKind.field.settingWords ++
    DeclarationKind.argument.settingWords

/-- Every line that goes belongs to a statement with one of these keywords. -/
theorem exists_taken (h : d.rewrite? ls rule = some r) {range : LineRange} (hrange : range ∈ r.removed) :
    ∃ s, (range, s) ∈ d.readStatements ls ∧ ∃ word ∈ takenWords, s.keyword = word.toList := by
  have hwords : ∀ {words : List String} {s : Statement}, (∀ word ∈ words, word ∈ takenWords) →
      (words.any fun word => s.keyword == word.toList) = true →
      ∃ word ∈ takenWords, s.keyword = word.toList := by
    intro words s hwords hany
    obtain ⟨word, hword, hk⟩ := List.any_eq_true.1 hany
    exact ⟨word, hwords word hword, beq_iff_eq.1 hk⟩
  have hsettings : ∀ kind : DeclarationKind, ∀ word ∈ kind.settingWords, word ∈ takenWords := by
    intro kind
    cases kind <;> decide
  have hpulled : ∀ {kind}, range ∈ (d.pulled ls kind).removed →
      ∃ s, (range, s) ∈ d.readStatements ls ∧ ∃ word ∈ takenWords, s.keyword = word.toList := by
    intro kind hremoved
    have hsound := Pulled.sound_ofStatements kind (headerType d.signature).isSome
      (d.signature.positional.any isStringLiteral) (d.readStatements ls)
    obtain ⟨s, hs, hgives, -⟩ := hsound.removed range hremoved
    refine ⟨s, hs, ?_⟩
    cases hgives with
    | type hk => exact ⟨"type", by decide, hk⟩
    | description hk => exact ⟨"description", by decide, hk⟩
    | method hk => exact hwords (by decide) hk
    | setting hk => exact hwords (hsettings kind) hk
  have hstatement : ∀ {words : List String} {entry}, (∀ word ∈ words, word ∈ takenWords) →
      d.statement? ls words = some entry → range = entry.1 →
      ∃ s, (range, s) ∈ d.readStatements ls ∧ ∃ word ∈ takenWords, s.keyword = word.toList := by
    rintro words ⟨range, s⟩ hall hentry rfl
    refine ⟨s, List.mem_of_find?_eq_some hentry, ?_⟩
    rw [statement?_eq] at hentry
    have hoffers := List.find?_some hentry
    exact hwords hall (Bool.and_eq_true_iff.1 hoffers).2
  have hresolve : ∀ word ∈ ["resolve"], word ∈ takenWords := by decide
  cases made_of_rewrite? h with
  | flat => exact hpulled hrange
  | flatStatement _ _ _ hentry =>
    rcases List.mem_append.1 hrange with hrange | hrange
    · exact hpulled hrange
    · exact hstatement hresolve (statement?_of_pulled hentry) (List.mem_singleton.1 hrange)
  | flatArgument => exact hpulled hrange
  | renamed => cases hrange
  | pushed hentry => exact hstatement (by decide) hentry (List.mem_singleton.1 hrange)
  | movedStatement hentry => exact hstatement hresolve hentry (List.mem_singleton.1 hrange)
  | movedArgument => cases hrange

/-! ## New headers -/

/-- What is needed of a declaration and its rewrite for their parts to count by themselves. -/
structure Rewrite.Regular (r : Rewrite) (d : Declaration) (ls : List Line) : Prop where
  quotes : ∀ line ∈ ls, QuotesInTokens line
  values : ∀ t ∈ d.signature.values ++ d.signature.block.toList, Steady (tokenizeCode t)
  statements : ∀ entry ∈ d.readStatements ls,
    Closed entry.2.value ∧ Steady (tokenizeCode entry.2.value)
  type : ∀ text ∈ (headerType d.signature).or (firstValue? (d.readStatements ls) ["type"]),
    Wordless (tokenizeCode text)
  /-- There is no block, or what goes stands between a bare `do` and a bare `end`. -/
  block : d.staying ls r.removed = [] → d.signature.block = none ∧ d.block = none ∨
    d.signature.block = some "do".toList ∧ ∃ b ∈ d.block, b.start < b.stop ∧
      ∀ line ∈ ls[b.stop]?, IsBareEnd line
  resolver : r.trailer ≠ [] → ∀ text ∈ d.resolver? ls, ∀ p ∈ (ProcLiteral.parse text).toOption, p.Regular

instance (r : Rewrite) (d : Declaration) (ls : List Line) : Decidable (r.Regular d ls) :=
  decidable_of_iff ((∀ line ∈ ls, QuotesInTokens line) ∧
      (∀ t ∈ d.signature.values ++ d.signature.block.toList, Steady (tokenizeCode t)) ∧
      (∀ entry ∈ d.readStatements ls, Closed entry.2.value ∧ Steady (tokenizeCode entry.2.value)) ∧
      (∀ text ∈ (headerType d.signature).or (firstValue? (d.readStatements ls) ["type"]),
        Wordless (tokenizeCode text)) ∧
      (d.staying ls r.removed = [] → d.signature.block = none ∧ d.block = none ∨
        d.signature.block = some "do".toList ∧ ∃ b ∈ d.block, b.start < b.stop ∧
          ∀ line ∈ ls[b.stop]?, IsBareEnd line) ∧
      (r.trailer ≠ [] → ∀ text ∈ d.resolver? ls, ∀ p ∈ (ProcLiteral.parse text).toOption, p.Regular))
    ⟨fun ⟨quotes, values, statements, type, block, resolver⟩ =>
      ⟨quotes, values, statements, type, block, resolver⟩,
      fun h => ⟨h.quotes, h.values, h.statements, h.type, h.block, h.resolver⟩⟩

/-- The keys that rules write. -/
def writtenKeys : List String :=
  ["null", "required", "method", "connection"] ++ DeclarationKind.field.settingWords ++
    DeclarationKind.argument.settingWords

/-- They add nothing. -/
theorem inert_labelled (word : String) (hword : word ∈ writtenKeys) (value : Text) :
    (KeywordArgument.labelled word.toList value).Inert := by
  have hall : ∀ word ∈ writtenKeys,
      Steady (tokenizeCode (word.toList ++ [':'])) ∧ textBalance (word.toList ++ [':']) = 0 := by
    decide +kernel
  exact hall word hword

/-- The keys of the new header are old ones, or they add nothing. -/
theorem inert_header (h : d.rewrite? ls rule = some r) (hkeys : ∀ a ∈ d.signature.keywords, a.Inert) :
    ∀ a ∈ r.header.keywords, a.Inert := by
  have hsettings : ∀ kind : DeclarationKind, ∀ word ∈ kind.settingWords, word ∈ writtenKeys := by
    intro kind
    cases kind <;> decide
  have hnull : ∀ kind : DeclarationKind, kind.nullabilityKey ∈ writtenKeys := by
    intro kind
    cases kind <;> decide
  have hflat : ∀ {kind t}, ∀ a ∈ flatKeywords kind d.signature (d.pulled ls kind) t, a.Inert := by
    intro kind t a ha
    rw [flatKeywords_eq] at ha
    simp only [addedKeywords, List.mem_append, or_assoc] at ha
    rcases ha with ha | ha | ha | ha | ha
    · exact hkeys a ha
    · obtain ⟨entry, hentry, rfl⟩ := List.mem_map.1 ha
      obtain ⟨word, hword, hk⟩ := Statement.exists_of_offers (List.mem_filter.1 hentry).2
      rw [hk]
      exact inert_labelled word (hsettings kind word hword) entry.2.value
    · obtain rfl := List.mem_singleton.1 ha
      exact inert_labelled _ (hnull kind) _
    · obtain ⟨value, -, rfl⟩ := Option.map_eq_some_iff.1 (Option.mem_toList.1 ha)
      exact inert_labelled "method" (by decide) value
    · split at ha
      · obtain rfl := List.mem_singleton.1 ha
        exact inert_labelled "connection" (by decide) _
      · cases ha
  have hrenamed : ∀ a ∈ (d.signature.renameKeyword "property".toList "method".toList).keywords,
      a.Inert := by
    have hmethod : ∀ a : KeywordArgument, { a with key := "method".toList }.Inert := by
      have hlabels : ∀ label ∈ ["method:".toList, ":method".toList],
          Steady (tokenizeCode label) ∧ textBalance label = 0 := by decide
      rintro ⟨key, value, style⟩
      cases style with
      | label => exact hlabels _ List.mem_cons_self
      | rocket => exact hlabels _ (List.mem_cons_of_mem _ List.mem_cons_self)
    have hrename : ∀ as : List KeywordArgument, (∀ a ∈ as, a.Inert) →
        ∀ a ∈ Signature.renameFirst "property".toList "method".toList as, a.Inert := by
      intro as has
      induction as with
      | nil => exact has
      | cons a rest ih =>
        obtain ⟨ha, hrest⟩ := List.forall_mem_cons.1 has
        rw [Signature.renameFirst]
        split
        · exact List.forall_mem_cons.2 ⟨hmethod a, hrest⟩
        · exact List.forall_mem_cons.2 ⟨ha, ih hrest⟩
    exact hrename _ hkeys
  cases made_of_rewrite? h with
  | flat => exact hflat
  | flatStatement => exact hflat
  | flatArgument => exact fun a ha => hflat a (List.mem_of_mem_eraseP ha)
  | renamed => exact hrenamed
  | pushed =>
    intro a ha
    rcases List.mem_append.1 ha with ha | ha
    · exact hrenamed a ha
    · obtain rfl := List.mem_singleton.1 ha
      exact inert_labelled "method" (by decide) _
  | movedStatement => exact hkeys
  | movedArgument => exact fun a ha => hkeys a (List.mem_of_mem_eraseP ha)

theorem block_header (h : d.rewrite? ls rule = some r) : r.header.block = d.signature.block ∧
    (r.header.keyword = d.signature.keyword ∨ r.header.keyword ∈ ["field".toList, "argument".toList]) := by
  have hflat : ∀ kind : DeclarationKind, kind.flatKeyword.toList ∈ ["field".toList, "argument".toList] := by
    intro kind
    cases kind <;> decide
  cases made_of_rewrite? h with
  | flat => exact ⟨rfl, .inr (hflat _)⟩
  | flatStatement => exact ⟨rfl, .inr (hflat _)⟩
  | flatArgument => exact ⟨rfl, .inr (hflat _)⟩
  | renamed => exact ⟨rfl, .inl rfl⟩
  | pushed => exact ⟨rfl, .inl rfl⟩
  | movedStatement => exact ⟨rfl, .inl rfl⟩
  | movedArgument => exact ⟨rfl, .inl rfl⟩

namespace Rewrite.Regular

variable (hreg : r.Regular d ls)
include hreg

theorem tidy (hls : ∀ line ∈ ls, '\n' ∉ line) : ∀ line ∈ ls, Tidy line := fun line hline =>
  .of_line (hreg.quotes line hline) (hls line hline)

/-- What is written anew adds nothing, and is steady. -/
theorem neutral {M : Type} [AddCommMonoid M] {f : Text → M}
    (hf : ∀ t, Steady (tokenizeCode t) → textBalance t = 0 → f t = 0) : Neutral f d ls where
  name name hname := by
    cases hdeclared : Name.declared? name with
    | none => rfl
    | some method =>
      obtain ⟨⟨hraw, hzero⟩, hsymbol, hnone⟩ := Name.steady_of_declared? hdeclared
      rw [Option.elim_some, hf _ hraw hzero, hf _ hsymbol hnone]
  type text htext t ht := by
    obtain ⟨⟨hold, hzero⟩, hnew, hnone⟩ := TypeExpression.textBalance_of_parse ht (hreg.type text htext)
    exact ⟨hf _ hold hzero, hf _ hnew hnone⟩
  marks := ⟨hf _ (by decide) (by decide), hf _ (by decide) (by decide)⟩

variable (h : d.rewrite? ls rule = some r)
include h

theorem valueAt_of_removed {range : LineRange} (hrange : range ∈ r.removed) :
    Closed (valueAt ls range) ∧ Steady (tokenizeCode (valueAt ls range)) ∧
      textBalance (Lines.extent ls range.first range.last) = textBalance (valueAt ls range) := by
  obtain ⟨s, hs, word, hword, hk⟩ := exists_taken h hrange
  have hwords : ∀ word ∈ takenWords, word.toList ∉ openers.map String.toList := by decide
  obtain ⟨hclosed, hsteady⟩ := hreg.statements _ hs
  rw [valueAt_of_mem hs]
  exact ⟨hclosed, hsteady, Statement.textBalance_of_parse (statement_of_mem_readStatements hs)
    (hk ▸ hwords word hword) hclosed hsteady⟩

/-- The values of the new header are steady. -/
theorem steady_header : ∀ t ∈ r.header.values, Steady (tokenizeCode t) := by
  -- counting the values that are not, there is none
  have hneutral := hreg.neutral (f := fun t => if Steady (tokenizeCode t) then 0 else 1) fun t ht _ =>
    if_pos ht
  have hsum := sum_values_rewrite hneutral h
  have hold : (d.signature.values.map fun t => if Steady (tokenizeCode t) then 0 else 1).sum = 0 :=
    List.sum_eq_zero fun n hn => by
      obtain ⟨t, ht, rfl⟩ := List.mem_map.1 hn
      exact if_pos (hreg.values t (List.mem_append_left _ ht))
  have htaken : (r.removed.map fun range =>
      if Steady (tokenizeCode (valueAt ls range)) then 0 else 1).sum = 0 :=
    List.sum_eq_zero fun n hn => by
      obtain ⟨range, hrange, rfl⟩ := List.mem_map.1 hn
      exact if_pos (hreg.valueAt_of_removed h hrange).2.1
  rw [hold, htaken] at hsum
  have hnew : (r.header.values.map fun t => if Steady (tokenizeCode t) then 0 else 1).sum = 0 :=
    Nat.eq_zero_of_add_eq_zero_right hsum
  intro t ht
  by_contra hnot
  have hone := List.sum_eq_zero_iff_forall_eq_nat.1 hnew _ (List.mem_map_of_mem ht)
  rw [if_neg hnot] at hone
  cases hone

/-! ## Lines -/

variable {keyword : String} (hscan : .declaration d ∈ scan ls keyword)
  (hls : ∀ line ∈ ls, '\n' ∉ line)
include hscan hls

omit h in
/-- The lines of the old header add its values and the `do` of its block. -/
theorem balance_headLines (hk : keyword ∉ openers) :
    d.signature.Regular ∧ balance (d.headLines ls) = d.signature.weight := by
  obtain ⟨-, hparse, -⟩ := locate_cases ((genuine_of_mem_scan hscan).2 d rfl)
  have hkeyword : d.signature.keyword ∉ openers.map String.toList := by
    intro hmem
    obtain ⟨word, hword, heq⟩ := List.mem_map.1 hmem
    rw [keyword_of_mem_scan hscan] at heq
    exact hk (String.toList_inj.1 heq ▸ hword)
  obtain ⟨hregular, hweight⟩ := Signature.textBalance_of_parse hparse hkeyword hreg.values
  exact ⟨hregular, (balance_extent (hreg.tidy hls) _ _).trans hweight⟩

/-- The line of the new header adds its values, and the `do` of the block if something stays in it. -/
theorem balance_newHeader (hk : keyword ∉ openers) : 
    balance [(newHeader r.header (d.staying ls r.removed)).render] =
      (r.header.values.map textBalance).sum +
        if d.staying ls r.removed = [] then 0 else (d.signature.block.toList.map textBalance).sum := by
  obtain ⟨-, hparse, -⟩ := locate_cases ((genuine_of_mem_scan hscan).2 d rfl)
  obtain ⟨hold, -⟩ := hreg.balance_headLines hscan hls hk
  obtain ⟨hjoinable, hkept, hcomments⟩ := joinable_newHeader (hreg.tidy hls) hparse
    (fun entry hentry => (hreg.statements entry hentry).1) h (d.staying ls r.removed)
  obtain ⟨hblock, hword⟩ := block_header h
  have hkeyword : r.header.keyword ∉ openers.map String.toList := by
    have hflat : ∀ word ∈ ["field".toList, "argument".toList], word ∉ openers.map String.toList := by
      decide
    rcases hword with hword | hword
    · exact hword ▸ hold.keyword
    · exact hflat _ hword
  have hkeys := inert_header h hold.keys
  have hvalues := hreg.steady_header h
  rw [← hkept] at hcomments
  unfold newHeader at hjoinable hcomments ⊢
  split
  · rename_i hstay
    rw [if_pos (List.isEmpty_iff.1 hstay), add_zero]
    rw [if_pos hstay] at hjoinable hcomments
    have hnone : ({ r.header with block := none } : Signature).values ++ [] = r.header.values :=
      List.append_nil _
    rw [Signature.balance_render hjoinable ⟨hkeyword, hkeys, fun t ht => hvalues t (hnone ▸ ht)⟩ hcomments]
    exact congrArg (fun ts => (List.map textBalance ts).sum) hnone
  · rename_i hstay
    rw [if_neg (fun hnil => hstay (List.isEmpty_iff.2 hnil))]
    rw [if_neg hstay] at hjoinable hcomments
    have hsteady : ∀ t ∈ r.header.values ++ r.header.block.toList, Steady (tokenizeCode t) := by
      intro t ht
      rcases List.mem_append.1 ht with ht | ht
      · exact hvalues t ht
      · exact hreg.values t (List.mem_append_right _ (hblock ▸ ht))
    rw [Signature.balance_render hjoinable ⟨hkeyword, hkeys, hsteady⟩ hcomments, Signature.weight, hblock,
      List.map_append, List.sum_append]

/-- The lines that go add the values of their statements. -/
theorem balance_takenLines : balance (d.takenLines ls r.removed) =
    (r.removed.map fun range => textBalance (valueAt ls range)).sum := by
  have hlocate := (genuine_of_mem_scan hscan).2 d rfl
  obtain ⟨taken, htaken⟩ := exists_takes h
  have hlines := htaken.sum_takenLines (fun line => balance [line]) (placed_of_mem_scan hscan)
    (children_pairwise_of_locate hlocate)
  rw [balance_eq_sum, hlines]
  refine congrArg List.sum (List.map_congr_left fun range hrange => ?_)
  rw [← balance_eq_sum, balance_extent (hreg.tidy hls)]
  exact (hreg.valueAt_of_removed h hrange).2.2

omit h in
/-- The `do` and the `end` of a block that goes cancel. -/
theorem balance_dissolved : balance (d.dissolved ls r.removed) +
    (if d.staying ls r.removed = [] then (d.signature.block.toList.map textBalance).sum else 0) = 0 := by
  by_cases hstay : d.staying ls r.removed = []
  · rw [if_pos hstay]
    rcases hreg.block hstay with ⟨hnone, hb⟩ | ⟨hdo, b, hb, hlt, hend⟩
    · rw [dissolved, hb, hnone]
      rfl
    · have hb : d.block = some b := hb
      have hstop : b.stop < ls.length := by
        have hlt := (placed_of_mem_scan hscan).stop_lt
        rwa [stop, hb] at hlt
      have hline : ls[b.stop]? = some ls[b.stop] := List.getElem?_eq_getElem hstop
      have hclose : balance [ls[b.stop]] = (-1, 0) := by
        rw [balance_singleton (hls _ (List.getElem_mem hstop))]
        exact (hend _ hline).lineBalance
      have hopen : textBalance "do".toList = (1, 0) := by decide
      rw [dissolved, hb, hdo]
      simp only [hstay, hlt, and_self, ↓reduceIte, hline, Option.toList_some]
      rw [hclose, List.map_singleton, List.sum_singleton, hopen]
      rfl
  · rw [if_neg hstay, dissolved]
    split
    · rfl
    · rw [if_neg fun hall => hstay hall.2]
      rfl

/-- The method that comes adds what its resolver added, and what its name adds. -/
theorem balance_trailer (hne : r.trailer ≠ []) : ∃ name, d.signature.name.bind Name.declared? = some name ∧
      balance r.trailer = nameBalance name + ((r.moved d ls).map textBalance).sum := by
  obtain ⟨resolver, declared, hresolver, hmethod⟩ := (exists_method_of_rewrite? h).resolve_left hne
  obtain ⟨name, hname, hmethod⟩ := Option.bind_eq_some_iff.1 hmethod
  obtain ⟨p, out, header, hparse, hout, hheader, htrailer⟩ :=
    exists_proc_of_resolverMethod (toOption_eq_some_iff.1 hmethod)
  obtain ⟨raw, -, hraw⟩ := Option.bind_eq_some_iff.1 hname
  have htidy : Tidy resolver := by
    obtain ⟨-, hcall, -⟩ := locate_cases ((genuine_of_mem_scan hscan).2 d rfl)
    have hsource : Tidy (Lines.extent ls d.start d.headerEnd) :=
      .unlines fun line hline => hreg.tidy hls line (List.mem_of_mem_drop (List.mem_of_mem_take hline))
    unfold resolver? at hresolver
    split at hresolver
    · rename_i entry hentry
      obtain rfl := Option.some.inj hresolver
      exact (hreg.statements _ (List.mem_of_find?_eq_some hentry)).1.tidy
    · obtain ⟨a, ha, rfl⟩ := Option.map_eq_some_iff.1 hresolver
      exact ((Signature.joinable_of_parse hsource hcall).keywords a (List.mem_of_find?_eq_some ha)).value.tidy
  have hregular := hreg.resolver hne resolver hresolver p (toOption_eq_some_iff.2 hparse)
  have hbody := hregular.balance_eq htidy hparse hout
  refine ⟨name, hname, ?_⟩
  rw [htrailer, balance_methodLines hraw (placed_of_mem_scan hscan).signature.indent hheader, hbody,
    Rewrite.moved, if_neg hne, hresolver, Option.toList_some, List.map_singleton, List.sum_singleton]

end Rewrite.Regular

end

end Declaration

end SchemaLift
