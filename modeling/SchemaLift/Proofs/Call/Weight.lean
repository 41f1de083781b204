import SchemaLift.Proofs.Block.Steady
import SchemaLift.Proofs.Call.Argument
import SchemaLift.Proofs.Call.Comments

/-!
# What a call adds to the depth of blocks and brackets

The texts of a call are its values and the `do` of its block. If they are steady, the call adds what they
add together: in the text that it is read from (`textBalance_of_parse`) and as it is rendered
(`balance_render`). Keys, commas and parentheses add nothing.
-/

namespace SchemaLift

open BlockEvent

/-- Comments behind a closed text are no code. -/
theorem Closed.tokenizeCode_commented {s : Text} (hs : Closed s) {cs : List Text}
    (h : ∀ c ∈ cs, IsComment c) : tokenizeCode (s ++ cs.flatMap (' ' :: ·)) = tokenizeCode s := by
  by_cases hne : cs = []
  · rw [hne, List.flatMap_nil, List.append_nil]
  obtain ⟨t, heq, ht, -⟩ := exists_comment h hne
  have hblank : ∀ c ∈ [' '], Text.isBlankChar c = true := List.all_eq_true.1 (by decide)
  have hnone : tokenizeCode (' ' :: '#' :: t) = [] := by
    have hspace := tokenizeCode_blank_append hblank ('#' :: t)
    rwa [tokenizeCode_comment ht] at hspace
  obtain ⟨g, htokens⟩ := exists_tokenizeCode_append
    (hs.pieces_append (Scan.stops_cons (c := ' ') (by decide) ('#' :: t)))
  rw [heq, htokens, hnone, Token.addGap_nil, List.append_nil]

/-! ## Keyword arguments -/

namespace KeywordArgument

/-- The key of an argument adds nothing. -/
def Inert (a : KeywordArgument) : Prop :=
  Steady (tokenizeCode a.label) ∧ textBalance a.label = 0

instance (a : KeywordArgument) : Decidable a.Inert := inferInstanceAs (Decidable (_ ∧ _))

/-- An argument adds what its value adds. -/
theorem Inert.textBalance_render {a : KeywordArgument} (h : a.Inert) (hjoins : a.Joinable)
    (hvalue : Steady (tokenizeCode a.value)) :
    Steady (tokenizeCode a.render) ∧ textBalance a.render = textBalance a.value := by
  have hmarks : (∀ p ∈ a.marks, Steady (tokenizeCode p)) ∧ (a.marks.map textBalance).sum = 0 := by
    unfold marks
    split <;> decide
  obtain ⟨hsteady, hsum⟩ := hjoins.joins_render.textBalance_eq fun p hp => by
    rcases List.mem_cons.1 hp with rfl | hp
    · exact h.1
    rcases List.mem_append.1 hp with hp | hp
    · exact hmarks.1 p hp
    · exact List.mem_singleton.1 hp ▸ hvalue
  refine ⟨hsteady, hsum.trans ?_⟩
  rw [List.map_cons, List.sum_cons, h.2, zero_add, List.map_append, List.sum_append, hmarks.2, zero_add,
    List.map_singleton, List.sum_singleton]

end KeywordArgument

/-- The token of a key adds nothing. -/
theorem KeywordArgument.Inert.of_key {a : KeywordArgument} {s : Text} {key : Token}
    (hkey : [key] <:+: tokenizeCode s) (hkind : key.kind = .label ∨ key.kind = .symbol)
    (hlabel : a.label = key.text) : a.Inert := by
  have htokens : tokenizeCode key.text = [{ key with gap := [] }] := by
    have hspelling := tokenizeCode_spelling hkey
    rwa [show Token.spelling [key] = key.text from List.append_nil key.text] at hspelling
  rw [KeywordArgument.Inert, hlabel, textBalance, htokens]
  exact steady_mark (by rcases hkind with hk | hk <;> simp [hk])

namespace Argument

/-- An argument without its key. -/
def value : Argument → Text
  | .positional text => text
  | .keyword a => a.value

/-- The tokens of an argument add what its value adds. -/
theorem codeBalance_of_value {s : Text} {item : List Token} (hitem : item <:+: tokenizeCode s)
    (hsteady : Steady (tokenizeCode (ofTokens item).value)) :
    (Steady item ∧ codeBalance item = textBalance (ofTokens item).value) ∧
      ∀ a ∈ (ofTokens item).keyword?, a.Inert := by
  have hwrites : ∀ t ∈ item, t.kind.Writes t.text := by
    intro t ht
    obtain ⟨u, hu, hkind, htext⟩ := Token.exists_mem_of_mem_dropComments (hitem.subset ht)
    rw [← hkind, ← htext]
    exact writes_of_mem_tokenize hu
  rcases ofTokens_cases item with ⟨key, value, hlabel, -, rfl, -, hargument⟩ |
    ⟨key, rocket, value, hsymbol, hrocket, -, rfl, -, hargument⟩ | ⟨-, hargument⟩
  · rw [hargument] at hsteady ⊢
    have hkey : [key] <:+: tokenizeCode s := (List.prefix_append [key] value).isInfix.trans hitem
    obtain ⟨hvalue, hbalance⟩ :=
      Steady.of_spelling ((List.suffix_append [key] value).isInfix.trans hitem) hsteady
    obtain ⟨hfirst, hzero⟩ := steady_mark (t := key) (by simp [hlabel])
    refine ⟨⟨hfirst.append hvalue, ?_⟩, ?_⟩
    · have hsum := hfirst.codeBalance_append hvalue
      rwa [hzero, zero_add, hbalance] at hsum
    · rintro a ⟨⟩
      have hname := hwrites key List.mem_cons_self
      rw [hlabel] at hname
      obtain ⟨name, hname⟩ := hname
      exact .of_key hkey (.inl hlabel) (by simp [KeywordArgument.label, hname])
  · rw [hargument] at hsteady ⊢
    have hkey : [key] <:+: tokenizeCode s :=
      (List.prefix_append [key] (rocket :: value)).isInfix.trans hitem
    obtain ⟨hvalue, hbalance⟩ :=
      Steady.of_spelling ((List.suffix_append [key, rocket] value).isInfix.trans hitem) hsteady
    obtain ⟨hfirst, hzero⟩ := steady_mark (t := key) (by simp [hsymbol])
    obtain ⟨hsecond, hnone⟩ := steady_mark (t := rocket) (by simp [hrocket])
    have hbehind := hsecond.append hvalue
    refine ⟨⟨hfirst.append hbehind, ?_⟩, ?_⟩
    · have hsum := hfirst.codeBalance_append hbehind
      rwa [hsecond.codeBalance_append hvalue, hzero, hnone, zero_add, zero_add, hbalance] at hsum
    · rintro a ⟨⟩
      have hname := hwrites key List.mem_cons_self
      rw [hsymbol] at hname
      obtain ⟨name, hname⟩ := hname
      exact .of_key hkey (.inr hsymbol) (by simp [KeywordArgument.label, hname])
  · rw [hargument] at hsteady ⊢
    refine ⟨Steady.of_spelling hitem hsteady, ?_⟩
    rintro a ⟨⟩

end Argument

/-! ## Calls -/

namespace Signature

/-- The arguments of a call without their keys. -/
def values (s : Signature) : List Text :=
  s.name.toList ++ s.positional ++ s.keywords.map KeywordArgument.value

/-- What the values of a call and the `do` of its block add, each read by itself. -/
def weight (s : Signature) : Int × Int := ((s.values ++ s.block.toList).map textBalance).sum

/-- Only the values of a call and its `do` count, and these add the same wherever they stand. -/
structure Regular (s : Signature) : Prop where
  keyword : s.keyword ∉ openers.map String.toList
  keys : ∀ a ∈ s.keywords, a.Inert
  steady : ∀ t ∈ s.values ++ s.block.toList, Steady (tokenizeCode t)

/-- A call starts with its keyword, which counts only if it is one of a block. -/
theorem Headed.textBalance_keyword {s : Signature} (h : s.Headed)
    (hk : s.keyword ∉ openers.map String.toList) :
    Steady (tokenizeCode (s.indent ++ s.keyword)) ∧ textBalance (s.indent ++ s.keyword) = 0 := by
  have htokens := tokenizeCode_identifier_append h.keyword Scan.delimits_nil
  rw [List.append_nil] at htokens
  have hone : ∀ t ∈ tokenizeCode (s.indent ++ s.keyword), t.Eventless := by
    rw [tokenizeCode_blank_append h.indent.isBlankChar, htokens]
    intro t ht
    obtain rfl := List.mem_singleton.1 ht
    exact ⟨Bool.eq_false_iff.2 fun hword => hk (isWordOf_iff.1 hword).2, nofun, nofun⟩
  have hsingle : tokenizeCode (s.indent ++ s.keyword) =
      [⟨s.indent ++ [], .identifier, s.keyword⟩] := by
    rw [tokenizeCode_blank_append h.indent.isBlankChar, htokens]
    rfl
  refine ⟨steady_of_eventless hone ?_, ?_⟩
  · rw [hsingle]
    rfl
  · rw [textBalance, codeBalance_of_eventless hone, hsingle]
    rfl

section

variable {s : Signature} (h : s.Joinable) (hs : s.Regular)
include h hs

theorem Regular.arguments :
    (∀ t ∈ s.arguments, Steady (tokenizeCode t)) ∧
      (s.arguments.map textBalance).sum = (s.values.map textBalance).sum := by
  have hkeyword : ∀ a ∈ s.keywords,
      Steady (tokenizeCode a.render) ∧ textBalance a.render = textBalance a.value := by
    intro a ha
    refine (hs.keys a ha).textBalance_render (h.keywords a ha) (hs.steady _ ?_)
    exact List.mem_append_left _ (List.mem_append_right _ (List.mem_map_of_mem ha))
  constructor
  · intro t ht
    rcases List.mem_append.1 ht with ht | ht
    · exact hs.steady t (List.mem_append_left _ (List.mem_append_left _ ht))
    · obtain ⟨a, ha, rfl⟩ := List.mem_map.1 ht
      exact (hkeyword a ha).1
  · have hsame : s.keywords.map (textBalance ∘ KeywordArgument.render) =
        s.keywords.map (textBalance ∘ KeywordArgument.value) :=
      List.map_congr_left fun a ha => (hkeyword a ha).2
    simp only [Signature.arguments, values, List.map_append, List.map_map, hsame]

/-- **A rendered call adds its weight.** -/
theorem balance_render (hcomments : ∀ c ∈ s.comments, IsComment c) : balance [s.render] = s.weight := by
  obtain ⟨call, hrender, hcall⟩ := h.exists_call
  obtain ⟨htidy, -⟩ := hcall.carries.commented hcomments
  obtain ⟨harguments, hsum⟩ := Regular.arguments h hs
  obtain ⟨hkeyword, hzero⟩ := h.headed.textBalance_keyword hs.keyword
  have hmarks : ∀ t ∈ [['('], [')'], [','], [' ']], Steady (tokenizeCode t) := by decide
  have htexts : ∀ t ∈ s.texts, Steady (tokenizeCode t) := by
    intro t ht
    rcases List.mem_append.1 ht with ht | ht
    · exact harguments t ht
    · exact hs.steady t (List.mem_append_right _ ht)
  obtain ⟨-, hbalance⟩ := hcall.textBalance_eq fun p hp => by
    rcases mem_callParts hp with rfl | hp | hp
    · exact hkeyword
    · exact htexts p hp
    · exact hmarks p hp
  rw [hrender, htidy.balance_eq, textBalance, hcall.carries.closed.tokenizeCode_commented hcomments,
    ← textBalance, hbalance, sum_callParts (by decide) (by decide) (by decide), hzero, zero_add, texts,
    weight, List.map_append, List.sum_append, hsum, ← List.sum_append, ← List.map_append]

end

/-! ## Parsed calls -/

/-- The values of a call are those of its arguments, in another order. -/
theorem sum_values {M : Type} [AddCommMonoid M] (f : Text → M) (arguments : List Argument) :
    ((arguments.filterMap Argument.positional? ++
        (arguments.filterMap Argument.keyword?).map KeywordArgument.value).map f).sum =
      (arguments.map fun a => f a.value).sum := by
  induction arguments with
  | nil => rfl
  | cons a rest ih =>
    rw [List.map_cons, List.sum_cons, ← ih]
    cases a with
    | positional text => rfl
    | keyword a =>
      have hcons : (Argument.keyword a :: rest).filterMap Argument.keyword? =
          a :: rest.filterMap Argument.keyword? := rfl
      rw [List.filterMap_cons_none rfl, hcons, List.map_cons, List.map_append, List.map_append,
        List.map_cons, List.sum_append, List.sum_append, List.sum_cons, add_left_comm]
      rfl

/-- Where each item adds what its argument adds, so do all of them; empty ones add nothing. -/
theorem sum_items {items : List (List Token)}
    (h : ∀ item ∈ items, item ≠ [] → codeBalance item = textBalance (Argument.ofTokens item).value) :
    (items.map codeBalance).sum =
      (((items.filter (!·.isEmpty)).map Argument.ofTokens).map fun a => textBalance a.value).sum := by
  induction items with
  | nil => rfl
  | cons item rest ih =>
    obtain ⟨hitem, hrest⟩ := List.forall_mem_cons.1 h
    rw [List.map_cons, List.sum_cons, ih hrest]
    by_cases hne : item = []
    · rw [hne]
      exact zero_add _
    · rw [List.filter_cons_of_pos (by simpa using hne), List.map_cons, List.map_cons, List.sum_cons,
        hitem hne]

/-- Items add what they add one by one, for commas add nothing. -/
theorem codeBalance_itemized {ts commas : List Token} {items : List (List Token)}
    (h : Token.Itemized ts commas items) (hsteady : ∀ item ∈ items, Steady item) :
    Steady ts ∧ codeBalance ts = (items.map codeBalance).sum := by
  induction h with
  | last h => exact ⟨hsteady _ List.mem_cons_self, by simp⟩
  | @cons item ts comma commas items _ hcomma _ ih =>
    obtain ⟨hitem, hrest⟩ := List.forall_mem_cons.1 hsteady
    obtain ⟨hts, hsum⟩ := ih hrest
    obtain ⟨hmark, hzero⟩ := steady_mark (t := comma) (by simp [hcomma])
    have hbehind : Steady (comma :: ts) := hmark.append hts
    refine ⟨hitem.append hbehind, ?_⟩
    have hall := hmark.codeBalance_append hts
    rw [hzero, zero_add] at hall
    rw [hitem.codeBalance_append hbehind, show codeBalance (comma :: ts) = codeBalance ts from hall,
      hsum, List.map_cons, List.sum_cons]

/-- A call without its block adds what the texts between its commas add. -/
theorem Parts.Cuts.codeBalance_call {p : Parts} {ts : List Token} (h : p.Cuts ts)
    (hk : p.keyword.text ∉ openers.map String.toList) (hsteady : ∀ item ∈ p.items, Steady item) :
    Steady p.call ∧ codeBalance p.call = (p.items.map codeBalance).sum := by
  obtain ⟨harguments, hsum⟩ := codeBalance_itemized h.items hsteady
  obtain ⟨hkeyword, hzero⟩ := steady_keyword h.keyword hk
  -- what stands behind the keyword
  have hbehind : ∀ us, Steady us → codeBalance us = (p.items.map codeBalance).sum →
      Steady (p.keyword :: us) ∧ codeBalance (p.keyword :: us) = (p.items.map codeBalance).sum := by
    intro us hus hbalance
    have hall := hkeyword.codeBalance_append hus
    rw [hzero, zero_add, hbalance] at hall
    exact ⟨hkeyword.append hus, hall⟩
  unfold call
  cases hparens : p.parens with
  | none => exact hbehind _ harguments hsum
  | some parens =>
    obtain ⟨opener, closer⟩ := parens
    obtain ⟨hopener, -, hcloser⟩ := h.brackets hparens
    obtain ⟨hinner, hbalance⟩ := harguments.delimited (.inl ⟨by rw [hopener]; rfl, hcloser⟩)
    exact hbehind _ hinner (hbalance.trans hsum)

/-- **The text of a call adds the weight of the call**, if the values and the `do` are steady. -/
theorem textBalance_of_parse {s : Text} {sig : Signature} (h : parse s = some sig)
    (hk : sig.keyword ∉ openers.map String.toList)
    (hsteady : ∀ t ∈ sig.values ++ sig.block.toList, Steady (tokenizeCode t)) :
    sig.Regular ∧ textBalance s = sig.weight := by
  obtain ⟨p, hp⟩ := exists_parts h
  have hvalue : ∀ a ∈ p.argumentList, a.value ∈ sig.values := by
    intro a ha
    rw [values, hp.positional, hp.keywords]
    cases a with
    | positional text => exact List.mem_append_left _ (List.mem_filterMap.2 ⟨_, ha, rfl⟩)
    | keyword a => exact List.mem_append_right _ (List.mem_map_of_mem (List.mem_filterMap.2 ⟨_, ha, rfl⟩))
  have hitem : ∀ item ∈ p.items, item ≠ [] →
      (Steady item ∧ codeBalance item = textBalance (Argument.ofTokens item).value) ∧
        ∀ a ∈ (Argument.ofTokens item).keyword?, a.Inert := by
    intro item hitem hne
    refine Argument.codeBalance_of_value (hp.cuts.isInfix_of_mem_items hitem) (hsteady _ ?_)
    refine List.mem_append_left _ (hvalue _ (List.mem_map_of_mem (List.mem_filter.2 ⟨hitem, ?_⟩)))
    simpa using hne
  have hitems : ∀ item ∈ p.items, Steady item := by
    intro item hmem
    by_cases hne : item = []
    · exact hne ▸ .nil
    · exact (hitem item hmem hne).1.1
  have hkeys : ∀ a ∈ sig.keywords, a.Inert := by
    intro a ha
    rw [hp.keywords] at ha
    obtain ⟨b, hb, hba⟩ := List.mem_filterMap.1 ha
    obtain ⟨item, hmem, rfl⟩ := List.mem_map.1 hb
    obtain ⟨hmem, hne⟩ := List.mem_filter.1 hmem
    exact (hitem item hmem (by simpa using hne)).2 a hba
  have hsum : (p.items.map codeBalance).sum = (sig.values.map textBalance).sum := by
    rw [values, hp.positional, hp.keywords, sum_values, Parts.argumentList]
    exact sum_items fun item hmem hne => (hitem item hmem hne).1.2
  obtain ⟨hcall, hbalance⟩ := hp.cuts.codeBalance_call (hp.keyword ▸ hk) hitems
  refine ⟨⟨hk, hkeys, hsteady⟩, ?_⟩
  have hblock : (Steady p.block ∧ codeBalance p.block = (sig.block.toList.map textBalance).sum) := by
    rw [hp.block] at hsteady ⊢
    split
    · rename_i hnil
      rw [hnil]
      exact ⟨.nil, rfl⟩
    · rename_i hne
      have hstretch : p.block <:+: tokenizeCode s :=
        hp.cuts.tokens ▸ (List.suffix_append p.call p.block).isInfix
      have hone := Steady.of_spelling hstretch (hsteady _ (List.mem_append_right _ (by simp [hne])))
      exact ⟨hone.1, by simpa using hone.2⟩
  rw [textBalance, hp.cuts.tokens, hcall.codeBalance_append hblock.1, hbalance, hsum, hblock.2, weight,
    List.map_append, List.sum_append]

end Signature

/-! ## Statements -/

/-- A closed text has the same code without the blank characters around it. -/
theorem Closed.exists_tokenizeCode_trim {s : Text} (h : Closed (Text.trim s)) :
    ∃ g, tokenizeCode s = Token.addGap g (tokenizeCode (Text.trim s)) := by
  obtain ⟨ws, hws, hs⟩ := Text.exists_trim_append s
  have hlead : ∀ c ∈ s.takeWhile Text.isBlankChar, Text.isBlankChar c = true :=
    fun _ => List.mem_takeWhile_imp
  have hstop : ∀ c ∈ ws.head?, Scan.Stops c := fun c hc =>
    Scan.stops_of_isBlankChar (hws c (List.mem_of_mem_head? hc))
  obtain ⟨g, htokens⟩ := exists_tokenizeCode_append (h.pieces_append hstop)
  rw [tokenizeCode_of_isBlank (List.all_eq_true.2 hws), Token.addGap_nil, List.append_nil] at htokens
  refine ⟨s.takeWhile Text.isBlankChar, ?_⟩
  rw [← htokens, ← tokenizeCode_blank_append hlead, ← List.append_assoc, ← hs]

namespace Statement

/-- The tokens behind the keyword of a statement add what its value adds. -/
theorem codeBalance_of_valueOf {s : Text} {us rest : List Token} (h : tokenizeCode s = us ++ rest)
    (hclosed : Closed (valueOf rest)) (hsteady : Steady (tokenizeCode (valueOf rest))) :
    Steady rest ∧ codeBalance rest = textBalance (valueOf rest) := by
  cases rest with
  | nil => exact ⟨.nil, rfl⟩
  | cons first rest =>
    rw [valueOf] at hclosed hsteady ⊢
    split at hclosed
    · rename_i hparens
      rw [if_pos hparens] at hsteady ⊢
      obtain ⟨hopener, -, hclose⟩ := hparens
      obtain ⟨before, closer, after, rfl, hlength, hcloser⟩ := Token.exists_of_closeIndex hclose
      obtain rfl : after = [] := by
        rw [List.length_append, List.length_cons] at hlength
        exact List.eq_nil_of_length_eq_zero (by omega)
      have hbetween := (pieces_between h).2
      rw [List.dropLast_concat, List.getLast?_concat, Option.map_some, Option.getD_some] at *
      obtain ⟨g, htrim⟩ := hclosed.exists_tokenizeCode_trim
      rw [hbetween] at htrim
      have hbefore := hsteady.addGap g
      have hbalance := codeBalance_addGap g (tokenizeCode (Text.trim
        (before.flatMap Token.full ++ closer.gap)))
      rw [← htrim] at hbefore hbalance
      obtain ⟨hinner, hsum⟩ := hbefore.delimited (.inl ⟨by rw [hopener]; rfl, hcloser⟩)
      exact ⟨hinner, hsum.trans hbalance⟩
    · rename_i hparens
      rw [if_neg hparens] at hsteady ⊢
      exact Steady.of_spelling (h ▸ (List.suffix_append us (first :: rest)).isInfix) hsteady

/-- **A statement adds what its value adds.** -/
theorem textBalance_of_parse {s : Text} {st : Statement} (h : parse s = some st)
    (hk : st.keyword ∉ openers.map String.toList) (hclosed : Closed st.value)
    (hsteady : Steady (tokenizeCode st.value)) : textBalance s = textBalance st.value := by
  have hcode : Token.dropComments [] (tokenize s) = tokenizeCode s := rfl
  unfold parse at h
  simp only [hcode] at h
  split at h
  · cases h
  rename_i keyword rest htokens
  split at h
  swap
  · cases h
  rename_i hkind
  obtain rfl := Option.some.inj h
  have hsplit : tokenizeCode s = [keyword] ++ rest := htokens
  obtain ⟨hrest, hbalance⟩ := codeBalance_of_valueOf hsplit hclosed hsteady
  obtain ⟨hkeyword, hzero⟩ := steady_keyword hkind hk
  have hall := hkeyword.codeBalance_append hrest
  rw [hzero, zero_add, hbalance] at hall
  rw [textBalance, htokens]
  exact hall

end Statement

end SchemaLift
