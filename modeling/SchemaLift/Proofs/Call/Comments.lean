import SchemaLift.Call.ListCall
import SchemaLift.Call.Statement
import SchemaLift.Proofs.Call.Signature
import SchemaLift.Proofs.Token.Joins
import SchemaLift.Proofs.Token.Kind

/-!
# The comments of a call

A header is rendered with all comments of its statement behind it. Besides these it has the comments
that stand inside its arguments, for an argument is rendered as it was written
(`Signature.Joinable.notes_render`). A statement keeps the comments behind its last code; those in front
of it are part of the value (`noted_of_statement`).
-/

namespace SchemaLift

/-! ## Keyword arguments -/

namespace KeywordArgument

/-- The key with its colon. -/
def label (a : KeywordArgument) : Text :=
  match a.style with
  | .label => a.key ++ [':']
  | .rocket => ':' :: a.key

/-- The key and the value are closed. -/
structure Joinable (a : KeywordArgument) : Prop where
  label : Closed a.label
  value : Closed a.value

/-- What stands between the key and the value. -/
def marks (a : KeywordArgument) : List Text :=
  match a.style with
  | .label => [[' ']]
  | .rocket => [" =>".toList, [' ']]

theorem Joinable.joins_render {a : KeywordArgument} (h : a.Joinable) :
    Joins a.render (a.label :: (a.marks ++ [a.value])) := by
  have hstop : ∀ c ∈ " =>".toList.head?, Scan.Stops c := Scan.stops_cons (by decide) _
  obtain ⟨hlabel, hvalue⟩ := h
  unfold KeywordArgument.label at hlabel
  unfold render KeywordArgument.label marks
  split at hlabel
  · rename_i hstyle
    simpa [hstyle] using hlabel.joins.space hvalue.joins
  · rename_i hstyle
    have hrocket : Closed " =>".toList := Plain.carries (by decide) |>.closed
    simpa [hstyle] using (hlabel.joins.append hrocket.joins hstop).space hvalue.joins

theorem Joinable.closed_render {a : KeywordArgument} (h : a.Joinable) : Closed a.render :=
  h.joins_render.carries.closed

theorem Joinable.rename {a : KeywordArgument} (h : a.Joinable) {key : Text} (hkey : Plain key) :
    { a with key }.Joinable := by
  have hcolon : Plain [':'] := by decide
  refine ⟨?_, h.value⟩
  unfold KeywordArgument.label
  split
  · exact (hkey.append hcolon).carries.closed
  · exact (hcolon.append hkey).carries.closed

theorem joinable_labelled {key value : Text} (hkey : Plain key) (hvalue : Closed value) :
    (labelled key value).Joinable :=
  ⟨(hkey.append (t := [':']) (by decide)).carries.closed, hvalue⟩

end KeywordArgument

/-! ## Headers -/

namespace Signature

/-- The texts that a header holds between its keyword and its comments. -/
def texts (s : Signature) : List Text := s.arguments ++ s.block.toList

/-- Every text that a header holds is closed. -/
structure Joinable (s : Signature) : Prop where
  headed : s.Headed
  name : ∀ t ∈ s.name, Closed t
  positional : ∀ t ∈ s.positional, Closed t
  keywords : ∀ a ∈ s.keywords, a.Joinable
  block : ∀ t ∈ s.block, Closed t

/-- The parts of a list with commas. -/
def commaParts : List Text → List Text
  | [] => []
  | [a] => [a]
  | a :: rest => a :: [','] :: [' '] :: commaParts rest

theorem joins_commaSeparated {texts : List Text} (h : ∀ t ∈ texts, Closed t) :
    Joins (commaSeparated texts) (commaParts texts) := by
  induction texts with
  | nil => exact .nil
  | cons first rest ih =>
    obtain ⟨hfirst, hrest⟩ := List.forall_mem_cons.1 h
    cases rest with
    | nil => exact hfirst.joins
    | cons second rest =>
      have hcomma : ∀ rest, Scan.head ',' rest = (some .comma, 0) := fun _ => rfl
      have hspace : ∀ rest, Scan.head ' ' rest = (none, 0) := Scan.head_of_isBlankChar (by decide)
      have hbehind := ((ih hrest).char hspace (by decide)).char hcomma (by decide)
      simpa [commaSeparated, commaParts] using hfirst.joins.append hbehind (Scan.stops_cons (by decide) _)

theorem mem_commaParts {texts : List Text} {p : Text} (h : p ∈ commaParts texts) :
    p ∈ texts ∨ p = [','] ∨ p = [' '] := by
  induction texts with
  | nil => cases h
  | cons first rest ih =>
    cases rest with
    | nil => exact .inl h
    | cons second rest =>
      simp only [commaParts, List.mem_cons] at h ih ⊢
      rcases h with rfl | rfl | rfl | h
      · exact .inl (.inl rfl)
      · exact .inr (.inl rfl)
      · exact .inr (.inr rfl)
      · exact (ih h).imp_left .inr

/-- Commas and the spaces behind them count nothing, so the texts count alone. -/
theorem sum_commaParts {M : Type} [AddCommMonoid M] {f : Text → M} (hcomma : f [','] = 0)
    (hspace : f [' '] = 0) (texts : List Text) :
    ((commaParts texts).map f).sum = (texts.map f).sum := by
  induction texts with
  | nil => rfl
  | cons first rest ih =>
    cases rest with
    | nil => rfl
    | cons second rest =>
      rw [commaParts]
      · simp only [List.map_cons, List.sum_cons, hcomma, hspace, zero_add] at ih ⊢
        rw [ih]
      · exact List.cons_ne_nil _ _

theorem carries_commaSeparated {texts : List Text} (h : ∀ t ∈ texts, Closed t) :
    Carries (commaSeparated texts) (texts.map noted).sum := by
  have hall := (joins_commaSeparated h).carries
  rwa [sum_commaParts (by decide) (by decide)] at hall

/-- The parts of a rendered call in front of its comments. -/
def callParts (s : Signature) : List Text :=
  (s.indent ++ s.keyword) ::
    ((if s.parenthesized then ['('] :: (commaParts s.arguments ++ [[')']])
      else if (commaSeparated s.arguments).isEmpty then commaParts s.arguments
      else [' '] :: commaParts s.arguments) ++ s.block.elim [] fun opener => [[' '], opener])

theorem mem_callParts {s : Signature} {p : Text} (h : p ∈ s.callParts) :
    p = s.indent ++ s.keyword ∨ p ∈ s.texts ∨ p ∈ [['('], [')'], [','], [' ']] := by
  have hcommas : p ∈ commaParts s.arguments → p ∈ s.texts ∨ p ∈ [['('], [')'], [','], [' ']] := by
    intro hp
    rcases mem_commaParts hp with hp | rfl | rfl
    · exact .inl (List.mem_append_left _ hp)
    · exact .inr (by decide)
    · exact .inr (by decide)
  rcases List.mem_cons.1 h with rfl | h
  · exact .inl rfl
  refine .inr ?_
  rcases List.mem_append.1 h with h | h
  · split at h
    · rcases List.mem_cons.1 h with rfl | h
      · exact .inr (by decide)
      rcases List.mem_append.1 h with h | h
      · exact hcommas h
      · obtain rfl := List.mem_singleton.1 h
        exact .inr (by decide)
    split at h
    · exact hcommas h
    · rcases List.mem_cons.1 h with rfl | h
      · exact .inr (by decide)
      · exact hcommas h
  · cases hblock : s.block with
    | none =>
      rw [hblock] at h
      cases h
    | some opener =>
      rw [hblock] at h
      rcases List.mem_cons.1 h with rfl | h
      · exact .inr (by decide)
      · obtain rfl := List.mem_singleton.1 h
        exact .inl (List.mem_append_right _ (by rw [hblock]; exact List.mem_singleton_self _))

/-- Brackets, commas and spaces count nothing together, so the texts of a call count besides its
keyword. -/
theorem sum_callParts {M : Type} [AddCommMonoid M] {f : Text → M} (hcomma : f [','] = 0)
    (hspace : f [' '] = 0) (hbrackets : f ['('] + f [')'] = 0) (s : Signature) :
    (s.callParts.map f).sum = f (s.indent ++ s.keyword) + (s.texts.map f).sum := by
  have harguments := sum_commaParts hcomma hspace s.arguments
  have hblock : ((s.block.elim [] fun opener => [[' '], opener]).map f).sum =
      (s.block.toList.map f).sum := by
    cases s.block <;> simp [hspace]
  rw [callParts, List.map_cons, List.sum_cons, List.map_append, List.sum_append, hblock, texts,
    List.map_append, List.sum_append, ← harguments]
  congr 2
  split
  · rw [List.map_cons, List.sum_cons, List.map_append, List.sum_append, add_left_comm,
      List.map_singleton, List.sum_singleton, hbrackets, add_zero]
  split
  · rfl
  · rw [List.map_cons, List.sum_cons, hspace, zero_add]

theorem Headed.plain {s : Signature} (h : s.Headed) : Plain (s.indent ++ s.keyword) := by
  refine .append (fun c hc => ?_) (plain_of_identifier h.keyword)
  rcases h.indent c hc with rfl | rfl <;> decide

namespace Joinable

variable {s : Signature} (h : s.Joinable)
include h

theorem closed_arguments : ∀ t ∈ s.arguments, Closed t := by
  intro t ht
  simp only [arguments, List.mem_append, List.mem_map, Option.mem_toList] at ht
  rcases ht with (ht | ht) | ⟨a, ha, rfl⟩
  · exact h.name t ht
  · exact h.positional t ht
  · exact (h.keywords a ha).closed_render

/-- The header in front of its comments. -/
theorem exists_call : ∃ call, s.render = call ++ s.comments.flatMap (' ' :: ·) ∧
    Joins call s.callParts := by
  have hhead : Joins (s.indent ++ s.keyword) [s.indent ++ s.keyword] :=
    h.headed.plain.carries.closed.joins
  have harguments := joins_commaSeparated h.closed_arguments
  have hcall : Joins (s.indent ++ s.keyword ++
      (if s.parenthesized then '(' :: commaSeparated s.arguments ++ [')']
        else if (commaSeparated s.arguments).isEmpty then [] else ' ' :: commaSeparated s.arguments))
      ((s.indent ++ s.keyword) ::
        (if s.parenthesized then ['('] :: (commaParts s.arguments ++ [[')']])
          else if (commaSeparated s.arguments).isEmpty then commaParts s.arguments
          else [' '] :: commaParts s.arguments)) := by
    split
    · have hopen : ∀ rest, Scan.head '(' rest = (some .lparen, 0) := fun _ => rfl
      have hclose : Closed [')'] := Plain.carries (by decide) |>.closed
      have hbehind := harguments.append hclose.joins (Scan.stops_cons (by decide) _)
      exact hhead.append (hbehind.char hopen (by decide)) (Scan.stops_cons (by decide) _)
    split
    · rename_i hnil
      rw [List.isEmpty_iff.1 hnil] at harguments
      exact hhead.append harguments (by rintro c ⟨⟩)
    · exact hhead.space harguments
  unfold callParts render
  cases hblock : s.block with
  | none => exact ⟨_, rfl, by simpa using hcall⟩
  | some opener => exact ⟨_, rfl, by simpa using hcall.space (h.block opener hblock).joins⟩

/-- **The comments of a header** are those that stand in its arguments and those that are put behind. -/
theorem notes_render (hcomments : ∀ c ∈ s.comments, IsComment c) :
    notes s.render = (s.texts.map noted).sum + remarksOf s.comments := by
  obtain ⟨call, hrender, hcall⟩ := h.exists_call
  obtain ⟨htidy, hnoted⟩ := hcall.carries.commented hcomments
  rw [hrender, htidy.notes_eq, hnoted, sum_callParts (by decide) (by decide) (by decide),
    h.headed.plain.carries.noted_eq, zero_add]

theorem withComments (comments : List Text) : { s with comments }.Joinable :=
  ⟨⟨h.headed.indent, h.headed.keyword⟩, h.name, h.positional, h.keywords, h.block⟩

theorem withoutBlock : { s with block := none }.Joinable :=
  ⟨⟨h.headed.indent, h.headed.keyword⟩, h.name, h.positional, h.keywords, by rintro t ⟨⟩⟩

theorem removeKeyword (key : Text) : (s.removeKeyword key).Joinable :=
  ⟨⟨h.headed.indent, h.headed.keyword⟩, h.name, h.positional,
    fun a ha => h.keywords a (List.mem_of_mem_eraseP ha), h.block⟩

theorem pushKeyword {key value : Text} (hkey : Plain key) (hvalue : Closed value) :
    (s.pushKeyword key value).Joinable := by
  refine ⟨⟨h.headed.indent, h.headed.keyword⟩, h.name, h.positional, fun a ha => ?_, h.block⟩
  rcases List.mem_append.1 ha with ha | ha
  · exact h.keywords a ha
  · obtain rfl := List.mem_singleton.1 ha
    exact KeywordArgument.joinable_labelled hkey hvalue

theorem renameKeyword (old : Text) {new : Text} (hnew : Plain new) :
    (s.renameKeyword old new).Joinable := by
  have hrename : ∀ as : List KeywordArgument, (∀ a ∈ as, a.Joinable) →
      ∀ a ∈ renameFirst old new as, a.Joinable := by
    intro as has
    induction as with
    | nil => exact has
    | cons a rest ih =>
      obtain ⟨ha, hrest⟩ := List.forall_mem_cons.1 has
      rw [renameFirst]
      split
      · exact List.forall_mem_cons.2 ⟨ha.rename hnew, hrest⟩
      · exact List.forall_mem_cons.2 ⟨ha, ih hrest⟩
  exact ⟨⟨h.headed.indent, h.headed.keyword⟩, h.name, h.positional, hrename _ h.keywords, h.block⟩

end Joinable

/-! ## Parsed headers -/

section

variable {s : Text} (hs : Tidy s) {item : List Token} (hitem : item <:+: tokenizeCode s)
include hs hitem

theorem closed_positional : ∀ t ∈ (Argument.ofTokens item).positional?, Closed t := by
  have hspelling := closed_spelling hs hitem
  intro t ht
  unfold Argument.ofTokens at ht
  split at ht
  · split_ifs at ht
    · cases ht
    · cases ht
    · obtain rfl := Option.some.inj ht
      exact hspelling
  · obtain rfl := Option.some.inj ht
    exact hspelling

theorem joinable_keyword : ∀ a ∈ (Argument.ofTokens item).keyword?, a.Joinable := by
  intro a ha
  unfold Argument.ofTokens at ha
  split at ha
  swap
  · cases ha
  rename_i key value rest
  have hkey : Closed key.text := by
    have hone := closed_spelling hs ((List.prefix_append [key] (value :: rest)).isInfix.trans hitem)
    simpa [Token.spelling] using hone
  have hwrites : key.kind.Writes key.text := by
    obtain ⟨t, ht, hkind, htext⟩ :=
      Token.exists_mem_of_mem_dropComments (hitem.subset List.mem_cons_self)
    rw [← hkind, ← htext]
    exact writes_of_mem_tokenize ht
  split_ifs at ha with hlabel hrocket
  · rw [hlabel] at hwrites
    obtain ⟨name, hname⟩ := hwrites
    obtain rfl := Option.some.inj ha
    refine ⟨?_, closed_spelling hs ((List.suffix_cons key (value :: rest)).isInfix.trans hitem)⟩
    simpa [KeywordArgument.label, hname] using hkey
  · rw [hrocket.1] at hwrites
    obtain ⟨name, hname⟩ := hwrites
    obtain rfl := Option.some.inj ha
    refine ⟨?_, closed_spelling hs ((List.suffix_append [key, value] rest).isInfix.trans hitem)⟩
    simpa [KeywordArgument.label, hname] using hkey
  · cases ha

end

theorem comments_of_parse {s : Text} {sig : Signature} (h : parse s = some sig) :
    sig.comments = Text.comments s := by
  obtain ⟨p, hp⟩ := exists_parts h
  exact hp.comments

/-- What is read from a tidy text can be put together again. -/
theorem joinable_of_parse {s : Text} (hs : Tidy s) {sig : Signature} (h : parse s = some sig) :
    sig.Joinable := by
  obtain ⟨p, hp⟩ := exists_parts h
  have hlist : ∀ a ∈ p.argumentList, ∃ item, item <:+: tokenizeCode s ∧ Argument.ofTokens item = a := by
    intro a ha
    obtain ⟨item, hmem, rfl⟩ := List.mem_map.1 ha
    exact ⟨item, hp.cuts.isInfix_of_mem_items (List.mem_of_mem_filter hmem), rfl⟩
  have hpositional : ∀ t ∈ sig.name.toList ++ sig.positional, Closed t := by
    intro t ht
    rw [hp.positional] at ht
    obtain ⟨a, ha, hat⟩ := List.mem_filterMap.1 ht
    obtain ⟨item, hstretch, rfl⟩ := hlist a ha
    exact closed_positional hs hstretch t hat
  refine ⟨parse_headed h, fun t ht => hpositional t ?_, fun t ht => hpositional t ?_, ?_, ?_⟩
  · exact List.mem_append_left _ (Option.mem_toList.2 ht)
  · exact List.mem_append_right _ ht
  · intro a ha
    rw [hp.keywords] at ha
    obtain ⟨b, hb, hba⟩ := List.mem_filterMap.1 ha
    obtain ⟨item, hstretch, rfl⟩ := hlist b hb
    exact joinable_keyword hs hstretch a hba
  · intro t ht
    have hblock : Closed (Token.spelling p.block) :=
      closed_spelling hs (hp.cuts.tokens ▸ (List.suffix_append p.call p.block).isInfix)
    rw [hp.block] at ht
    split at ht
    · cases ht
    · exact Option.some.inj ht ▸ hblock

end Signature

/-! ## Statements -/

/-- The comments of a text that stand in front of its last code. -/
def innerComments (s : Text) : List Text :=
  (((tokenize s).reverse.dropWhile (·.is .comment)).reverse.filter (·.is .comment)).map Token.text

theorem Text.comments_eq_append (s : Text) :
    comments s = innerComments s ++ Statement.trailingComments (tokenize s) := by
  have hsplit : tokenize s = ((tokenize s).reverse.dropWhile (·.is .comment)).reverse ++
      ((tokenize s).reverse.takeWhile (·.is .comment)).reverse := by
    rw [← List.reverse_append, List.takeWhile_append_dropWhile, List.reverse_reverse]
  have hall : ((tokenize s).reverse.takeWhile (·.is .comment)).reverse.filter (·.is .comment) =
      ((tokenize s).reverse.takeWhile (·.is .comment)).reverse := by
    rw [List.filter_eq_self]
    intro t ht
    exact List.mem_takeWhile_imp (p := (Token.is · .comment)) (List.mem_reverse.1 ht)
  unfold comments innerComments Statement.trailingComments
  conv_lhs => rw [hsplit, List.filter_append, hall, List.map_append]

namespace Statement

theorem comments_of_parse {s : Text} {st : Statement} (h : parse s = some st) :
    Text.comments s = innerComments s ++ st.comments := by
  unfold parse at h
  simp only at h
  split at h
  · cases h
  split at h
  · obtain rfl := Option.some.inj h
    exact Text.comments_eq_append s
  · cases h

theorem isComment_of_parse {s : Text} {st : Statement} (h : parse s = some st) :
    ∀ c ∈ st.comments, IsComment c := fun _ hc =>
  isComment_of_mem_comments ((comments_of_parse h).symm ▸ List.mem_append_right _ hc)

/-- The remarks on a statement are those in front of its last code and those that it keeps. -/
theorem noted_of_parse {s : Text} {st : Statement} (h : parse s = some st) :
    noted s = remarksOf (innerComments s) + remarksOf st.comments := by
  rw [noted, comments_of_parse h, remarksOf_append]

end Statement

/-! ## Lists -/

namespace ListCall

theorem argument?_isInfix {ts argument : List Token} (h : argument? ts = some argument) :
    argument <:+: ts := by
  unfold argument? at h
  split at h
  · cases h
  rename_i t ts
  split at h
  · split at h
    · obtain rfl := Option.some.inj h
      exact (List.dropLast_prefix ts).isInfix.trans (List.suffix_cons t ts).isInfix
    · cases h
  · obtain rfl := Option.some.inj h
    exact List.infix_rfl

theorem arrayItems?_isInfix {ts inner : List Token} (h : arrayItems? ts = some inner) :
    inner <:+: ts := by
  unfold arrayItems? at h
  split at h
  · cases h
  rename_i opener rest
  split at h
  · obtain rfl := Option.some.inj h
    exact (List.dropLast_prefix rest).isInfix.trans (List.suffix_cons opener rest).isInfix
  · cases h

/-- A list call has all comments of its text, and its items are stretches of code. -/
theorem of_parse? {keyword : String} {s : Text} {call : ListCall} (h : parse? keyword s = some call) :
    call.comments = Text.comments s ∧
      ∀ item ∈ call.items, ∃ ts, ts <:+: tokenizeCode s ∧ Token.spelling ts = item := by
  have hcode : Token.dropComments [] (tokenize s) = tokenizeCode s := rfl
  unfold parse? at h
  simp only [hcode] at h
  split at h
  · cases h
  rename_i first rest htokens
  split at h
  · cases h
  obtain ⟨argument, hargument, h⟩ := Option.bind_eq_some_iff.1 h
  obtain ⟨inner, hinner, h⟩ := Option.bind_eq_some_iff.1 h
  obtain ⟨items, hitems, h⟩ := Option.bind_eq_some_iff.1 h
  obtain rfl := Option.some.inj h
  obtain ⟨found, hfound, rfl⟩ := Option.map_eq_some_iff.1 hitems
  obtain ⟨commas, hitemized⟩ := Token.segments_eq_some_iff.1 hfound
  refine ⟨rfl, fun item hitem => ?_⟩
  obtain ⟨ts, hts, rfl⟩ := List.mem_map.1 hitem
  refine ⟨ts, ?_, rfl⟩
  rw [htokens]
  exact (hitemized.isInfix ts (List.mem_of_mem_filter hts)).trans
    ((arrayItems?_isInfix hinner).trans ((argument?_isInfix hargument).trans
      (List.suffix_cons first rest).isInfix))

end ListCall

end SchemaLift
