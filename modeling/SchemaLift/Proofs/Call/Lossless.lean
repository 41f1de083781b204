import Mathlib.Algebra.BigOperators.Group.List.Basic
import Mathlib.Algebra.Order.Group.Multiset
import Mathlib.Tactic.Abel
import SchemaLift.Proofs.Call.RoundTrip

/-!
# The characters of a rendered call

White space and commas apart, the characters of a call are in its tokens and in the gaps between them.
A rendered call has all tokens and the gaps inside the stretches that are copied, and none of the gaps
at their edges (`Parts.Cuts.characters_render`). So a call is rendered without loss just if nothing else
than line continuations stands at the edges, and nowhere else one of them (`render_lossless_iff`).
-/

namespace SchemaLift

namespace Text

/-! ## Characters of a text -/

/-- The characters of a text with their numbers, white space and commas apart. -/
def characters (s : Text) : Multiset Char := (s.filter fun c => !isBlankChar c && c != ',' : List Char)

@[simp] theorem characters_nil : characters [] = 0 := rfl

@[simp] theorem characters_append (s t : Text) :
    characters (s ++ t) = characters s + characters t := by
  rw [characters, List.filter_append, ← Multiset.coe_add, characters, characters]

theorem characters_cons (c : Char) (s : Text) : characters (c :: s) = characters [c] + characters s :=
  characters_append [c] s

@[simp] theorem characters_space : characters [' '] = 0 := by decide

@[simp] theorem characters_comma : characters [','] = 0 := by decide

theorem characters_blank {s : Text} (h : ∀ c ∈ s, isBlankChar c = true) : characters s = 0 := by
  have hfilter : (s.filter fun c => !isBlankChar c && c != ',') = [] := by
    rw [List.filter_eq_nil_iff]
    intro c hc
    simp [h c hc]
  rw [characters, hfilter, Multiset.coe_nil]

theorem characters_perm {s t : Text} (h : s.Perm t) : characters s = characters t :=
  Multiset.coe_eq_coe.2 (h.filter _)

theorem characters_flatMap {α : Type} (f : α → Text) (as : List α) :
    characters (as.flatMap f) = (as.map fun a => characters (f a)).sum := by
  induction as with
  | nil => rfl
  | cons a as ih => simp [ih]

theorem characters_joinWith (texts : List Text) :
    characters (joinWith ' ' texts) = (texts.map characters).sum := by
  induction texts with
  | nil => rfl
  | cons t texts ih =>
    cases texts with
    | nil => simp [joinWith]
    | cons u texts =>
      have hjoin : joinWith ' ' (t :: u :: texts) = t ++ ([' '] ++ joinWith ' ' (u :: texts)) := rfl
      rw [hjoin, characters_append, characters_append, characters_space, zero_add, ih]
      simp only [List.map_cons, List.sum_cons]

/-! ## Line continuations -/

/-- A line ends here. -/
def StartsWithBreak (s : Text) : Prop := ['\n'] <+: s ∨ ['\r', '\n'] <+: s

instance (s : Text) : Decidable (StartsWithBreak s) :=
  inferInstanceAs (Decidable (['\n'] <+: s ∨ ['\r', '\n'] <+: s))

/-- The text without the backslashes in front of line breaks. -/
def dropContinuations : Text → Text
  | [] => []
  | c :: cs =>
    if c = '\\' ∧ StartsWithBreak cs then dropContinuations cs else c :: dropContinuations cs

/-- The number of backslashes in front of line breaks. -/
def continuations : Text → Nat
  | [] => 0
  | c :: cs => if c = '\\' ∧ StartsWithBreak cs then continuations cs + 1 else continuations cs

theorem characters_dropContinuations (s : Text) :
    characters s = Multiset.replicate (continuations s) '\\' + characters (dropContinuations s) := by
  induction s with
  | nil => rfl
  | cons c cs ih =>
    rw [characters_cons, ih, continuations, dropContinuations]
    split
    · rename_i hbreak
      have hone : characters [c] = {'\\'} := by rw [hbreak.1]; decide
      rw [hone, Multiset.replicate_succ, ← Multiset.singleton_add, add_assoc]
    · rw [characters_cons c (dropContinuations cs)]
      abel

end Text

open Text (characters)

/-! ## Tokens and stretches -/

namespace Token

/-- The text before the first token. -/
def leading : List Token → Text
  | [] => []
  | t :: _ => t.gap

theorem characters_full (ts : List Token) :
    characters (ts.flatMap full) = characters (leading ts) + characters (spelling ts) := by
  cases ts with
  | nil => rfl
  | cons t ts => simp [leading, spelling, full]

end Token

namespace Argument

/-- The gaps of an argument that are not rendered: those in front of its stretches. -/
def edges (item : List Token) : Text := (stretches item).flatMap Token.leading

theorem characters_item {item : List Token} (h : ∀ t ∈ item, t.kind.Writes t.text) :
    characters (item.flatMap Token.full) =
      characters (edges item) + characters (ofTokens item).text := by
  have hparts : ∀ parts : List (List Token), characters (parts.flatten.flatMap Token.full) =
      characters (parts.flatMap Token.leading) + ((parts.map Token.spelling).map characters).sum := by
    intro parts
    induction parts with
    | nil => rfl
    | cons ts rest ih =>
      rw [List.flatten_cons, List.flatMap_append, Text.characters_append, ih, Token.characters_full,
        List.flatMap_cons, Text.characters_append, List.map_cons, List.map_cons, List.sum_cons]
      abel
  have hitem := hparts (stretches item)
  rwa [flatten_stretches, ← Text.characters_joinWith, ← text_ofTokens h] at hitem

end Argument

namespace Signature

theorem characters_commaSeparated (texts : List Text) :
    characters (commaSeparated texts) = (texts.map characters).sum := by
  cases texts with
  | nil => rfl
  | cons t texts =>
    have hcomma : characters (", ".toList) = 0 := by decide
    rw [commaSeparated_cons, Text.characters_append, Text.characters_flatMap, List.map_cons,
      List.sum_cons]
    simp only [Text.characters_append, hcomma, zero_add]

namespace Parts

/-- The order of the arguments does not matter. -/
theorem characters_texts (p : Parts) : (p.texts.map characters).sum =
    (p.items.map fun item => characters (Argument.ofTokens item).text).sum := by
  have horder : ∀ arguments : List Argument,
      ((arguments.filterMap Argument.positional? ++
          (arguments.filterMap Argument.keyword?).map KeywordArgument.render).map characters).sum =
        (arguments.map fun a => characters a.text).sum := by
    intro arguments
    induction arguments with
    | nil => rfl
    | cons a rest ih =>
      rw [List.map_cons, List.sum_cons, ← ih]
      cases a with
      | positional text =>
        simp [List.filterMap_cons, Argument.positional?, Argument.keyword?, Argument.text]
      | keyword a =>
        simp [List.filterMap_cons, Argument.positional?, Argument.keyword?, Argument.text]
        abel
  rw [texts, horder, argumentList, List.map_map]
  induction p.items with
  | nil => rfl
  | cons item items ih =>
    cases item with
    | nil =>
      have hempty : characters (Argument.ofTokens []).text = 0 := rfl
      rw [List.filter_cons_of_neg (by simp), ih, List.map_cons, List.sum_cons, hempty, zero_add]
    | cons t ts =>
      rw [List.filter_cons_of_pos (by simp), List.map_cons, List.sum_cons, ih, List.map_cons,
        List.sum_cons]
      rfl

theorem characters_argumentText (p : Parts) : characters p.argumentText =
    p.parens.elim 0 (fun _ => characters ['(']) + (p.texts.map characters).sum +
      p.parens.elim 0 fun _ => characters [')'] := by
  rw [← characters_commaSeparated, argumentText]
  cases p.parens with
  | some parens =>
    simp only [Option.isSome_some, ↓reduceIte, Option.elim_some]
    rw [Text.characters_cons, Text.characters_append, add_assoc]
  | none =>
    simp only [Option.isSome_none, Bool.false_eq_true, ↓reduceIte, Option.elim_none, zero_add, add_zero]
    split
    · rename_i hempty
      rw [List.isEmpty_iff.1 hempty]
    · rw [Text.characters_cons, Text.characters_space, zero_add]

theorem characters_blockText (p : Parts) :
    characters p.blockText = characters (Token.spelling p.block) := by
  rw [blockText]
  split
  · rename_i hnil
    rw [hnil]
    rfl
  · rw [Text.characters_cons, Text.characters_space, zero_add]

/-! ## The whole call -/

/-- The gaps of a call that are not rendered: in front of the keyword, of the stretches of its
arguments, of the commas, of the bracket that closes the arguments, and of the block. -/
def edges (p : Parts) : Text :=
  p.keyword.gap ++ (p.items.flatMap Argument.edges ++ (p.commas.flatMap Token.gap ++
    (p.parens.elim [] (·.2.gap) ++ Token.leading p.block)))

/-- The bracket that closes the arguments in the source. -/
def closing (p : Parts) : Text := p.parens.elim [] (·.2.text)

/-- The bracket that closes the arguments in the rendered call. -/
def closed (p : Parts) : Text := p.parens.elim [] fun _ => [')']

variable {s : Text} {p : Parts} (hp : p.Cuts (tokenize s))
include hp

theorem Cuts.characters_arguments (hwrites : ∀ t ∈ p.arguments, t.kind.Writes t.text) :
    characters (p.arguments.flatMap Token.full) =
      characters (p.items.flatMap Argument.edges) + (p.texts.map characters).sum +
        characters (p.commas.flatMap Token.gap) := by
  have hitems : (p.items.map fun item => characters (item.flatMap Token.full)) =
      p.items.map fun item =>
        characters (Argument.edges item) + characters (Argument.ofTokens item).text :=
    List.map_congr_left fun item hitem =>
      Argument.characters_item fun t ht => hwrites t ((hp.items.isInfix item hitem).subset ht)
  have hcommas : (p.commas.map fun comma => characters comma.full) =
      p.commas.map fun comma => characters comma.gap := by
    apply List.map_congr_left
    intro comma hcomma
    obtain ⟨hmem, hkind⟩ := hp.items.mem_of_mem_commas comma hcomma
    have htext := hwrites comma hmem
    rw [hkind] at htext
    rw [Token.full, show comma.text = [','] from htext, Text.characters_append,
      Text.characters_comma, add_zero]
  rw [Text.characters_perm (hp.items.perm Token.full), Text.characters_append,
    Text.characters_flatMap, Text.characters_flatMap, hitems, hcommas, List.sum_map_add,
    Text.characters_flatMap, Text.characters_flatMap, characters_texts]

theorem Cuts.characters_call (hwrites : ∀ t ∈ p.call, t.kind.Writes t.text) :
    characters (p.call.flatMap Token.full) = characters p.keyword.gap +
      characters p.keyword.text + p.parens.elim 0 (fun _ => characters ['(']) +
        characters (p.arguments.flatMap Token.full) + characters (p.parens.elim [] (·.2.gap)) +
          characters p.closing := by
  cases hparens : p.parens with
  | none => simp [call, hparens, closing, Token.full, add_assoc]
  | some parens =>
    obtain ⟨opener, closer⟩ := parens
    obtain ⟨hkind, hgap, -⟩ := hp.brackets hparens
    have htext := hwrites opener (by simp [call, hparens])
    rw [hkind] at htext
    have htext : opener.text = ['('] := htext
    have hfull : p.call.flatMap Token.full = p.keyword.full ++ (['('] ++
        (p.arguments.flatMap Token.full ++ closer.full)) := by
      simp [call, hparens, Token.full, hgap, htext]
    rw [hfull]
    simp only [Token.full, Text.characters_append, closing, hparens, Option.elim_some, add_assoc]

/-- What is in the source and what is rendered: the edges are lost, and the bracket that closes the
arguments is always a round one. -/
theorem Cuts.characters_render {indent : Text} (hindent : Text.IsIndent indent) :
    characters s + characters p.closed = characters (p.signature indent).render +
      characters (p.edges ++ (TokenStream.ofText s).tail) + characters p.closing := by
  have hcall : ∀ t ∈ p.call, t.kind.Writes t.text := fun t ht =>
    writes_of_mem_tokenize (hp.tokens ▸ List.mem_append_left _ ht)
  have hs : characters s = characters (p.call.flatMap Token.full) +
      characters (p.block.flatMap Token.full) + characters (TokenStream.ofText s).tail := by
    rw [← Text.characters_append, ← List.flatMap_append, ← hp.tokens, ← Text.characters_append]
    exact congrArg characters (TokenStream.toText_ofText s).symm
  have hclosed : characters p.closed = p.parens.elim 0 fun _ => characters [')'] := by
    rw [closed]
    cases p.parens <;> rfl
  rw [hs, hp.characters_call hcall,
    hp.characters_arguments fun t ht => hcall t (p.arguments_isInfix.subset ht),
    Token.characters_full, render_signature, hclosed]
  simp only [edges, Text.characters_append, characters_argumentText, characters_blockText,
    Text.characters_blank hindent.isBlankChar]
  abel

/-- Another closing bracket than the round one is not in the rendered call. -/
theorem Cuts.closing_eq_of_characters {n : Nat} {lost : Multiset Char}
    (h : Multiset.replicate n '\\' + characters p.closed = lost + characters p.closing) :
    p.closing = p.closed := by
  cases hparens : p.parens with
  | none => rw [closing, closed, hparens]; rfl
  | some parens =>
    obtain ⟨opener, closer⟩ := parens
    have hmem : closer ∈ tokenize s := by
      rw [hp.tokens]
      simp [call, hparens]
    have hother : ∀ c, c ≠ '\\' → c ≠ ')' → characters [c] = {c} → closer.text ≠ [c] := by
      intro c hslash hround hc htext
      have hin : c ∈ Multiset.replicate n '\\' + characters p.closed := by
        rw [h, closing, hparens, Option.elim_some, htext, hc]
        exact Multiset.mem_add.2 (.inr (Multiset.mem_singleton_self c))
      rcases Multiset.mem_add.1 hin with hin | hin
      · exact hslash (Multiset.eq_of_mem_replicate hin)
      · rw [closed, hparens] at hin
        exact hround (Multiset.mem_singleton.1 hin)
    rw [closing, closed, hparens, Option.elim_some, Option.elim_some]
    rcases (writes_of_mem_tokenize hmem).of_closesBracket (hp.brackets hparens).2.2 with
      htext | htext | htext
    · exact htext
    · exact absurd htext (hother ']' (by decide) (by decide) (by decide))
    · exact absurd htext (hother '\x7d' (by decide) (by decide) (by decide))

end Parts

/-- A call without comments is rendered without loss, white space, commas and line continuations apart,
just if its arguments close with a round bracket, if with any, and at the edges of what is copied stand
all line continuations and nothing else. -/
theorem render_lossless_iff {s : Text} {sig : Signature} (h : parse s = some sig)
    (hcode : ∀ t ∈ tokenize s, t.kind ≠ .comment) :
    (∃ p : Parts, p.Cuts (tokenize s)) ∧ ∀ p : Parts, p.Cuts (tokenize s) →
      characters s + characters p.closed = characters sig.render +
        characters (p.edges ++ (TokenStream.ofText s).tail) + characters p.closing ∧
      (characters sig.render = characters (Text.dropContinuations s) ↔ p.closing = p.closed ∧
        characters (p.edges ++ (TokenStream.ofText s).tail) =
          Multiset.replicate (Text.continuations s) '\\') := by
  obtain ⟨q, hq, hsig⟩ := (parse_eq_signature_iff hcode).1 h
  refine ⟨⟨q, hq⟩, fun p hp => ?_⟩
  obtain rfl : sig = p.signature (Text.indentation s) :=
    Option.some.inj (h.symm.trans ((parse_eq_signature_iff hcode).2 ⟨p, hp, rfl⟩))
  have hall := hp.characters_render (Text.isIndent_indentation s)
  refine ⟨hall, ?_⟩
  have hsource := Text.characters_dropContinuations s
  generalize characters (p.edges ++ (TokenStream.ofText s).tail) = lost at hall ⊢
  generalize characters (p.signature (Text.indentation s)).render = kept at hall ⊢
  generalize characters (Text.dropContinuations s) = expected at hsource ⊢
  rw [hsource] at hall
  constructor
  · rintro rfl
    have hcancel : Multiset.replicate (Text.continuations s) '\\' + characters p.closed =
        lost + characters p.closing := by
      refine add_left_cancel (a := kept) ?_
      rw [← add_assoc, ← add_assoc, ← hall]
      abel
    have hclosing := hp.closing_eq_of_characters hcancel
    rw [hclosing] at hcancel
    exact ⟨hclosing, (add_right_cancel hcancel).symm⟩
  · rintro ⟨hclosing, hlost⟩
    rw [hclosing, hlost] at hall
    exact (add_left_cancel ((add_right_cancel hall).trans (add_comm _ _))).symm

/-- Characters without a token inside an argument are rendered, and a line continuation between two
arguments is not. -/
theorem render_lossless_continuation :
    let s := "field(:a, \\\n b: [1, `é`] ) do |i|".toList
    ∃ sig, parse s = some sig ∧ (∀ t ∈ tokenize s, t.kind ≠ .comment) ∧
      sig.render = "field(:a, b: [1, `é`]) do |i|".toList ∧
      ∃ p : Parts, p.Cuts (tokenize s) ∧ p.closing = p.closed ∧
        characters (p.edges ++ (TokenStream.ofText s).tail) = {'\\'} := by
  intro s
  obtain ⟨sig, hsig, hrender⟩ : ∃ sig, parse s = some sig ∧
      sig.render = "field(:a, b: [1, `é`]) do |i|".toList :=
    ⟨(parse s).get (by decide +kernel), by rw [Option.some_get], by decide +kernel⟩
  have hcode : ∀ t ∈ tokenize s, t.kind ≠ .comment := by decide +kernel
  have hkept : characters sig.render = characters (Text.dropContinuations s) := by
    rw [hrender]
    decide +kernel
  obtain ⟨⟨p, hp⟩, hall⟩ := render_lossless_iff hsig hcode
  exact ⟨sig, hsig, hcode, hrender, p, hp, (hall p hp).2.1 hkept⟩

/-- At the edge of an argument they are lost. -/
theorem render_loses_letter :
    let s := "field :café".toList
    ∃ sig, parse s = some sig ∧ (∀ t ∈ tokenize s, t.kind ≠ .comment) ∧
      sig.render = "field :caf".toList ∧
      characters sig.render ≠ characters (Text.dropContinuations s) := by
  intro s
  obtain ⟨sig, hsig, hrender⟩ : ∃ sig, parse s = some sig ∧ sig.render = "field :caf".toList :=
    ⟨(parse s).get (by decide +kernel), by rw [Option.some_get], by decide +kernel⟩
  refine ⟨sig, hsig, by decide +kernel, hrender, ?_⟩
  rw [hrender]
  decide +kernel

end Signature

end SchemaLift
