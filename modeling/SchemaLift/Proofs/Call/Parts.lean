import SchemaLift.Call.Signature
import SchemaLift.Proofs.Token.Items
import SchemaLift.Proofs.Token.Stream

/-!
# The parts of a call

A call that is read as a signature consists of its keyword, parentheses if there are any, the items
between the commas of its arguments, and the `do` of a block. `Parts.Cuts` says which tokens have which
parts, and the signature is read off them (`parse_eq_signature_iff`).
-/

namespace SchemaLift

namespace Signature

/-! ## The block -/

/-- `do`, alone or with parameters between pipes. -/
inductive IsBlock : List Token → Prop
  | plain {opener : Token} (hopener : opener.kind = .doWord) : IsBlock [opener]
  | parameters {opener pipe last : Token} {inside : List Token} (hopener : opener.kind = .doWord)
      (hpipe : pipe.kind = .pipe) (hinside : ∀ t ∈ inside, t.kind ≠ .pipe) (hlast : last.kind = .pipe) :
      IsBlock (opener :: pipe :: (inside ++ [last]))

/-- No block stands at the end. -/
def NoBlock (ts : List Token) : Prop := ∀ call block, IsBlock block → ts ≠ call ++ block

theorem IsBlock.exists_last {block : List Token} (h : IsBlock block) : ∃ before last,
    block = before ++ [last] ∧ (last.kind = .doWord ∨ last.kind = .pipe) := by
  cases h with
  | @plain opener hopener => exact ⟨[], opener, rfl, .inl hopener⟩
  | @parameters opener pipe last inside _ _ _ hlast =>
    exact ⟨opener :: pipe :: inside, last, by simp, .inr hlast⟩

theorem IsBlock.ne_nil {block : List Token} (h : IsBlock block) : block ≠ [] := by
  cases h <;> exact List.cons_ne_nil _ _

theorem IsBlock.congr {block block' : List Token} (h : IsBlock block)
    (hkinds : block.map Token.kind = block'.map Token.kind) : IsBlock block' := by
  cases h with
  | plain hopener =>
    obtain ⟨opener', rest, rfl, hkind, hrest⟩ := List.map_eq_cons_iff.1 hkinds.symm
    obtain rfl := List.map_eq_nil_iff.1 hrest
    exact .plain (hkind.trans hopener)
  | parameters hopener hpipe hinside hlast =>
    obtain ⟨opener', rest, rfl, hkind, hrest⟩ := List.map_eq_cons_iff.1 hkinds.symm
    obtain ⟨pipe', rest, rfl, hkind', hrest⟩ := List.map_eq_cons_iff.1 hrest
    rw [List.map_append] at hrest
    obtain ⟨inside', last', rfl, hinside', hlast'⟩ := List.map_eq_append_iff.1 hrest
    obtain ⟨last', rest, rfl, hkind'', hrest⟩ := List.map_eq_cons_iff.1 hlast'
    obtain rfl := List.map_eq_nil_iff.1 hrest
    refine .parameters (hkind.trans hopener) (hkind'.trans hpipe) (fun t ht hk => ?_)
      (hkind''.trans hlast)
    obtain ⟨u, hu, hsame⟩ := List.mem_map.1 (hinside' ▸ List.mem_map_of_mem ht)
    exact hinside u hu (hsame.trans hk)

theorem NoBlock.congr {ts us : List Token} (h : NoBlock ts)
    (hkinds : ts.map Token.kind = us.map Token.kind) : NoBlock us := by
  rintro call block hblock rfl
  rw [List.map_append] at hkinds
  obtain ⟨call', block', rfl, -, hsame⟩ := List.map_eq_append_iff.1 hkinds
  exact h call' block' (hblock.congr hsame.symm) rfl

theorem noBlock_of_last (ts : List Token) {last : Token} (hdo : last.kind ≠ .doWord)
    (hpipe : last.kind ≠ .pipe) : NoBlock (ts ++ [last]) := by
  intro call block hblock heq
  obtain ⟨before, last', rfl, hlast⟩ := hblock.exists_last
  rw [← List.append_assoc] at heq
  obtain rfl : last = last' := List.singleton_injective (List.append_inj' heq rfl).2
  exact hlast.elim hdo hpipe

theorem splitBlock_append (call : List Token) {block : List Token} (h : IsBlock block) :
    splitBlock (call ++ block) = (call, some (Token.spelling block)) := by
  cases h with
  | @plain opener hopener =>
    have hpipe : opener.kind ≠ .pipe := by rw [hopener]; exact TokenKind.noConfusion
    have hreverse : (call ++ [opener]).reverse = opener :: call.reverse := by simp
    unfold splitBlock
    simp only [hreverse, if_neg hpipe, if_pos hopener, List.reverse_reverse]
  | @parameters opener pipe last inside hopener hpipe hinside hlast =>
    have hreverse : (call ++ opener :: pipe :: (inside ++ [last])).reverse =
        last :: (inside.reverse ++ pipe :: opener :: call.reverse) := by simp
    have htake : (inside.reverse ++ pipe :: opener :: call.reverse).takeWhile (!·.is .pipe) =
        inside.reverse := by
      rw [List.takeWhile_append_of_pos, List.takeWhile_cons_of_neg, List.append_nil]
      · simp [Token.is, hpipe]
      · intro t ht
        simpa [Token.is] using hinside t (List.mem_reverse.1 ht)
    unfold splitBlock
    simp only [hreverse, hlast, htake, List.drop_left, hopener, ↓reduceIte, List.reverse_reverse]

theorem splitBlock_cases (ts : List Token) :
    (∃ call block, IsBlock block ∧ ts = call ++ block) ∨ splitBlock ts = (ts, none) := by
  unfold splitBlock
  extract_lets cut
  -- what is cut off is a block, if what follows the opener makes it one
  have hcut : ∀ rest block, ts = rest.reverse ++ block →
      (∀ opener : Token, opener.kind = .doWord → IsBlock (opener :: block)) →
        (∃ call block, IsBlock block ∧ ts = call ++ block) ∨ cut rest block = (ts, none) := by
    intro rest block hts hblock
    cases rest with
    | nil => exact .inr rfl
    | cons opener call =>
      simp only [cut]
      split
      · rename_i hopener
        refine .inl ⟨call.reverse, opener :: block, hblock opener hopener, ?_⟩
        rw [hts, List.reverse_cons, List.append_assoc, List.singleton_append]
      · exact .inr rfl
  cases hreverse : ts.reverse with
  | nil => exact .inr rfl
  | cons last before =>
    have hts : ts = before.reverse ++ [last] := by
      rw [← List.reverse_reverse ts, hreverse, List.reverse_cons]
    simp only
    split
    · rename_i hlast
      obtain ⟨inside, hinside⟩ : ∃ inside, inside = before.takeWhile (!·.is .pipe) := ⟨_, rfl⟩
      have hbefore : before = inside ++ before.drop inside.length := by
        have htake := List.prefix_iff_eq_take.1 (List.takeWhile_prefix (l := before) (!·.is .pipe))
        rw [← hinside] at htake
        conv_lhs => rw [← List.take_append_drop inside.length before, ← htake]
      rw [← hinside]
      cases hdrop : before.drop inside.length with
      | nil => exact .inr rfl
      | cons pipe rest =>
        rw [hdrop] at hbefore
        have hpipe : pipe.kind = .pipe := by
          have hdropWhile : before.dropWhile (!·.is .pipe) = pipe :: rest := by
            have htakeDrop := List.takeWhile_append_dropWhile (p := (!·.is .pipe)) (l := before)
            rw [← hinside] at htakeDrop
            exact List.append_cancel_left (htakeDrop.trans hbefore)
          have hhead := List.head?_dropWhile_not (!·.is .pipe) before
          rw [hdropWhile] at hhead
          simpa [Token.is] using hhead
        refine hcut rest _ ?_ fun opener hopener => ?_
        · rw [hts, hbefore]
          simp
        · refine .parameters hopener hpipe (fun t ht hk => ?_) hlast
          rw [List.mem_reverse, hinside] at ht
          have hnot := List.mem_takeWhile_imp ht
          simp [Token.is, hk] at hnot
    · refine hcut (last :: before) [] ?_ fun opener hopener => .plain hopener
      rw [List.append_nil, List.reverse_cons, hts]

theorem splitBlock_of_noBlock {ts : List Token} (h : NoBlock ts) : splitBlock ts = (ts, none) := by
  rcases splitBlock_cases ts with ⟨call, block, hblock, hts⟩ | hnone
  · exact absurd hts (h call block hblock)
  · exact hnone

/-! ## The arguments -/

/-- Arguments in parentheses reach to the bracket that ends the call. -/
theorem argumentTokens_parenthesized {opener closer : Token} {arguments commas : List Token}
    {items : List (List Token)} (hopener : opener.kind = .lparen) (hgap : opener.gap = [])
    (hcloser : closer.kind.closesBracket = true) (hitems : Token.Itemized arguments commas items) :
    argumentTokens (opener :: (arguments ++ [closer])) = some (true, arguments) := by
  have hcloses : Token.closeIndex 0 [closer] = some 0 := by
    have hopens : closer.kind.opensBracket = false := by
      cases hk : closer.kind <;> rw [hk] at hcloser <;> first | rfl | cases hcloser
    rw [Token.closeIndex, hopens, if_neg Bool.false_ne_true, if_pos hcloser]
  have hindex : Token.closeIndex 0 (arguments ++ [closer]) =
      some ((arguments ++ [closer]).length - 1) := by
    rw [hitems.closeIndex_append, hcloses]
    simp
  rw [argumentTokens, if_pos ⟨hopener, hgap⟩, if_pos hindex, List.dropLast_concat]

theorem argumentTokens_bare {ts : List Token}
    (h : ∀ t ∈ ts.head?, ¬(t.kind = .lparen ∧ t.gap = [])) : argumentTokens ts = some (false, ts) := by
  cases ts with
  | nil => rfl
  | cons t ts => rw [argumentTokens, if_neg (h t rfl)]

theorem argumentTokens_cases {ts arguments : List Token} {parenthesized : Bool}
    (h : argumentTokens ts = some (parenthesized, arguments)) :
    (parenthesized = false ∧ arguments = ts ∧ ∀ t ∈ ts.head?, ¬(t.kind = .lparen ∧ t.gap = [])) ∨
      (parenthesized = true ∧ ∃ opener closer, opener.kind = .lparen ∧ opener.gap = [] ∧
        closer.kind.closesBracket = true ∧ ts = opener :: (arguments ++ [closer])) := by
  unfold argumentTokens at h
  split at h
  · obtain ⟨rfl, rfl⟩ := Prod.mk.inj (Option.some.inj h)
    exact .inl ⟨rfl, rfl, by rintro t ⟨⟩⟩
  · rename_i t ts
    split at h
    · rename_i hopener
      split at h
      · rename_i hindex
        obtain ⟨rfl, rfl⟩ := Prod.mk.inj (Option.some.inj h)
        obtain ⟨before, closer, after, rfl, hlength, hcloser⟩ := Token.exists_of_closeIndex hindex
        obtain rfl : after = [] := by
          rw [List.length_append, List.length_cons] at hlength
          exact List.length_eq_zero_iff.1 (by omega)
        exact .inr ⟨rfl, t, closer, hopener.1, hopener.2, hcloser, by rw [List.dropLast_concat]⟩
      · cases h
    · rename_i hopener
      obtain ⟨rfl, rfl⟩ := Prod.mk.inj (Option.some.inj h)
      refine .inl ⟨rfl, rfl, fun u hu => ?_⟩
      cases hu
      exact hopener

/-! ## All parts -/

/-- The tokens of a call by what they are in it. -/
structure Parts where
  keyword : Token
  /-- The brackets around the arguments, if they are in parentheses. -/
  parens : Option (Token × Token)
  arguments : List Token
  /-- The commas between the arguments. -/
  commas : List Token
  /-- The items between the commas, empty ones included. -/
  items : List (List Token)
  /-- The `do` with its parameters; no tokens if the call opens no block. -/
  block : List Token

namespace Parts

/-- The call without its block. -/
def call (p : Parts) : List Token :=
  match p.parens with
  | none => p.keyword :: p.arguments
  | some (opener, closer) => p.keyword :: opener :: (p.arguments ++ [closer])

/-- These tokens are a call with these parts. -/
structure Cuts (p : Parts) (ts : List Token) : Prop where
  tokens : ts = p.call ++ p.block
  keyword : p.keyword.kind = .identifier
  parens : match p.parens with
    | none => ∀ t ∈ p.arguments.head?, ¬(t.kind = .lparen ∧ t.gap = [])
    | some (opener, closer) =>
      opener.kind = .lparen ∧ opener.gap = [] ∧ closer.kind.closesBracket = true
  items : Token.Itemized p.arguments p.commas p.items
  block : (p.block = [] ∧ NoBlock p.call) ∨ IsBlock p.block

/-- The arguments, empty ones left out. -/
def argumentList (p : Parts) : List Argument :=
  (p.items.filter (!·.isEmpty)).map Argument.ofTokens

/-- The signature of a call that stands behind `indent`, before its arguments are added. -/
def frame (p : Parts) (indent : Text) : Signature where
  indent := indent
  keyword := p.keyword.text
  name := none
  positional := []
  keywords := []
  parenthesized := p.parens.isSome
  block := if p.block = [] then none else some (Token.spelling p.block)
  comments := []

/-- The signature of a call that stands behind `indent`. -/
def signature (p : Parts) (indent : Text) : Signature :=
  p.argumentList.foldl addArgument (p.frame indent)

theorem Cuts.splitBlock_eq {p : Parts} {ts : List Token} (h : p.Cuts ts) :
    splitBlock ts = (p.call, if p.block = [] then none else some (Token.spelling p.block)) := by
  rw [h.tokens]
  rcases h.block with ⟨hnil, hnone⟩ | hblock
  · rw [hnil, List.append_nil, splitBlock_of_noBlock hnone, if_pos rfl]
  · rw [splitBlock_append _ hblock, if_neg hblock.ne_nil]

theorem Cuts.brackets {p : Parts} {ts : List Token} (h : p.Cuts ts) {opener closer : Token}
    (hparens : p.parens = some (opener, closer)) :
    opener.kind = .lparen ∧ opener.gap = [] ∧ closer.kind.closesBracket = true := by
  have hbrackets := h.parens
  rwa [hparens] at hbrackets

theorem Cuts.argumentTokens_eq {p : Parts} {ts : List Token} (h : p.Cuts ts) :
    argumentTokens p.call.tail = some (p.parens.isSome, p.arguments) := by
  have hparens := h.parens
  unfold call
  split at hparens
  · rename_i hnone
    simp only [hnone, List.tail_cons, Option.isSome_none]
    exact argumentTokens_bare hparens
  · rename_i opener closer hsome
    simp only [hsome, List.tail_cons, Option.isSome_some]
    exact argumentTokens_parenthesized hparens.1 hparens.2.1 hparens.2.2 h.items

theorem head?_call (p : Parts) : p.call.head? = some p.keyword := by
  unfold call
  split <;> rfl

theorem arguments_isInfix (p : Parts) : p.arguments <:+: p.call := by
  unfold call
  split
  · exact (List.suffix_cons _ _).isInfix
  · rename_i opener closer _
    exact ⟨[p.keyword, opener], [closer], by simp⟩

end Parts

/-- The items between the commas of the arguments of a call, empty ones included. -/
def argumentItems (s : Text) : Option (List (List Token)) := do
  let (_, arguments) ← argumentTokens (splitBlock (tokenize s)).1.tail
  Token.segments 0 arguments

theorem Parts.Cuts.argumentItems_eq {p : Parts} {s : Text} (h : p.Cuts (tokenize s)) :
    argumentItems s = some p.items := by
  unfold argumentItems
  rw [h.splitBlock_eq, Option.bind_eq_bind, h.argumentTokens_eq, Option.bind_some]
  exact Token.segments_eq_some_iff.2 ⟨_, h.items⟩

/-- A text is read as a signature just if its code has the parts of a call; all its comments are
comments of the call. -/
theorem parse_eq_some_iff_cuts {s : Text} {sig : Signature} : parse s = some sig ↔
    ∃ p : Parts, p.Cuts (tokenizeCode s) ∧ sig = p.argumentList.foldl addArgument
      { p.frame (Text.indentation s) with
        comments := ((tokenize s).filter (·.is .comment)).map Token.text } := by
  have hcode : Token.dropComments [] (tokenize s) = tokenizeCode s := rfl
  unfold parse
  simp only [hcode, Option.bind_eq_bind]
  constructor
  · intro h
    obtain ⟨keyword, hhead, h⟩ := Option.bind_eq_some_iff.1 h
    split at h
    · cases h
    rename_i hkeyword
    obtain ⟨⟨parenthesized, arguments⟩, harguments, h⟩ := Option.bind_eq_some_iff.1 h
    obtain ⟨split, hsplit, h⟩ := Option.bind_eq_some_iff.1 h
    obtain ⟨items, hitems, rfl⟩ := Option.map_eq_some_iff.1 hsplit
    obtain rfl := Option.some.inj h
    -- the block, and what is in front of it
    obtain ⟨call, block, htokens, hblock, hsplitBlock⟩ : ∃ call block,
        tokenizeCode s = call ++ block ∧ ((block = [] ∧ NoBlock call) ∨ IsBlock block) ∧
        splitBlock (tokenizeCode s) =
          (call, if block = [] then none else some (Token.spelling block)) := by
      rcases splitBlock_cases (tokenizeCode s) with ⟨call, block, hblock, hts⟩ | hnone
      · refine ⟨call, block, hts, .inr hblock, ?_⟩
        rw [hts, splitBlock_append call hblock, if_neg hblock.ne_nil]
      · refine ⟨tokenizeCode s, [], (List.append_nil _).symm,
          .inl ⟨rfl, fun call block hblock hts => ?_⟩, hnone⟩
        rw [hts, splitBlock_append call hblock] at hnone
        exact Option.some_ne_none _ (congrArg Prod.snd hnone)
    rw [hsplitBlock] at hhead harguments
    obtain ⟨rest, rfl⟩ := List.head?_eq_some_iff.1 hhead
    have hkind : keyword.kind = .identifier := not_not.1 hkeyword
    obtain ⟨commas, hitemized⟩ := Token.segments_eq_some_iff.1 hitems
    rcases argumentTokens_cases harguments with
      ⟨rfl, rfl, hbare⟩ | ⟨rfl, opener, closer, hopener, hgap, hcloser, hrest⟩
    · refine ⟨⟨keyword, none, _, commas, items, block⟩, ⟨htokens, hkind, hbare, hitemized, hblock⟩, ?_⟩
      rw [hsplitBlock]
      rfl
    · obtain rfl : rest = opener :: (arguments ++ [closer]) := hrest
      refine ⟨⟨keyword, some (opener, closer), arguments, commas, items, block⟩,
        ⟨htokens, hkind, ⟨hopener, hgap, hcloser⟩, hitemized, hblock⟩, ?_⟩
      rw [hsplitBlock]
      rfl
  · rintro ⟨p, hp, rfl⟩
    have hsplit : Token.splitTopLevel p.arguments = some (p.items.filter (!·.isEmpty)) := by
      rw [Token.splitTopLevel, Token.segments_eq_some_iff.2 ⟨_, hp.items⟩, Option.map_some]
    simp only [hp.splitBlock_eq, p.head?_call, hp.keyword, hp.argumentTokens_eq, hsplit,
      Option.bind_some, ne_eq, not_true_eq_false, ↓reduceIte]
    rfl

/-- A text without comments is read as a signature just if its tokens have the parts of a call. -/
theorem parse_eq_signature_iff {s : Text} {sig : Signature}
    (hcode : ∀ t ∈ tokenize s, t.kind ≠ .comment) : parse s = some sig ↔
      ∃ p : Parts, p.Cuts (tokenize s) ∧ sig = p.signature (Text.indentation s) := by
  have hcomments : (tokenize s).filter (·.is .comment) = [] := by
    rw [List.filter_eq_nil_iff]
    intro t ht
    simpa [Token.is] using hcode t ht
  have hdrop : tokenizeCode s = tokenize s := Token.dropComments_eq_self hcode
  rw [parse_eq_some_iff_cuts, hdrop, hcomments]
  rfl

end Signature

end SchemaLift
